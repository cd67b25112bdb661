import GatedRules.Proofs.Conditions
import GatedRules.Proofs.Once
import GatedRules.Proofs.Relocation
import GatedRules.Proofs.Settled

/-!
# Reordered graphs

The position of a slot in its graph is its ordinal, and a condition of a gate remembers the ordinal
of its slot. Neither is ever looked at by an evaluation: conditions and definitions are looked up by
name, and what a site depends on is a set of names that follows from what every single name depends
on. So two graphs of one root that know the same under every name, and have the same sites, all up
to the ordinals in gates, cannot be told apart by evaluating names (`Graph.Reorders`).

In scopes of such graphs every evaluation is the same step: from every stack and every world it has
the same result and leaves the same world behind (`EvalM.orderless_answer`). The induction is on the
budget. A site leads both evaluations to one and the same graph, so the scopes that they enter are
again made of graphs that cannot be told apart.
-/

namespace GatedRules

/-! ### Without ordinals -/

/-- A condition without the ordinal of its slot. -/
def Condition.unnumbered (c : Condition) : Condition :=
  { c with ordinal := none }

/-- A gate without ordinals. -/
def Gate.unnumbered (g : Gate) : Gate :=
  ⟨g.conditions.map Condition.unnumbered⟩

/-- A definition without ordinals. -/
def Definition.unnumbered (d : Definition) : Definition :=
  { d with gate := d.gate.unnumbered }

/-- The definitions of a slot without ordinals. -/
def Definitions.unnumbered : Definitions → Definitions
  | primary d => primary d.unnumbered
  | fallback d => fallback d.unnumbered
  | both d e => both d.unnumbered e.unnumbered

/-- A slot without ordinals. -/
def Slot.unnumbered (s : Slot) : Slot :=
  { s with definitions := s.definitions.unnumbered }

/-- A site without ordinals. -/
def Site.unnumbered (s : Site) : Site :=
  { s with gate := s.gate.unnumbered }

/-- The names of a gate have nothing to do with ordinals. -/
@[simp]
theorem Gate.names_unnumbered (g : Gate) : g.unnumbered.names = g.names := by
  simp [unnumbered, names, Condition.unnumbered]

@[simp]
theorem Definition.allDependencies_unnumbered (d : Definition) :
    d.unnumbered.allDependencies = d.allDependencies := by
  simp [unnumbered, allDependencies, dependencies, Gate.dependencies]

@[simp]
theorem Slot.dependencies_unnumbered (s : Slot) : s.unnumbered.dependencies = s.dependencies := by
  obtain ⟨kind, d | d | ⟨d, e⟩⟩ := s <;>
    simp [unnumbered, Definitions.unnumbered, dependencies, Definitions.toList]

@[simp]
theorem Slot.definition?_unnumbered (s : Slot) (rank : Rank) :
    s.unnumbered.definition? rank = (s.definition? rank).map Definition.unnumbered := by
  obtain ⟨kind, d | d | ⟨d, e⟩⟩ := s <;> cases rank <;> rfl

@[simp]
theorem Site.dependencies_unnumbered (s : Site) : s.unnumbered.dependencies = s.dependencies := by
  simp [unnumbered, dependencies, Gate.dependencies]

/-! ### Graphs that know the same -/

/-- Two graphs of one root know the same under every name and have the same sites, up to ordinals.
The order of their slots may differ. -/
structure Graph.Reorders (g g' : Graph) : Prop where
  /-- They have the same root. -/
  root : g'.root = g.root
  /-- They know the same under every name. -/
  slot : ∀ n, (g'.slot? n).map Slot.unnumbered = (g.slot? n).map Slot.unnumbered
  /-- They have the same sites. -/
  sites : g'.sites.map Site.unnumbered = g.sites.map Site.unnumbered

namespace Dependency

/-- What pending names add depends only on what every name depends on. -/
theorem close_congr {slots slots' : Table String Slot}
    (h : ∀ n, successors slots' n = successors slots n) (pending seen : List String) :
    close slots' pending seen = close slots pending seen := by
  induction pending, seen using close.induct slots with
  | case1 seen => rw [close, close]
  | case2 name pending seen hseen ih => rw [close, close, if_pos hseen, if_pos hseen, ih]
  | case3 name pending seen hseen hslot ih =>
    have hnone : successors slots name = [] := by rw [successors, hslot]; rfl
    rw [close_of_not_seen hseen, close_of_not_seen hseen, h, hnone, List.nil_append, ih]
  | case4 name pending seen hseen slot hslot ih =>
    have hsome : successors slots name = slot.dependencies := by rw [successors, hslot]; rfl
    rw [close_of_not_seen hseen, close_of_not_seen hseen, h, hsome, ih]

end Dependency

namespace Graph.Reorders

variable {g g' : Graph}

theorem refl (g : Graph) : g.Reorders g :=
  ⟨rfl, fun _ => rfl, rfl⟩

/-- Every name depends on the same names. -/
theorem successors (h : g.Reorders g') (n : String) :
    Dependency.successors g'.slots n = Dependency.successors g.slots n := by
  have hdependencies : ∀ s : Option Slot,
      s.map Slot.dependencies = (s.map Slot.unnumbered).map Slot.dependencies := by
    rintro (_ | s)
    · rfl
    · simp
  have hslot : (g'.slots.get? n).map Slot.unnumbered = (g.slots.get? n).map Slot.unnumbered :=
    h.slot n
  rw [Dependency.successors, Dependency.successors, hdependencies, hslot, ← hdependencies]

/-- Sites depend on the same names. -/
theorem bound (h : g.Reorders g') : g'.bound = g.bound := by
  have hdependencies : ∀ sites : List Site, sites.flatMap Site.dependencies =
      (sites.map Site.unnumbered).flatMap Site.dependencies := by
    intro sites
    simp [List.flatMap_map]
  rw [g.bound_eq, g'.bound_eq, Dependency.boundNames, Dependency.boundNames, hdependencies,
    h.sites, ← hdependencies, Dependency.close_congr h.successors]

/-- Two graphs know the same under every name if they do under the names of their slots. -/
theorem of_names (hroot : g'.root = g.root)
    (hslot : ∀ n ∈ g.names ++ g'.names,
      (g'.slot? n).map Slot.unnumbered = (g.slot? n).map Slot.unnumbered)
    (hsites : g'.sites.map Site.unnumbered = g.sites.map Site.unnumbered) : g.Reorders g' := by
  refine ⟨hroot, fun n => ?_, hsites⟩
  by_cases hn : n ∈ g.names ++ g'.names
  · exact hslot n hn
  · rw [List.mem_append, not_or] at hn
    rw [slot?, slot?, Table.get?_eq_none_iff.2 hn.1, Table.get?_eq_none_iff.2 hn.2]

end Graph.Reorders

/-- Scopes are made of graphs that know the same. -/
structure Scope.Reorders (s s' : Scope) : Prop where
  /-- The graphs know the same. -/
  graph : s.graph.Reorders s'.graph
  /-- So do the graphs around. -/
  around : List.Forall₂ Graph.Reorders s.around s'.around

namespace Scope.Reorders

variable {s s' : Scope}

/-- A site leads to the same graph from both scopes. -/
theorem child (h : s.Reorders s') (g : Graph) : (s.child g).Reorders (s'.child g) :=
  ⟨.refl g, .cons h.graph h.around⟩

theorem text (h : s.Reorders s') : s'.text = s.text := by
  have hroots : s'.around.map Graph.root = s.around.map Graph.root := by
    have haround := h.around
    generalize s.around = around, s'.around = around' at haround
    induction haround with
    | nil => rfl
    | cons hg _ ih => exact congrArg₂ List.cons hg.root ih
  rw [Scope.text, Scope.text, paths, paths, List.map_cons, List.map_cons, h.graph.root, hroots]

theorem definition? (h : s.Reorders s') (name : String) (rank : Rank) :
    (s'.definition? name rank).map Definition.unnumbered =
      (s.definition? name rank).map Definition.unnumbered := by
  have hdefinition : ∀ slot : Option Slot,
      (slot.bind fun slot => slot.definition? rank).map Definition.unnumbered =
        (slot.map Slot.unnumbered).bind fun slot => slot.definition? rank := by
    rintro (_ | slot)
    · rfl
    · simp
  rw [Scope.definition?, Scope.definition?, hdefinition, h.graph.slot, ← hdefinition]

theorem asksSites (h : s.Reorders s') (name : String) : s'.asksSites name = s.asksSites name := by
  have hkind : ∀ slot : Option Slot,
      slot.map Slot.kind = (slot.map Slot.unnumbered).map Slot.kind := by
    rintro (_ | slot) <;> rfl
  rw [Scope.asksSites, Scope.asksSites, hkind, h.graph.slot, ← hkind, Graph.bindsSites,
    Graph.bindsSites, h.graph.bound]

end Scope.Reorders

/-! ### Evaluations -/

namespace EvalM

/-- Answers do not depend on the order of slots, nor on ordinals. -/
structure Orderless (answer : (goal : Goal) → EvalM goal.Answer) : Prop where
  /-- Names have the same value. -/
  name : ∀ {s s' : Scope} (n : String), s.Reorders s' →
    answer (.frame (.name s' n)) = answer (.frame (.name s n))
  /-- Definitions have the same value. -/
  definition : ∀ {s s' : Scope} (n : String) (rank : Rank) {d d' : Definition}, s.Reorders s' →
    d'.expr = d.expr →
    answer (.frame (.definition s' n rank d')) = answer (.frame (.definition s n rank d))
  /-- So have names by their proper definitions or by modules. -/
  primary : ∀ {s s' : Scope} (n : String), s.Reorders s' →
    answer (.primary s' n) = answer (.primary s n)

variable {σ : Setting} {answer : (goal : Goal) → EvalM goal.Answer} {s s' : Scope}

/-- Asking for a name is to have its answer. -/
theorem run_value (s : Scope) (n : String) :
    (Plan.value (.name s n)).run (handler σ) answer = answer (.frame (.name s n)) :=
  bind_pure _

theorem run_primary (s : Scope) (n : String) :
    (Plan.primary s n).run (handler σ) answer = answer (.primary s n) :=
  bind_pure _

/-- Equal steps go on equally. -/
theorem related_handler :
    (handler σ).Related (fun _ => Eq) (fun _ => True) (handler σ) where
  pure _ := rfl
  bind hx hf := by
    rw [hx]
    exact bind_congr hf
  fail _ := rfl
  exhaust := rfl
  perform _ := rfl
  visit htext hx := by rw [hx, visit_congr htext]

/-- Steps whose results come one after the other are the same if each of them is. -/
theorem run_all {xs xs' : List (Plan Value)} (h : List.Forall₂ (fun x x' =>
      x'.run (handler σ) answer = x.run (handler σ) answer) xs xs') :
    (Plan.all xs').run (handler σ) answer = (Plan.all xs).run (handler σ) answer := by
  induction h with
  | nil => rfl
  | cons hx _ ih =>
    rw [Plan.all, Plan.all, run_bind, run_bind, hx]
    refine bind_congr fun v => ?_
    rw [run_bind, run_bind, ih]

namespace Orderless

/-- Conditions are looked up by their names. -/
theorem run_conditionsHold (h : Orderless answer) (hs : s.Reorders s') {cs cs' : List Condition}
    (hc : cs'.map Condition.name = cs.map Condition.name) :
    (s'.conditionsHold cs').run (handler σ) answer =
      (s.conditionsHold cs).run (handler σ) answer := by
  induction cs generalizing cs' with
  | nil =>
    obtain rfl := List.map_eq_nil_iff.1 hc
    rfl
  | cons c cs ih =>
    obtain ⟨c', cs', rfl, hname, hnames⟩ := List.map_eq_cons_iff.1 hc
    rw [Scope.conditionsHold, Scope.conditionsHold, run_bind, run_bind, run_value, run_value,
      hname, h.name c.name hs]
    refine bind_congr fun v => ?_
    split
    · exact ih hnames
    · rfl

theorem run_gateHolds (h : Orderless answer) (hs : s.Reorders s') {gate gate' : Gate}
    (hg : gate'.unnumbered = gate.unnumbered) :
    (s'.gateHolds gate').run (handler σ) answer = (s.gateHolds gate).run (handler σ) answer := by
  have hnames : gate'.names = gate.names := by
    rw [← gate'.names_unnumbered, hg, gate.names_unnumbered]
  exact h.run_conditionsHold hs hnames

theorem run_fromDefinition (h : Orderless answer) (hs : s.Reorders s') (n : String) (rank : Rank)
    {d d' : Definition} (hd : d'.unnumbered = d.unnumbered) :
    (s'.fromDefinition n rank d').run (handler σ) answer =
      (s.fromDefinition n rank d).run (handler σ) answer := by
  have hexpr : d'.expr = d.expr := (congrArg Definition.expr hd :)
  have hgate : d'.gate.unnumbered = d.gate.unnumbered := (congrArg Definition.gate hd :)
  rw [Scope.fromDefinition, Scope.fromDefinition, run_bind, run_bind, h.run_gateHolds hs hgate]
  refine bind_congr fun holds => ?_
  split
  · exact congrArg (· >>= _) (h.definition n rank hs hexpr)
  · rw [hexpr]

theorem run_fromRank (h : Orderless answer) (hs : s.Reorders s') (n : String) (rank : Rank) :
    (s'.fromRank n rank).run (handler σ) answer = (s.fromRank n rank).run (handler σ) answer := by
  have hdefinition := hs.definition? n rank
  unfold Scope.fromRank
  cases hd : s.definition? n rank with
  | none =>
    rw [hd, Option.map_none, Option.map_eq_none_iff] at hdefinition
    rw [hdefinition]
  | some d =>
    rw [hd, Option.map_some, Option.map_eq_some_iff] at hdefinition
    obtain ⟨d', hd', hsame⟩ := hdefinition
    rw [hd']
    exact h.run_fromDefinition hs n rank hsame

/-- A site is gone through for the same graph, with which the evaluation goes on in both scopes. -/
theorem run_enterSite (h : Orderless answer) (hs : s.Reorders s') {site site' : Site}
    (hsite : site'.unnumbered = site.unnumbered) {α : Type} {next next' : Option Scope → Plan α}
    (hnone : (next' none).run (handler σ) answer = (next none).run (handler σ) answer)
    (hchild : ∀ g, (next' (some (s'.child g))).run (handler σ) answer =
      (next (some (s.child g))).run (handler σ) answer) :
    (s'.enterSite site' >>= next').run (handler σ) answer =
      (s.enterSite site >>= next).run (handler σ) answer := by
  have hgate : site'.gate.unnumbered = site.gate.unnumbered := (congrArg Site.gate hsite :)
  have htemplate : site'.template = site.template := (congrArg Site.template hsite :)
  have hrender : ∀ bound, Engine.render site' bound = Engine.render site bound := by
    intro bound
    rw [Engine.render, Engine.render, htemplate]
  have hvalues : (Plan.all (site'.template.inputs.map fun n => .value (.name s' n))).run
      (handler σ) answer =
      (Plan.all (site.template.inputs.map fun n => .value (.name s n))).run (handler σ) answer := by
    rw [htemplate]
    refine run_all (List.forall₂_map_left_iff.2 (List.forall₂_map_right_iff.2 ?_))
    refine List.forall₂_same.2 fun n _ => ?_
    rw [run_value, run_value, h.name n hs]
  rw [run_bind, run_bind, Scope.enterSite, Scope.enterSite, run_bind, run_bind,
    h.run_gateHolds hs hgate, bind_assoc, bind_assoc]
  refine bind_congr fun holds => ?_
  split
  · rw [run_bind, run_bind, hvalues, bind_assoc, bind_assoc]
    refine bind_congr fun values => ?_
    rw [hrender, htemplate]
    split
    · exact hnone
    · rw [run_bind, run_bind, bind_assoc, bind_assoc]
      refine bind_congr fun outcome => ?_
      cases outcome with
      | resolved g => exact hchild g
      | absent path => exact hnone
  · exact hnone

theorem run_fromSites (h : Orderless answer) (hs : s.Reorders s') (n : String)
    {sites sites' : List Site}
    (hsites : sites'.map Site.unnumbered = sites.map Site.unnumbered) :
    (s'.fromSites n sites').run (handler σ) answer =
      (s.fromSites n sites).run (handler σ) answer := by
  induction sites generalizing sites' with
  | nil =>
    obtain rfl := List.map_eq_nil_iff.1 hsites
    rfl
  | cons site sites ih =>
    obtain ⟨site', sites', rfl, hsite, hrest⟩ := List.map_eq_cons_iff.1 hsites
    rw [Scope.fromSites, Scope.fromSites]
    refine h.run_enterSite hs hsite (ih hrest) fun g => ?_
    dsimp only
    rw [run_bind, run_bind, run_primary, run_primary, h.primary n (hs.child g)]
    refine bind_congr fun v? => ?_
    cases v? with
    | none => exact ih hrest
    | some v => rfl

theorem run_fromPrimary (h : Orderless answer) (hs : s.Reorders s') (n : String) :
    (s'.fromPrimary n).run (handler σ) answer = (s.fromPrimary n).run (handler σ) answer := by
  rw [Scope.fromPrimary, Scope.fromPrimary, run_bind, run_bind, h.run_fromRank hs]
  refine bind_congr fun v? => ?_
  cases v? with
  | some v => rfl
  | none =>
    dsimp only
    rw [hs.asksSites]
    split
    · exact h.run_fromSites hs n hs.graph.sites
    · rfl

theorem run_settle (h : Orderless answer) (hs : s.Reorders s') (n : String) :
    (s'.settle n).run (handler σ) answer = (s.settle n).run (handler σ) answer := by
  rw [Scope.settle, Scope.settle, run_bind, run_bind, run_primary, run_primary, h.primary n hs]
  refine bind_congr fun v? => ?_
  cases v? with
  | some v => rfl
  | none =>
    dsimp only
    rw [run_bind, run_bind, h.run_fromRank hs]
    refine bind_congr fun v? => ?_
    cases v? with
    | some v => rfl
    | none =>
      obtain ⟨g, around⟩ := s
      obtain ⟨g', around'⟩ := s'
      cases hs.around with
      | nil => rfl
      | @cons outer outer' outers outers' hg haround =>
        have houter : Scope.Reorders ⟨outer, outers⟩ ⟨outer', outers'⟩ := ⟨hg, haround⟩
        dsimp only
        rw [run_value, run_value, h.name n houter]

/-- Expressions depend on scopes only through names. -/
theorem run_eval (h : Orderless answer) (hs : s.Reorders s') (slot : String) (e : Expr) :
    (e.eval s' slot).run (handler σ) answer = (e.eval s slot).run (handler σ) answer := by
  have hscopes : (Likeness.ofScopes s s').scopes s s' := ⟨rfl, rfl⟩
  have hmirrors : (e.eval s slot).Mirrors (.ofScopes s s') (e.eval s' slot) :=
    Expr.eval_mirrors hscopes trivial (fun _ => trivial) e fun n _ => ⟨n, rfl⟩
  have hanswers : (Likeness.ofScopes s s').Answers (fun _ => Eq) answer answer := by
    refine ⟨fun {_ _ n} hss _ => ?_, fun _ hask => ?_, fun _ hask => ?_⟩
    · obtain ⟨rfl, rfl⟩ := hss
      exact (h.name n hs).symm
    · obtain ⟨n, hn⟩ := hask
      cases hn
    · obtain ⟨n, hn⟩ := hask
      cases hn
  exact (hmirrors.run related_handler hanswers).symm

end Orderless

/-- Every evaluation is the same step in scopes whose graphs know the same. -/
theorem orderless_answer (k : Nat) : Orderless ((handler σ).answer k) := by
  induction k with
  | zero => exact ⟨fun _ _ => rfl, fun _ _ _ _ _ _ => rfl, fun _ _ => rfl⟩
  | succ k ih =>
    refine ⟨fun {s s'} n hs => ?_, fun {s s'} n rank {d d'} hs hd => ?_, fun {s s'} n hs => ?_⟩
    · have htext : (Frame.name s' n).text = (Frame.name s n).text := by
        simp only [Frame.text, Scope.frame, hs.text]
      exact (visit_congr htext σ σ _).trans
        (congrArg ((handler σ).visit (.name s n)) (ih.run_settle hs n))
    · have htext : (Frame.definition s' n rank d').text = (Frame.definition s n rank d).text := by
        simp only [Frame.text, Scope.definitionFrame, Scope.frame, hs.text]
      have hplan : (d'.expr.eval s' n).run (handler σ) ((handler σ).answer k) =
          (d.expr.eval s n).run (handler σ) ((handler σ).answer k) := by
        rw [hd, ih.run_eval hs]
      exact (visit_congr htext σ σ _).trans
        (congrArg ((handler σ).visit (.definition s n rank d)) hplan)
    · exact ih.run_fromPrimary hs n

end EvalM

/-! ### Executions -/

/-- Graphs that know the same are recognized by what they know under the names of their slots. -/
instance (g g' : Graph) : Decidable (g.Reorders g') :=
  decidable_of_iff
    (g'.root = g.root ∧
      (∀ n ∈ g.names ++ g'.names,
        (g'.slot? n).map Slot.unnumbered = (g.slot? n).map Slot.unnumbered) ∧
      g'.sites.map Site.unnumbered = g.sites.map Site.unnumbered)
    ⟨fun ⟨hroot, hslot, hsites⟩ => .of_names hroot hslot hsites,
      fun h => ⟨h.root, fun n _ => h.slot n, h.sites⟩⟩

/-- A request is the same step for both graphs. -/
theorem Execution.step_reorders {x : Execution} {g : Graph} (h : x.graph.Reorders g) (e : Engine)
    (r : Request) :
    let y := { x with graph := g }
    y.step EvalM.handler (y.world e) r = x.step EvalM.handler (x.world e) r := by
  have hentry : (Scope.entry x.graph).Reorders (.entry g) := ⟨h, .nil⟩
  have hanswer : { x with graph := g }.evaluation (EvalM.handler (x.setting r.loader)) r.budget
      r.name = x.evaluation (EvalM.handler (x.setting r.loader)) r.budget r.name :=
    (EvalM.orderless_answer r.budget).name r.name hentry
  exact congrArg (fun y : EvalM Value => y.exec [] (x.world e)) hanswer

/-- **The order of slots makes no difference.** Let another graph have the root of an execution's
graph, know the same under every name, and have the same sites, where ordinals in gates do not
count. From whatever the execution has computed and the engine has come to, any series of requests
has the same answers with either graph, values and errors alike. It leaves the same values in the
cells and the same engine behind: the store with all calls that were made, in their order, and what
became of module paths. -/
theorem slot_order_makes_no_difference {x : Execution} {g : Graph} (h : x.graph.Reorders g)
    (e : Engine) (turns : List Turn) :
    let out := x.take e turns
    { x with graph := g }.take e turns = (out.1, { out.2.1 with graph := g }, out.2.2) := by
  induction turns generalizing x e with
  | nil => rfl
  | cons turn turns ih =>
    cases turn with
    | change f => exact ih h (f e)
    | request r =>
      let out := x.step EvalM.handler (x.world e) r
      let rest := (x.resume out.2).take out.2.engine turns
      have hrest : ({ x with graph := g }.resume out.2).take out.2.engine turns =
          (rest.1, { rest.2.1 with graph := g }, rest.2.2) := ih (x := x.resume out.2) h _
      rw [Execution.take_request, Execution.take_request, Execution.step_reorders h]
      dsimp only
      rw [hrest]

/-- The condition of an include is the first slot. -/
def guardFirst : Loader :=
  (Bundle.ofList [
    ("main", "LET Open := Size > 10; LET Note := \"n\" DEFAULT; INCLUDE \"more\" WHERE Open;"),
    ("more", "LET Hits := count(BY Note); INCLUDE \"extra/${Kind}\";"),
    ("extra/a", "LET Extra := concat(Note, Hits);")]).loader

/-- The condition of the include is the last slot of the module. -/
def guardLast : Loader :=
  (Bundle.ofList [
    ("main", "LET Note := \"n\" DEFAULT; LET Open := Size > 10; INCLUDE \"more\" WHERE Open;"),
    ("more", "LET Hits := count(BY Note); INCLUDE \"extra/${Kind}\";"),
    ("extra/a", "LET Extra := concat(Note, Hits);")]).loader

/-- An execution where the condition of the include holds. -/
def guarded (g : Graph) : Execution × Engine :=
  Execution.start .start g (Table.ofList [("Size", .int 12), ("Kind", .string "a")])

/-- The execution is asked for names of all modules. -/
def guardTurns : List Turn :=
  [.request ⟨guardFirst, 20, "Extra"⟩, .request ⟨guardFirst, 20, "Hits"⟩,
    .request ⟨guardFirst, 20, "Open"⟩]

theorem guards_answer_alike : ∃ c d, guardFirst.compile "main" = .ok c ∧
    guardLast.compile "main" = .ok d ∧ c.graph.names ≠ d.graph.names ∧
    c.graph.sites ≠ d.graph.sites ∧ c.graph.Reorders d.graph ∧
    ((guarded c.graph).1.take (guarded c.graph).2 guardTurns).1.map
      (fun answer => answer.toOption.map Value.compact) = [some "\"n1\"", some "1", some "true"] ∧
    ((guarded d.graph).1.take (guarded d.graph).2 guardTurns).1 =
      ((guarded c.graph).1.take (guarded c.graph).2 guardTurns).1 ∧
    ((guarded d.graph).1.take (guarded d.graph).2 guardTurns).2.2 =
      ((guarded c.graph).1.take (guarded c.graph).2 guardTurns).2.2 := by
  have heval : (guardFirst.compile "main").toOption.bind (fun c =>
      (guardLast.compile "main").toOption.map fun d =>
        (decide (c.graph.names ≠ d.graph.names), decide (c.graph.sites ≠ d.graph.sites),
        decide (c.graph.Reorders d.graph),
        ((guarded c.graph).1.take (guarded c.graph).2 guardTurns).1.map
          (fun answer => answer.toOption.map Value.compact))) =
        some (true, true, true, [some "\"n1\"", some "1", some "true"]) := by
    decide +kernel
  obtain ⟨c, hc, heval⟩ := Option.bind_eq_some_iff.1 heval
  obtain ⟨d, hd, heval⟩ := Option.map_eq_some_iff.1 heval
  simp only [Prod.mk.injEq, decide_eq_true_eq] at heval
  obtain ⟨hnames, hsites, hreorders, hanswers⟩ := heval
  have hsame := slot_order_makes_no_difference (x := (guarded c.graph).1) (g := d.graph) hreorders
    (guarded c.graph).2 guardTurns
  exact ⟨c, d, eq_ok_of_toOption hc, eq_ok_of_toOption hd, hnames, hsites, hreorders, hanswers,
    congrArg (fun out => out.1) hsame, congrArg (fun out => out.2.2) hsame⟩

end GatedRules
