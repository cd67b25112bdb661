import GatedRules.Proofs.Descent
import GatedRules.Source.Bundle

/-!
# What names mean

In a graph without sites and without cycles, names have a meaning that no evaluation order enters
into. It is stated as an equation for every name (`Graph.meaning`): a name means the value of its
proper definition if the gate of that opens, else the value of its default if the gate of that
opens, else the input that was given for it, or null. The equations have one solution only, since
every name depends on names of lower rank (`Graph.meaning_unique`), and plain evaluations are a
solution (`Setting.named_meaning`).

So executions answer with meanings, whatever they were asked before (`serve_meanings`).
-/

namespace GatedRules

/-! ### Plans whose answers agree -/

namespace Plan

variable {m : Type → Type} [Monad m] {α β : Type} {h : Handler m}
  {answer answer' : (goal : Goal) → m goal.Answer}

/-- A plan has the same result if the answers are the same to everything that it asks for. -/
theorem run_congr {may : Goal → Prop} {Q : Unit → α → Prop} {x : Plan α}
    (hx : x.Follows (.only may fun _ => True) Q ())
    (ha : ∀ goal, may goal → answer goal = answer' goal) : x.run h answer = x.run h answer' := by
  induction x with
  | done a => rfl
  | fail error => rfl
  | perform action next ih =>
    exact bind_congr fun r => ih r (hx.2 () r trivial trivial)
  | ask goal next ih =>
    rw [run, run, ha goal hx.1]
    exact bind_congr fun r => ih r (hx.2 () r trivial trivial)

/-- An expression has the same value if the names that it mentions have. -/
theorem run_eval_congr {e : Expr} {scope : Scope} {slot : String}
    (ha : ∀ n ∈ e.mentions, answer (.frame (.name scope n)) = answer' (.frame (.name scope n))) :
    (e.eval scope slot).run h answer = (e.eval scope slot).run h answer' := by
  have hfollows : (e.eval scope slot).Follows
      (.only (fun goal => ∃ n ∈ e.mentions, goal = .frame (.name scope n)) fun _ => True)
      (fun _ _ => True) () :=
    Expr.eval_follows e ⟨fun n hn => ⟨n, hn, rfl⟩, trivial, fun _ _ => trivial⟩
  refine run_congr hfollows ?_
  rintro goal ⟨n, hn, rfl⟩
  exact ha n hn

end Plan

/-! ### Meanings -/

namespace Graph

variable (g : Graph) (σ : Setting) (den : String → Except Halt Value)

/-- Whether all conditions mean `true`. They are taken in order, up to one that does not. -/
def opens : List Condition → Except Halt Bool
  | [] => .ok true
  | c :: cs => do
    let v ← den c.name
    if v.isTrue then opens cs else return false

/-- How expressions are answered: names have their meanings, and nothing else is asked for. -/
def answers : (goal : Goal) → Except Halt goal.Answer
  | .frame (.name _ n) => den n
  | .frame (.definition _ _ _ _) => .error .exhausted
  | .primary _ _ => .error .exhausted

/-- What a definition gives its name: the value of its expression, if its gate opens. -/
def gives (name : String) : Option Definition → Except Halt (Option Value)
  | none => .ok none
  | some d => do
    if ← opens den d.gate.conditions then
      let v ← (d.expr.eval (.entry g) name).run σ.plain (answers den)
      return some v
    else return none

/-- What a name means, given what names mean. -/
def meaning (name : String) : Except Halt Value := do
  match ← g.gives σ den name ((g.slot? name).bind Slot.primary?) with
  | some v => return v
  | none =>
    match ← g.gives σ den name ((g.slot? name).bind Slot.fallback?) with
    | some v => return v
    | none => return (σ.inputs.get? name).getD .null

variable {g : Graph} {σ : Setting} {den den' : String → Except Halt Value} {rank : String → Nat}

theorem opens_congr {cs : List Condition} (h : ∀ c ∈ cs, den c.name = den' c.name) :
    opens den cs = opens den' cs := by
  induction cs with
  | nil => rfl
  | cons c cs ih =>
    rw [opens, opens, h c (by simp), ih fun d hd => h d (by simp [hd])]

theorem gives_congr {name : String} {d? : Option Definition}
    (h : ∀ d, d? = some d → ∀ n ∈ d.allDependencies, den n = den' n) :
    g.gives σ den name d? = g.gives σ den' name d? := by
  cases d? with
  | none => rfl
  | some d =>
    have hgate : opens den d.gate.conditions = opens den' d.gate.conditions :=
      opens_congr fun c hc => h d rfl _ (Definition.mem_dependencies_of_gate hc)
    have hvalue : (d.expr.eval (.entry g) name).run σ.plain (answers den) =
        (d.expr.eval (.entry g) name).run σ.plain (answers den') :=
      Plan.run_eval_congr fun n hn => h d rfl n (Definition.mem_dependencies_of_mentions hn)
    rw [gives, gives, hgate, hvalue]

/-- The meaning of a name depends only on the names on which the name depends. -/
theorem meaning_congr {name : String}
    (h : ∀ n ∈ Dependency.successors g.slots name, den n = den' n) :
    g.meaning σ den name = g.meaning σ den' name := by
  have hgives : ∀ rank, g.gives σ den name ((Scope.entry g).definition? name rank) =
      g.gives σ den' name ((Scope.entry g).definition? name rank) := fun rank =>
    gives_congr fun d hd n hn =>
      h n ((Scope.defines_of_definition? hd : g.Defines name d).mem_successors hn)
  have hprimary : g.gives σ den name ((g.slot? name).bind Slot.primary?) =
      g.gives σ den' name ((g.slot? name).bind Slot.primary?) := hgives .primary
  have hfallback : g.gives σ den name ((g.slot? name).bind Slot.fallback?) =
      g.gives σ den' name ((g.slot? name).bind Slot.fallback?) := hgives .fallback
  rw [meaning, meaning, hprimary, hfallback]

/-- Names have one meaning only. -/
theorem meaning_unique (hrank : g.Ranked rank) (h : ∀ n, den n = g.meaning σ den n)
    (h' : ∀ n, den' n = g.meaning σ den' n) : den = den' := by
  have hbelow : ∀ k n, rank n < k → den n = den' n := by
    intro k
    induction k with
    | zero => exact fun n hn => absurd hn (Nat.not_lt_zero _)
    | succ k ih =>
      intro n hn
      rw [h, h']
      exact meaning_congr fun m hm =>
        ih m (Nat.lt_of_lt_of_le (hrank n m hm) (Nat.le_of_lt_succ hn))
  exact funext fun n => hbelow _ n (Nat.lt_succ_self _)

end Graph

/-! ### Plain evaluations -/

namespace Setting

variable {σ : Setting} {g : Graph} {rank : String → Nat}
  {answer : (goal : Goal) → Except Halt goal.Answer}

theorem run_plain_bind {α β : Type} (x : Plan α) (f : α → Plan β) :
    (x >>= f).run σ.plain answer = x.run σ.plain answer >>= fun a => (f a).run σ.plain answer := by
  induction x with
  | done a => rfl
  | fail error => rfl
  | perform action next ih => exact (bind_congr ih).trans (bind_assoc _ _ _).symm
  | ask goal next ih => exact (bind_congr ih).trans (bind_assoc _ _ _).symm

theorem run_plain_value (f : Frame) :
    (Plan.value f).run σ.plain answer = answer (.frame f) :=
  bind_pure _

theorem run_plain_primary (scope : Scope) (name : String) :
    (Plan.primary scope name).run σ.plain answer = answer (.primary scope name) :=
  bind_pure _

/-- Answers to the goals about a graph are those that running the plans of the goals finds. -/
structure Answers (σ : Setting) (g : Graph) (answer : (goal : Goal) → Except Halt goal.Answer) :
    Prop where
  /-- The value of a name. -/
  name : ∀ n, answer (.frame (.name (.entry g) n)) =
    ((Scope.entry g).settle n).run σ.plain answer
  /-- The value of a definition. -/
  definition : ∀ {n rank d}, (Scope.entry g).definition? n rank = some d →
    answer (.frame (.definition (.entry g) n rank d)) =
      (d.expr.eval (.entry g) n).run σ.plain answer
  /-- The value from the proper definition. -/
  primary : ∀ n, answer (.primary (.entry g) n) =
    ((Scope.entry g).fromPrimary n).run σ.plain answer

/-- What names mean according to answers. -/
def named (g : Graph) (answer : (goal : Goal) → Except Halt goal.Answer) (n : String) :
    Except Halt Value :=
  answer (.frame (.name (.entry g) n))

theorem run_conditionsHold (cs : List Condition) :
    ((Scope.entry g).conditionsHold cs).run σ.plain answer = Graph.opens (named g answer) cs := by
  induction cs with
  | nil => rfl
  | cons c cs ih =>
    rw [Scope.conditionsHold, Graph.opens, run_plain_bind, run_plain_value]
    have hnext : ∀ v : Value, (if v.isTrue then (Scope.entry g).conditionsHold cs
        else pure false).run σ.plain answer =
          if v.isTrue then Graph.opens (named g answer) cs else pure false := by
      intro v
      split
      · exact ih
      · rfl
    exact congrArg (named g answer c.name >>= ·) (funext hnext)

/-- What a definition gives its name according to answers. -/
theorem run_fromRank (ha : σ.Answers g answer) (n : String) (rank : Rank) :
    ((Scope.entry g).fromRank n rank).run σ.plain answer =
      g.gives σ (named g answer) n ((Scope.entry g).definition? n rank) := by
  unfold Scope.fromRank
  cases hd : (Scope.entry g).definition? n rank with
  | none => rfl
  | some d =>
    have hvalue : answer (.frame (.definition (.entry g) n rank d)) =
        (d.expr.eval (.entry g) n).run σ.plain (Graph.answers (named g answer)) :=
      (ha.definition hd).trans (Plan.run_eval_congr fun _ _ => rfl)
    dsimp only
    rw [Scope.fromDefinition, Graph.gives, run_plain_bind, Scope.gateHolds, run_conditionsHold]
    refine bind_congr fun isOpen => ?_
    split
    · rw [run_plain_bind, run_plain_value, ← hvalue]
      rfl
    · dsimp only
      split <;> rfl

/-- Where no site yields a value, only the proper definition does before the default. -/
theorem run_fromPrimary_of_fromSites (ha : σ.Answers g answer) {n : String}
    (hsites : ((Scope.entry g).fromSites n g.sites).run σ.plain answer = .ok none) :
    answer (.primary (.entry g) n) =
      g.gives σ (named g answer) n ((Scope.entry g).definition? n .primary) := by
  rw [ha.primary, Scope.fromPrimary, run_plain_bind, run_fromRank ha]
  cases g.gives σ (named g answer) n ((Scope.entry g).definition? n .primary) with
  | error halt => rfl
  | ok v? =>
    cases v? with
    | some v => rfl
    | none =>
      change Plan.run σ.plain answer (if (Scope.entry g).asksSites n then
        (Scope.entry g).fromSites n g.sites else pure none) = _
      split
      · exact hsites
      · rfl

/-- Where no site yields a value, answers are meanings. -/
theorem named_meaning_of_fromSites (ha : σ.Answers g answer) {n : String}
    (hsites : ((Scope.entry g).fromSites n g.sites).run σ.plain answer = .ok none) :
    named g answer n = g.meaning σ (named g answer) n := by
  have hprimary := run_fromPrimary_of_fromSites ha hsites
  have hfallback := run_fromRank ha n .fallback
  rw [named, ha.name, Scope.settle, run_plain_bind, run_plain_primary, hprimary, Graph.meaning]
  refine bind_congr fun v? => ?_
  cases v? with
  | some v => rfl
  | none =>
    dsimp only
    rw [run_plain_bind, hfallback]
    refine bind_congr fun v? => ?_
    cases v? with
    | some v => rfl
    | none => rfl

/-- In a graph without sites, answers are meanings. -/
theorem named_meaning (ha : σ.Answers g answer) (hsites : g.sites = []) (n : String) :
    named g answer n = g.meaning σ (named g answer) n :=
  named_meaning_of_fromSites ha (by rw [hsites]; rfl)

/-- With enough budget, plain evaluations of a graph without sites and cycles answer all goals. -/
theorem answers_plain (hsites : g.sites = []) (hrank : g.Ranked rank) (hstateless : g.Stateless)
    {k : Nat} (hk : ∀ n, 3 * rank n + 2 < k) : σ.Answers g (σ.plain.answer k) := by
  have hstep : ∀ goal, σ.Asks g (fun _ => True) goal → goal.height rank < k →
      σ.plain.answer k goal = goal.plan.run σ.plain (σ.plain.answer k) := by
    intro goal hgoal hheight
    have hfinished := finished_plain hsites (fun _ _ => trivial) hrank hstateless hgoal hheight
    rw [← plain_succ, plain_mono (Nat.le_succ k) goal hfinished]
  refine ⟨fun n => ?_, fun {n r d} hd => ?_, fun n => ?_⟩
  · exact hstep (.frame (.name (.entry g) n)) ⟨.entry, trivial⟩ (hk n)
  · refine hstep (.frame (.definition (.entry g) n r d)) ⟨.entry, trivial, hd⟩ ?_
    exact Nat.lt_of_le_of_lt (Nat.le_add_right _ 2) (hk n)
  · refine hstep (.primary (.entry g) n) ⟨.entry, trivial⟩ ?_
    exact Nat.lt_of_succ_lt (hk n)

end Setting

/-! ### Sessions -/

open EvalM

/-- **Names have meanings.** Let a module compile to a graph without sites. In no session of an
execution of the graph does an evaluation come back to itself, whatever names without `#` are asked
for, and also where state is kept; with enough budget it finishes. If no state is kept, the
equations between meanings have just one solution for the inputs with which the execution was
started, and with enough budget every request is answered with the meaning of its name. -/
theorem serve_meanings {source loader : Loader} {path : String} {c : Compiled}
    (h : source.compile path = .ok c) (hsites : c.graph.sites = []) {e : Engine} (he : e.Numbered)
    (inputs : Table String Value) :
    let x := (Execution.start e c.graph inputs).1
    let e := (Execution.start e c.graph inputs).2
    (∀ requests : List Request, (∀ r ∈ requests, '#' ∉ r.name.toList) →
      List.Forall₂ (fun r answer => (∀ chain, answer ≠ .error (.failed (.recursion chain))) ∧
        (3 * c.graph.size + 3 ≤ r.budget → answer ≠ .error .exhausted))
        requests (x.serve e requests).1) ∧
    (c.graph.Stateless → ∃ den : String → Except Halt Value,
      (∀ other, (∀ n, other n = c.graph.meaning ⟨loader, x.id, inputs⟩ other n) ↔ other = den) ∧
      (∀ n, den n ≠ .error .exhausted) ∧ ∀ requests : List Request,
        (∀ r ∈ requests, r.loader = loader ∧ '#' ∉ r.name.toList ∧
          3 * c.graph.size + 3 ≤ r.budget) →
        (x.serve e requests).1 = requests.map fun r => den r.name) := by
  intro x e
  obtain ⟨rank, hle, hrank⟩ := Dependency.exists_rank_of_findCycle (findCycle_of_compile h)
  have hlookups := sheltered_of_mem_lookups h
  have hends : ∀ (r : Request) (w : World), '#' ∉ r.name.toList →
      Ends (3 * c.graph.size + 3 ≤ r.budget) (x.step handler w r).1 := fun r w hr =>
    ends_name hsites hlookups (findCycle_of_compile h) r.budget (Text.sheltered_of_not_mem hr) w
  -- No rank exceeds the number of slots, so one budget is enough for all names.
  have henough : ∀ n, 3 * rank n + 2 < 3 * c.graph.size + 3 := by
    intro n
    have hn : rank n ≤ c.graph.size := hle n
    omega
  refine ⟨fun requests hrequests => ?_, fun hstateless => ?_⟩
  · refine Execution.serve_induction (P := fun _ => True) trivial fun r hr w _ => ⟨?_, trivial⟩
    have hend := hends r w (hrequests r hr)
    exact ⟨hend.descends, hend.finished⟩
  · let σ : Setting := ⟨loader, x.id, inputs⟩
    let k := 3 * c.graph.size + 3
    have hden := Setting.named_meaning (σ.answers_plain hsites hrank hstateless henough) hsites
    refine ⟨Setting.named c.graph (σ.plain.answer k), fun other => ⟨fun hother => ?_, ?_⟩,
      fun n => ?_, fun requests hr => ?_⟩
    · exact Graph.meaning_unique hrank hother hden
    · rintro rfl
      exact hden
    · have hgoal : σ.Asks c.graph (fun _ => True) (.frame (.name (.entry c.graph) n)) :=
        ⟨.entry, trivial⟩
      exact Setting.finished_plain hsites (fun _ _ => trivial) hrank hstateless hgoal (henough n)
    · have hclosed : σ.Closed (σ.Queries c.graph) := by
        refine Setting.closed_of_compile h (Setting.told_of_no_sites hsites) fun s hs => ?_
        rw [Setting.reached_of_no_sites hsites hs]
        exact hstateless
      have hstart := Execution.sound_start he c.graph inputs loader (σ.Queries c.graph)
      refine Execution.serve_plain hclosed hstart (fun r hmem => ?_) (fun r hmem w => ?_)
        fun r hmem => ?_
      · exact ⟨(hr r hmem).1, Setting.queries_of_not_mem _ _ (hr r hmem).2.1⟩
      · obtain ⟨-, hn, hbudget⟩ := hr r hmem
        exact (hends r w hn).finished hbudget
      · have hgoal := σ.queries_of_not_mem c.graph (hr r hmem).2.1
        exact Setting.finished_plain hsites hlookups hrank hstateless hgoal (henough r.name)

/-- A guest has a title by default; a member, whose name is known, has another one. -/
def welcome : Loader :=
  (Bundle.ofList [
    ("main", "LET Known := Name IS NOT NULL; LET Title := \"guest\" DEFAULT;
      INCLUDE \"member\" WHERE Known;"),
    ("member", "LET Title := concat(\"member \", Name);")]).loader

/-- Ann is a member. -/
def memberInputs : Table String Value :=
  .ofList [("Name", .string "Ann")]

/-- Ann has the title of a member and her own name, and nothing is known under another name. -/
theorem welcome_meanings :
    ∃ c, welcome.compile "main" = .ok c ∧
      let x := (Execution.start .start c.graph memberInputs).1
      let e := (Execution.start .start c.graph memberInputs).2
      let requests := ["Title", "Name", "Team"].map (Request.mk welcome Execution.budget)
      ∃ den : String → Except Halt Value,
        (∀ n, den n = c.graph.meaning ⟨welcome, x.id, memberInputs⟩ den n) ∧
        den "Title" = .ok (.string "member Ann") ∧ den "Name" = .ok (.string "Ann") ∧
        den "Team" = .ok .null ∧
        (x.serve e requests).1 = ["Title", "Name", "Team"].map den := by
  have heval : (welcome.compile "main").toOption.map (fun c =>
      let x := Execution.start .start c.graph memberInputs
      (decide (c.graph.sites = []), decide c.graph.Stateless, c.graph.size,
        (x.1.serve x.2 (["Title", "Name", "Team"].map (Request.mk welcome Execution.budget))).1.map
          Except.toOption)) =
        some (true, true, 2, [some (.string "member Ann"), some (.string "Ann"), some .null]) := by
    decide +kernel
  obtain ⟨c, hc, heval⟩ := exists_ok_of_map heval
  simp only [Prod.mk.injEq, decide_eq_true_eq] at heval
  obtain ⟨hsites, hstateless, hsize, hanswers⟩ := heval
  obtain ⟨-, hmeanings⟩ := serve_meanings hc hsites Engine.numbered_start memberInputs
  obtain ⟨den, hden, -, hserve⟩ := hmeanings hstateless
  have hrequests := hserve (["Title", "Name", "Team"].map (Request.mk welcome Execution.budget)) ?_
  · rw [hrequests] at hanswers
    obtain ⟨htitle, hname, hteam⟩ : (den "Title").toOption = some (.string "member Ann") ∧
        (den "Name").toOption = some (.string "Ann") ∧ (den "Team").toOption = some .null := by
      simpa using hanswers
    exact ⟨c, hc, den, (hden den).2 rfl, eq_ok_of_toOption htitle, eq_ok_of_toOption hname,
      eq_ok_of_toOption hteam, hrequests⟩
  · intro r hr
    obtain ⟨n, hn, rfl⟩ := List.mem_map.1 hr
    have hunmarked : ∀ n ∈ ["Title", "Name", "Team"], '#' ∉ n.toList := by decide
    have henough : 3 * 2 + 3 ≤ Execution.budget := by decide
    exact ⟨rfl, hunmarked n hn, hsize ▸ henough⟩

end GatedRules
