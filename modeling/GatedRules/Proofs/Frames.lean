import GatedRules.Proofs.Gating
import GatedRules.Proofs.Ingredients
import GatedRules.Proofs.Moments
import Mathlib.Data.Finite.Prod
import Mathlib.Data.Set.Finite.Lattice

/-!
# The frames of the scopes that have been reached

In a world, an evaluation asks for names in the scopes that have been reached there, and for their
definitions. Besides the name that is asked for from outside, a name is looked up because the module
of such a scope mentions it; a module at a site and the scope around are asked about the name at
hand (`plan_follows_concerning`). So the frames of an evaluation are among `World.frameTexts`.

These are finitely many as soon as every site takes a name (`World.finite_frameTexts`), since a
scope beyond a site is reached only when the names of the site have their values in cells. The sites
of compiled graphs take names: an include whose target takes none is no site
(`takesNames_of_compile`).
-/

namespace GatedRules

open EvalM Occurrences World

variable {w w' : World} {goal : Goal}

/-! ### What is asked for -/

namespace World

/-- A name is asked for, or the module of a scope that has been reached looks it up. -/
def LooksUp (id : ExecutionId) (entry : Graph) (asked : String) (w : World) (n : String) : Prop :=
  n = asked ∨ ∃ scope, w.ShowsReached id entry scope ∧ n ∈ scope.graph.lookups

/-- A goal is about a name that is looked up, in a scope that has been reached. -/
structure Concerns (id : ExecutionId) (entry : Graph) (asked : String) (w : World) (goal : Goal) :
    Prop where
  /-- The scope has been reached. -/
  reaches : w.ShowsReached id entry goal.scope
  /-- The name is looked up. -/
  looksUp : w.LooksUp id entry asked goal.name
  /-- A definition is one that the scope has. -/
  proper : goal.Proper

/-- The texts of the frames of the scopes that have been reached. -/
def frameTexts (id : ExecutionId) (entry : Graph) (asked : String) (w : World) : Set String :=
  {t | ∃ f, w.Concerns id entry asked (.frame f) ∧ f.text = t}

variable {id : ExecutionId} {entry : Graph} {asked : String}

theorem LooksUp.mono {n : String} (h : w.LooksUp id entry asked n) (hw : Extends id w w') :
    w'.LooksUp id entry asked n := by
  rcases h with rfl | ⟨scope, hscope, hn⟩
  · exact .inl rfl
  · exact .inr ⟨scope, hscope.mono hw, hn⟩

theorem Concerns.mono (h : w.Concerns id entry asked goal) (hw : Extends id w w') :
    w'.Concerns id entry asked goal :=
  ⟨h.reaches.mono hw, h.looksUp.mono hw, h.proper⟩

/-- A name that the module of a scope looks up is one to ask for in that scope. -/
theorem concerns_lookup {scope : Scope} {n : String} (hscope : w.ShowsReached id entry scope)
    (hn : n ∈ scope.graph.lookups) : w.Concerns id entry asked (.frame (.name scope n)) :=
  ⟨hscope, .inr ⟨scope, hscope, hn⟩, trivial⟩

end World

/-- The protocol of an execution: goals about names that are looked up, in scopes that have been
reached, may be asked for. -/
def concerning (id : ExecutionId) (entry : Graph) (asked : String) : Protocol World :=
  { gating id entry with
    mayAsk := fun w goal => w.Concerns id entry asked goal
    mayAsk_mono := fun hw h => Concerns.mono h hw }

section

variable {id : ExecutionId} {entry : Graph} {asked : String}

/-- What a name needs in a scope that has been reached is about names that are looked up, in scopes
that have been reached. -/
theorem serves_concerning {scope : Scope} {name : String} (hscope : w.ShowsReached id entry scope)
    (hname : w.LooksUp id entry asked name) :
    (concerning id entry asked).Serves scope name w where
  condition hd _ hc := concerns_lookup hscope <|
    (Scope.defines_of_definition? hd).lookups (Definition.mem_dependencies_of_gate hc)
  definition hd hw _ := ⟨hscope.mono hw, hname.mono hw, hd⟩
  site _ _ hs _ hm := concerns_lookup hscope (Graph.mem_lookups_of_site hs hm)
  child _ _ hs _ _ hw hl :=
    ⟨.child (hscope.mono hw) hs ⟨hl.isOpen, hl.resolves⟩, hname.mono hw, trivial⟩
  resolve _ := trivial
  skip := trivial

theorem plan_follows_concerning (h : w.Concerns id entry asked goal) :
    goal.plan.Follows (concerning id entry asked) (fun _ _ => True) w := by
  cases goal with
  | primary scope name => exact Scope.fromPrimary_follows (serves_concerning h.reaches h.looksUp)
  | frame f =>
    cases f with
    | name scope n =>
      exact Scope.settle_follows (serves_concerning h.reaches h.looksUp)
        ⟨h.reaches, h.looksUp, trivial⟩ (fun _ _ hg => ⟨h.reaches.around hg, h.looksUp, trivial⟩)
        trivial
    | definition scope n rank d =>
      have hdefines := Scope.defines_of_definition? h.proper
      refine Expr.eval_follows d.expr ⟨fun m hm => ?_, trivial, fun _ _ => trivial⟩
      exact concerns_lookup h.reaches
        (hdefines.lookups (Definition.mem_dependencies_of_mentions hm))

end

/-! ### Finitely many frames -/

/-- All sites of a graph take names. -/
def Graph.TakesNames (g : Graph) : Prop :=
  ∀ site ∈ g.sites, site.template.inputs ≠ []

/-- A template that has no text takes the name for which there is none. -/
theorem Template.mem_inputs_of_render {t : Template} {lookup : String → Option String} {n : String}
    (h : t.render lookup = .error n) : n ∈ t.inputs := by
  obtain ⟨segments⟩ := t
  rw [mem_inputs]
  unfold render at h
  dsimp only at h ⊢
  induction segments with
  | nil => cases h
  | cons segment rest ih =>
    have hrest : ∀ text, (renderSegments lookup rest).map (text ++ ·) = .error n →
        .input n ∈ segment :: rest := by
      intro text h
      cases hr : renderSegments lookup rest with
      | ok target =>
        rw [hr] at h
        cases h
      | error m =>
        rw [hr] at h
        cases h
        exact List.mem_cons_of_mem _ (ih hr)
    cases segment with
    | literal text => exact hrest text h
    | input name =>
      rw [renderSegments] at h
      cases hname : lookup name with
      | none =>
        rw [hname] at h
        cases h
        exact List.mem_cons_self ..
      | some text =>
        rw [hname] at h
        exact hrest text h

/-- The reference walk comes across sites only where a name has no known text. -/
theorem Walks.takesNames {loader : Loader} {origin : String} {gate : Gate} {ss : List Statement}
    {os os' : List Occurrence} (h : Walks loader origin gate ss os os')
    (hos : ∀ site, .site site ∈ os → site.template.inputs ≠ []) :
    ∀ site, .site site ∈ os' → site.template.inputs ≠ [] := by
  induction h with
  | nil => exact hos
  | binding _ ih =>
    refine ih fun site hs => hos site ?_
    simpa using hs
  | @enter origin gate directive target source module rest os mid os' _ _ _ _ _ ihin ihrest =>
    refine ihrest (ihin fun site hs => hos site ?_)
    have hcondition : .site site ∉ Occurrences.ofCondition origin directive.condition := by
      unfold Occurrences.ofCondition
      grind
    simpa [hcondition] using hs
  | @site origin name gate directive rest os os' hrender _ _ ih =>
    refine ih fun site hs => ?_
    rcases List.mem_append.1 hs with hs | hs
    · exact hos site hs
    · cases List.mem_singleton.1 hs
      exact List.ne_nil_of_mem (Template.mem_inputs_of_render hrender)

/-- All sites of a compiled graph take names. -/
theorem takesNames_of_compile {loader : Loader} {path : String} {c : Compiled}
    (h : loader.compile path = .ok c) : c.graph.TakesNames := by
  obtain ⟨os, w, ⟨source, module, -, -, hwalk⟩, hfinds, hbuild, -, -⟩ :=
    finds_of_compile h
  obtain ⟨-, -, -, hsites, -⟩ := Draft.of_build hbuild
  intro site hs
  rw [hsites, hfinds.draft.sites] at hs
  obtain ⟨o, ho, hs⟩ := List.mem_filterMap.1 hs
  cases o with
  | site s =>
    cases hs
    exact hwalk.takesNames (by simp) site ho
  | _ => cases hs

namespace World

variable {id : ExecutionId} {entry : Graph} {asked : String}

/-- The graphs of the entry module and of the modules that have been resolved. -/
def graphs (id : ExecutionId) (entry : Graph) (w : World) : Set Graph :=
  {g | g = entry ∨ ∃ path, (w.engine.memo id).get? path = some (some (.resolved g))}

theorem finite_graphs (id : ExecutionId) (entry : Graph) (w : World) :
    (w.graphs id entry).Finite := by
  have hnoted : {g | ∃ path, (w.engine.memo id).get? path = some (some (.resolved g))}.Finite := by
    refine ((w.engine.memo id).values.finite_toSet.preimage
      (f := fun g => some (.resolved g)) ?_).subset ?_
    · intro g _ g' _ h
      cases h
      rfl
    · rintro g ⟨path, hpath⟩
      exact List.mem_map.2 ⟨_, Table.get?_eq_some_iff.1 hpath, rfl⟩
  exact (Set.finite_singleton entry).union hnoted

theorem ShowsReached.mem_graphs {scope : Scope} (h : w.ShowsReached id entry scope) :
    scope.graph ∈ w.graphs id entry := by
  cases h with
  | entry => exact .inl rfl
  | child _ _ he =>
    obtain ⟨values, path, -, -, hm⟩ := he.module
    exact .inr ⟨_, hm⟩

/-- What stands before a separator in one of finitely many texts is one of finitely many. -/
theorem finite_beginnings (texts : List String) : {t | ∃ n, t ++ "::" ++ n ∈ texts}.Finite := by
  have hone : ∀ text ∈ texts, {t | ∃ n, t ++ "::" ++ n = text}.Finite := by
    intro text _
    refine ((Set.finite_le_nat text.toList.length).image
      fun k => String.ofList (text.toList.take k)).subset ?_
    rintro t ⟨n, rfl⟩
    refine ⟨t.toList.length, ?_, ?_⟩
    · simp only [String.toList_append, List.length_append, Set.mem_ofPred_eq]
      omega
    · simp
  refine (texts.finite_toSet.biUnion hone).subset ?_
  rintro t ⟨n, hn⟩
  exact Set.mem_biUnion hn ⟨n, rfl⟩

/-- Where all sites take names, the scopes that have been reached have finitely many texts: the
values of the names are in cells, whose frames begin with the text of the scope around. -/
theorem finite_scopeTexts (htakes : ∀ g ∈ w.graphs id entry, g.TakesNames) :
    {t | ∃ scope, w.ShowsReached id entry scope ∧ scope.text = t}.Finite := by
  refine ((Set.finite_singleton entry.root).union <| (finite_beginnings w.cells.keys).image2
    (fun t g => t ++ "|" ++ g.root) (finite_graphs id entry w)).subset ?_
  rintro t ⟨scope, hscope, rfl⟩
  cases hscope with
  | entry => exact .inl (Scope.text_entry entry)
  | @child scope site graph hscope hs he =>
    obtain ⟨values, path, hvalues, -, hm⟩ := he.module
    have hne := htakes scope.graph hscope.mem_graphs site hs
    obtain ⟨n, ns, hinputs⟩ := List.exists_cons_of_ne_nil hne
    rw [hinputs] at hvalues
    cases hvalues with
    | cons hn _ =>
      have hkey : scope.text ++ "::" ++ n ∈ w.cells.keys :=
        List.mem_map.2 ⟨_, Table.get?_eq_some_iff.1 hn, rfl⟩
      exact .inr ⟨scope.text, ⟨n, hkey⟩, graph, .inr ⟨_, hm⟩, (Scope.text_child scope graph).symm⟩

/-- Where all sites take names, there are finitely many frames of the scopes that have been reached.
-/
theorem finite_frameTexts (htakes : ∀ g ∈ w.graphs id entry, g.TakesNames) (asked : String) :
    (w.frameTexts id entry asked).Finite := by
  have hnames : {n | w.LooksUp id entry asked n}.Finite := by
    refine ((Set.finite_singleton asked).union <| (finite_graphs id entry w).biUnion
      fun g _ => g.lookups.finite_toSet).subset ?_
    rintro n (rfl | ⟨scope, hscope, hn⟩)
    · exact .inl rfl
    · exact .inr (Set.mem_biUnion hscope.mem_graphs hn)
  have htexts := (finite_scopeTexts htakes).image2 (fun t n => t ++ "::" ++ n) hnames
  refine (htexts.image2 (· ++ ·) (Set.toFinite {"", "#primary", "#default"})).subset ?_
  rintro t ⟨f, hf, rfl⟩
  cases f with
  | name scope n =>
    exact ⟨_, ⟨_, ⟨scope, hf.reaches, rfl⟩, n, hf.looksUp, rfl⟩, "", by simp, String.append_empty⟩
  | definition scope n rank d =>
    refine ⟨_, ⟨_, ⟨scope, hf.reaches, rfl⟩, n, hf.looksUp, rfl⟩, "#" ++ rank.text, ?_,
      (String.append_assoc ..).symm⟩
    cases rank <;> decide

end World

end GatedRules
