import GatedRules.Proofs.ReferenceWalk

/-!
# What graphs are made of

The definitions and sites of a compiled graph come from statements of modules: from bindings,
conditions and targets of includes, and their gates are joined from such conditions. So what holds
of all statements that a loader can give, holds of all that a graph is made of.

`Ingredients` says what is asked of statements and of the gates on the way. The reference walk
carries it from statements to occurrences (`Walks.isMadeOf`), and so to graphs
(`isMadeOf_of_compile`).
-/

namespace GatedRules

open Occurrences

/-- What the statements of modules have in common, and the gates that are made of them. -/
structure Ingredients where
  /-- What is bound to a name. -/
  binding : String → Expr → Prop
  /-- A condition of an include. -/
  condition : Expr → Prop
  /-- A target of an include. -/
  target : Template → Prop
  /-- A gate. -/
  gate : Gate → Prop
  /-- The gate of an entry module. -/
  always : gate .always
  /-- The gate of an include under that of its module. -/
  and : ∀ {g g'}, gate g → gate g' → gate (g.and g')
  /-- The gate of a condition. -/
  gateOf : ∀ {e}, condition e → ∀ os, gate (gateOf os (some e))

variable {ι : Ingredients} {loader : Loader}

/-- A statement is as the ingredients say. -/
def Statement.IsMadeOf (ι : Ingredients) : Statement → Prop
  | binding name expr _ _ => ι.binding name expr
  | inclusion directive => ι.target directive.target ∧ ∀ e ∈ directive.condition, ι.condition e

/-- All statements that a loader can give are as the ingredients say. -/
def Loader.IsMadeOf (loader : Loader) (ι : Ingredients) : Prop :=
  ∀ path source ss, loader.fetch path = .ok source → Statement.parse path source = .ok ss →
    ∀ s ∈ ss, s.IsMadeOf ι

/-- The path of a module matters to errors only. -/
theorem Statement.parse_of_parse {path source : String} {ss : List Statement}
    (h : Statement.parse path source = .ok ss) (path' : String) :
    Statement.parse path' source = .ok ss := by
  unfold Statement.parse Parser.run Tokens.scan at h ⊢
  cases hscan : scanFrom ⟨1, 1⟩ source.toList with
  | error stuck =>
    rw [hscan] at h
    cases h
  | ok scanned =>
    rw [hscan] at h
    have h : (Parser.statements scanned.1).mapError (Parser.Stuck.toError path scanned.2) =
        .ok ss := h
    change (Parser.statements scanned.1).mapError (Parser.Stuck.toError path' scanned.2) = .ok ss
    cases hread : Parser.statements scanned.1 with
    | error stuck =>
      rw [hread] at h
      cases h
    | ok ss' =>
      rw [hread] at h
      exact h

/-- The statements of all sources that a loader can give. -/
def Loader.statements (loader : Loader) : List Statement :=
  loader.sources.flatMap fun source => (Statement.parse "" source).toOption.getD []

/-- The statements that a loader can give are among those of all sources. -/
theorem Loader.mem_statements {path source : String} {ss : List Statement}
    (hf : loader.fetch path = .ok source) (hp : Statement.parse path source = .ok ss)
    {s : Statement} (hs : s ∈ ss) : s ∈ loader.statements := by
  refine List.mem_flatMap.2 ⟨source, loader.mem_sources hf, ?_⟩
  rw [Statement.parse_of_parse hp ""]
  exact hs

theorem Loader.isMadeOf_of_statements (h : ∀ s ∈ loader.statements, s.IsMadeOf ι) :
    loader.IsMadeOf ι :=
  fun _ _ _ hf hp s hs => h s (loader.mem_statements hf hp hs)

/-- A definition of a name is that of a binding under a gate, or of a condition. -/
def Definition.IsMadeOf (ι : Ingredients) (name : String) (d : Definition) : Prop :=
  (ι.binding name d.expr ∧ ι.gate d.gate) ∨ (ι.condition d.expr ∧ d.gate = .always)

/-- A site is that of a target under a gate. -/
def Site.IsMadeOf (ι : Ingredients) (s : Site) : Prop :=
  ι.target s.template ∧ ι.gate s.gate

/-- An occurrence is as the ingredients say. -/
def Occurrence.IsMadeOf (ι : Ingredients) : Occurrence → Prop
  | visit _ => True
  | binding _ gate name expr _ => ι.binding name expr ∧ ι.gate gate
  | condition _ expr => ι.condition expr
  | site s => s.IsMadeOf ι

/-- A graph is as the ingredients say. -/
structure Graph.IsMadeOf (g : Graph) (ι : Ingredients) : Prop where
  /-- The definitions of names. -/
  definition : ∀ {n slot d}, g.slot? n = some slot → d ∈ slot.definitions.toList → d.IsMadeOf ι n
  /-- The sites. -/
  site : ∀ {s}, s ∈ g.sites → s.IsMadeOf ι

/-! ### The reference walk -/

theorem isMadeOf_ofCondition {origin : String} {condition : Option Expr}
    (h : ∀ e ∈ condition, ι.condition e) : ∀ o ∈ ofCondition origin condition, o.IsMadeOf ι := by
  intro o ho
  cases condition with
  | none => cases ho
  | some expr =>
    unfold ofCondition at ho
    dsimp only at ho
    split at ho
    · cases ho
    · obtain rfl := List.mem_singleton.1 ho
      exact h expr rfl

theorem gate_gateOf {os : List Occurrence} {condition : Option Expr}
    (h : ∀ e ∈ condition, ι.condition e) : ι.gate (gateOf os condition) := by
  cases condition with
  | none => exact ι.always
  | some expr => exact ι.gateOf (h expr rfl) os

/-- **The reference walk** over statements of a kind comes across occurrences of that kind. -/
theorem Walks.isMadeOf {origin : String} {gate : Gate} {ss : List Statement}
    {os os' : List Occurrence} (h : Walks loader origin gate ss os os')
    (hloader : loader.IsMadeOf ι) (hgate : ι.gate gate) (hss : ∀ s ∈ ss, s.IsMadeOf ι)
    (hos : ∀ o ∈ os, o.IsMadeOf ι) : ∀ o ∈ os', o.IsMadeOf ι := by
  induction h with
  | nil => exact hos
  | binding _ ih =>
    obtain ⟨hbinding, hrest⟩ := List.forall_mem_cons.1 hss
    refine ih hgate hrest (List.forall_mem_append.2 ⟨hos, ?_⟩)
    exact List.forall_mem_singleton.2 ⟨hbinding, hgate⟩
  | enter _ hf hp _ _ ihin ihrest =>
    obtain ⟨⟨-, hcondition⟩, hrest⟩ := List.forall_mem_cons.1 hss
    refine ihrest hgate hrest (ihin (ι.and hgate (gate_gateOf hcondition)) (hloader _ _ _ hf hp) ?_)
    refine List.forall_mem_append.2 ⟨?_, List.forall_mem_singleton.2 trivial⟩
    exact List.forall_mem_append.2 ⟨hos, isMadeOf_ofCondition hcondition⟩
  | site _ _ _ ih =>
    obtain ⟨⟨htarget, -⟩, hrest⟩ := List.forall_mem_cons.1 hss
    refine ih hgate hrest (List.forall_mem_append.2 ⟨hos, ?_⟩)
    exact List.forall_mem_singleton.2 ⟨htarget, hgate⟩

/-! ### Graphs -/

variable {os : List Occurrence}

theorem isMadeOf_of_definition? (hos : ∀ o ∈ os, o.IsMadeOf ι) {n : String} {isDefault : Bool}
    {d : Definition} (h : definition? os n isDefault = some d) :
    ι.binding n d.expr ∧ ι.gate d.gate := by
  obtain ⟨o, ho, hd⟩ := List.exists_of_findSome?_eq_some h
  have hmade := hos o ho
  cases o with
  | binding origin gate m expr b =>
    rw [Occurrence.definition?, Option.ite_none_right_eq_some] at hd
    obtain ⟨⟨rfl, -⟩, he⟩ := hd
    cases he
    exact hmade
  | _ => cases hd

theorem isMadeOf_of_gate? (hos : ∀ o ∈ os, o.IsMadeOf ι) {n : String} {d : Definition}
    (h : gate? os n = some d) : ι.condition d.expr ∧ d.gate = .always := by
  obtain ⟨o, ho, hd⟩ := List.exists_of_findSome?_eq_some h
  have hmade := hos o ho
  cases o with
  | condition origin expr =>
    rw [Occurrence.gate?, Option.ite_none_right_eq_some] at hd
    obtain ⟨-, he⟩ := hd
    cases he
    exact ⟨hmade, rfl⟩
  | _ => cases hd

/-- The definitions of a slot are among those that it is made of. -/
theorem mem_slotOf {p f g : Option Definition} {slot : Slot} (h : slotOf p f g = some slot)
    {d : Definition} (hd : d ∈ slot.definitions.toList) : p = some d ∨ f = some d ∨ g = some d := by
  cases p <;> cases f <;> cases g <;> cases h <;> simp_all [Definitions.toList] <;> grind

/-- **A compiled graph** is made of what the loader can give. -/
theorem isMadeOf_of_compile {path : String} {c : Compiled} (h : loader.compile path = .ok c)
    (hloader : loader.IsMadeOf ι) : c.graph.IsMadeOf ι := by
  obtain ⟨os, w, ⟨source, module, hf, hp, hwalk⟩, hfinds, hbuild, -, -⟩ := finds_of_compile h
  obtain ⟨-, -, hslots, hsites, -⟩ := Draft.of_build hbuild
  -- All that a graph is made of has occurred on the reference walk.
  have hos : ∀ o ∈ os, o.IsMadeOf ι :=
    hwalk.isMadeOf hloader ι.always (hloader _ _ _ hf hp) (by simp [Occurrence.IsMadeOf])
  refine ⟨fun {n slot d} hslot hd => ?_, fun {s} hs => ?_⟩
  · have hslot : slot? os n = some slot := by
      rw [← hfinds.draft.slots, ← hslots]
      exact hslot
    rcases mem_slotOf hslot hd with hd | hd | hd
    · exact .inl (isMadeOf_of_definition? hos hd)
    · exact .inl (isMadeOf_of_definition? hos hd)
    · exact .inr (isMadeOf_of_gate? hos hd)
  · rw [hsites, hfinds.draft.sites] at hs
    obtain ⟨o, ho, hs⟩ := List.mem_filterMap.1 hs
    have hmade := hos o ho
    cases o with
    | site s' =>
      cases hs
      exact hmade
    | _ => cases hs

end GatedRules
