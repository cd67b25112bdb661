import GatedRules.Proofs.Lookups
import GatedRules.Proofs.Memoless

/-!
# Reached scopes

Sites lead from the entry module to modules, and from there to further ones. Under given inputs the
scopes that are reached this way are determined by plain evaluations: by the values of the
conditions of a site and of the names of its template (`Setting.Reached`).

Names and definitions of reached scopes ask only for names and definitions of reached scopes, and if
the texts of the scopes tell them apart, frames are known by their texts (`closed_asks`).
-/

namespace GatedRules

/-! ### Definitions of graphs -/

/-- A name has a definition in a graph. -/
def Graph.Defines (g : Graph) (name : String) (d : Definition) : Prop :=
  ∃ slot, g.slot? name = some slot ∧ d ∈ slot.definitions.toList

/-- No definition of a graph is stateful. -/
def Graph.Stateless (g : Graph) : Prop :=
  ∀ slot ∈ g.slots.values, ∀ d ∈ slot.definitions.toList, d.expr.isStateful = false

instance (g : Graph) : Decidable g.Stateless :=
  inferInstanceAs (Decidable (∀ slot ∈ g.slots.values, ∀ d ∈ slot.definitions.toList, _))

theorem Graph.Stateless.of_defines {g : Graph} (h : g.Stateless) {name : String} {d : Definition}
    (hd : g.Defines name d) : d.expr.isStateful = false := by
  obtain ⟨slot, hs, hd⟩ := hd
  exact h slot (List.mem_map.2 ⟨_, Table.get?_eq_some_iff.1 hs, rfl⟩) d hd

theorem Graph.Defines.lookups {g : Graph} {name : String} {d : Definition} (h : g.Defines name d)
    {n : String} (hn : n ∈ d.allDependencies) : n ∈ g.lookups := by
  obtain ⟨slot, hs, hd⟩ := h
  exact mem_lookups_of_slot hs (List.mem_flatMap.2 ⟨d, hd, hn⟩)

theorem Slot.mem_definitions {slot : Slot} {rank : Rank} {d : Definition}
    (h : slot.definition? rank = some d) : d ∈ slot.definitions.toList := by
  obtain ⟨kind, definitions⟩ := slot
  cases rank <;> cases definitions <;> cases h <;> simp [Definitions.toList]

theorem Scope.defines_of_definition? {s : Scope} {name : String} {rank : Rank} {d : Definition}
    (h : s.definition? name rank = some d) : s.graph.Defines name d := by
  obtain ⟨slot, hs, hd⟩ := Option.bind_eq_some_iff.1 h
  exact ⟨slot, hs, Slot.mem_definitions hd⟩

theorem Definition.mem_dependencies_of_mentions {d : Definition} {n : String}
    (h : n ∈ d.expr.mentions) : n ∈ d.allDependencies :=
  List.mem_append_left _ (List.mem_eraseDups.2 h)

theorem Definition.mem_dependencies_of_gate {d : Definition} {c : Condition}
    (h : c ∈ d.gate.conditions) : c.name ∈ d.allDependencies :=
  List.mem_append_right _ (Gate.mem_dependencies.2 ⟨c, h, rfl⟩)

/-- Where a module is found, it has been compiled. -/
theorem Engine.compile_of_outcome {loader : Loader} {path : String} {g : Graph}
    (h : outcome loader path = .ok (.resolved g)) :
    ∃ c, loader.compile path = .ok c ∧ c.graph = g := by
  unfold outcome at h
  split at h
  · rename_i c hc
    cases h
    exact ⟨c, hc, rfl⟩
  · split at h <;> cases h

/-! ### Scopes below an entry module -/

/-- A scope below an entry module, where graphs and the graphs at their sites are related. -/
inductive Scope.Nested (r : Graph → Graph → Prop) (entry : Graph) : Scope → Prop
  /-- The scope of the entry module. -/
  | entry : Nested r entry (.entry entry)
  /-- The scope of a module at a site. -/
  | child {s : Scope} {g : Graph} : Nested r entry s → r s.graph g → Nested r entry (s.child g)

theorem Scope.Nested.around {r : Graph → Graph → Prop} {entry g g' : Graph} {gs : List Graph}
    (h : Scope.Nested r entry ⟨g, g' :: gs⟩) : Scope.Nested r entry ⟨g', gs⟩ := by
  cases h with
  | child h _ => exact h

theorem Scope.Nested.imp {r r' : Graph → Graph → Prop} {entry : Graph} {s : Scope}
    (h : s.Nested r entry) (hr : ∀ {p g}, r p g → r' p g) : s.Nested r' entry := by
  induction h with
  | entry => exact .entry
  | child _ hg ih => exact .child ih (hr hg)

/-! ### Frames of a scope -/

namespace Frame

/-- The scope of a frame. -/
def scope : Frame → Scope
  | name s _ => s
  | definition s _ _ _ => s

/-- A frame is about one of certain names in a scope, and its definition is one that the scope has.
-/
def Within (s : Scope) (p : String → Prop) : Frame → Prop
  | name t n => t = s ∧ p n
  | definition t n rank d => t = s ∧ p n ∧ s.definition? n rank = some d

/-- The text of a frame begins with that of its scope. -/
theorem text_eq : ∀ f : Frame, ∃ rest, f.text = f.scope.text ++ "::" ++ rest
  | name _ n => ⟨n, rfl⟩
  | definition _ n rank _ => ⟨n ++ "#" ++ rank.text, by
      simp only [text, scope, Scope.definitionFrame, Scope.frame, String.append_assoc]⟩

/-- Frames of one scope are known by their texts. -/
theorem Within.injective {s : Scope} {p : String → Prop}
    (hp : ∀ n, p n → Text.Sheltered n.toList) {f g : Frame} (hf : f.Within s p)
    (hg : g.Within s p) (h : f.text = g.text) : f = g := by
  cases f with
  | name _ n =>
    obtain ⟨rfl, hn⟩ := hf
    cases g with
    | name _ m =>
      obtain ⟨rfl, -⟩ := hg
      rw [Scope.frame_inj h]
    | definition _ m rank d =>
      obtain ⟨rfl, -⟩ := hg
      exact absurd h (Scope.frame_ne_definitionFrame (hp n hn))
  | definition _ n rank d =>
    obtain ⟨rfl, -, hd⟩ := hf
    cases g with
    | name _ m =>
      obtain ⟨rfl, hm⟩ := hg
      exact absurd h.symm (Scope.frame_ne_definitionFrame (hp m hm))
    | definition _ m rank' d' =>
      obtain ⟨rfl, -, hd'⟩ := hg
      obtain ⟨rfl, rfl⟩ := Scope.definitionFrame_inj h
      obtain rfl := Option.some.inj (hd.symm.trans hd')
      rfl

end Frame

namespace Setting

/-- The value of a name in a scope, as plain evaluations find it. -/
def HasValue (σ : Setting) (scope : Scope) (name : String) (v : Value) : Prop :=
  ∃ k, σ.plain.answer k (.frame (.name scope name)) = .ok v

/-- The gate of a site holds in a scope, and the values of the names in its template lead to a
module. -/
structure LeadsTo (σ : Setting) (scope : Scope) (site : Site) (graph : Graph) : Prop where
  /-- The gate holds. -/
  gate : ∀ c ∈ site.gate.conditions, σ.HasValue scope c.name (.bool true)
  /-- The template leads to the module. -/
  module : ∃ values path, List.Forall₂ (σ.HasValue scope) site.template.inputs values ∧
    Engine.render site (Table.ofList (site.template.inputs.zip values)).get? = .ok path ∧
    Engine.outcome σ.loader (Path.canonical path) = .ok (.resolved graph)

/-- The scopes to which sites lead from the entry module. -/
inductive Reached (σ : Setting) (entry : Graph) : Scope → Prop
  /-- The scope of the entry module. -/
  | entry : Reached σ entry (.entry entry)
  /-- The scope of a module at a site. -/
  | child {scope : Scope} {site : Site} {graph : Graph} : Reached σ entry scope →
    site ∈ scope.graph.sites → σ.LeadsTo scope site graph → Reached σ entry (scope.child graph)

/-- The goals about certain names, and about definitions, in the scopes that are reached. -/
def Asks (σ : Setting) (entry : Graph) (p : String → Prop) : Goal → Prop
  | .frame (.name scope n) => σ.Reached entry scope ∧ p n
  | .frame (.definition scope n rank d) =>
    σ.Reached entry scope ∧ p n ∧ scope.definition? n rank = some d
  | .primary scope n => σ.Reached entry scope ∧ p n

/-- The texts of the scopes that are reached tell them apart, whatever follows. -/
def Told (σ : Setting) (entry : Graph) : Prop :=
  ∀ {s t}, σ.Reached entry s → σ.Reached entry t → ∀ {m n : String},
    s.text ++ "::" ++ m = t.text ++ "::" ++ n → s = t

variable {σ : Setting} {entry : Graph} {p : String → Prop}

theorem Reached.around {scope : Scope} (h : σ.Reached entry scope) {g : Graph} {gs : List Graph}
    (hg : scope.around = g :: gs) : σ.Reached entry ⟨g, gs⟩ := by
  cases h with
  | entry => cases hg
  | child h _ _ =>
    cases hg
    exact h

theorem Asks.frame {f : Frame} (h : σ.Asks entry p (.frame f)) :
    σ.Reached entry f.scope ∧ f.Within f.scope p := by
  cases f with
  | name s n => exact ⟨h.1, rfl, h.2⟩
  | definition s n rank d => exact ⟨h.1, rfl, h.2⟩

theorem Asks.imp {q : String → Prop} (hpq : ∀ n, p n → q n) {goal : Goal}
    (h : σ.Asks entry p goal) : σ.Asks entry q goal := by
  cases goal with
  | primary scope n => exact ⟨h.1, hpq n h.2⟩
  | frame f =>
    cases f with
    | name scope n => exact ⟨h.1, hpq n h.2⟩
    | definition scope n rank d => exact ⟨h.1, hpq n h.2.1, h.2.2⟩

/-! ### What is asked for -/

/-- A goal that does not lead out of a scope again: the value of a frame, or the value of a name
from a module at one of its sites. -/
def Inwards (scope : Scope) : Goal → Prop
  | .frame _ => True
  | .primary child _ => child.around.length = scope.around.length + 1

/-- Where a site is known to lead to a module, it leads there. -/
theorem leadsTo_of_protocol {may : Goal → Prop} {scope : Scope} {site : Site} {graph : Graph}
    (h : (σ.protocol may).LeadsTo () scope site graph) : σ.LeadsTo scope site graph := by
  obtain ⟨values, path, hv, hr, ho⟩ := h.resolves
  refine ⟨h.isOpen, values, path, hv, hr, ?_⟩
  have ho : (Engine.outcome σ.loader (Path.canonical path)).mapError Halt.failed =
    .ok (.resolved graph) := ho
  cases hout : Engine.outcome σ.loader (Path.canonical path) with
  | error error =>
    rw [hout] at ho
    cases ho
  | ok outcome =>
    rw [hout] at ho
    cases ho
    rfl

/-- What a name of a reached scope needs is to ask for goals about certain names, if these are all
that graphs look up. It asks for a value from a module only at a site of the scope. -/
theorem serves_asks (hp : ∀ scope, σ.Reached entry scope → ∀ n ∈ scope.graph.lookups, p n)
    {scope : Scope} (h : σ.Reached entry scope) {name : String} (hn : p name) :
    (σ.protocol fun goal => σ.Asks entry p goal ∧ Inwards scope goal).Serves scope name () where
  condition hd _ hc :=
    ⟨⟨h, hp scope h _ <|
      (Scope.defines_of_definition? hd).lookups (Definition.mem_dependencies_of_gate hc)⟩, trivial⟩
  definition hd _ _ := ⟨⟨h, hn, hd⟩, trivial⟩
  site _ _ hs n hm := ⟨⟨h, hp scope h n (Graph.mem_lookups_of_site hs hm)⟩, trivial⟩
  child _ _ hs _ _ _ hl := ⟨⟨.child h hs (leadsTo_of_protocol hl), hn⟩, rfl⟩
  resolve _ := nofun
  skip := nofun

/-- What a goal about certain names asks for: goals about such names, and further values from
modules only at sites of its own scope. -/
def Next (σ : Setting) (entry : Graph) (p : String → Prop) : Goal → Goal → Prop
  | .frame _, goal => σ.Asks entry p goal
  | .primary scope _, goal => σ.Asks entry p goal ∧ Inwards scope goal

theorem Next.asks {goal goal' : Goal} (h : σ.Next entry p goal goal') : σ.Asks entry p goal' := by
  cases goal with
  | frame f => exact h
  | primary scope name => exact h.1

theorem plan_follows_next
    (hp : ∀ scope, σ.Reached entry scope → ∀ n ∈ scope.graph.lookups, p n)
    (hs : ∀ scope, σ.Reached entry scope → scope.graph.Stateless) {goal : Goal}
    (h : σ.Asks entry p goal) :
    goal.plan.Follows (σ.protocol (σ.Next entry p goal)) (fun _ _ => True) () := by
  cases goal with
  | primary scope name => exact Scope.fromPrimary_follows (serves_asks hp h.1 h.2)
  | frame f =>
    cases f with
    | name scope n =>
      exact Scope.settle_follows (serves_permit (fun _ ha => ha.1) (serves_asks hp h.1 h.2)) h
        (fun _ _ hg => ⟨h.1.around hg, h.2⟩) nofun
    | definition scope n rank d =>
      obtain ⟨hreached, hn, hd⟩ := h
      have hdefines := Scope.defines_of_definition? hd
      refine Expr.eval_follows d.expr ⟨fun m hm => ⟨hreached, hp scope hreached m ?_⟩,
        nofun, fun hst => ?_⟩
      · exact hdefines.lookups (Definition.mem_dependencies_of_mentions hm)
      · rw [(hs scope hreached).of_defines hdefines] at hst
        cases hst

/-! ### Texts of frames -/

/-- Frames that are asked for are known by their texts. -/
theorem injective_asks (ht : σ.Told entry) (hp : ∀ n, p n → Text.Sheltered n.toList) {f g : Frame}
    (hf : σ.Asks entry p (.frame f)) (hg : σ.Asks entry p (.frame g)) (h : f.text = g.text) :
    f = g := by
  obtain ⟨hreached, hwithin⟩ := Asks.frame hf
  obtain ⟨hreached', hwithin'⟩ := Asks.frame hg
  -- The text of the scope comes first, so the scopes are the same.
  obtain ⟨m, hm⟩ := f.text_eq
  obtain ⟨n, hn⟩ := g.text_eq
  have hscope : f.scope = g.scope := ht hreached hreached' (by rw [← hm, ← hn, h])
  exact hwithin.injective hp (hscope ▸ hwithin') h

/-- Goals about certain names ask for no others, if these are all that graphs look up and no module
keeps state. -/
theorem closed_asks (ht : σ.Told entry) (hsheltered : ∀ n, p n → Text.Sheltered n.toList)
    (hp : ∀ scope, σ.Reached entry scope → ∀ n ∈ scope.graph.lookups, p n)
    (hs : ∀ scope, σ.Reached entry scope → scope.graph.Stateless) :
    σ.Closed (σ.Asks entry p) where
  follows h := follows_permit (fun _ => Next.asks) (plan_follows_next hp hs h)
  injective := injective_asks ht hsheltered

/-! ### Compiled entry modules -/

variable {source : Loader} {path : String} {c : Compiled}

/-- A reached scope has a compiled graph, if the entry module has. -/
theorem Reached.compiled (h : source.compile path = .ok c) {s : Scope}
    (hs : σ.Reached c.graph s) :
    ∃ loader path c', Loader.compile loader path = .ok c' ∧ c'.graph = s.graph := by
  cases hs with
  | entry => exact ⟨source, path, c, h, rfl⟩
  | child _ _ hl =>
    obtain ⟨_, path, -, -, ho⟩ := hl.module
    obtain ⟨c', hc, hg⟩ := Engine.compile_of_outcome ho
    exact ⟨σ.loader, Path.canonical path, c', hc, hg⟩

/-- A reached scope looks up nothing but sheltered names. -/
theorem Reached.sheltered (h : source.compile path = .ok c) {s : Scope}
    (hs : σ.Reached c.graph s) {n : String} (hn : n ∈ s.graph.lookups) :
    Text.Sheltered n.toList := by
  obtain ⟨_, _, c', hc, hg⟩ := hs.compiled h
  rw [← hg] at hn
  exact sheltered_of_mem_lookups hc n hn

/-- The goals about sheltered names. -/
abbrev Queries (σ : Setting) (entry : Graph) : Goal → Prop :=
  σ.Asks entry fun n => Text.Sheltered n.toList

/-- A name that is asked for from outside is sheltered if it does not contain `#`. -/
theorem queries_of_not_mem (σ : Setting) (entry : Graph) {n : String} (hn : '#' ∉ n.toList) :
    σ.Queries entry (.frame (.name (.entry entry) n)) :=
  ⟨.entry, Text.sheltered_of_not_mem hn⟩

/-- Goals about sheltered names ask for no others, if texts tell scopes apart and no module keeps
state. -/
theorem closed_of_compile (h : source.compile path = .ok c) (ht : σ.Told c.graph)
    (hs : ∀ scope, σ.Reached c.graph scope → scope.graph.Stateless) :
    σ.Closed (σ.Queries c.graph) :=
  closed_asks ht (fun _ hn => hn) (fun _ hs _ hn => hs.sheltered h hn) hs

/-! ### Entry modules without sites -/

/-- An entry module without sites is all that is reached. -/
theorem reached_of_no_sites (h : entry.sites = []) {s : Scope} (hs : σ.Reached entry s) :
    s = .entry entry := by
  induction hs with
  | entry => rfl
  | child _ hsite _ ih =>
    subst ih
    rw [Scope.entry, h] at hsite
    cases hsite

theorem told_of_no_sites (h : entry.sites = []) : σ.Told entry := by
  intro s t hs ht _ _ _
  rw [reached_of_no_sites h hs, reached_of_no_sites h ht]

end Setting

end GatedRules
