import GatedRules.Proofs.Lookups
import GatedRules.Proofs.Reached
import GatedRules.Source.Bundle

/-!
# Bare modules

A module is bare if its includes have no conditions and its bindings are literals or inputs
(`Statement.Bare`). All that a graph of such modules holds is then unconditional: the gates of
definitions and sites have no conditions, and there are no gate slots (`bare_of_compile`).
-/

namespace GatedRules

/-- An expression is a literal or the input of the slot. -/
def Expr.IsBare (e : Expr) : Prop :=
  (∃ l, e = .literal l) ∨ e = .call "input" [] []

/-- A statement is an include without a condition, or a binding of a certain name to a literal or to
its input. -/
def Statement.Bare (q : String → Prop) : Statement → Prop
  | .binding name expr _ _ => q name ∧ expr.IsBare
  | .inclusion directive => directive.condition = none

/-- The modules of a loader hold nothing but includes without conditions, and bindings of certain
names to literals and inputs. -/
def Loader.Bare (loader : Loader) (q : String → Prop) : Prop :=
  ∀ path source ss, loader.fetch path = .ok source → Statement.parse path source = .ok ss →
    ∀ s ∈ ss, s.Bare q

/-- What definitions of a graph have in common if its modules are bare. -/
structure Definition.Bare (d : Definition) : Prop where
  /-- The definition counts always. -/
  gate : d.gate = .always
  /-- Its expression is a literal or an input. -/
  expr : d.expr.IsBare

/-- A graph as bare modules give it: only certain names have definitions, and these and the sites
are unconditional. -/
structure Graph.Bare (g : Graph) (q : String → Prop) : Prop where
  /-- Only certain names have definitions. -/
  name : ∀ {n d}, g.Defines n d → q n
  /-- Definitions are literals and inputs. -/
  definition : ∀ {n d}, g.Defines n d → d.Bare
  /-- Sites count always. -/
  site : ∀ site ∈ g.sites, site.gate = .always

variable {loader : Loader} {q : String → Prop}

/-! ### Graphs of bare modules -/

/-- What bare modules are made of: bindings of certain names to literals and inputs, and includes
without conditions. -/
def Ingredients.bare (q : String → Prop) : Ingredients where
  binding name e := q name ∧ e.IsBare
  condition _ := False
  target _ := True
  gate g := g = .always
  always := rfl
  and hg hg' := by
    rw [hg, hg']
    rfl
  gateOf := nofun

theorem Loader.Bare.isMadeOf (h : loader.Bare q) : loader.IsMadeOf (.bare q) := by
  intro path source ss hf hp s hs
  have hbare := h path source ss hf hp s hs
  cases s with
  | binding => exact hbare
  | inclusion directive =>
    have hcondition : directive.condition = none := hbare
    refine ⟨trivial, fun e he => ?_⟩
    rw [hcondition] at he
    cases he

/-- A compiled graph is as its bare modules give it. -/
theorem bare_of_compile (hloader : loader.Bare q) {path : String} {c : Compiled}
    (h : loader.compile path = .ok c) : c.graph.Bare q := by
  have hmade := isMadeOf_of_compile h hloader.isMadeOf
  have hdefines : ∀ {n d}, c.graph.Defines n d → q n ∧ d.Bare := by
    rintro n d ⟨slot, hslot, hd⟩
    rcases hmade.definition hslot hd with ⟨⟨hname, hexpr⟩, hgate⟩ | ⟨hnone, -⟩
    · exact ⟨hname, hgate, hexpr⟩
    · exact hnone.elim
  exact ⟨fun hd => (hdefines hd).1, fun hd => (hdefines hd).2, fun site hs => (hmade.site hs).2⟩

/-- Graphs of bare modules keep no state. -/
theorem Graph.Bare.stateless {g : Graph} (h : g.Bare q) : g.Stateless := by
  intro slot hslot d hd
  obtain ⟨⟨n, slot'⟩, he, rfl⟩ := List.mem_map.1 hslot
  have hdefines : g.Defines n d := ⟨slot', Table.get?_eq_some_iff.2 he, hd⟩
  rcases (h.definition hdefines).expr with ⟨l, hl⟩ | hinput
  · rw [hl]
    rfl
  · rw [hinput]
    rfl

/-- A name that no binding is for has no definitions. -/
theorem Graph.Bare.definition?_eq_none {s : Scope} (h : s.graph.Bare q) {n : String} (hn : ¬ q n)
    (rank : Rank) : s.definition? n rank = none := by
  cases hd : s.definition? n rank with
  | none => rfl
  | some d => exact absurd (h.name (Scope.defines_of_definition? hd)) hn

/-- All graphs that are reached from an entry module are as bare modules give them. -/
def Setting.Bare (σ : Setting) (entry : Graph) (q : String → Prop) : Prop :=
  ∀ s, σ.Reached entry s → s.graph.Bare q

/-- Nothing is reached from a bare module but bare modules. -/
theorem Loader.Bare.setting {σ : Setting} (hloader : σ.loader.Bare q) {path : String}
    {c : Compiled} (h : σ.loader.compile path = .ok c) : σ.Bare c.graph q := by
  intro s hs
  cases hs with
  | entry => exact bare_of_compile hloader h
  | child _ _ hl =>
    obtain ⟨_, path, -, -, ho⟩ := hl.module
    obtain ⟨c', hc, rfl⟩ := Engine.compile_of_outcome ho
    exact bare_of_compile hloader hc

/-! ### Loaders whose modules compile -/

/-- At every canonical path of a loader there is a module that compiles, or none. -/
def Loader.Compiles (loader : Loader) : Prop :=
  ∀ path, Path.canonical path = path → ∃ o, Engine.outcome loader path = .ok o

theorem Loader.depth_pos (loader : Loader) : 0 < loader.depth := by
  unfold Loader.depth
  generalize loader.sources.map String.length = lengths
  induction lengths with
  | nil => exact Nat.one_pos
  | cons n lengths ih => exact Nat.add_pos_right n ih

/-- A walk ends at once where there is no module. -/
theorem Loader.compile_of_notFound {loader : Loader} {path p : String}
    (h : loader.fetch (Path.canonical path) = .error (.notFound p)) :
    loader.compile path = .error (.notFound (Path.canonical path) none) := by
  obtain ⟨n, hn⟩ := Nat.exists_eq_add_one_of_ne_zero (Nat.ne_of_gt loader.depth_pos)
  have hload : ExceptT.run (Walk.load loader (Path.canonical path) none) Walk.start =
      (.error (.notFound (Path.canonical path) none),
        { Walk.start with asked := [Path.canonical path] }) := by
    unfold Walk.load
    rw [Walk.run_bind]
    dsimp only [get, getThe, MonadStateOf.get]
    rw [h]
    rfl
  have hwalk : (loader.walk (Path.canonical path)).1 =
      .error (.notFound (Path.canonical path) none) := by
    unfold Loader.walk
    rw [hn]
    change (ExceptT.run (Walk.load loader (Path.canonical path) none >>= _) Walk.start).1 = _
    rw [Walk.run_bind, hload]
  rcases hrun : loader.walk (Path.canonical path) with ⟨result, w⟩
  rw [hrun] at hwalk
  obtain rfl : result = .error (.notFound (Path.canonical path) none) := hwalk
  rw [Loader.compile, hrun]

/-- A bundle of modules that compile. -/
theorem Bundle.compiles {b : Bundle}
    (h : ∀ path ∈ b.modules.keys, ∃ c, b.loader.compile path = .ok c) : b.loader.Compiles := by
  intro path hpath
  cases hfetch : b.loader.fetch path with
  | ok source =>
    have hkey : Path.canonical path ∈ b.modules.keys := Bundle.mem_keys_of_fetch hfetch
    rw [hpath] at hkey
    obtain ⟨c, hc⟩ := h path hkey
    exact ⟨.resolved c.graph, by rw [Engine.outcome, hc]⟩
  | error error =>
    have hmissing : ∃ p, error = .notFound p := by
      have hfetch : b.fetch path = .error error := hfetch
      unfold Bundle.fetch at hfetch
      split at hfetch
      · cases hfetch
      · exact ⟨path, (Except.error.inj hfetch).symm⟩
    obtain ⟨p, rfl⟩ := hmissing
    rw [← hpath] at hfetch
    have hcompile := Loader.compile_of_notFound hfetch
    rw [hpath] at hcompile
    refine ⟨.absent path, ?_⟩
    rw [Engine.outcome, hcompile]
    exact if_pos (decide_eq_true rfl)

end GatedRules
