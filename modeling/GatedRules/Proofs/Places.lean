import GatedRules.Proofs.Depth
import Mathlib.Data.List.Chain

/-!
# Places of a walk

A walk over includes that fails has come to a statement at which it fails. `Walk.Stands` says before
which statements a walk stands at some time: in which module, along which chain of modules, under
which gate, and with what has been found. In contrast to the places of the reference walk
(`Arrives`), it is the walk itself that must have come there; so these places are there for walks
that fail as well. `Walk.Fault` says for which reasons a walk fails at a statement: a name is bound
twice, an include without a known target has a condition, or an include leads to a module that
cannot be loaded or back to one on the chain.

A walk fails exactly if its entry module cannot be loaded or if it comes to such a statement
(`Walk.fails_iff`), and the error is that of the statement. From the places onwards, nothing is said
about the depth of a walk: the bound is never met there either (`Stands.length_lt`).
-/

namespace GatedRules

open Occurrences

/-- A place of the reference walk is within the module there. -/
theorem Arrives.of_module {loader : Loader} {root origin : String} {includes : List Include}
    {gate : Gate} {ss : List Statement} {os : List Occurrence}
    (h : Arrives loader root includes origin gate ss os) :
    ∃ source module, loader.fetch origin = .ok source ∧
      Statement.parse origin source = .ok module ∧ ss <:+ module := by
  induction h with
  | start hf hp => exact ⟨_, _, hf, hp, List.suffix_rfl⟩
  | @next _ _ _ s _ _ _ _ _ ih =>
    obtain ⟨source, module, hf, hp, hsuffix⟩ := ih
    exact ⟨source, module, hf, hp, (List.suffix_cons s _).trans hsuffix⟩
  | enter _ _ hf hp _ => exact ⟨_, _, hf, hp, List.suffix_rfl⟩

namespace Walk

/-- Enter a module from the module `origin`, which is reached along a chain of modules. -/
def further (loader : Loader) (chain : List String) (origin target : String) (gate : Gate) :
    WalkM Unit :=
  resolve loader (loader.depth - (chain.length + 1)) target gate (chain ++ [origin]) (some origin)

/-- The walk from the module `root` stands before statements of the module `origin`, which it has
reached along a chain of modules and under a gate, with what has been found. -/
inductive Stands (loader : Loader) (root : String) :
    List String → String → Gate → List Statement → Walk → Prop
  /-- The walk begins with the statements of the entry module. -/
  | start {module : List Statement} {w : Walk} :
    Yields (load loader root none) Walk.start module w →
    Stands loader root [] root .always module w
  /-- After a statement, the walk stands before the next one. -/
  | next {chain : List String} {origin : String} {gate : Gate} {s : Statement}
    {rest : List Statement} {w w' : Walk} :
    Stands loader root chain origin gate (s :: rest) w →
    Yields (take origin gate (further loader chain origin) s) w () w' →
    Stands loader root chain origin gate rest w'
  /-- At an include whose target is known, the walk goes on to the statements of the included
  module, unless it is on the chain. -/
  | enter {chain : List String} {origin target : String} {gate inner : Gate} {directive : Include}
    {rest module : List Statement} {w w' w'' : Walk} :
    Stands loader root chain origin gate (.inclusion directive :: rest) w →
    directive.target.target w.draft.literal? = .fixed target → target ∉ chain ++ [origin] →
    Yields (conditionGate origin directive.condition) w inner w' →
    Yields (load loader target (some origin)) w' module w'' →
    Stands loader root (chain ++ [origin]) target (gate.and inner) module w''

/-- The walk from `root` comes, in the module `origin`, to an include whose target is known there:
it leads to the module `target`. -/
def Includes (loader : Loader) (root origin target : String) : Prop :=
  ∃ chain gate directive rest w,
    Stands loader root chain origin gate (.inclusion directive :: rest) w ∧
      directive.target.target w.draft.literal? = .fixed target

/-- At a statement of the module `origin`, which is reached along a chain of modules and under a
gate, a walk ends with an error. -/
inductive Fault (loader : Loader) (chain : List String) (origin : String) (gate : Gate) :
    Statement → Walk → CompileError → Prop
  /-- A name is bound twice in the same way. -/
  | binding {name : String} {expr : Expr} {isDefault : Bool} {line : Nat} {w : Walk}
    {duplicate : Duplicate} :
    w.draft.define name ⟨expr, gate, origin⟩ isDefault = .error duplicate →
    Fault loader chain origin gate (.binding name expr isDefault line) w (.duplicate duplicate)
  /-- An include has a condition although its target is not known. -/
  | site {directive : Include} {template : Template} {expr : Expr} {w : Walk} :
    directive.target.target w.draft.literal? = .pending template →
    directive.condition = some expr →
    Fault loader chain origin gate (.inclusion directive) w
      (.invalidGate directive.target.text origin directive.line)
  /-- An include leads to a module that is on the chain. -/
  | cycle {directive : Include} {target : String} {i : Nat} {w : Walk} :
    directive.target.target w.draft.literal? = .fixed target →
    (chain ++ [origin]).idxOf? target = some i →
    Fault loader chain origin gate (.inclusion directive) w
      (.cycle ((chain ++ [origin]).drop i ++ [target]))
  /-- An include leads to a module that cannot be loaded. -/
  | load {directive : Include} {target : String} {inner : Gate} {w w' w'' : Walk}
    {error : CompileError} :
    directive.target.target w.draft.literal? = .fixed target → target ∉ chain ++ [origin] →
    Yields (conditionGate origin directive.condition) w inner w' →
    ExceptT.run (load loader target (some origin)) w' = (.error error, w'') →
    Fault loader chain origin gate (.inclusion directive) w error

variable {loader : Loader} {root origin target : String} {chain : List String} {gate : Gate}
  {s : Statement} {ss : List Statement} {directive : Include} {w w' : Walk} {os : List Occurrence}
  {error : CompileError}

/-! ### What holds at a place -/

theorem Finds.target_eq_fixed (h : Finds loader w os) {t : Template}
    (ht : t.target w.draft.literal? = .fixed target) :
    ∃ text, t.render (literal? os) = .ok text ∧ Path.canonical text = target := by
  have hknown : w.draft.literal? = literal? os := funext h.draft.literals
  exact Template.exists_render (hknown ▸ ht)

/-- Where the walk stands, the reference walk arrives, with what has been found, along a chain of
distinct modules. -/
theorem Stands.arrives (h : Stands loader root chain origin gate ss w) :
    ∃ includes os, Arrives loader root includes origin gate ss os ∧ Finds loader w os ∧
      Chained loader os chain origin ∧ origin ∉ chain := by
  induction h with
  | start hload =>
    obtain ⟨⟨source, hf, hp⟩, hvisited⟩ := finds_load (.start loader) hload
    exact ⟨[], _, .start hf hp, hvisited, ⟨List.nodup_nil, List.nil_subset _⟩, List.not_mem_nil⟩
  | next _ htake ih =>
    obtain ⟨includes, os, harrives, hfinds, hchained, hnew⟩ := ih
    obtain ⟨mid, hmid, hwalk⟩ := finds_take hfinds finds_resolve htake
    refine ⟨includes, mid, harrives.next (hwalk .nil), hmid, ⟨hchained.nodup, ?_⟩, hnew⟩
    exact List.Subset.trans hchained.led (Loader.targets_subset (hwalk .nil).isPrefix)
  | @enter chain origin _ _ _ directive _ _ _ _ _ _ ht hnew hgate hload ih =>
    obtain ⟨includes, os, harrives, hfinds, hchained, hfresh⟩ := ih
    obtain ⟨text, htext, rfl⟩ := hfinds.target_eq_fixed ht
    obtain ⟨hcondition, rfl⟩ := finds_conditionGate hfinds hgate
    obtain ⟨⟨source, hf, hp⟩, hvisited⟩ := finds_load hcondition hload
    refine ⟨_, _, harrives.enter htext hf hp, hvisited, ?_, hnew⟩
    have hprefix : os <+: os ++ ofCondition origin directive.condition ++
        [.visit (Path.canonical text)] := by
      rw [List.append_assoc]
      exact List.prefix_append _ _
    obtain ⟨source', module', hf', hp', hsuffix⟩ := harrives.of_module
    have hmem : directive ∈ loader.includes :=
      loader.mem_includes hf' hp' (hsuffix.subset List.mem_cons_self)
    exact hchained.enter hfresh hprefix
      (Loader.targets_subset hprefix (Loader.mem_targets hmem htext))

/-- The chain up to an include whose target is known is shorter than the bound on the depth. -/
theorem Stands.length_lt (h : Stands loader root chain origin gate (.inclusion directive :: ss) w)
    (ht : directive.target.target w.draft.literal? = .fixed target) :
    chain.length + 1 < loader.depth := by
  obtain ⟨includes, os, harrives, hfinds, hchained, hnew⟩ := h.arrives
  obtain ⟨text, htext, rfl⟩ := hfinds.target_eq_fixed ht
  obtain ⟨source, module, hf, hp, hsuffix⟩ := harrives.of_module
  have hmem : directive ∈ loader.includes :=
    loader.mem_includes hf hp (hsuffix.subset List.mem_cons_self)
  have hlength :=
    (hchained.enter hnew List.prefix_rfl (Loader.mem_targets hmem htext)).length_lt
  rwa [List.length_append, List.length_singleton] at hlength

/-- No module is on the chain twice, and the module of the place is not on it. -/
theorem Stands.nodup (h : Stands loader root chain origin gate ss w) :
    (chain ++ [origin]).Nodup := by
  obtain ⟨includes, os, -, -, hchained, hnew⟩ := h.arrives
  exact ((List.perm_append_singleton origin chain).nodup_iff).2
    (List.nodup_cons.2 ⟨hnew, hchained.nodup⟩)

/-- The chain to a place begins with the entry module. -/
theorem Stands.head? (h : Stands loader root chain origin gate ss w) :
    (chain ++ [origin]).head? = some root := by
  induction h with
  | start _ => rfl
  | next _ _ ih => exact ih
  | enter _ _ _ _ _ ih => rw [List.head?_append, ih, Option.some_or]

theorem Stands.idxOf?_root (h : Stands loader root chain origin gate ss w) :
    (chain ++ [origin]).idxOf? root = some 0 := by
  have hhead := h.head?
  cases hchain : chain ++ [origin] with
  | nil => simp at hchain
  | cons first others =>
    rw [hchain, List.head?_cons, Option.some.injEq] at hhead
    rw [hhead, List.idxOf?_cons]
    simp

/-- On the chain to a place, each module includes the next. -/
theorem Stands.isChain (h : Stands loader root chain origin gate ss w) :
    (chain ++ [origin]).IsChain (Includes loader root) := by
  induction h with
  | start _ => exact List.isChain_singleton root
  | next _ _ ih => exact ih
  | @enter chain origin target _ _ _ _ _ _ _ _ hs ht _ _ _ ih =>
    refine ih.append (List.isChain_singleton target) fun p hp q hq => ?_
    obtain rfl : origin = p := by simpa using hp
    obtain rfl : target = q := by simpa using hq
    exact ⟨_, _, _, _, _, hs, ht⟩

/-- The modules on the chain to a place can be fetched. -/
theorem Stands.fetch (h : Stands loader root chain origin gate ss w) :
    ∀ p ∈ chain ++ [origin], ∃ source, loader.fetch p = .ok source := by
  induction h with
  | start hload =>
    obtain ⟨⟨source, hf, -⟩, -⟩ := finds_load (.start loader) hload
    exact List.forall_mem_singleton.2 ⟨source, hf⟩
  | next _ _ ih => exact ih
  | enter hs _ _ hgate hload ih =>
    obtain ⟨includes, os, -, hfinds, -, -⟩ := hs.arrives
    obtain ⟨⟨source, hf, -⟩, -⟩ := finds_load (finds_conditionGate hfinds hgate).1 hload
    exact List.forall_mem_append.2 ⟨ih, List.forall_mem_singleton.2 ⟨source, hf⟩⟩

/-! ### Loading modules -/

/-- Why a module cannot be loaded. -/
theorem error_of_load {includedFrom : Option String}
    (h : ExceptT.run (load loader target includedFrom) w = (.error error, w')) :
    ((∃ p, loader.fetch target = .error (.notFound p)) ∧ error = .notFound target includedFrom) ∨
      (∃ cause, error = .load target cause) ∨
      ∃ source cause, loader.fetch target = .ok source ∧
        Statement.parse target source = .error cause ∧ error = .malformed cause := by
  cases hm : w.modules.get? target with
  | some module =>
    rw [run_load_known hm] at h
    cases h
  | none =>
    rw [run_load_new hm] at h
    split at h
    · rename_i p hf
      cases h
      exact .inl ⟨⟨p, hf⟩, rfl⟩
    · cases h
      exact .inr (.inl ⟨_, rfl⟩)
    · rename_i source hf
      split at h
      · rename_i cause hp
        cases h
        exact .inr (.inr ⟨source, cause, hf, hp, rfl⟩)
      · cases h

/-- A module that is not there cannot be loaded. -/
theorem Finds.run_load_of_missing (h : Finds loader w os) {p : String}
    (hf : loader.fetch target = .error (.notFound p)) (includedFrom : Option String) :
    ∃ w', ExceptT.run (load loader target includedFrom) w =
      (.error (.notFound target includedFrom), w') := by
  cases hm : w.modules.get? target with
  | some module =>
    obtain ⟨source, hsource, -⟩ := h.parsed hm
    rw [hf] at hsource
    cases hsource
  | none => exact ⟨{ w with asked := w.asked ++ [target] }, by rw [run_load_new hm, hf]⟩

/-! ### From places to errors -/

/-- The gate of a condition can always be had. -/
theorem exists_yields_conditionGate (origin : String) (condition : Option Expr) (w : Walk) :
    ∃ inner w', Yields (conditionGate origin condition) w inner w' := by
  cases condition with
  | none => exact ⟨_, _, rfl⟩
  | some expr => exact ⟨_, _, rfl⟩

/-- Entering a module from a place: it must not be on the chain, and then its statements are
taken. -/
theorem Stands.run_further
    (h : Stands loader root chain origin gate (.inclusion directive :: ss) w)
    (ht : directive.target.target w.draft.literal? = .fixed target) (inner : Gate) (w' : Walk) :
    ExceptT.run (further loader chain origin target inner) w' =
      match (chain ++ [origin]).idxOf? target with
      | some i => (.error (.cycle ((chain ++ [origin]).drop i ++ [target])), w')
      | none => ExceptT.run (load loader target (some origin) >>= fun module =>
          module.forM (take target inner (further loader (chain ++ [origin]) target))) w' := by
  obtain ⟨n, hn⟩ : ∃ n, loader.depth - (chain.length + 1) = n + 1 := by
    have hlength := h.length_lt ht
    exact ⟨loader.depth - (chain.length + 2), by omega⟩
  have hnext : loader.depth - ((chain ++ [origin]).length + 1) = n := by
    rw [List.length_append, List.length_singleton]
    omega
  unfold further
  rw [hn, hnext, resolve]
  cases (chain ++ [origin]).idxOf? target <;> rfl

/-- An include whose target is known enters the module, after its condition. -/
theorem run_take_fixed {enter : String → Gate → WalkM Unit}
    (ht : directive.target.target w.draft.literal? = .fixed target) {inner : Gate}
    (hgate : Yields (conditionGate origin directive.condition) w inner w') :
    ExceptT.run (take origin gate enter (.inclusion directive)) w =
      ExceptT.run (enter target (gate.and inner)) w' := by
  simp only [take, run_bind, run_get, ht]
  rw [show ExceptT.run (conditionGate origin directive.condition) w = (.ok inner, w') from hgate]

theorem run_forM_cons {f : Statement → WalkM Unit} :
    ExceptT.run ((s :: ss).forM f) w = ExceptT.run (f s >>= fun _ => ss.forM f) w :=
  rfl

/-- A statement at a place, at which there is a fault, ends the walk through it. -/
theorem Fault.run_take (h : Stands loader root chain origin gate (s :: ss) w)
    (hfault : Fault loader chain origin gate s w error) :
    ∃ w', ExceptT.run (take origin gate (further loader chain origin) s) w =
      (.error error, w') := by
  cases hfault with
  | binding hd => exact ⟨w, by simp only [take, define, run_bind, run_get, hd]; rfl⟩
  | site ht hc => exact ⟨w, by simp only [take, run_bind, run_get, ht, checkSite, hc]; rfl⟩
  | @cycle directive _ _ _ ht hi =>
    obtain ⟨inner, w', hgate⟩ := exists_yields_conditionGate origin directive.condition w
    refine ⟨w', ?_⟩
    rw [run_take_fixed ht hgate, h.run_further ht, hi]
  | @load _ _ _ _ _ w'' _ ht hnew hgate hload =>
    refine ⟨w'', ?_⟩
    rw [run_take_fixed ht hgate, h.run_further ht, List.idxOf?_eq_none_iff.2 hnew]
    dsimp only
    rw [run_bind, hload]

/-- A whole walk takes the statements of its entry module. -/
theorem run_walk (loader : Loader) (root : String) :
    loader.walk root = ExceptT.run (load loader root none >>= fun module =>
      module.forM (take root .always (further loader [] root))) Walk.start := by
  obtain ⟨n, hn⟩ := Nat.exists_eq_add_one_of_ne_zero (Nat.ne_of_gt loader.depth_pos)
  have hfurther : further loader [] root = fun target inner =>
      resolve loader n target inner [root] (some root) := by
    unfold further
    rw [hn]
    rfl
  unfold Loader.walk
  rw [hn, hfurther]
  rfl

/-- A walk that fails from a place on fails as a whole. -/
theorem Stands.walk_of_error (h : Stands loader root chain origin gate ss w)
    (hrun : ExceptT.run (ss.forM (take origin gate (further loader chain origin))) w =
      (.error error, w')) : loader.walk root = (.error error, w') := by
  induction h generalizing w' with
  | start hload =>
    rw [run_walk, run_bind, hload]
    exact hrun
  | next _ htake ih =>
    refine ih ?_
    rw [run_forM_cons, run_bind, htake]
    exact hrun
  | enter hs ht hnew hgate hload ih =>
    refine ih ?_
    rw [run_forM_cons, run_bind, run_take_fixed ht hgate, hs.run_further ht,
      List.idxOf?_eq_none_iff.2 hnew]
    dsimp only
    rw [run_bind, hload]
    dsimp only
    rw [hrun]

/-! ### From errors to places -/

/-- If a walk fails at a statement, then there is a fault, or the statement is an include and the
walk fails from the first place in the included module on. -/
theorem Stands.fault_of_take (h : Stands loader root chain origin gate (s :: ss) w)
    (hrun : ExceptT.run (take origin gate (further loader chain origin) s) w =
      (.error error, w')) :
    Fault loader chain origin gate s w error ∨
      ∃ target inner module w'', chain.length < loader.depth ∧
        Stands loader root (chain ++ [origin]) target inner module w'' ∧
        ExceptT.run (module.forM (take target inner (further loader (chain ++ [origin]) target)))
          w'' = (.error error, w') := by
  cases s with
  | binding name expr isDefault line =>
    left
    simp only [take, define, run_bind, run_get] at hrun
    split at hrun
    · rename_i duplicate hd
      cases hrun
      exact .binding hd
    · cases hrun
  | inclusion directive =>
    cases ht : directive.target.target w.draft.literal? with
    | pending template =>
      left
      simp only [take, run_bind, run_get, ht, checkSite] at hrun
      cases hc : directive.condition with
      | none =>
        rw [hc] at hrun
        cases hrun
      | some expr =>
        rw [hc] at hrun
        cases hrun
        exact .site ht hc
    | fixed target =>
      obtain ⟨inner, w₁, hgate⟩ := exists_yields_conditionGate origin directive.condition w
      rw [run_take_fixed ht hgate, h.run_further ht] at hrun
      split at hrun
      · rename_i i hi
        cases hrun
        exact .inl (.cycle ht hi)
      · rename_i hidx
        have hnew := List.idxOf?_eq_none_iff.1 hidx
        rw [run_bind] at hrun
        split at hrun
        · rename_i module w₂ hload
          have hlt : chain.length < loader.depth := by
            have hlength := h.length_lt ht
            omega
          exact .inr ⟨target, _, module, w₂, hlt, h.enter ht hnew hgate hload, hrun⟩
        · rename_i error' w₂ hload
          cases hrun
          exact .inl (.load ht hnew hgate hload)

/-- A walk that fails from a place on comes to a statement at which there is a fault. -/
theorem Stands.exists_fault (h : Stands loader root chain origin gate ss w)
    (hrun : ExceptT.run (ss.forM (take origin gate (further loader chain origin))) w =
      (.error error, w')) :
    ∃ chain origin gate s rest w, Stands loader root chain origin gate (s :: rest) w ∧
      Fault loader chain origin gate s w error := by
  -- An included module is one further along the chain, which is bounded; within a module, there is
  -- one statement less.
  induction hn : loader.depth - chain.length using Nat.strong_induction_on
    generalizing chain origin gate ss w w' with
  | _ n ihdepth =>
    induction ss generalizing w with
    | nil => cases hrun
    | cons s rest ih =>
      rw [run_forM_cons, run_bind] at hrun
      split at hrun
      · rename_i u w₁ htake
        exact ih (h.next htake) hrun
      · rename_i error' w₁ htake
        cases hrun
        obtain hfault | ⟨target, inner, module, w₂, hlt, hs, hmodule⟩ := h.fault_of_take htake
        · exact ⟨_, _, _, _, _, _, h, hfault⟩
        · refine ihdepth _ ?_ hs hmodule rfl
          rw [List.length_append, List.length_singleton]
          omega

/-- **A walk fails at a fault.** It fails exactly if its entry module cannot be loaded, or if it
comes to a statement at which there is a fault; the error is that of the statement. -/
theorem fails_iff :
    (∃ w, loader.walk root = (.error error, w)) ↔
      (∃ w, ExceptT.run (load loader root none) Walk.start = (.error error, w)) ∨
      ∃ chain origin gate s rest w, Stands loader root chain origin gate (s :: rest) w ∧
        Fault loader chain origin gate s w error := by
  constructor
  · rintro ⟨w, hwalk⟩
    rw [run_walk, run_bind] at hwalk
    split at hwalk
    · rename_i module w₁ hload
      exact .inr (Stands.exists_fault (.start hload) hwalk)
    · rename_i error' w₁ hload
      cases hwalk
      exact .inl ⟨w, hload⟩
  · rintro (⟨w, hload⟩ | ⟨chain, origin, gate, s, rest, w, hs, hfault⟩)
    · refine ⟨w, ?_⟩
      rw [run_walk, run_bind, hload]
    · obtain ⟨w', htake⟩ := hfault.run_take hs
      refine ⟨w', hs.walk_of_error ?_⟩
      rw [run_forM_cons, run_bind, htake]

end Walk

/-! ### Compiles that fail -/

namespace Loader

variable {loader : Loader} {path root origin target : String} {error : CompileError}
  {chain : List String} {gate : Gate} {directive : Include} {rest : List Statement} {w : Walk}

/-- A module does not compile if the walk from it fails, and else only if slots depend on each
other in a circle. -/
theorem walk_of_compile_error (h : loader.compile path = .error error) :
    (∃ w, loader.walk (Path.canonical path) = (.error error, w)) ∨
      ∃ chain, error = .dependencyCycle chain := by
  unfold compile at h
  dsimp only at h
  split at h
  · rename_i error' w hw
    cases h
    exact .inl ⟨w, hw⟩
  · split at h
    · rename_i chain _
      cases h
      exact .inr ⟨chain, rfl⟩
    · cases h

/-- The error for which the module at a path does not compile. -/
def error? (loader : Loader) (path : String) : Option CompileError :=
  match loader.compile path with
  | .ok _ => none
  | .error error => some error

theorem compile_of_error? (h : loader.error? path = some error) :
    loader.compile path = .error error := by
  unfold error? at h
  split at h
  · cases h
  · rename_i hc
    rw [hc, Option.some.inj h]

theorem compile_of_walk_error (h : loader.walk (Path.canonical path) = (.error error, w)) :
    loader.compile path = .error error := by
  rw [compile, h]

/-- If the walk comes to an include of a module that is not there, then this is the error. -/
theorem compile_of_missing
    (h : Walk.Stands loader (Path.canonical path) chain origin gate
      (.inclusion directive :: rest) w)
    (ht : directive.target.target w.draft.literal? = .fixed target) {p : String}
    (hf : loader.fetch target = .error (.notFound p)) :
    loader.compile path = .error (.notFound target (some origin)) := by
  have hnew : target ∉ chain ++ [origin] := by
    intro hmem
    obtain ⟨source, hsource⟩ := h.fetch target hmem
    rw [hf] at hsource
    cases hsource
  obtain ⟨inner, w', hgate⟩ := Walk.exists_yields_conditionGate origin directive.condition w
  obtain ⟨includes, os, -, hfinds, -⟩ := h.arrives
  obtain ⟨w'', hload⟩ :=
    (Walk.finds_conditionGate hfinds hgate).1.run_load_of_missing hf (some origin)
  obtain ⟨w₁, hw⟩ := Walk.fails_iff.2
    (.inr ⟨chain, origin, gate, _, rest, w, h, .load ht hnew hgate hload⟩)
  exact compile_of_walk_error hw

/-- If the walk comes to an include that leads back to the chain, then this is the error. -/
theorem compile_of_return
    (h : Walk.Stands loader (Path.canonical path) chain origin gate
      (.inclusion directive :: rest) w)
    (ht : directive.target.target w.draft.literal? = .fixed target) {i : Nat}
    (hi : (chain ++ [origin]).idxOf? target = some i) :
    loader.compile path = .error (.cycle ((chain ++ [origin]).drop i ++ [target])) := by
  obtain ⟨w₁, hw⟩ := Walk.fails_iff.2
    (.inr ⟨chain, origin, gate, _, rest, w, h, .cycle ht hi⟩)
  exact compile_of_walk_error hw

/-- A module that does not compile has an error that comes from a walk, unless slots depend on each
other in a circle: from loading the entry module, or from a place. -/
theorem exists_fault_of_compile (h : loader.compile path = .error error)
    (hne : ∀ chain, error ≠ .dependencyCycle chain) :
    (∃ w, ExceptT.run (Walk.load loader (Path.canonical path) none) Walk.start =
        (.error error, w)) ∨
      ∃ chain origin gate s rest w,
        Walk.Stands loader (Path.canonical path) chain origin gate (s :: rest) w ∧
          Walk.Fault loader chain origin gate s w error :=
  Walk.fails_iff.1 ((walk_of_compile_error h).resolve_right fun ⟨chain, he⟩ => hne chain he)

/-- If the error is a cycle, then an include has led back to its chain. -/
theorem exists_return {cycle : List String} (h : loader.compile path = .error (.cycle cycle)) :
    ∃ chain origin gate directive rest w target i,
      Walk.Stands loader (Path.canonical path) chain origin gate (.inclusion directive :: rest) w ∧
      directive.target.target w.draft.literal? = .fixed target ∧
      (chain ++ [origin]).idxOf? target = some i ∧
      cycle = (chain ++ [origin]).drop i ++ [target] := by
  have hload {target : String} {includedFrom : Option String} {w w' : Walk} :
      ExceptT.run (Walk.load loader target includedFrom) w ≠ (.error (.cycle cycle), w') := by
    intro h
    obtain ⟨-, he⟩ | ⟨cause, he⟩ | ⟨-, cause, -, -, he⟩ := Walk.error_of_load h <;> cases he
  obtain ⟨w, hroot⟩ | ⟨chain, origin, gate, s, rest, w, hs, hfault⟩ :=
    exists_fault_of_compile h (by simp)
  · exact absurd hroot hload
  · cases hfault with
    | cycle ht hi => exact ⟨chain, origin, gate, _, rest, w, _, _, hs, ht, hi, rfl⟩
    | load _ _ _ h => exact absurd h hload

/-- If the error is that an included module is not there, then the walk has come to an include of
it. -/
theorem exists_missing (h : loader.compile path = .error (.notFound target (some origin))) :
    ∃ chain gate directive rest w,
      Walk.Stands loader (Path.canonical path) chain origin gate (.inclusion directive :: rest) w ∧
      directive.target.target w.draft.literal? = .fixed target ∧
      ∃ p, loader.fetch target = .error (.notFound p) := by
  obtain ⟨w, hroot⟩ | ⟨chain, origin', gate, s, rest, w, hs, hfault⟩ :=
    exists_fault_of_compile h (by simp)
  · obtain ⟨-, he⟩ | ⟨cause, he⟩ | ⟨-, cause, -, -, he⟩ := Walk.error_of_load hroot <;> cases he
  · cases hfault with
    | load ht _ _ hload =>
      obtain ⟨hf, he⟩ | ⟨cause, he⟩ | ⟨-, cause, -, -, he⟩ := Walk.error_of_load hload
      · cases he
        exact ⟨chain, gate, _, rest, w, hs, ht, hf⟩
      · cases he
      · cases he

/-- The error is that the entry module is not there exactly if it is not there. -/
theorem compile_eq_missing_iff :
    loader.compile path = .error (.notFound (Path.canonical path) none) ↔
      ∃ p, loader.fetch (Path.canonical path) = .error (.notFound p) := by
  constructor
  · intro h
    obtain ⟨w, hroot⟩ | ⟨chain, origin, gate, s, rest, w, -, hfault⟩ :=
      exists_fault_of_compile h (by simp)
    · obtain ⟨hf, -⟩ | ⟨cause, he⟩ | ⟨-, cause, -, -, he⟩ := Walk.error_of_load hroot
      · exact hf
      · cases he
      · cases he
    · -- The error for an include of a module that is not there names the module that includes it.
      cases hfault with
      | load _ _ _ hload =>
        obtain ⟨-, he⟩ | ⟨cause, he⟩ | ⟨-, cause, -, -, he⟩ := Walk.error_of_load hload <;> cases he
  · rintro ⟨p, hf⟩
    exact compile_of_notFound hf

end Loader

end GatedRules
