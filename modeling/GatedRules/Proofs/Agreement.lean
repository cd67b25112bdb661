import GatedRules.Proofs.Depth

/-!
# What a compile depends on

A compile depends on nothing but the answers of the loader to what it asks for: over a loader that
gives the same answers there, it asks for the same in the same order, and ends in the same result or
the same error (`compile_eq_of_agreement`). This does not follow from its result alone, since a
compile that fails has no result, and since the paths asked for depend on what has been read before.

Over two loaders, walks are taken apart alike, into steps that load a module and steps that ask for
nothing (`Walk.Alongside`). As long as the answers are the same, both walks have found the same, so
they ask for the same next. The bounds on the depth of the two walks are different, but neither is
met (`Walk.run_resolve_of_depth`).

A compile that succeeds has asked for just the modules that it reports, in this order, so it is
enough that these stay as they are. And two compiles that have fetched the same sources are the same
(`Loader.compile_eq_of_fingerprint`).
-/

namespace GatedRules

namespace Walk

/-- Walks over two loaders take the same steps: they load the same modules, and in between take
steps that ask for nothing and load nothing. -/
inductive Alongside (l l' : Loader) : {α : Type} → WalkM α → WalkM α → Prop
  /-- A step that asks for nothing. -/
  | quiet {α : Type} {x : WalkM α} :
    (∀ w, (ExceptT.run x w).2.asked = w.asked ∧ (ExceptT.run x w).2.modules = w.modules) →
    Alongside l l' x x
  /-- A module is loaded. -/
  | load (path : String) (includedFrom : Option String) :
    Alongside l l' (load l path includedFrom) (load l' path includedFrom)
  /-- One step after the other. -/
  | bind {α β : Type} {x y : WalkM α} {f g : α → WalkM β} :
    Alongside l l' x y → (∀ a, Alongside l l' (f a) (g a)) → Alongside l l' (x >>= f) (y >>= g)

namespace Alongside

variable {l l' : Loader} {origin : String} {gate : Gate}

theorem define (name : String) (expr : Expr) (isDefault : Bool) :
    Alongside l l' (define origin gate name expr isDefault)
      (Walk.define origin gate name expr isDefault) := by
  refine .quiet fun w => ?_
  simp only [Walk.define, run_bind, run_get]
  split <;> exact ⟨rfl, rfl⟩

theorem conditionGate (condition : Option Expr) :
    Alongside l l' (conditionGate origin condition) (Walk.conditionGate origin condition) := by
  refine .quiet fun w => ?_
  cases condition <;> exact ⟨rfl, rfl⟩

/-- Statements are taken alike, if included modules are. -/
theorem take {enter enter' : String → Gate → WalkM Unit}
    (henter : ∀ path inner, Alongside l l' (enter path inner) (enter' path inner)) (s : Statement) :
    Alongside l l' (take origin gate enter s) (Walk.take origin gate enter' s) := by
  cases s with
  | binding name expr isDefault line => exact define name expr isDefault
  | inclusion directive =>
    refine .bind (.quiet fun w => ⟨rfl, rfl⟩) fun w => ?_
    split
    · exact .bind (conditionGate directive.condition) fun inner => henter _ _
    · refine .quiet fun w => ?_
      split <;> exact ⟨rfl, rfl⟩

theorem forM {f g : Statement → WalkM Unit} (h : ∀ s, Alongside l l' (f s) (g s))
    (ss : List Statement) : Alongside l l' (ss.forM f) (ss.forM g) := by
  induction ss with
  | nil => exact .quiet fun w => ⟨rfl, rfl⟩
  | cons s ss ih => exact .bind (h s) fun _ => ih

theorem resolve (n : Nat) (path : String) (gate : Gate) (chain : List String)
    (includedFrom : Option String) :
    Alongside l l' (resolve l n path gate chain includedFrom)
      (Walk.resolve l' n path gate chain includedFrom) := by
  induction n generalizing path gate chain includedFrom with
  | zero => exact .quiet fun w => ⟨rfl, rfl⟩
  | succ n ih =>
    rw [Walk.resolve, Walk.resolve]
    split
    · exact .quiet fun w => ⟨rfl, rfl⟩
    · exact .bind (.load path includedFrom) fun module =>
        forM (take fun target inner => ih target inner _ _) module

/-! ### What walks ask for -/

variable {α : Type} {x y : WalkM α}

/-- A walk only goes on asking. -/
theorem asked_isPrefix (h : Alongside l l' x y) (w : Walk) :
    w.asked <+: (ExceptT.run x w).2.asked := by
  induction h generalizing w with
  | quiet hquiet => exact (hquiet w).1 ▸ List.prefix_rfl
  | load path includedFrom =>
    cases hm : w.modules.get? path with
    | some module =>
      have hsame : (ExceptT.run (Walk.load l path includedFrom) w).2 = w := by
        rw [run_load_known hm]
      exact hsame.symm ▸ List.prefix_rfl
    | none =>
      rw [run_load_new hm]
      split
      · exact List.prefix_append _ _
      · exact List.prefix_append _ _
      · split <;> exact List.prefix_append _ _
  | bind _ _ ihx ihf =>
    have hfirst := ihx w
    rw [run_bind]
    split
    · rename_i a w' hx
      rw [hx] at hfirst
      exact hfirst.trans (ihf a w')
    · rename_i error w' hx
      rwa [hx] at hfirst

/-- A walk that succeeds has asked for just the modules that it keeps. -/
theorem asked_eq_keys (h : Alongside l l' x y) {w w' : Walk} {a : α} (hx : Yields x w a w')
    (hw : w.asked = w.modules.keys) : w'.asked = w'.modules.keys := by
  induction h generalizing w w' with
  | quiet hquiet =>
    obtain ⟨hasked, hmodules⟩ := hquiet w
    rw [hx] at hasked hmodules
    rw [hasked, hmodules, hw]
  | load path includedFrom =>
    unfold Yields at hx
    cases hm : w.modules.get? path with
    | some module =>
      rw [run_load_known hm] at hx
      cases hx
      exact hw
    | none =>
      rw [run_load_new hm] at hx
      split at hx
      · cases hx
      · cases hx
      split at hx
      · cases hx
      cases hx
      rw [Table.keys_insert_of_not_mem _ (Table.get?_eq_none_iff.1 hm), hw]
  | bind _ _ ihx ihf =>
    obtain ⟨b, mid, hx, hf⟩ := yields_bind.1 hx
    exact ihf b hf (ihx hx hw)

/-- As long as two loaders give the same answers, walks over them are the same. -/
theorem run_eq_of_agreement (h : Alongside l l' x y) {w : Walk}
    (hsame : ∀ path ∈ (ExceptT.run x w).2.asked, l'.fetch path = l.fetch path) :
    ExceptT.run y w = ExceptT.run x w := by
  induction h generalizing w with
  | quiet => rfl
  | load path includedFrom =>
    cases hm : w.modules.get? path with
    | some module => rw [run_load_known hm, run_load_known hm]
    | none =>
      -- The path has been asked for, whatever the answer is.
      have hasked : path ∈ (ExceptT.run (Walk.load l path includedFrom) w).2.asked := by
        rw [run_load_new hm]
        split
        · simp
        · simp
        · split <;> simp
      rw [run_load_new hm, run_load_new hm, hsame path hasked]
  | @bind _ _ x y f g hx hf ihx ihf =>
    rcases ha : ExceptT.run x w with ⟨error | a, w'⟩
    · rw [run_bind, ha] at hsame
      have hfirst : ExceptT.run y w = ExceptT.run x w := by
        refine ihx fun path hpath => hsame path ?_
        rwa [ha] at hpath
      rw [run_bind, run_bind, hfirst, ha]
    · rw [run_bind, ha] at hsame
      -- What the first step has asked for is among what both steps have.
      have hfirst : ExceptT.run y w = ExceptT.run x w := by
        refine ihx fun path hpath => hsame path (((hf a).asked_isPrefix w').subset ?_)
        rwa [ha] at hpath
      rw [run_bind, run_bind, hfirst, ha]
      exact ihf a hsame

end Alongside

end Walk

/-! ### Compiles -/

namespace Loader

variable {l l' : Loader} {root path : String} {c c' : Compiled}

/-- A walk with a larger bound on its depth is the same. -/
theorem walk_eq_of_depth {n : Nat} (h : l.depth ≤ n) (root : String) :
    l.walk root = ExceptT.run (Walk.resolve l n root .always [] none) Walk.start := by
  refine Walk.run_resolve_of_depth (.start l) ⟨List.nodup_nil, List.nil_subset _⟩ ?_ ?_
  · simp
  · simpa using h

/-- Over a loader that gives the same answers to what a walk asks for, the walk is the same. -/
theorem walk_eq_of_agreement (h : ∀ p ∈ (l.walk root).2.asked, l'.fetch p = l.fetch p) :
    l'.walk root = l.walk root := by
  rw [walk_eq_of_depth (Nat.le_max_left l.depth l'.depth) root] at h ⊢
  rw [walk_eq_of_depth (Nat.le_max_right l.depth l'.depth) root]
  exact (Walk.Alongside.resolve _ root .always [] none).run_eq_of_agreement h

theorem compile_congr_walk (h : l'.walk (Path.canonical path) = l.walk (Path.canonical path)) :
    l'.compile path = l.compile path := by
  rw [compile, compile, h]

/-- A compile that succeeds has asked for just the modules that it reports. -/
theorem asked_of_compile (h : l.compile path = .ok c) : l.asked path = c.modules := by
  obtain ⟨u, w, hwalk, -, -, hmodules⟩ := walk_of_compile h
  have hsteps : Walk.Alongside l l _ _ :=
    .resolve l.depth (Path.canonical path) .always [] none
  rw [asked, hwalk, hmodules]
  exact hsteps.asked_eq_keys hwalk rfl

/-- The fingerprint of a compiled module has the answer to everything that was asked for. -/
theorem fetched_of_compile (h : l.compile path = .ok c) :
    ∃ sources, c.graph.fingerprint = .sources sources ∧ sources.map Prod.fst = l.asked path ∧
      ∀ source ∈ sources, l.fetch source.1 = .ok source.2 := by
  obtain ⟨os, w, -, hfinds, hbuild, -, hmodules⟩ := finds_of_compile h
  obtain ⟨-, -, -, -, hfingerprint⟩ := Draft.of_build hbuild
  refine ⟨w.fetched, hfingerprint, ?_, hfinds.fetched⟩
  rw [asked_of_compile h, hmodules, hfinds.order, hfinds.modules]

/-- Compiles with the same fingerprint are the same. -/
theorem compile_eq_of_fingerprint (h : l.compile path = .ok c) (h' : l'.compile path = .ok c')
    (hsame : c'.graph.fingerprint = c.graph.fingerprint) : c' = c := by
  obtain ⟨sources, hsources, hasked, hfetched⟩ := fetched_of_compile h
  obtain ⟨sources', hsources', -, hfetched'⟩ := fetched_of_compile h'
  have hsources : sources' = sources := by
    rw [hsources, hsources'] at hsame
    exact Fingerprint.sources.inj hsame
  have hagree : ∀ p ∈ l.asked path, l'.fetch p = l.fetch p := by
    intro p hp
    rw [← hasked] at hp
    obtain ⟨source, hsource, rfl⟩ := List.mem_map.1 hp
    rw [hfetched source hsource, hfetched' source (hsources ▸ hsource)]
  have hcompile := compile_congr_walk (walk_eq_of_agreement hagree)
  rw [h, h'] at hcompile
  exact Except.ok.inj hcompile

end Loader

/-- **A compile depends only on the answers to what it asks for.** Over a second loader that gives
the same answers there, it asks for the same paths in the same order, and ends in the same way. If
it succeeds, it has asked for just the modules that it reports, so it stays the same as long as
these do. -/
theorem compile_eq_of_agreement (l l' : Loader) (path : String) :
    ((∀ p ∈ l.asked path, l'.fetch p = l.fetch p) →
      l'.asked path = l.asked path ∧ l'.compile path = l.compile path) ∧
    ∀ c, l.compile path = .ok c → l.asked path = c.modules ∧
      ((∀ p ∈ c.modules, l'.fetch p = l.fetch p) →
        l'.compile path = .ok c ∧ l'.asked path = c.modules) := by
  have hwalk : (∀ p ∈ l.asked path, l'.fetch p = l.fetch p) →
      l'.walk (Path.canonical path) = l.walk (Path.canonical path) :=
    Loader.walk_eq_of_agreement
  refine ⟨fun hagree => ⟨?_, Loader.compile_congr_walk (hwalk hagree)⟩, fun c hc => ?_⟩
  · rw [Loader.asked, Loader.asked, hwalk hagree]
  · refine ⟨Loader.asked_of_compile hc, fun hagree => ?_⟩
    rw [← Loader.asked_of_compile hc] at hagree ⊢
    rw [Loader.compile_congr_walk (hwalk hagree), hc, Loader.asked, Loader.asked, hwalk hagree]
    exact ⟨rfl, rfl⟩

/-- A module that takes the target of an include from a literal, one that includes what is missing,
and one that neither of them asks for. -/
def tariffs (unasked : String) : Loader :=
  (Bundle.ofList [
    ("main", "LET Kind := \"eu\"; INCLUDE \"rates/${Kind}\"; INCLUDE \"${Extra}\";"),
    ("rates/eu", "LET Rate := 2 DEFAULT;"),
    ("broken", "INCLUDE \"gone\"; INCLUDE \"main\";"),
    ("rates/us", unasked)]).loader

theorem tariffs_compile_alike :
    (tariffs "LET").fetch "rates/us" ≠ (tariffs "").fetch "rates/us" ∧
    (∃ c, (tariffs "").compile "main" = .ok c ∧ (tariffs "LET").compile "main" = .ok c ∧
      c.modules = ["main", "rates/eu"]) ∧
    (tariffs "LET").asked "broken" = ["broken", "gone"] ∧
    (tariffs "LET").compile "broken" = (tariffs "").compile "broken" := by
  have heval : ((tariffs "").compile "main").toOption.map Compiled.modules =
      some ["main", "rates/eu"] := by decide +kernel
  have hbroken := (compile_eq_of_agreement (tariffs "") (tariffs "LET") "broken").1
    (by decide +kernel)
  obtain ⟨c, hc, hmodules⟩ := exists_ok_of_map heval
  obtain ⟨-, hsame⟩ := (compile_eq_of_agreement (tariffs "") (tariffs "LET") "main").2 c hc
  have hmain : (tariffs "LET").compile "main" = .ok c := by
    refine (hsame ?_).1
    rw [hmodules]
    decide +kernel
  exact ⟨by decide +kernel, ⟨c, hc, hmain, hmodules⟩, hbroken.1.trans (by decide +kernel),
    hbroken.2⟩

end GatedRules
