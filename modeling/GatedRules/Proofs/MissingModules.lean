import GatedRules.Evaluation.Engine
import GatedRules.Proofs.Places

/-!
# Missing modules

A site whose module is absent is passed over, while a site whose module does not compile ends the
evaluation. Which of the two it is, is read off the error for which the module does not compile:
absent is the module whose error is that it is not there, and that nothing includes it
(`CompileError.isMissingRoot`). So the error for a module that is missing deeper down must never
look like this one, and it does not: it names the module that includes it.

For modules in memory, a path is absent exactly if there is no module at it, and otherwise the
answer is what the module compiles to, or the error for which it does not compile
(`Engine.resolvePath_tells_absence`). In particular, it is an error if the walk from the module
comes to an include of a missing module, however deep, or to an include that leads back to the
module.
-/

namespace GatedRules

/-- There is one error for which a module counts as absent. -/
theorem CompileError.isMissingRoot_iff {root : String} {error : CompileError} :
    error.isMissingRoot root = true ↔ error = .notFound root none := by
  cases error with
  | notFound path includedFrom => cases includedFrom <;> simp [isMissingRoot]
  | _ => simp [isMissingRoot]

namespace Bundle

/-- The modules that can be fetched are those in the bundle. -/
theorem fetch_loader (b : Bundle) (path : String) :
    b.contains path = false ∧ b.loader.fetch path = .error (.notFound path) ∨
      b.contains path = true ∧ ∃ source, b.loader.fetch path = .ok source := by
  change _ ∧ b.fetch path = _ ∨ _ ∧ ∃ source, b.fetch path = .ok source
  unfold contains fetch
  cases hget : b.modules.get? (Path.canonical path) with
  | none =>
    have hkey : Path.canonical path ∉ b.modules.keys := Table.get?_eq_none_iff.1 hget
    exact .inl ⟨by simpa [← Table.contains_iff_mem_keys] using hkey, rfl⟩
  | some source =>
    have hkey : Path.canonical path ∈ b.modules.keys := by
      rw [← Table.isSome_get?_iff, hget]
      rfl
    exact .inr ⟨Table.contains_iff_mem_keys.2 hkey, source, rfl⟩

theorem not_contains_iff {b : Bundle} {path : String} :
    b.contains path = false ↔ ∃ p, b.loader.fetch path = .error (.notFound p) := by
  obtain ⟨hcontains, hf⟩ | ⟨hcontains, source, hf⟩ := b.fetch_loader path
  · exact iff_of_true hcontains ⟨path, hf⟩
  · refine iff_of_false (by simp [hcontains]) ?_
    rintro ⟨p, hp⟩
    rw [hf] at hp
    cases hp

end Bundle

namespace Engine

variable {loader : Loader} {path : String}

/-- What compiling a module means for an execution, by how the compile ends. -/
theorem outcome_cases (loader : Loader) (path : String) :
    (∃ c, loader.compile path = .ok c ∧ outcome loader path = .ok (.resolved c.graph)) ∨
      (loader.compile path = .error (.notFound path none) ∧
        outcome loader path = .ok (.absent path)) ∨
      ∃ cause, loader.compile path = .error cause ∧ cause ≠ .notFound path none ∧
        outcome loader path = .error (.compile path cause) := by
  unfold outcome
  cases h : loader.compile path with
  | ok c => exact .inl ⟨c, rfl, rfl⟩
  | error cause =>
    right
    dsimp only
    split
    · rename_i hmissing
      obtain rfl := CompileError.isMissingRoot_iff.1 hmissing
      exact .inl ⟨rfl, rfl⟩
    · rename_i hmissing
      exact .inr ⟨cause, rfl, fun hcause => hmissing (CompileError.isMissingRoot_iff.2 hcause), rfl⟩

theorem outcome_eq_absent_iff {p : String} :
    outcome loader path = .ok (.absent p) ↔
      p = path ∧ loader.compile path = .error (.notFound path none) := by
  obtain ⟨c, hc, ho⟩ | ⟨hc, ho⟩ | ⟨cause, hc, hne, ho⟩ := outcome_cases loader path
  · simp [ho, hc]
  · simp [ho, hc, eq_comm]
  · simp [ho, hc, hne]

theorem outcome_eq_resolved_iff {g : Graph} :
    outcome loader path = .ok (.resolved g) ↔
      ∃ c, loader.compile path = .ok c ∧ c.graph = g := by
  obtain ⟨c, hc, ho⟩ | ⟨hc, ho⟩ | ⟨cause, hc, -, ho⟩ := outcome_cases loader path <;>
    simp [ho, hc]

theorem outcome_eq_error_iff {error : EvalError} :
    outcome loader path = .error error ↔
      ∃ cause, loader.compile path = .error cause ∧ cause ≠ .notFound path none ∧
        error = .compile path cause := by
  obtain ⟨c, hc, ho⟩ | ⟨hc, ho⟩ | ⟨cause, hc, hne, ho⟩ := outcome_cases loader path
  · simp [ho, hc]
  · simp [ho, hc]
  · simp [ho, hc, hne, eq_comm]

/-- As long as nothing better is known of a canonical path than that it has been asked for, its
module is compiled. -/
theorem resolvePath_fst_of_new (hpath : Path.canonical path = path) {e : Engine} {id : ExecutionId}
    (hnew : ∀ o, (e.memo id).get? path ≠ some (some o)) :
    (e.resolvePath loader id path).1 = outcome loader path := by
  rw [resolvePath_fst, hpath]
  split
  · rename_i o h
    exact absurd h (hnew o)
  · rfl

/-- **Absence is told from failure.** For modules in memory, let nothing better be known of a
canonical path than that it has been asked for. Then the answer is that the path is absent exactly
if there is no module at it; it is a graph exactly if the module compiles to this graph; and it is
an error exactly if there is a module, but it does not compile, for just this reason. So it is where
the walk from the module comes to an include, at any depth, of a module that is missing, or of the
module itself. -/
theorem resolvePath_tells_absence (b : Bundle) {path : String} (hpath : Path.canonical path = path)
    (e : Engine) (id : ExecutionId) (hnew : ∀ o, (e.memo id).get? path ≠ some (some o)) :
    (∀ p, (e.resolvePath b.loader id path).1 = .ok (.absent p) ↔
      p = path ∧ b.contains path = false) ∧
    (∀ g, (e.resolvePath b.loader id path).1 = .ok (.resolved g) ↔
      ∃ c, b.loader.compile path = .ok c ∧ c.graph = g) ∧
    (∀ error, (e.resolvePath b.loader id path).1 = .error error ↔
      b.contains path = true ∧
        ∃ cause, b.loader.compile path = .error cause ∧ error = .compile path cause) ∧
    ∀ chain origin gate directive rest w target,
      Walk.Stands b.loader path chain origin gate (.inclusion directive :: rest) w →
      directive.target.target w.draft.literal? = .fixed target →
      (b.contains target = false → (e.resolvePath b.loader id path).1 =
        .error (.compile path (.notFound target (some origin)))) ∧
      (target = path → (e.resolvePath b.loader id path).1 =
        .error (.compile path (.cycle (chain ++ [origin, path])))) := by
  -- Absent is what has no module, by the error for which nothing compiles.
  have hmissing : b.loader.compile path = .error (.notFound path none) ↔
      b.contains path = false := by
    have hiff := @Loader.compile_eq_missing_iff b.loader path
    rw [hpath] at hiff
    rw [hiff, Bundle.not_contains_iff]
  rw [resolvePath_fst_of_new hpath hnew]
  refine ⟨fun p => ?_, fun g => outcome_eq_resolved_iff, fun error => ?_, ?_⟩
  · rw [outcome_eq_absent_iff, hmissing]
  · have hpresent {cause : CompileError} (hc : b.loader.compile path = .error cause) :
        cause ≠ .notFound path none ↔ b.contains path = true := by
      rw [← Bool.not_eq_false, ← hmissing, hc, ne_eq, Except.error.injEq]
    rw [outcome_eq_error_iff]
    constructor
    · rintro ⟨cause, hc, hne, rfl⟩
      exact ⟨(hpresent hc).1 hne, cause, hc, rfl⟩
    · rintro ⟨hcontains, cause, hc, rfl⟩
      exact ⟨cause, hc, (hpresent hc).2 hcontains, rfl⟩
  · intro chain origin gate directive rest w target hs ht
    have hs' : Walk.Stands b.loader (Path.canonical path) chain origin gate
        (.inclusion directive :: rest) w := hpath.symm ▸ hs
    refine ⟨fun hgone => ?_, fun hback => ?_⟩
    · obtain ⟨p, hf⟩ := Bundle.not_contains_iff.1 hgone
      exact outcome_eq_error_iff.2 ⟨_, Loader.compile_of_missing hs' ht hf, by simp, rfl⟩
    · subst hback
      have hcompile := Loader.compile_of_return hs' ht hs.idxOf?_root
      rw [List.drop_zero, List.append_assoc] at hcompile
      exact outcome_eq_error_iff.2 ⟨_, hcompile, by simp, rfl⟩

/-- A module that is missing two includes deep, and an include that leads back to the entry module
by way of a literal. -/
def shelf : Bundle :=
  Bundle.ofList [
    ("main", "INCLUDE \"part\";"),
    ("part", "INCLUDE \"gone\";"),
    ("ring", "LET A := \"ring\"; INCLUDE \"back\";"),
    ("back", "INCLUDE \"${A}\";")]

theorem shelf_answers :
    (start.resolvePath shelf.loader 0 "gone").1 = .ok (.absent "gone") ∧
    (start.resolvePath shelf.loader 0 "main").1 =
      .error (.compile "main" (.notFound "gone" (some "part"))) ∧
    (start.resolvePath shelf.loader 0 "ring").1 =
      .error (.compile "ring" (.cycle ["ring", "back", "ring"])) := by
  have hmissing : shelf.loader.compile "main" = .error (.notFound "gone" (some "part")) :=
    Loader.compile_of_error? (by decide +kernel)
  have hcycle : shelf.loader.compile "ring" = .error (.cycle ["ring", "back", "ring"]) :=
    Loader.compile_of_error? (by decide +kernel)
  have hgone : shelf.contains "gone" = false := by decide +kernel
  have hnew (path : String) (o : Outcome) : (start.memo 0).get? path ≠ some (some o) := by
    simp [memo, start, startWith]
  have hmain : Path.canonical "main" = "main" := by decide +kernel
  have hring : Path.canonical "ring" = "ring" := by decide +kernel
  refine ⟨?_, ?_, ?_⟩
  · have hpath : Path.canonical "gone" = "gone" := by decide +kernel
    exact ((resolvePath_tells_absence shelf hpath start 0 (hnew _)).1 "gone").2 ⟨rfl, hgone⟩
  · obtain ⟨chain, gate, directive, rest, w, hs, ht, -⟩ := Loader.exists_missing hmissing
    rw [hmain] at hs
    exact ((resolvePath_tells_absence shelf hmain start 0 (hnew _)).2.2.2 chain "part" gate
      directive rest w "gone" hs ht).1 hgone
  · obtain ⟨chain, origin, gate, directive, rest, w, target, i, hs, ht, -, hclosed⟩ :=
      Loader.exists_return hcycle
    obtain rfl : "ring" = target := by
      simpa using congrArg List.getLast? hclosed
    rw [hring] at hs
    obtain ⟨-, -, herror, hplace⟩ := resolvePath_tells_absence shelf hring start 0 (hnew _)
    have hanswer := (hplace chain origin gate directive rest w "ring" hs ht).2 rfl
    obtain ⟨-, cause, hc, he⟩ := (herror _).1 hanswer
    rw [hanswer, he, Except.error.inj (hc.symm.trans hcycle)]

end Engine

end GatedRules
