import GatedRules.Proofs.Agreement
import GatedRules.Watch

/-!
# Reloading

A watched module is compiled at the start of the watch and at every tick, over the loader as it is
then. What the watch should hold is read off these loaders alone, without any memory but that of the
latest one over which the module compiled (`Watch.served`): its graph and its fingerprint, or the
empty graph if there is none.

The watch holds just that after every history of edits and ticks (`watch_serves_latest`). Where a
tick publishes nothing although its compile succeeds, the graph it has thrown away is the published
one; for then the compile has fetched the same as the latest one that succeeded, and compiles that
have fetched the same are the same (`Loader.compile_eq_of_fingerprint`).

Fingerprints are the sequences that were fetched. A watch that compares digests of them does the
same, as long as no two of the sequences that it meets have the same digest
(`Watch.Session.afterBy_eq`).
-/

namespace GatedRules

namespace Loader

/-- A module compiles. -/
def compiles (loader : Loader) (path : String) : Bool :=
  (loader.compile path).toOption.isSome

/-- The paths and sources that compiling the module at a path fetches, in order. -/
def fetched (loader : Loader) (path : String) : List (String × String) :=
  (loader.walk (Path.canonical path)).2.fetched

variable {loader : Loader} {path : String} {c : Compiled}

theorem compiles_iff : loader.compiles path = true ↔ ∃ c, loader.compile path = .ok c := by
  constructor
  · intro h
    obtain ⟨c, hc⟩ := Option.isSome_iff_exists.1 h
    exact ⟨c, eq_ok_of_toOption hc⟩
  · rintro ⟨c, hc⟩
    rw [compiles, hc]
    rfl

theorem compiles_of_ok (h : loader.compile path = .ok c) : loader.compiles path = true :=
  compiles_iff.2 ⟨c, h⟩

theorem compiles_of_error {error : CompileError} (h : loader.compile path = .error error) :
    loader.compiles path = false := by
  rw [compiles, h]
  rfl

theorem fingerprint_of_compile (h : loader.compile path = .ok c) :
    c.graph.fingerprint = .sources (loader.fetched path) := by
  obtain ⟨u, w, hwalk, hbuild, -, -⟩ := walk_of_compile h
  obtain ⟨-, -, -, -, hfingerprint⟩ := Draft.of_build hbuild
  rw [hfingerprint, fetched, hwalk]

end Loader

namespace Watch

/-! ### What a watch should do -/

variable {main : String} {past : List Loader} {now : Loader}

/-- The latest loader over which a module compiles. -/
def latest? (main : String) (past : List Loader) : Option Loader :=
  (past.filter fun l => l.compiles main).getLast?

/-- What a watch should hold after its module has been compiled over some loaders. -/
def served (main : String) (past : List Loader) : Watch :=
  match (latest? main past).bind fun l => (l.compile main).toOption with
  | none => ⟨main, .empty main, none⟩
  | some c => ⟨main, c.graph, some c.graph.fingerprint⟩

/-- Whether a tick should publish: its compile succeeds, and has fetched something else than the
latest one that succeeded, if there is one. -/
def publishes (main : String) (past : List Loader) (now : Loader) : Bool :=
  now.compiles main && (latest? main past).all fun l => l.fetched main ≠ now.fetched main

/-- How many of the ticks over some loaders should publish. -/
def publications (main : String) : List Loader → List Loader → Nat
  | _, [] => 0
  | past, now :: ticks =>
    (publishes main past now).toNat + publications main (past ++ [now]) ticks

/-- How many of the ticks over some loaders fail. -/
def failures (main : String) (ticks : List Loader) : Nat :=
  ticks.countP fun l => !l.compiles main

theorem latest?_append : latest? main (past ++ [now]) =
    if now.compiles main then some now else latest? main past := by
  unfold latest?
  rw [List.filter_append]
  cases h : now.compiles main <;> simp [h]

theorem compile_of_latest? {l : Loader} (h : latest? main past = some l) :
    ∃ c, l.compile main = .ok c := by
  have hmem : l ∈ past.filter fun l => l.compiles main := List.mem_of_getLast? h
  exact Loader.compiles_iff.1 (List.mem_filter.1 hmem).2

theorem served_eq (main : String) (past : List Loader) :
    (latest? main past = none ∧ served main past = ⟨main, .empty main, none⟩) ∨
      ∃ l c, latest? main past = some l ∧ l.compile main = .ok c ∧
        served main past = ⟨main, c.graph, some c.graph.fingerprint⟩ := by
  unfold served
  cases hl : latest? main past with
  | none => exact .inl ⟨rfl, rfl⟩
  | some l =>
    obtain ⟨c, hc⟩ := compile_of_latest? hl
    refine .inr ⟨l, c, rfl, hc, ?_⟩
    rw [Option.bind_some, hc]
    rfl

/-- A compile that fails does not change what should be held. -/
theorem served_of_error {error : CompileError} (h : now.compile main = .error error)
    (past : List Loader) : served main (past ++ [now]) = served main past := by
  rw [served, latest?_append, if_neg (by simp [Loader.compiles_of_error h]), served]

/-- After a compile that succeeds its graph should be held. -/
theorem served_of_ok {c : Compiled} (h : now.compile main = .ok c) (past : List Loader) :
    served main (past ++ [now]) = ⟨main, c.graph, some c.graph.fingerprint⟩ := by
  rw [served, latest?_append, if_pos (Loader.compiles_of_ok h), Option.bind_some, h]
  rfl

/-! ### Starts and ticks -/

theorem start_eq (e : Engine) (loader : Loader) (main : String) :
    start e loader main = (served main [loader], (e.compile loader main).2) := by
  have hfirst : served main [loader] = served main ([] ++ [loader]) := rfl
  unfold start Engine.compile
  rw [hfirst]
  cases h : loader.compile main with
  | error error =>
    rw [served_of_error h]
    rfl
  | ok c =>
    rw [served_of_ok h]

variable {e : Engine} {w : Watch}

theorem main_served (main : String) (past : List Loader) : (served main past).main = main := by
  obtain ⟨-, hs⟩ | ⟨_, _, -, -, hs⟩ := served_eq main past <;> rw [hs]

theorem publishes_iff : publishes main past now = true ↔ (∃ c, now.compile main = .ok c) ∧
    ∀ l, latest? main past = some l → l.fetched main ≠ now.fetched main := by
  rw [publishes, Bool.and_eq_true, Loader.compiles_iff]
  cases latest? main past <;> simp

/-- Compiling counts no reload. -/
theorem reloads_compile (e : Engine) (loader : Loader) (path : String) :
    (e.compile loader path).2.metrics.reloads = e.metrics.reloads ∧
      (e.compile loader path).2.metrics.reloadErrors = e.metrics.reloadErrors := by
  unfold Engine.compile Metrics.countCompilation
  cases loader.compile path <;> exact ⟨rfl, rfl⟩

theorem tick_of_error {error : CompileError} (h : now.compile w.main = .error error)
    (e : Engine) : w.tick e now = (false, w, countReload (e.compile now w.main).2 false) := by
  unfold tick Engine.compile
  rw [h]

theorem tick_of_ok {c : Compiled} (h : now.compile w.main = .ok c) (e : Engine) :
    w.tick e now =
      if w.last = some c.graph.fingerprint then (false, w, (e.compile now w.main).2)
      else (true, { w with graph := c.graph, last := some c.graph.fingerprint },
        countReload (e.compile now w.main).2 true) := by
  unfold tick Engine.compile
  rw [h]

/-- What a watch holds has the fingerprint of a compile if the latest one has fetched the same. -/
theorem last_served_iff {c : Compiled} (h : now.compile main = .ok c) (past : List Loader) :
    (served main past).last = some c.graph.fingerprint ↔
      ∃ l, latest? main past = some l ∧ l.fetched main = now.fetched main := by
  obtain ⟨hl, hs⟩ | ⟨l, c', hl, hc', hs⟩ := served_eq main past
  · simp [hs, hl]
  · simp [hs, hl, Loader.fingerprint_of_compile h, Loader.fingerprint_of_compile hc']

/-- **A tick does what it should.** It publishes if it should, the watch then holds what it should,
and the counters count the tick if it publishes or fails. -/
theorem tick_served (e : Engine) (main : String) (past : List Loader) (now : Loader) :
    ∃ e', (served main past).tick e now =
        (publishes main past now, served main (past ++ [now]), e') ∧
      e'.metrics.reloads = e.metrics.reloads + (publishes main past now).toNat +
        failures main [now] ∧
      e'.metrics.reloadErrors = e.metrics.reloadErrors + failures main [now] := by
  obtain ⟨hreloads, herrors⟩ := reloads_compile e now main
  have hmain := main_served main past
  cases hnow : now.compile main with
  | error error =>
    have hcompiles := Loader.compiles_of_error hnow
    have hpublishes : publishes main past now = false := by simp [publishes, hcompiles]
    rw [tick_of_error (hmain.symm ▸ hnow), hmain, served_of_error hnow, hpublishes]
    refine ⟨_, rfl, ?_, ?_⟩ <;> simp [countReload, Metrics.countReload, failures, *]
  | ok c =>
    have hcompiles := Loader.compiles_of_ok hnow
    rw [tick_of_ok (hmain.symm ▸ hnow), hmain]
    split
    · -- The latest compile has fetched the same, so it has given the same graph.
      rename_i hsame
      obtain ⟨l, hl, hfetched⟩ := (last_served_iff hnow past).1 hsame
      have hpublishes : publishes main past now = false := by
        rw [← Bool.not_eq_true, publishes_iff]
        exact fun h => h.2 l hl hfetched
      have hserved : served main (past ++ [now]) = served main past := by
        obtain ⟨hnone, -⟩ | ⟨l', c', hl', hc', hs⟩ := served_eq main past
        · rw [hl] at hnone
          cases hnone
        · rw [hs] at hsame
          have hc : c = c' :=
            Loader.compile_eq_of_fingerprint hc' hnow (Option.some.inj hsame).symm
          rw [served_of_ok hnow, hs, hc]
      rw [hpublishes, hserved]
      refine ⟨_, rfl, ?_, ?_⟩ <;> simp [failures, *]
    · rename_i hnew
      have hpublishes : publishes main past now = true := by
        rw [last_served_iff hnow, not_exists] at hnew
        exact publishes_iff.2 ⟨⟨c, hnow⟩, fun l hl hfetched => hnew l ⟨hl, hfetched⟩⟩
      rw [hpublishes, served_of_ok hnow]
      refine ⟨_, rfl, ?_, ?_⟩ <;> simp [countReload, Metrics.countReload, failures, *]

/-- A tick that compares digests of fingerprints. -/
def tickBy {δ : Type} [DecidableEq δ] (digest : Fingerprint → δ) (w : Watch) (e : Engine)
    (loader : Loader) : Bool × Watch × Engine :=
  match e.compile loader w.main with
  | (.error _, e) => (false, w, countReload e false)
  | (.ok compiled, e) =>
    let graph := compiled.graph
    if w.last.map digest = some (digest graph.fingerprint) then (false, w, e)
    else (true, { w with graph, last := some graph.fingerprint }, countReload e true)

/-- A digest tells apart what is fetched for a module from different loaders. -/
def TellsApart {δ : Type} (digest : Fingerprint → δ) (main : String) (loaders : List Loader) :
    Prop :=
  ∀ l ∈ loaders, ∀ l' ∈ loaders, digest (.sources (l.fetched main)) =
    digest (.sources (l'.fetched main)) → l.fetched main = l'.fetched main

instance {δ : Type} [DecidableEq δ] (digest : Fingerprint → δ) (main : String)
    (loaders : List Loader) : Decidable (TellsApart digest main loaders) :=
  inferInstanceAs (Decidable (∀ l ∈ loaders, ∀ l' ∈ loaders, _ → _))

theorem TellsApart.mono {δ : Type} {digest : Fingerprint → δ} {loaders loaders' : List Loader}
    (h : TellsApart digest main loaders') (hsub : loaders ⊆ loaders') :
    TellsApart digest main loaders :=
  fun l hl l' hl' => h l (hsub hl) l' (hsub hl')

/-- Comparing digests makes no difference to a tick, if they tell apart what has been fetched. -/
theorem tickBy_served {δ : Type} [DecidableEq δ] {digest : Fingerprint → δ}
    (h : TellsApart digest main (past ++ [now])) (e : Engine) :
    (served main past).tickBy digest e now = (served main past).tick e now := by
  unfold tickBy tick Engine.compile
  rw [main_served]
  cases hnow : now.compile main with
  | error error => rfl
  | ok c =>
    have hiff : (served main past).last.map digest = some (digest c.graph.fingerprint) ↔
        (served main past).last = some c.graph.fingerprint := by
      refine ⟨fun hd => ?_, fun hlast => by rw [hlast, Option.map_some]⟩
      obtain ⟨-, hs⟩ | ⟨l, c', hl, hc', hs⟩ := served_eq main past
      · rw [hs] at hd
        cases hd
      · have hmem : l ∈ past := (List.mem_filter.1 (List.mem_of_getLast? hl)).1
        rw [hs, Option.map_some, Loader.fingerprint_of_compile hc',
          Loader.fingerprint_of_compile hnow] at hd
        have hfetched := h l (by simp [hmem]) now (by simp) (Option.some.inj hd)
        rw [hs, Loader.fingerprint_of_compile hc', hfetched, Loader.fingerprint_of_compile hnow]
    simp only [hiff]

/-! ### Histories -/

/-- What happens while a module is watched. -/
inductive Event
  /-- The sources change. -/
  | edit (loader : Loader)
  /-- The module is compiled again. -/
  | tick

/-- A watch with the sources and the engine. -/
structure Session where
  /-- The sources as they are now. -/
  loader : Loader
  /-- The watch. -/
  watch : Watch
  /-- The engine. -/
  engine : Engine

namespace Session

/-- A watch starts. -/
def start (e : Engine) (loader : Loader) (main : String) : Session :=
  ⟨loader, (Watch.start e loader main).1, (Watch.start e loader main).2⟩

/-- What an event changes, given what a tick does. -/
def step (tick : Watch → Engine → Loader → Bool × Watch × Engine) (s : Session) :
    Event → Session
  | .edit loader => { s with loader }
  | .tick =>
    let (_, watch, engine) := tick s.watch s.engine s.loader
    { s with watch, engine }

/-- A session after events. -/
def after (s : Session) (events : List Event) : Session :=
  events.foldl (step tick) s

/-- A session after events, where ticks compare digests. -/
def afterBy {δ : Type} [DecidableEq δ] (digest : Fingerprint → δ) (s : Session)
    (events : List Event) : Session :=
  events.foldl (step (tickBy digest)) s

end Session

/-- The loaders over which ticks compile, from the first loader on. -/
def ticks : Loader → List Event → List Loader
  | _, [] => []
  | _, .edit loader :: events => ticks loader events
  | loader, .tick :: events => loader :: ticks loader events

namespace Session

/-- What holds after events if the watch has held what it should before. -/
theorem after_served {past : List Loader} {s : Session} (hs : s.watch = served main past)
    (events : List Event) :
    (s.after events).watch = served main (past ++ ticks s.loader events) ∧
      (s.after events).engine.metrics.reloads = s.engine.metrics.reloads +
        publications main past (ticks s.loader events) + failures main (ticks s.loader events) ∧
      (s.after events).engine.metrics.reloadErrors =
        s.engine.metrics.reloadErrors + failures main (ticks s.loader events) := by
  induction events generalizing s past with
  | nil => simpa [after, ticks, publications, failures] using hs
  | cons event events ih =>
    cases event with
    | edit loader => exact ih (s := { s with loader }) hs
    | tick =>
      obtain ⟨e', htick, hreloads, herrors⟩ := tick_served s.engine main past s.loader
      rw [← hs] at htick
      have hstep : s.after (.tick :: events) =
          after ⟨s.loader, served main (past ++ [s.loader]), e'⟩ events := by
        rw [after, List.foldl_cons, step, htick]
        rfl
      have hfailures : ∀ rest, failures main (s.loader :: rest) =
          failures main [s.loader] + failures main rest := by
        intro rest
        rw [failures, failures, failures, ← List.countP_append, List.singleton_append]
      obtain ⟨hwatch, hr, he⟩ := ih (s := ⟨s.loader, served main (past ++ [s.loader]), e'⟩) rfl
      dsimp only at hwatch hr he
      rw [List.append_assoc, List.singleton_append] at hwatch
      rw [hstep, ticks, hfailures, publications]
      refine ⟨hwatch, ?_, ?_⟩ <;> omega

/-- Comparing digests makes no difference to a watch, if they tell apart what it fetches. -/
theorem afterBy_eq {δ : Type} [DecidableEq δ] {digest : Fingerprint → δ} {past : List Loader}
    {s : Session} (hs : s.watch = served main past) {events : List Event}
    (h : TellsApart digest main (past ++ ticks s.loader events)) :
    s.afterBy digest events = s.after events := by
  induction events generalizing s past with
  | nil => rfl
  | cons event events ih =>
    rw [afterBy, after, List.foldl_cons, List.foldl_cons]
    cases event with
    | edit loader => exact ih (s := { s with loader }) hs h
    | tick =>
      obtain ⟨e', htick, -, -⟩ := tick_served s.engine main past s.loader
      rw [ticks, List.append_cons] at h
      have hsame := tickBy_served (h.mono (List.subset_append_left _ _)) s.engine
      have hwatch : (step tick s .tick).watch = served main (past ++ [s.loader]) := by
        rw [step, hs, htick]
      have hstep : step (tickBy digest) s .tick = step tick s .tick := by
        rw [step, step, hs, hsame]
      rw [hstep]
      exact ih hwatch h

end Session

/-- The loaders over which the module has been compiled after events, at the start and at ticks. -/
def instants (loader : Loader) (events : List Event) : List Loader :=
  loader :: ticks loader events

/-- **A watch serves the graph of the latest compile that succeeded**, after every history of edits
and ticks, and the empty graph if none did. The next tick publishes just if its compile succeeds and
has fetched something else than that latest one, and leaves the watch as it is if its compile fails.
The counters have counted the ticks that published and those that failed. And a watch that compares
digests of what was fetched does the same, if they tell apart what is fetched. -/
theorem watch_serves_latest (e : Engine) (loader : Loader) (main : String)
    (events : List Event) :
    let s := (Session.start e loader main).after events
    s.watch = served main (instants loader events) ∧
      (∀ now, (s.watch.tick s.engine now).1 = true ↔
        (∃ c, now.compile main = .ok c) ∧
          ∀ l, latest? main (instants loader events) = some l →
            l.fetched main ≠ now.fetched main) ∧
      (∀ now error, now.compile main = .error error →
        (s.watch.tick s.engine now).2.1 = s.watch) ∧
      s.engine.metrics.reloads = e.metrics.reloads +
        publications main [loader] (ticks loader events) + failures main (ticks loader events) ∧
      s.engine.metrics.reloadErrors =
        e.metrics.reloadErrors + failures main (ticks loader events) ∧
      ∀ (δ : Type) [DecidableEq δ] (digest : Fingerprint → δ),
        TellsApart digest main (instants loader events) →
        (Session.start e loader main).afterBy digest events = s := by
  have hstart : (Session.start e loader main).watch = served main [loader] := by
    rw [Session.start, start_eq]
  have hengine : (Session.start e loader main).engine = (e.compile loader main).2 := by
    rw [Session.start, start_eq]
  obtain ⟨hwatch, hreloads, herrors⟩ := Session.after_served hstart events
  obtain ⟨hr, he⟩ := reloads_compile e loader main
  intro s
  have hserved : s.watch = served main (instants loader events) := hwatch
  refine ⟨hserved, fun now => ?_, fun now error hnow => ?_, ?_, ?_,
    fun δ _ digest h => Session.afterBy_eq hstart h⟩
  · obtain ⟨e', htick, -, -⟩ := tick_served s.engine main (instants loader events) now
    rw [hserved, htick]
    exact publishes_iff
  · rw [tick_of_error]
    rw [hserved, main_served]
    exact hnow
  · rw [hreloads, hengine, hr]
    rfl
  · rw [herrors, hengine, he]
    rfl

/-- A rule file with a given source. -/
def ruleFile (source : String) : Loader :=
  (Bundle.ofList [("main", source)]).loader

/-- The number of characters that were fetched. -/
def fetchedLength : Fingerprint → Nat
  | .tag n => n
  | .sources fetched => fetched.foldl (fun n f => n + f.2.length) 0

/-- A rule file is repaired, broken, repaired again, and then changed. -/
def repairs : List Event :=
  [.edit (ruleFile "LET A := 1;"), .tick, .edit (ruleFile "LET"), .tick,
    .edit (ruleFile "LET A := 1;"), .tick, .edit (ruleFile "LET A := 10;")]

/-- A watch over the repairs. -/
def repaired : Session :=
  (Session.start .start (ruleFile "LET") "main").after repairs

theorem repaired_served :
    repaired.watch = served "main" [ruleFile "LET A := 1;"] ∧
      repaired.engine.metrics.reloads = 2 ∧ repaired.engine.metrics.reloadErrors = 1 ∧
      (repaired.watch.tick repaired.engine (ruleFile "LET A := 10;")).1 = true ∧
      (repaired.watch.tick repaired.engine (ruleFile "LET")).2.1 = repaired.watch ∧
      (Session.start .start (ruleFile "LET") "main").afterBy fetchedLength repairs = repaired := by
  obtain ⟨hwatch, hpublishes, hfails, hreloads, herrors, hdigest⟩ :=
    watch_serves_latest .start (ruleFile "LET") "main" repairs
  unfold repaired
  have hcompiles : ∀ source ∈ ["LET A := 1;", "LET A := 10;"],
      (ruleFile source).compiles "main" = true := by decide +kernel
  obtain ⟨c, hc⟩ := Loader.compiles_iff.1 (hcompiles "LET A := 1;" (by simp))
  obtain ⟨c', hc'⟩ := Loader.compiles_iff.1 (hcompiles "LET A := 10;" (by simp))
  -- The latest loader over which the module compiled is that of the last tick.
  have hinstants : instants (ruleFile "LET") repairs =
      [ruleFile "LET", ruleFile "LET A := 1;", ruleFile "LET"] ++ [ruleFile "LET A := 1;"] := rfl
  have hlatest : latest? "main" (instants (ruleFile "LET") repairs) =
      some (ruleFile "LET A := 1;") := by
    rw [hinstants, latest?_append, if_pos (Loader.compiles_of_ok hc)]
  have hcounts : publications "main" [ruleFile "LET"] (ticks (ruleFile "LET") repairs) = 1 ∧
      failures "main" (ticks (ruleFile "LET") repairs) = 1 := by decide +kernel
  rw [hcounts.1, hcounts.2] at hreloads
  rw [hcounts.2] at herrors
  refine ⟨?_, hreloads.trans rfl, herrors.trans rfl, ?_, ?_,
    hdigest Nat fetchedLength (by decide +kernel)⟩
  · rw [hwatch, hinstants, served_of_ok hc]
    exact (served_of_ok hc []).symm
  · refine (hpublishes _).2 ⟨⟨c', hc'⟩, fun l hl => ?_⟩
    rw [hlatest] at hl
    cases hl
    decide +kernel
  · cases hfault : (ruleFile "LET").compile "main" with
    | error error => exact hfails _ error hfault
    | ok c =>
      have hfailed : (ruleFile "LET").compiles "main" = false := by decide +kernel
      rw [Loader.compiles_of_ok hfault] at hfailed
      cases hfailed

end Watch

end GatedRules
