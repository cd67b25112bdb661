import GatedRules.Proofs.Environments
import GatedRules.Proofs.Remembering
import GatedRules.Proofs.Tallies

/-!
# Counters add up

An engine is used in three ways: modules are compiled, executions ask what becomes of module paths,
and hosts serve commands, which may ask for paths in turn while names are looked up. All of this is
written down in a log of events: the modules that are compiled for their own sake, and the calls of
executions. The log knows nothing of the counters, nor of what the engine keeps; which calls compile
a module follows from the calls before (`EngineCall.compiles`).

The counters agree with the log (`Metrics.Balanced`), after every series of deeds, whatever becomes
of the sources meanwhile (`Host.counters_add_up`). A path that an execution asks for again is
compiled again only if it had failed there, which is why more modules may be compiled for executions
than there are first questions.
-/

namespace GatedRules

/-! ### What calls compile -/

namespace EngineCall

variable {β : Type} {f : List EngineCall → EngineCall → List β} {past calls : List EngineCall}
  {c : EngineCall} {id : ExecutionId} {p : String}

/-- The module that is compiled for a call, given the calls before: the one that is asked for,
unless it is known what became of it. -/
def compiles (past : List EngineCall) (c : EngineCall) : List (Loader × String) :=
  match c.ask.target? with
  | none => []
  | some (loader, p) => if (known c.id p past).isNone then [(loader, p)] else []

/-- The module that is compiled for a call although its path was asked for before. -/
def recompiles (past : List EngineCall) (c : EngineCall) : List (Loader × String) :=
  (c.compiles past).filter fun m => m.2 ∈ asked c.id past

/-- What every call adds to a list, given the calls before. -/
def along (f : List EngineCall → EngineCall → List β) : List EngineCall → List EngineCall → List β
  | _, [] => []
  | past, c :: calls => f past c ++ along f (past ++ [c]) calls

theorem along_append_singleton (past calls : List EngineCall) (c : EngineCall) :
    along f past (calls ++ [c]) = along f past calls ++ f (past ++ calls) c := by
  induction calls generalizing past with
  | nil => simp [along]
  | cons d calls ih => simp [along, ih]

theorem along_eq_nil_iff : along f past calls = [] ↔
    ∀ before c after, calls = before ++ c :: after → f (past ++ before) c = [] := by
  induction calls generalizing past with
  | nil => simp [along]
  | cons d calls ih =>
    rw [along, List.append_eq_nil_iff, ih]
    constructor
    · rintro ⟨hd, hrest⟩ before c after h
      cases before with
      | nil =>
        obtain ⟨rfl, rfl⟩ := List.cons.inj h
        rwa [List.append_nil]
      | cons e before =>
        obtain ⟨rfl, rfl⟩ := List.cons.inj h
        have hc := hrest before c after rfl
        rwa [List.append_assoc] at hc
    · intro h
      refine ⟨by simpa using h [] d calls rfl, fun before c after hcalls => ?_⟩
      have hc := h (d :: before) c after (by rw [hcalls, List.cons_append])
      rwa [List.append_assoc]

theorem compiles_of_target? {loader : Loader} (h : c.ask.target? = some (loader, p)) :
    c.compiles past = if (known c.id p past).isNone then [(loader, p)] else [] := by
  rw [compiles, h]

theorem compiles_of_none (h : c.ask.target? = none) : c.compiles past = [] := by
  rw [compiles, h]

/-- What is compiled for a call is what it asks for, of which nothing was known. -/
theorem target?_of_mem_compiles {m : Loader × String} (h : m ∈ c.compiles past) :
    c.ask.target? = some m ∧ known c.id m.2 past = none := by
  unfold compiles at h
  split at h
  · cases h
  · rename_i loader p htarget
    split at h
    · rename_i hknown
      obtain rfl := List.mem_singleton.1 h
      exact ⟨htarget, Option.isNone_iff_eq_none.1 hknown⟩
    · cases h

/-- A module failed to compile in an execution that has not ended since. That a module is absent is
not a failure. -/
def Failed (id : ExecutionId) (p : String) (past : List EngineCall) : Prop :=
  ∃ before first between loader error, past = before ++ first :: between ∧ first.id = id ∧
    first.compiles before = [(loader, p)] ∧ Engine.outcome loader p = .error error ∧
    ∀ d ∈ between, d.id = id → d.ask.isFinish = false

/-- A path is asked for again in an execution after its module failed to compile there, and before
the execution ends. -/
def AskedAgain (calls : List EngineCall) : Prop :=
  ∃ before again after p, calls = before ++ again :: after ∧ again.path? = some p ∧
    Failed again.id p before

/-- As long as an execution has not ended, it has asked for what it asked for. -/
theorem mem_asked_append (h : p ∈ asked id past) (hc : c.id = id → c.ask.isFinish = false) :
    p ∈ asked id (past ++ [c]) := by
  by_cases hid : c.id = id
  · rw [asked_append hid (hc hid)]
    exact List.mem_append_left _ h
  · rwa [asked, since_append_of_ne hid, ← asked]

/-- A path of which nothing is known although it was asked for is compiled again when it is asked
for next. -/
theorem exists_recompiles {between : List EngineCall} {again : EngineCall}
    (after : List EngineCall) (hasked : p ∈ asked id past) (hknown : known id p past = none)
    (hbetween : ∀ d ∈ between, d.id = id → d.ask.isFinish = false) (hid : again.id = id)
    (hpath : again.path? = some p) :
    ∃ before d rest, between ++ again :: after = before ++ d :: rest ∧
      d.recompiles (past ++ before) ≠ [] := by
  -- The next call for the path is `again`, or the first one between that asks for it.
  have hfirst : ∀ {past : List EngineCall} {d : EngineCall}, p ∈ asked id past →
      known id p past = none → d.id = id → d.path? = some p → d.recompiles past ≠ [] := by
    intro past d hasked hknown hid hpath
    obtain ⟨loader, htarget⟩ := target?_of_path? hpath
    subst hid
    rw [recompiles, compiles_of_target? htarget, hknown]
    simp [hasked]
  induction between generalizing past with
  | nil =>
    refine ⟨[], again, after, rfl, ?_⟩
    rw [List.append_nil]
    exact hfirst hasked hknown hid hpath
  | cons d between ih =>
    by_cases hd : d.id = id ∧ d.path? = some p
    · refine ⟨[], d, between ++ again :: after, rfl, ?_⟩
      rw [List.append_nil]
      exact hfirst hasked hknown hd.1 hd.2
    · have hasked' := mem_asked_append hasked (hbetween d (List.mem_cons_self ..))
      have hknown' : known id p (past ++ [d]) = none := by
        refine known_append_of_none hknown fun d' hd' hid' hpath' => hd ?_
        obtain rfl := List.mem_singleton.1 hd'
        exact ⟨hid', hpath'⟩
      obtain ⟨before, d', rest, hsplit, hd'⟩ := ih hasked' hknown'
        fun d' hmem => hbetween d' (List.mem_cons_of_mem _ hmem)
      refine ⟨d :: before, d', rest, by rw [List.cons_append, hsplit, List.cons_append], ?_⟩
      rwa [List.append_assoc] at hd'

theorem Failed.append (h : Failed id p past) (hc : c.id = id → c.ask.isFinish = false) :
    Failed id p (past ++ [c]) := by
  obtain ⟨before, first, between, loader, error, rfl, hid, hcompiles, hfails, hbetween⟩ := h
  refine ⟨before, first, between ++ [c], loader, error, by simp, hid, hcompiles, hfails, ?_⟩
  intro d hd
  rcases List.mem_append.1 hd with hd | hd
  · exact hbetween d hd
  · obtain rfl := List.mem_singleton.1 hd
    exact hc

/-- If nothing is known of a path that an execution asked for, its module has failed. -/
theorem failed_of_known_eq_none (hasked : p ∈ asked id past) (hknown : known id p past = none) :
    Failed id p past := by
  induction past using List.reverseRecOn with
  | nil => simp [asked, since] at hasked
  | append_singleton past c ih =>
    by_cases hid : c.id = id
    · cases hf : c.ask.isFinish with
      | true =>
        rw [asked, since_append_finish hid hf] at hasked
        cases hasked
      | false =>
        rw [known_append hid hf, Option.or_eq_none_iff] at hknown
        rw [asked_append hid hf, List.mem_append] at hasked
        obtain hasked | hpath := hasked
        · exact (ih hasked hknown.1).append fun _ => hf
        · obtain ⟨loader, htarget⟩ := target?_of_path? (Option.mem_toList.1 hpath)
          have hfound := hknown.2
          rw [found, htarget] at hfound
          dsimp only at hfound
          rw [if_pos rfl] at hfound
          subst hid
          cases houtcome : Engine.outcome loader p with
          | ok o =>
            rw [houtcome] at hfound
            cases hfound
          | error error =>
            refine ⟨past, c, [], loader, error, rfl, rfl, ?_, houtcome, by simp⟩
            rw [compiles_of_target? htarget, hknown.1]
            rfl
    · rw [asked, since_append_of_ne hid, ← asked] at hasked
      rw [known, since_append_of_ne hid, ← known] at hknown
      exact (ih hasked hknown).append fun h => absurd h hid

/-- Modules are compiled again just where a path is asked for again after a failure. -/
theorem along_recompiles_eq_nil_iff : along recompiles [] calls = [] ↔ ¬ AskedAgain calls := by
  rw [along_eq_nil_iff]
  constructor
  · rintro h ⟨_, again, after, p, rfl, hpath, before, first, between, loader, error, rfl, hid,
      hcompiles, hfails, hbetween⟩
    obtain ⟨htarget, hknown⟩ := target?_of_mem_compiles (hcompiles ▸ List.mem_singleton_self _)
    have hf := isFinish_of_target? htarget
    have hasked : p ∈ asked first.id (before ++ [first]) := by
      rw [asked_append rfl hf, path?, htarget]
      simp
    have hunknown : known first.id p (before ++ [first]) = none := by
      rw [known_append rfl hf, hknown, found, htarget]
      dsimp only
      rw [if_pos rfl, hfails]
      rfl
    rw [hid] at hasked hunknown
    obtain ⟨earlier, d, rest, hsplit, hd⟩ :=
      exists_recompiles after hasked hunknown hbetween rfl hpath
    refine hd (h (before ++ [first] ++ earlier) d rest ?_)
    rw [List.append_assoc, List.cons_append, hsplit]
    simp
  · rintro h before c after rfl
    by_contra hne
    obtain ⟨m, hm⟩ := List.exists_mem_of_ne_nil _ hne
    obtain ⟨hcompiles, hasked⟩ := List.mem_filter.1 hm
    rw [List.nil_append] at hcompiles hasked
    obtain ⟨htarget, hknown⟩ := target?_of_mem_compiles hcompiles
    have hpath : c.path? = some m.2 := by rw [path?, htarget]; rfl
    exact h ⟨before, c, after, m.2, rfl, hpath,
      failed_of_known_eq_none (of_decide_eq_true hasked) hknown⟩

end EngineCall

/-! ### The log -/

/-- Something that is done with an engine and that it counts. -/
inductive EngineEvent
  /-- A module is compiled for its own sake. -/
  | compile (loader : Loader) (path : String)
  /-- An execution calls. -/
  | call (call : EngineCall)

/-- How many slots the graph of a module has; none if it does not compile. -/
def Loader.slots (loader : Loader) (path : String) : Nat :=
  match loader.compile path with
  | .ok compiled => compiled.graph.size
  | .error _ => 0

/-- One failure if a module does not compile. -/
def Loader.failures (loader : Loader) (path : String) : Nat :=
  match loader.compile path with
  | .ok _ => 0
  | .error _ => 1

/-- The slots of all modules in a list. -/
def totalSlots (modules : List (Loader × String)) : Nat :=
  (modules.map fun m => m.1.slots m.2).sum

/-- How many modules in a list do not compile. -/
def totalFailures (modules : List (Loader × String)) : Nat :=
  (modules.map fun m => m.1.failures m.2).sum

theorem totalSlots_append (l l' : List (Loader × String)) :
    totalSlots (l ++ l') = totalSlots l + totalSlots l' := by
  simp [totalSlots]

theorem totalFailures_append (l l' : List (Loader × String)) :
    totalFailures (l ++ l') = totalFailures l + totalFailures l' := by
  simp [totalFailures]

theorem totalSlots_singleton (loader : Loader) (path : String) :
    totalSlots [(loader, path)] = loader.slots path := by
  simp [totalSlots]

theorem totalFailures_singleton (loader : Loader) (path : String) :
    totalFailures [(loader, path)] = loader.failures path := by
  simp [totalFailures]

namespace EngineEvent

/-- The modules that are compiled for their own sake. -/
def direct (log : List EngineEvent) : List (Loader × String) :=
  log.filterMap fun
    | compile loader path => some (loader, path)
    | call _ => none

/-- The calls of executions. -/
def calls (log : List EngineEvent) : List EngineCall :=
  log.filterMap fun
    | compile _ _ => none
    | call c => some c

/-- The modules that are compiled for executions. -/
def compiled (log : List EngineEvent) : List (Loader × String) :=
  EngineCall.along EngineCall.compiles [] (calls log)

/-- The modules that are compiled for executions although their paths were asked for before. -/
def recompiled (log : List EngineEvent) : List (Loader × String) :=
  EngineCall.along EngineCall.recompiles [] (calls log)

/-- The paths that are asked for. -/
def paths (log : List EngineEvent) : List String :=
  (calls log).filterMap EngineCall.path?

variable {log : List EngineEvent} {loader : Loader} {path : String} {c : EngineCall}

theorem direct_compile :
    direct (log ++ [compile loader path]) = direct log ++ [(loader, path)] := by
  simp [direct]

theorem calls_compile : calls (log ++ [compile loader path]) = calls log := by
  simp [calls]

theorem compiled_compile : compiled (log ++ [compile loader path]) = compiled log := by
  rw [compiled, calls_compile, compiled]

theorem recompiled_compile : recompiled (log ++ [compile loader path]) = recompiled log := by
  rw [recompiled, calls_compile, recompiled]

theorem paths_compile : paths (log ++ [compile loader path]) = paths log := by
  rw [paths, calls_compile, paths]

theorem direct_call : direct (log ++ [call c]) = direct log := by
  simp [direct]

theorem calls_call : calls (log ++ [call c]) = calls log ++ [c] := by
  simp [calls]

theorem compiled_call : compiled (log ++ [call c]) = compiled log ++ c.compiles (calls log) := by
  rw [compiled, calls_call, EngineCall.along_append_singleton, List.nil_append, compiled]

theorem recompiled_call :
    recompiled (log ++ [call c]) = recompiled log ++ c.recompiles (calls log) := by
  rw [recompiled, calls_call, EngineCall.along_append_singleton, List.nil_append, recompiled]

theorem paths_call : paths (log ++ [call c]) = paths log ++ c.path?.toList := by
  rw [paths, calls_call, List.filterMap_append, paths]
  cases hp : c.path? <;> simp [hp]

end EngineEvent

/-! ### Counters agree with the log -/

open EngineEvent

/-- Counters agree with a log. -/
structure Metrics.Balanced (m : Metrics) (log : List EngineEvent) : Prop where
  /-- All modules that are compiled are counted. -/
  compilations : m.compilations = (direct log).length + (compiled log).length
  /-- Each of them is counted once by how long that took. -/
  durations : m.compilations = m.latency.total
  /-- Modules that fail are counted as such, for their own sake or as what becomes of paths. -/
  errors : m.compileErrors = totalFailures (direct log) + m.absent + m.resolutionErrors
  /-- All questions for paths are counted. -/
  questions : m.resolutions + m.memoHits = (paths log).length
  /-- The slots of all graphs are counted. -/
  slots : m.slots = totalSlots (direct log) + totalSlots (compiled log)
  /-- For executions a module is compiled when its path is asked for first, or again. -/
  first : (compiled log).length = m.resolutions + (recompiled log).length

namespace Metrics

variable {m : Metrics} {log : List EngineEvent} {loader : Loader} {path p : String} {c : EngineCall}

/-- Count what compiling a module results in. -/
def countResult (m : Metrics) (result : Except CompileError Compiled) (micros : Nat) : Metrics :=
  (m.countCompilation (result.toOption.map fun c => c.graph.size)).countLatency micros

/-- Count what compiling a module for an execution results in. -/
def countOutcome (m : Metrics) (loader : Loader) (path : String) (micros : Nat) : Metrics :=
  let counted := m.countResult (loader.compile path) micros
  match loader.compile path with
  | .ok _ => counted
  | .error error =>
    if error.isMissingRoot path then counted.countAbsent else counted.countResolutionError

theorem balanced_start : ({} : Metrics).Balanced [] :=
  ⟨rfl, rfl, rfl, rfl, rfl, rfl⟩

theorem countResult_compile (m : Metrics) (loader : Loader) (path : String) (micros : Nat) :
    m.countResult (loader.compile path) micros =
      { m with
        compilations := m.compilations + 1
        compileErrors := m.compileErrors + loader.failures path
        slots := m.slots + loader.slots path
        latency := m.latency.count micros } := by
  unfold Loader.failures Loader.slots
  cases loader.compile path <;> rfl

/-- A module that fails for an execution is absent, or its failure is counted. -/
theorem countOutcome_eq (m : Metrics) (loader : Loader) (path : String) (micros : Nat) :
    ∃ absent failed, absent + failed = loader.failures path ∧
      m.countOutcome loader path micros =
        { m.countResult (loader.compile path) micros with
          absent := m.absent + absent
          resolutionErrors := m.resolutionErrors + failed } := by
  unfold countOutcome Loader.failures
  cases loader.compile path with
  | ok compiled => exact ⟨0, 0, rfl, rfl⟩
  | error error =>
    dsimp only
    split
    · exact ⟨1, 0, rfl, rfl⟩
    · exact ⟨0, 1, rfl, rfl⟩

/-- A module is compiled for its own sake. -/
theorem Balanced.compile (h : m.Balanced log) (loader : Loader) (path : String) (micros : Nat) :
    (m.countResult (loader.compile path) micros).Balanced (log ++ [.compile loader path]) := by
  obtain ⟨hcompilations, hdurations, herrors, hquestions, hslots, hfirst⟩ := h
  rw [countResult_compile]
  constructor <;>
    simp only [direct_compile, compiled_compile, recompiled_compile, paths_compile,
      totalSlots_append, totalSlots_singleton, totalFailures_append, totalFailures_singleton,
      List.length_append, List.length_singleton, Latency.total_count] <;> omega

/-- A call that asks for no path. -/
theorem Balanced.call_of_none (h : m.Balanced log) (htarget : c.ask.target? = none) :
    m.Balanced (log ++ [.call c]) := by
  have hpath : c.path? = none := by rw [EngineCall.path?, htarget]; rfl
  have hcompiles : c.compiles (calls log) = [] := EngineCall.compiles_of_none htarget
  have hrecompiles : c.recompiles (calls log) = [] := by rw [EngineCall.recompiles, hcompiles]; rfl
  obtain ⟨hcompilations, hdurations, herrors, hquestions, hslots, hfirst⟩ := h
  constructor <;>
    simpa [direct_call, compiled_call, recompiled_call, paths_call, hpath, hcompiles, hrecompiles]

/-- A call for a path of which it is known what became of it. -/
theorem Balanced.call_of_known (h : m.Balanced log) (htarget : c.ask.target? = some (loader, p))
    (hknown : (EngineCall.known c.id p (calls log)).isSome = true) :
    (m.countLookup true).Balanced (log ++ [.call c]) := by
  have hpath : c.path? = some p := by rw [EngineCall.path?, htarget]; rfl
  have hcompiles : c.compiles (calls log) = [] := by
    rw [EngineCall.compiles_of_target? htarget, Option.isNone_eq_false_iff.2 hknown]
    rfl
  have hrecompiles : c.recompiles (calls log) = [] := by rw [EngineCall.recompiles, hcompiles]; rfl
  obtain ⟨hcompilations, hdurations, herrors, hquestions, hslots, hfirst⟩ := h
  constructor <;>
    simp [countLookup, direct_call, compiled_call, recompiled_call, paths_call, hpath, hcompiles,
      hrecompiles] <;> omega

/-- A call for a path of which nothing is known. -/
theorem Balanced.call_of_unknown (h : m.Balanced log) (htarget : c.ask.target? = some (loader, p))
    (hknown : EngineCall.known c.id p (calls log) = none) (micros : Nat) :
    ((m.countLookup (p ∈ EngineCall.asked c.id (calls log))).countOutcome loader p micros).Balanced
      (log ++ [.call c]) := by
  have hpath : c.path? = some p := by rw [EngineCall.path?, htarget]; rfl
  have hcompiles : c.compiles (calls log) = [(loader, p)] := by
    rw [EngineCall.compiles_of_target? htarget, hknown]
    rfl
  obtain ⟨hcompilations, hdurations, herrors, hquestions, hslots, hfirst⟩ := h
  obtain ⟨absent, failed, hfailures, heq⟩ := countOutcome_eq
    (m.countLookup (p ∈ EngineCall.asked c.id (calls log))) loader p micros
  rw [heq, countResult_compile]
  by_cases hasked : p ∈ EngineCall.asked c.id (calls log)
  · have hrecompiles : c.recompiles (calls log) = [(loader, p)] := by
      rw [EngineCall.recompiles, hcompiles]
      simp [hasked]
    constructor <;>
      simp only [countLookup, hasked, decide_true, if_true, direct_call, compiled_call,
        recompiled_call, paths_call, hpath, hcompiles, hrecompiles, totalSlots_append,
        totalSlots_singleton, List.length_append, List.length_singleton, Option.toList_some,
        Latency.total_count] <;> omega
  · have hrecompiles : c.recompiles (calls log) = [] := by
      rw [EngineCall.recompiles, hcompiles]
      simp [hasked]
    constructor <;>
      simp only [countLookup, hasked, decide_false, Bool.false_eq_true, if_false, direct_call,
        compiled_call, recompiled_call, paths_call, hpath, hcompiles, hrecompiles,
        totalSlots_append, totalSlots_singleton, List.length_append, List.length_singleton,
        List.append_nil, Option.toList_some, Latency.total_count] <;> omega

end Metrics

/-! ### Engines -/

namespace Engine

variable {e : Engine} {log : List EngineEvent} {loader : Loader} {id : ExecutionId} {path : String}

/-- What an engine keeps and counts agrees with a log. -/
structure Tallied (e : Engine) (log : List EngineEvent) : Prop where
  /-- What is kept for executions is what their calls made known. -/
  recalls : e.Recalls (calls log)
  /-- The counters agree with the log. -/
  balanced : e.metrics.Balanced log

theorem metrics_compile (e : Engine) (loader : Loader) (path : String) :
    (e.compile loader path).2.metrics =
      e.metrics.countResult (loader.compile path) (e.durations e.metrics.compilations) :=
  rfl

theorem metrics_resolveAnew (e : Engine) (loader : Loader) (id : ExecutionId) (path : String) :
    (e.resolveAnew loader id path).2.metrics =
      e.metrics.countOutcome loader path (e.durations e.metrics.compilations) := by
  unfold resolveAnew compile Metrics.countOutcome Metrics.countResult
  cases loader.compile path with
  | ok compiled => rfl
  | error error =>
    dsimp only
    split <;> rfl

/-- A path of which nothing is known is counted as asked for, and then its module as compiled. -/
theorem metrics_resolvePath_of_unknown (loader : Loader) {q : String}
    (h : ∀ o, (e.memo id).get? (Path.canonical q) ≠ some (some o)) :
    ∃ micros, (e.resolvePath loader id q).2.metrics =
      (e.metrics.countLookup ((e.memo id).get? (Path.canonical q)).isSome).countOutcome loader
        (Path.canonical q) micros := by
  unfold resolvePath
  dsimp only
  split
  · exact absurd ‹_› (h _)
  · rename_i hnone
    rw [metrics_resolveAnew, hnone]
    exact ⟨_, rfl⟩
  · rename_i hnone
    rw [metrics_resolveAnew, hnone]
    exact ⟨_, rfl⟩

/-- Compiling a module for its own sake keeps the engine in agreement with the log. -/
theorem Tallied.compile (h : e.Tallied log) (loader : Loader) (path : String) :
    (e.compile loader path).2.Tallied (log ++ [.compile loader path]) where
  recalls := by
    rw [calls_compile]
    exact ⟨h.recalls.memo, h.recalls.held⟩
  balanced := by
    rw [metrics_compile]
    exact h.balanced.compile loader path _

/-- A call that asks for no path changes no counter. -/
theorem metrics_serve_of_none {c : EngineCall} (h : c.ask.target? = none) :
    (e.serve c).2.metrics = e.metrics := by
  cases hf : c.ask.isFinish with
  | false =>
    obtain ⟨error, hserve⟩ := serve_of_unbound h hf
    rw [hserve]
  | true =>
    unfold serve
    cases hask : c.ask with
    | finish => rfl
    | _ =>
      rw [hask] at hf
      cases hf

/-- So does a call. -/
theorem Tallied.serve (h : e.Tallied log) (c : EngineCall) :
    (e.serve c).2.Tallied (log ++ [.call c]) := by
  refine ⟨calls_call ▸ h.recalls.serve c, ?_⟩
  rcases htarget : c.ask.target? with _ | ⟨loader, p⟩
  · rw [metrics_serve_of_none htarget]
    exact h.balanced.call_of_none htarget
  cases hknown : EngineCall.known c.id p (calls log) with
  | some o =>
    have hpath : c.path? = some p := by rw [EngineCall.path?, htarget]; rfl
    rw [h.recalls.serve_of_known hpath hknown]
    exact h.balanced.call_of_known htarget (by rw [hknown]; rfl)
  | none =>
    obtain ⟨q, rfl, hserve⟩ := serve_of_target htarget e
    have hmemo := h.recalls.memo c.id (Path.canonical q)
    rw [hknown] at hmemo
    have hunknown : ∀ o, (e.memo c.id).get? (Path.canonical q) ≠ some (some o) := by
      intro o ho
      rw [ho] at hmemo
      split at hmemo <;> cases hmemo
    have hagain : ((e.memo c.id).get? (Path.canonical q)).isSome =
        decide (Path.canonical q ∈ EngineCall.asked c.id (calls log)) := by
      rw [hmemo]
      split <;> simp_all
    obtain ⟨micros, hmetrics⟩ := metrics_resolvePath_of_unknown loader hunknown
    rw [hserve, hmetrics, hagain]
    exact h.balanced.call_of_unknown htarget hknown micros

theorem Tallied.calls (h : e.Tallied log) (cs : List EngineCall) :
    (e.after cs).Tallied (log ++ cs.map .call) := by
  induction cs generalizing e log with
  | nil => simpa [after] using h
  | cons c cs ih =>
    have hrest := ih (h.serve c)
    rwa [List.append_assoc] at hrest

end Engine

/-! ### Evaluations -/

/-- The question for a path that is seen of an evaluation. -/
def Sight.question? (loader : Loader) (id : ExecutionId) : Sight → Option EngineCall
  | acts _ (.resolve path) => some ⟨id, .path loader path⟩
  | _ => none

/-- The questions for paths that are seen of an evaluation. -/
def Sight.questions (loader : Loader) (id : ExecutionId) (log : List Sight) : List EngineEvent :=
  (log.filterMap (question? loader id)).map .call

theorem Sight.questions_append (loader : Loader) (id : ExecutionId) (log log' : List Sight) :
    questions loader id (log ++ log') = questions loader id log ++ questions loader id log' := by
  simp [questions]

namespace Observed

variable {α β : Type} {σ : Setting}

/-- The questions that are seen of an evaluation are those that the engine counts. -/
def Tallies (σ : Setting) (x : Observed α) : Prop :=
  ∀ stack w log, w.engine.Tallied log →
    (x stack w).2.2.engine.Tallied (log ++ Sight.questions σ.loader σ.id (x stack w).1)

/-- An evaluation of which nothing is seen, and which does not change the engine. -/
theorem tallies_of_quiet {x : Observed α}
    (h : ∀ stack w, (x stack w).1 = [] ∧ (x stack w).2.2.engine = w.engine) : x.Tallies σ := by
  intro stack w log hw
  obtain ⟨hlog, hengine⟩ := h stack w
  rw [hlog, hengine]
  simpa [Sight.questions] using hw

theorem Tallies.bind {x : Observed α} {f : α → Observed β} (hx : x.Tallies σ)
    (hf : ∀ a, (f a).Tallies σ) : (x >>= f).Tallies σ := by
  intro stack w log hw
  have h := hx stack w log hw
  change (Observed.bind x f stack w).2.2.engine.Tallied
    (log ++ Sight.questions σ.loader σ.id (Observed.bind x f stack w).1)
  unfold Observed.bind
  rcases hr : x stack w with ⟨seen, halt | a, w'⟩ <;> rw [hr] at h
  · exact h
  · have hrest := hf a stack w' _ h
    rwa [List.append_assoc, ← Sight.questions_append] at hrest

theorem tallies_perform (action : Action) : ((observer σ).perform action).Tallies σ := by
  intro stack w log hw
  have hquiet : ∀ {e : Engine}, e.memos = w.engine.memos → e.metrics.Balanced log →
      e.Tallied (log ++ []) := by
    intro e hmemos hmetrics
    have hrecalls : e.Recalls (calls log) := by
      refine ⟨fun id p => ?_, fun id => ?_⟩
      · rw [Engine.memo, hmemos]
        exact hw.recalls.memo id p
      · rw [hmemos]
        exact hw.recalls.held id
    exact (List.append_nil log).symm ▸ ⟨hrecalls, hmetrics⟩
  cases action with
  | input name => exact hquiet rfl hw.balanced
  | call slot c =>
    obtain ⟨result, store, hexec, -⟩ := EvalM.exec_call rfl slot c (stack.map Frame.text) []
    have hworld : ((observer σ).perform (.call slot c) stack w).2.2 = w.withStore store :=
      congrArg Prod.snd hexec
    rw [hworld]
    exact hquiet rfl hw.balanced
  | skip =>
    obtain ⟨hcompilations, hdurations, herrors, hquestions, hslots, hfirst⟩ := hw.balanced
    exact hquiet rfl ⟨hcompilations, hdurations, herrors, hquestions, hslots, hfirst⟩
  | resolve path =>
    have hworld : ((observer σ).perform (.resolve path) stack w).2.2.engine =
        (w.engine.serve ⟨σ.id, .path σ.loader path⟩).2 := by
      change ((EvalM.resolve σ path).exec _ w).2.engine = _
      rw [EvalM.exec_resolve]
      rfl
    rw [hworld]
    exact hw.serve ⟨σ.id, .path σ.loader path⟩

theorem Tallies.visit {x : Observed Value} (hx : x.Tallies σ) (frame : Frame) :
    ((observer σ).visit frame x).Tallies σ := by
  intro stack w log hw
  have hinside := hx (stack ++ [frame]) w log hw
  have hnothing : w.engine.Tallied (log ++ []) := by rwa [List.append_nil]
  dsimp only [observer]
  split
  · exact hnothing
  split
  · exact hnothing
  · rcases hr : x (stack ++ [frame]) w with ⟨seen, halt | v, w'⟩ <;> rw [hr] at hinside
    · exact hinside
    · have hends : Sight.questions σ.loader σ.id (.begins frame :: (seen ++ [.ends frame v])) =
          Sight.questions σ.loader σ.id seen := by
        change Sight.questions σ.loader σ.id (seen ++ [.ends frame v]) = _
        rw [Sight.questions_append]
        exact List.append_nil _
      dsimp only
      rw [hends]
      exact ⟨⟨hinside.recalls.memo, hinside.recalls.held⟩, hinside.balanced⟩

theorem related_tallies :
    (observer σ).Related (fun _ x _ => x.Tallies σ) (fun _ => True) (observer σ) where
  pure _ := tallies_of_quiet fun _ _ => ⟨rfl, rfl⟩
  bind hx hf := hx.bind hf
  fail _ := tallies_of_quiet fun _ _ => ⟨rfl, rfl⟩
  exhaust := tallies_of_quiet fun _ _ => ⟨rfl, rfl⟩
  perform {action} _ := tallies_perform action
  visit {f} {_} {_} {_} _ hx := hx.visit f

theorem tallies_answer (σ : Setting) (k : Nat) (goal : Goal) :
    ((observer σ).answer k goal).Tallies σ :=
  related_tallies.answer k goal

end Observed

/-! ### Executions -/

namespace Execution

variable {e : Engine} {log : List EngineEvent}

/-- The questions of an execution that is asked for a name. -/
def questions (budget : Nat) (x : Execution) (e : Engine) (loader : Loader) (name : String) :
    List EngineEvent :=
  Sight.questions loader x.id (x.observed (x.world e) ⟨loader, budget, name⟩).1

/-- The questions of an execution that is asked for names, one after the other. -/
def questionsAll (budget : Nat) (x : Execution) (e : Engine) (loader : Loader)
    (names : List String) : List EngineEvent :=
  Sight.questions loader x.id (x.observedAll budget e loader names)

theorem tallied_fetchWithin (h : e.Tallied log) (budget : Nat) (x : Execution) (loader : Loader)
    (name : String) :
    (x.fetchWithin budget e loader name).2.2.Tallied (log ++ x.questions budget e loader name) := by
  have hanswer := Observed.tallies_answer (x.setting loader) budget
    (.frame (.name (.entry x.graph) name)) [] (x.world e) log h
  have hsame := x.snd_observed (x.world e) ⟨loader, budget, name⟩
  change (x.observed (x.world e) ⟨loader, budget, name⟩).2.2.engine.Tallied
    (log ++ x.questions budget e loader name) at hanswer
  rw [hsame] at hanswer
  exact hanswer

theorem tallied_fetchAllWithin (h : e.Tallied log) (budget : Nat) (x : Execution) (loader : Loader)
    (names : List String) :
    (x.fetchAllWithin budget e loader names).2.2.Tallied
      (log ++ x.questionsAll budget e loader names) := by
  induction names generalizing x e log with
  | nil => simpa [fetchAllWithin, questionsAll, observedAll, Sight.questions] using h
  | cons name names ih =>
    have hfirst := tallied_fetchWithin h budget x loader name
    have hid := (x.minds_of_fetchWithin budget e loader name).id
    rw [questionsAll, observedAll, Sight.questions_append, fetchAllWithin]
    rcases hr : x.fetchWithin budget e loader name with ⟨halt | v, x', e'⟩ <;>
      rw [hr] at hfirst hid
    · change e'.Tallied (log ++ (x.questions budget e loader name ++ []))
      rwa [List.append_nil]
    · have hrest := ih hfirst x'
      rw [questionsAll, hid, List.append_assoc] at hrest
      dsimp only
      rcases hr' : x'.fetchAllWithin budget e' loader names with ⟨halt | vs, x'', e''⟩ <;>
        rw [hr'] at hrest <;> exact hrest

end Execution

/-! ### Hosts -/

namespace Host

/-- What may be done with a host and its engine. -/
inductive Deed
  /-- A module is compiled for its own sake. -/
  | compile (loader : Loader) (path : String)
  /-- The engine is called for an execution, which need not be one of the host. -/
  | call (call : EngineCall)
  /-- A command is served, while modules come from a loader. -/
  | command (loader : Loader) (label : String) (command : Command)

/-- What the execution does that is running under a label, if there is one. -/
def eventsOfRunning (h : Host) (label : String) (f : Execution → List EngineEvent) :
    List EngineEvent :=
  match h.entries.get? label with
  | some ⟨x, true⟩ => f x
  | _ => []

/-- What the engine is asked for while a command is served. -/
def commandEvents (loader : Loader) (h : Host) (label : String) : Command → List EngineEvent
  | .fetch budget name => h.eventsOfRunning label fun x => x.questions budget h.engine loader name
  | .fetchAll budget names => h.eventsOfRunning label fun x =>
    x.questionsAll budget h.engine loader names
  | .drop => h.eventsOfRunning label fun x => [.call ⟨x.id, .finish⟩]
  | .start _ _ => h.eventsOfRunning label fun x => [.call ⟨x.id, .finish⟩]
  | .finish =>
    match h.entries.get? label with
    | none => []
    | some entry => [.call ⟨entry.execution.id, .finish⟩]

/-- What the engine is asked for by a deed. -/
def events (h : Host) : Deed → List EngineEvent
  | .compile loader path => [.compile loader path]
  | .call c => [.call c]
  | .command loader label command => h.commandEvents loader label command

/-- The host after a deed. -/
def perform (h : Host) : Deed → Host
  | .compile loader path => { h with engine := (h.engine.compile loader path).2 }
  | .call c => { h with engine := (h.engine.serve c).2 }
  | .command loader label command => (h.serve loader label command).2

/-- The host after a series of deeds. -/
def performAll (h : Host) (deeds : List Deed) : Host :=
  deeds.foldl perform h

/-- What the engine is asked for by a series of deeds. -/
def log (h : Host) : List Deed → List EngineEvent
  | [] => []
  | deed :: deeds => h.events deed ++ log (h.perform deed) deeds

theorem tallied_withRunning {h : Host} {label : String} {f : Execution → Reply × Host}
    {g : Execution → List EngineEvent} {log : List EngineEvent} (hlog : h.engine.Tallied log)
    (hf : ∀ x, (f x).2.engine.Tallied (log ++ g x)) :
    (h.withRunning label f).2.engine.Tallied (log ++ h.eventsOfRunning label g) := by
  have hnothing : h.engine.Tallied (log ++ []) := by rwa [List.append_nil]
  rw [eventsOfRunning, withRunning]
  rcases h.entries.get? label with _ | ⟨x, _ | _⟩
  · exact hnothing
  · exact hnothing
  · exact hf x

theorem tallied_drop {h : Host} {log : List EngineEvent} (hlog : h.engine.Tallied log)
    (label : String) : (h.drop label).2.engine.Tallied
      (log ++ h.eventsOfRunning label fun x => [.call ⟨x.id, .finish⟩]) :=
  tallied_withRunning hlog fun x => hlog.serve ⟨x.id, .finish⟩

theorem tallied_serve {h : Host} {log : List EngineEvent} (hlog : h.engine.Tallied log)
    (loader : Loader) (label : String) (command : Command) :
    (h.serve loader label command).2.engine.Tallied
      (log ++ h.commandEvents loader label command) := by
  cases command with
  | start graph inputs =>
    have hdrop := tallied_drop hlog label
    obtain ⟨hcompilations, hdurations, herrors, hquestions, hslots, hfirst⟩ := hdrop.balanced
    exact ⟨⟨hdrop.recalls.memo, hdrop.recalls.held⟩,
      ⟨hcompilations, hdurations, herrors, hquestions, hslots, hfirst⟩⟩
  | fetch budget name =>
    exact tallied_withRunning hlog fun x => x.tallied_fetchWithin hlog budget loader name
  | fetchAll budget names =>
    exact tallied_withRunning hlog fun x => x.tallied_fetchAllWithin hlog budget loader names
  | drop => exact tallied_drop hlog label
  | finish =>
    cases hentry : h.entries.get? label with
    | none =>
      simp only [serve, commandEvents, hentry, List.append_nil]
      exact hlog
    | some entry =>
      simp only [serve, commandEvents, hentry]
      exact hlog.serve ⟨entry.execution.id, .finish⟩

/-- A deed keeps the engine in agreement with the log. -/
theorem tallied_perform {h : Host} {log : List EngineEvent} (hlog : h.engine.Tallied log)
    (deed : Deed) : (h.perform deed).engine.Tallied (log ++ h.events deed) := by
  cases deed with
  | compile loader path => exact hlog.compile loader path
  | call c => exact hlog.serve c
  | command loader label command => exact tallied_serve hlog loader label command

theorem tallied_performAll {h : Host} {log : List EngineEvent} (hlog : h.engine.Tallied log)
    (deeds : List Deed) : (h.performAll deeds).engine.Tallied (log ++ h.log deeds) := by
  induction deeds generalizing h log with
  | nil => simpa [performAll, Host.log] using hlog
  | cons deed deeds ih =>
    have hrest := ih (tallied_perform hlog deed)
    rwa [List.append_assoc] at hrest

/-- **Counters add up**, after every series of deeds, on an engine that is new and whose
compilations take any time. All modules that are compiled are counted, for their own sake or for
executions, and each of them once by how long that took. Failures are those of modules that are
compiled for their own sake, and absent modules and failures for executions. The slots of all other
modules are counted. Every question for a path is counted as a first one, or as one that was asked
before. For executions there are at least as many compilations as first questions, and there are
more just if an execution asks again for a path whose module had failed there. -/
theorem counters_add_up (assign : ExecutionId → Fin 16) (durations : Nat → Nat)
    (deeds : List Deed) :
    let h := idle { Engine.startWith assign with durations }
    let m := (h.performAll deeds).engine.metrics
    let log := h.log deeds
    m.compilations = (direct log).length + (compiled log).length ∧
      m.compilations = m.latencySamples ∧
      m.compileErrors = totalFailures (direct log) + m.absent + m.resolutionErrors ∧
      m.resolutions + m.memoHits = (paths log).length ∧
      m.slots = totalSlots (direct log) + totalSlots (compiled log) ∧
      m.resolutions ≤ (compiled log).length ∧
      (m.resolutions = (compiled log).length ↔ ¬ EngineCall.AskedAgain (calls log)) := by
  intro h m log
  have hstart : h.engine.Tallied [] := by
    have hrecalls := Engine.recalls_start assign
    exact ⟨⟨hrecalls.memo, hrecalls.held⟩, Metrics.balanced_start⟩
  obtain ⟨-, hcompilations, hdurations, herrors, hquestions, hslots, hfirst⟩ :=
    tallied_performAll hstart deeds
  have hagain : recompiled log = [] ↔ ¬ EngineCall.AskedAgain (calls log) :=
    EngineCall.along_recompiles_eq_nil_iff
  rw [← hagain, ← List.length_eq_zero_iff]
  replace hfirst : (compiled log).length = m.resolutions + (recompiled log).length := hfirst
  exact ⟨hcompilations, hdurations, herrors, hquestions, hslots, by omega, by omega⟩

end Host

end GatedRules
