import GatedRules.Proofs.Numbers
import GatedRules.Source.Bundle
import Mathlib.Data.Finset.Card

/-!
# What executions remember

Executions ask an engine what becomes of module paths, and end; the sources may change between any
two calls. Seen from outside, the engine is a map from executions and canonical paths to outcomes:
what an execution was told of a path, it is told again until it ends, and what failed is tried
again.

`EngineCall.known` reads this map off the calls that were made, without an engine, and
`EngineCall.asked` the paths that an execution asked for. One call keeps the engine in agreement
with the calls (`Recalls.serve`), so every series of calls does (`recalls_served`). All that can be
observed follows from the agreement (`remembers`), whatever the shards are in which the engine keeps
its tables.
-/

namespace GatedRules

/-- What an execution asks of an engine. A question names the loader of its time. -/
inductive Ask
  /-- What becomes of a path? -/
  | path (loader : Loader) (path : String)
  /-- What becomes of a site, given the values of names? -/
  | site (loader : Loader) (site : Site) (bound : String → Option Value)
  /-- The execution ends. -/
  | finish

/-- A call by an execution. -/
structure EngineCall where
  /-- The execution. -/
  id : ExecutionId
  /-- What it asks. -/
  ask : Ask

/-- The answer to a call. -/
inductive Reply
  /-- What becomes of a path or a site. -/
  | outcome (result : Except EvalError Outcome)
  /-- Whether the execution had asked for anything. -/
  | finished (existed : Bool)

namespace Engine

/-- Serve a call. -/
def serve (e : Engine) (c : EngineCall) : Reply × Engine :=
  match c.ask with
  | .path loader path =>
    let (result, e) := e.resolvePath loader c.id path
    (.outcome result, e)
  | .site loader site bound =>
    let (result, e) := e.resolve loader c.id site bound
    (.outcome result, e)
  | .finish =>
    let (existed, e) := e.finish c.id
    (.finished existed, e)

/-- The engine after a series of calls. -/
def after (e : Engine) (calls : List EngineCall) : Engine :=
  calls.foldl (fun e c => (e.serve c).2) e

end Engine

/-! ### The map that calls make -/

/-- The canonical path that is asked for, and where its module comes from. A site with an unbound
name asks for none. -/
def Ask.target? : Ask → Option (Loader × String)
  | path loader p => some (loader, Path.canonical p)
  | site loader s bound =>
    (Engine.render s bound).toOption.map fun p => (loader, Path.canonical p)
  | finish => none

/-- Whether the execution ends. -/
def Ask.isFinish : Ask → Bool
  | finish => true
  | _ => false

namespace EngineCall

/-- The canonical path that is asked for. -/
def path? (c : EngineCall) : Option String :=
  c.ask.target?.map Prod.snd

/-- What compiling the module at a path makes known, if the call asks for the path. -/
def found (p : String) (c : EngineCall) : Option Outcome :=
  match c.ask.target? with
  | none => none
  | some (loader, q) => if q = p then (Engine.outcome loader p).toOption else none

/-- The calls of an execution since it last ended. -/
def since (id : ExecutionId) (calls : List EngineCall) : List EngineCall :=
  ((calls.filter fun c => c.id = id).reverse.takeWhile fun c => !c.ask.isFinish).reverse

/-- The canonical paths that an execution asked for since it last ended. -/
def asked (id : ExecutionId) (calls : List EngineCall) : List String :=
  (since id calls).filterMap path?

/-- What is known of a canonical path in an execution: what became of it when an outcome was first
found. -/
def known (id : ExecutionId) (p : String) (calls : List EngineCall) : Option Outcome :=
  (since id calls).findSome? (found p)

variable {id : ExecutionId} {p : String} {calls : List EngineCall} {c : EngineCall}

theorem mem_since (h : c ∈ since id calls) : c ∈ calls ∧ c.id = id := by
  have hmem := (List.takeWhile_sublist _).mem (List.mem_reverse.1 h)
  rw [List.mem_reverse, List.mem_filter] at hmem
  exact ⟨hmem.1, of_decide_eq_true hmem.2⟩

theorem since_append_of_ne (h : c.id ≠ id) : since id (calls ++ [c]) = since id calls := by
  simp [since, h]

theorem since_append_finish (h : c.id = id) (hf : c.ask.isFinish = true) :
    since id (calls ++ [c]) = [] := by
  simp [since, h, hf]

theorem since_append_self (h : c.id = id) (hf : c.ask.isFinish = false) :
    since id (calls ++ [c]) = since id calls ++ [c] := by
  simp [since, h, hf]

/-- What an execution asked for depends on its own calls. -/
theorem since_filter (id : ExecutionId) (calls : List EngineCall) :
    since id (calls.filter fun c => c.id = id) = since id calls := by
  simp [since, List.filter_filter]

theorem target?_of_path? (h : c.path? = some p) : ∃ loader, c.ask.target? = some (loader, p) := by
  obtain ⟨⟨loader, q⟩, htarget, rfl⟩ := Option.map_eq_some_iff.1 h
  exact ⟨loader, htarget⟩

/-- A call that asks for a path does not end the execution. -/
theorem isFinish_of_target? {target : Loader × String} (h : c.ask.target? = some target) :
    c.ask.isFinish = false := by
  cases hask : c.ask with
  | finish =>
    rw [hask] at h
    cases h
  | _ => rfl

theorem found_of_path?_ne (h : c.path? ≠ some p) : c.found p = none := by
  unfold found
  split
  · rfl
  · rename_i htarget
    refine if_neg fun hq => h ?_
    rw [path?, htarget, ← hq]
    rfl

/-- What is known of a path was asked for. -/
theorem mem_asked_of_known {o : Outcome} (h : known id p calls = some o) : p ∈ asked id calls := by
  obtain ⟨c, hc, hfound⟩ := List.exists_of_findSome?_eq_some h
  refine List.mem_filterMap.2 ⟨c, hc, Classical.byContradiction fun hp => ?_⟩
  rw [found_of_path?_ne hp] at hfound
  cases hfound

/-- A call changes what is known by what it finds, unless the execution ends. -/
theorem known_append (h : c.id = id) (hf : c.ask.isFinish = false) :
    known id p (calls ++ [c]) = (known id p calls).or (c.found p) := by
  rw [known, since_append_self h hf, List.findSome?_append]
  simp [known]

/-- What is known stays known until the execution ends. -/
theorem known_append_of_some {o : Outcome} {more : List EngineCall} (h : known id p calls = some o)
    (hmore : ∀ d ∈ more, d.id = id → d.ask.isFinish = false) :
    known id p (calls ++ more) = some o := by
  induction more generalizing calls with
  | nil => rwa [List.append_nil]
  | cons d more ih =>
    have hstep : known id p (calls ++ [d]) = some o := by
      by_cases hid : d.id = id
      · rw [known_append hid (hmore d (List.mem_cons_self ..) hid), h, Option.some_or]
      · rw [known, since_append_of_ne hid, ← known, h]
    have hrest := ih hstep fun d' hd' => hmore d' (List.mem_cons_of_mem _ hd')
    rwa [List.append_assoc] at hrest

/-- What is not known stays unknown until the path is asked for again. -/
theorem known_append_of_none {more : List EngineCall} (h : known id p calls = none)
    (hmore : ∀ d ∈ more, d.id = id → d.path? ≠ some p) : known id p (calls ++ more) = none := by
  induction more generalizing calls with
  | nil => rwa [List.append_nil]
  | cons d more ih =>
    have hstep : known id p (calls ++ [d]) = none := by
      by_cases hid : d.id = id
      · cases hf : d.ask.isFinish with
        | true =>
          rw [known, since_append_finish hid hf]
          rfl
        | false =>
          rw [known_append hid hf, h, Option.none_or]
          exact found_of_path?_ne (hmore d (List.mem_cons_self ..) hid)
      · rw [known, since_append_of_ne hid, ← known, h]
    have hrest := ih hstep fun d' hd' => hmore d' (List.mem_cons_of_mem _ hd')
    rwa [List.append_assoc] at hrest

theorem asked_append (h : c.id = id) (hf : c.ask.isFinish = false) :
    asked id (calls ++ [c]) = asked id calls ++ c.path?.toList := by
  rw [asked, since_append_self h hf, List.filterMap_append]
  cases hp : c.path? <;> simp [asked, hp]

end EngineCall

/-! ### Engines agree with calls -/

namespace Engine

open EngineCall

variable {e : Engine} {loader : Loader} {id : ExecutionId} {p : String} {calls : List EngineCall}
  {c : EngineCall}

/-- A call that asks for a path. -/
theorem serve_of_target (h : c.ask.target? = some (loader, p)) (e : Engine) :
    ∃ q, Path.canonical q = p ∧ e.serve c =
      (.outcome (e.resolvePath loader c.id q).1, (e.resolvePath loader c.id q).2) := by
  unfold serve
  cases hask : c.ask with
  | path loader' q =>
    rw [hask] at h
    cases h
    exact ⟨q, rfl, rfl⟩
  | site loader' site bound =>
    rw [hask] at h
    obtain ⟨q, hq, heq⟩ := Option.map_eq_some_iff.1 h
    cases heq
    refine ⟨q, rfl, ?_⟩
    dsimp only [resolve]
    cases hrender : render site bound with
    | error error =>
      rw [hrender] at hq
      cases hq
    | ok q' =>
      rw [hrender] at hq
      cases hq
      rfl
  | finish =>
    rw [hask] at h
    cases h

/-- A call that asks for nothing, since a name is unbound. -/
theorem serve_of_unbound (h : c.ask.target? = none) (hf : c.ask.isFinish = false) :
    ∃ error, ∀ e : Engine, e.serve c = (.outcome (.error error), e) := by
  unfold serve
  cases hask : c.ask with
  | path loader' q =>
    rw [hask] at h
    cases h
  | site loader' site bound =>
    rw [hask] at h
    cases hrender : render site bound with
    | error error =>
      refine ⟨error, fun e => ?_⟩
      dsimp only [resolve]
      rw [hrender]
    | ok q =>
      rw [Ask.target?, hrender] at h
      cases h
  | finish =>
    rw [hask] at hf
    cases hf

/-- What an engine keeps for executions is what the calls made known. -/
structure Recalls (e : Engine) (calls : List EngineCall) : Prop where
  /-- Of a path that an execution asked for, what is known is kept. -/
  memo : ∀ id p, (e.memo id).get? p = if p ∈ asked id calls then some (known id p calls) else none
  /-- Something is kept for the executions that asked for anything. -/
  held : ∀ id, (e.memos.get? id).isSome = true ↔ asked id calls ≠ []

theorem recalls_start (assign : ExecutionId → Fin 16) : (startWith assign).Recalls [] := by
  refine ⟨fun id p => ?_, fun id => ?_⟩
  · rw [Engine.memo, startWith, Shards.get?_empty]
    rfl
  · rw [startWith, Shards.get?_empty]
    simp [asked, since]

/-- What an execution is told of a path is what it was told before, or else what becomes of it. -/
theorem Recalls.resolvePath_fst (h : e.Recalls calls) (loader : Loader) (id : ExecutionId)
    (q : String) : (e.resolvePath loader id q).1 =
      match known id (Path.canonical q) calls with
      | some o => .ok o
      | none => outcome loader (Path.canonical q) := by
  rw [Engine.resolvePath_fst, h.memo]
  cases hknown : known id (Path.canonical q) calls with
  | some o => rw [if_pos (mem_asked_of_known hknown)]
  | none => split <;> simp_all

/-- An execution that ends leaves nothing behind. -/
theorem Recalls.finish (h : e.Recalls calls) (hf : c.ask.isFinish = true) :
    (e.finish c.id).2.Recalls (calls ++ [c]) := by
  have hget : ∀ id, ((e.finish c.id).2.memos.get? id) =
      if id = c.id then none else e.memos.get? id := Shards.get?_erase _ _
  refine ⟨fun id p => ?_, fun id => ?_⟩
  · by_cases hid : id = c.id
    · rw [Engine.memo, hget, if_pos hid, asked, since_append_finish hid.symm hf]
      rfl
    · have hmemo := h.memo id p
      rw [Engine.memo] at hmemo ⊢
      rw [hget, if_neg hid, hmemo, asked, asked, known, known,
        since_append_of_ne (Ne.symm hid)]
  · by_cases hid : id = c.id
    · rw [hget, if_pos hid, asked, since_append_finish hid.symm hf]
      simp
    · rw [hget, if_neg hid, h.held, asked, asked, since_append_of_ne (Ne.symm hid)]

/-- A call that asks for nothing changes nothing. -/
theorem Recalls.unbound (h : e.Recalls calls) (hf : c.ask.isFinish = false)
    (htarget : c.ask.target? = none) : e.Recalls (calls ++ [c]) := by
  have hasked : ∀ id, asked id (calls ++ [c]) = asked id calls := fun id => by
    by_cases hid : c.id = id
    · rw [asked_append hid hf, path?, htarget]
      exact List.append_nil _
    · rw [asked, since_append_of_ne hid, asked]
  have hknown : ∀ id p, known id p (calls ++ [c]) = known id p calls := fun id p => by
    by_cases hid : c.id = id
    · rw [known_append hid hf, found, htarget]
      exact Option.or_none
    · rw [known, since_append_of_ne hid, known]
  refine ⟨fun id p => ?_, fun id => ?_⟩
  · rw [h.memo, hasked, hknown]
  · rw [h.held, hasked]

theorem held_of_memo {kept : Option Outcome} (h : (e.memo id).get? p = some kept) :
    (e.memos.get? id).isSome = true := by
  rw [Engine.memo] at h
  cases hget : e.memos.get? id with
  | some memo => rfl
  | none =>
    rw [hget] at h
    cases h

/-- What becomes of a path is kept for the execution that asks for it, and for no other. -/
theorem Recalls.resolvePath (h : e.Recalls calls) {q : String}
    (htarget : c.ask.target? = some (loader, Path.canonical q)) :
    (e.resolvePath loader c.id q).2.Recalls (calls ++ [c]) := by
  have hf := isFinish_of_target? htarget
  have hpath : c.path? = some (Path.canonical q) := by rw [path?, htarget]; rfl
  have hothers := (minds_resolvePath e loader c.id q).memos
  refine ⟨fun id p => ?_, fun id => ?_⟩
  · by_cases hid : c.id = id
    · subst hid
      rw [memo_resolvePath, h.resolvePath_fst, h.memo, asked_append rfl hf, known_append rfl hf,
        hpath, found, htarget]
      by_cases hp : p = Path.canonical q
      · subst hp
        rw [if_pos rfl, if_pos (by simp)]
        dsimp only
        rw [if_pos rfl]
        cases known c.id (Path.canonical q) calls <;> rfl
      · rw [if_neg hp]
        dsimp only
        rw [if_neg (Ne.symm hp), Option.or_none]
        simp [hp]
    · have hmemo := h.memo id p
      rw [Engine.memo] at hmemo ⊢
      rw [hothers id (Ne.symm hid), hmemo, asked, asked, known, known, since_append_of_ne hid]
  · by_cases hid : c.id = id
    · subst hid
      have hmemo := memo_resolvePath e loader c.id q (Path.canonical q)
      rw [if_pos rfl] at hmemo
      rw [held_of_memo hmemo, asked_append rfl hf, hpath]
      simp
    · rw [hothers id (Ne.symm hid), h.held, asked, asked, since_append_of_ne hid]

/-- A call keeps the engine in agreement with the calls. -/
theorem Recalls.serve (h : e.Recalls calls) (c : EngineCall) :
    (e.serve c).2.Recalls (calls ++ [c]) := by
  cases hf : c.ask.isFinish with
  | true =>
    have hserve : (e.serve c).2 = (e.finish c.id).2 := by
      unfold Engine.serve
      cases hask : c.ask with
      | finish => rfl
      | _ =>
        rw [hask] at hf
        cases hf
    rw [hserve]
    exact h.finish hf
  | false =>
    cases htarget : c.ask.target? with
    | none =>
      obtain ⟨error, hserve⟩ := serve_of_unbound htarget hf
      rw [hserve]
      exact h.unbound hf htarget
    | some target =>
      obtain ⟨loader, p⟩ := target
      obtain ⟨q, rfl, hserve⟩ := serve_of_target htarget e
      rw [hserve]
      exact h.resolvePath htarget

theorem Recalls.after (h : e.Recalls calls) (more : List EngineCall) :
    (e.after more).Recalls (calls ++ more) := by
  induction more generalizing e calls with
  | nil => rwa [List.append_nil]
  | cons c more ih =>
    have hrest := ih (h.serve c)
    rwa [List.append_assoc] at hrest

/-! ### What can be observed -/

/-- The distinct members of a list, counted by a list without repetitions. -/
theorem card_toFinset {α : Type} [DecidableEq α] {l l' : List α} (hl : l.Nodup)
    (h : ∀ a, a ∈ l ↔ a ∈ l') : l'.toFinset.card = l.length := by
  have heq : l'.toFinset = l.toFinset := Finset.ext fun a => by
    rw [List.mem_toFinset, List.mem_toFinset, h]
  rw [heq, List.toFinset_card_of_nodup hl]

/-- A path of which nothing is known is compiled, once. -/
theorem compilations_resolvePath {q : String}
    (h : ∀ o, (e.memo id).get? (Path.canonical q) ≠ some (some o)) :
    (e.resolvePath loader id q).2.metrics.compilations = e.metrics.compilations + 1 := by
  have hanew : ∀ e' : Engine, (e'.resolveAnew loader id (Path.canonical q)).2.metrics.compilations =
      e'.metrics.compilations + 1 := fun e' => by
    unfold resolveAnew compile
    cases loader.compile (Path.canonical q) with
    | ok compiled => rfl
    | error error =>
      dsimp only
      split <;> rfl
  have hcounted : ∀ known, (e.metrics.countLookup known).compilations = e.metrics.compilations :=
    fun known => by cases known <;> rfl
  unfold Engine.resolvePath
  dsimp only
  split
  · exact absurd ‹_› (h _)
  · rw [hanew, hcounted]
  · rw [hanew]
    exact congrArg (· + 1) (hcounted _)

/-- The engine that has served calls. -/
def served (assign : ExecutionId → Fin 16) (calls : List EngineCall) : Engine :=
  (startWith assign).after calls

/-- What can be observed of an engine whose executions are assigned to shards in some way. -/
structure Remembers (assign : ExecutionId → Fin 16) : Prop where
  /-- An execution is told of a path what it was told before, or else what becomes of it. -/
  answers : ∀ calls {c : EngineCall} {loader : Loader} {p : String},
    c.ask.target? = some (loader, p) → ((served assign calls).serve c).1 =
      .outcome (match known c.id p calls with
        | some o => .ok o
        | none => outcome loader p)
  /-- What it was told of a path it is told again until it ends, wherever modules come from by then.
  Nothing is compiled or fetched for it; that the path was asked for again is counted. -/
  again : ∀ {before between : List EngineCall} {c c' : EngineCall} {p : String} {o : Outcome},
    c.path? = some p → ((served assign before).serve c).1 = .outcome (.ok o) →
    (∀ d ∈ between, d.id = c.id → d.ask.isFinish = false) → c'.id = c.id → c'.path? = some p →
    let e := served assign (before ++ c :: between)
    e.serve c' = (.outcome (.ok o), { e with metrics := e.metrics.countLookup true })
  /-- What failed is not remembered: the next call compiles the module, as it is by then. -/
  retried : ∀ {before between : List EngineCall} {c c' : EngineCall} {p : String} {loader : Loader}
    {error : EvalError},
    c.path? = some p → ((served assign before).serve c).1 = .outcome (.error error) →
    (∀ d ∈ between, d.id = c.id → d.path? ≠ some p) → c'.id = c.id →
    c'.ask.target? = some (loader, p) →
    let e := served assign (before ++ c :: between)
    (e.serve c').1 = .outcome (outcome loader p) ∧
      (e.serve c').2.metrics.compilations = e.metrics.compilations + 1
  /-- An execution is answered from its own calls alone. -/
  apart : ∀ calls (c : EngineCall), ((served assign calls).serve c).1 =
    ((served assign (calls.filter fun d => d.id = c.id)).serve c).1
  /-- A call changes nothing for other executions. -/
  undisturbed : ∀ calls (c c' : EngineCall), c'.id ≠ c.id →
    ((served assign (calls ++ [c])).serve c').1 = ((served assign calls).serve c').1 ∧
      (served assign (calls ++ [c])).memoSize c'.id = (served assign calls).memoSize c'.id
  /-- The paths that an execution asked for since it last ended are counted, those whose modules
  failed included. -/
  counted : ∀ calls id, (served assign calls).memoSize id = (asked id calls).toFinset.card
  /-- An execution that ends is told whether it asked for a path since it last ended. -/
  ended : ∀ calls id, ((served assign calls).finish id).1 = true ↔ asked id calls ≠ []
  /-- The executions that asked for a path since they last ended are counted. -/
  active : ∀ calls, (served assign calls).active =
    ((calls.map EngineCall.id).toFinset.filter fun id => asked id calls ≠ []).card
  /-- A site with an unbound name changes nothing. -/
  unbound : ∀ calls loader id (site : Site) (bound : String → Option Value),
    (∃ n ∈ site.template.inputs, (bound n).bind Value.pathText? = none) →
    ∃ n ∈ site.template.inputs, (bound n).bind Value.pathText? = none ∧
      (served assign calls).resolve loader id site bound =
        (.error (.unresolvedInput site.template.text n), served assign calls)

variable {assign : ExecutionId → Fin 16}

/-- A new engine agrees with the calls that it has served. -/
theorem recalls_served (assign : ExecutionId → Fin 16) (calls : List EngineCall) :
    (served assign calls).Recalls calls :=
  (recalls_start assign).after calls

theorem Recalls.answers (h : e.Recalls calls) (htarget : c.ask.target? = some (loader, p)) :
    (e.serve c).1 = .outcome (match known c.id p calls with
      | some o => .ok o
      | none => outcome loader p) := by
  obtain ⟨q, rfl, hserve⟩ := serve_of_target htarget e
  rw [hserve, h.resolvePath_fst]

/-- A call that is answered makes the answer known, and no other call does. -/
theorem Recalls.known_append (h : e.Recalls calls) {result : Except EvalError Outcome}
    (hpath : c.path? = some p) (hreply : (e.serve c).1 = .outcome result) :
    known c.id p (calls ++ [c]) = result.toOption := by
  obtain ⟨loader, htarget⟩ := target?_of_path? hpath
  rw [h.answers htarget] at hreply
  rw [EngineCall.known_append rfl (isFinish_of_target? htarget), found, htarget]
  dsimp only
  rw [if_pos rfl]
  cases hreply
  cases known c.id p calls <;> rfl

/-- What is known is told again. -/
theorem Recalls.serve_of_known (h : e.Recalls calls) {o : Outcome} (hpath : c.path? = some p)
    (hknown : known c.id p calls = some o) :
    e.serve c = (.outcome (.ok o), { e with metrics := e.metrics.countLookup true }) := by
  obtain ⟨loader, htarget⟩ := target?_of_path? hpath
  obtain ⟨q, rfl, hserve⟩ := serve_of_target htarget e
  have hmemo : (e.memo c.id).get? (Path.canonical q) = some (some o) := by
    rw [h.memo, if_pos (mem_asked_of_known hknown), hknown]
  rw [hserve, resolvePath_of_known hmemo]

/-- What is not known is compiled. -/
theorem Recalls.compilations_serve (h : e.Recalls calls)
    (htarget : c.ask.target? = some (loader, p)) (hknown : known c.id p calls = none) :
    (e.serve c).2.metrics.compilations = e.metrics.compilations + 1 := by
  obtain ⟨q, rfl, hserve⟩ := serve_of_target htarget e
  rw [hserve]
  refine compilations_resolvePath fun o ho => ?_
  rw [h.memo, hknown] at ho
  split at ho <;> cases ho

/-- Engines answer an execution alike after calls that are alike for the execution. -/
theorem Recalls.serve_congr {e' : Engine} {calls' : List EngineCall} (h : e.Recalls calls)
    (h' : e'.Recalls calls') (hsince : since c.id calls = since c.id calls') :
    (e.serve c).1 = (e'.serve c).1 := by
  cases hf : c.ask.isFinish with
  | true =>
    have hheld : (e.memos.get? c.id).isSome = (e'.memos.get? c.id).isSome := by
      rw [Bool.eq_iff_iff, h.held, h'.held, asked, asked, hsince]
    unfold Engine.serve
    cases hask : c.ask with
    | finish => exact congrArg Reply.finished hheld
    | _ =>
      rw [hask] at hf
      cases hf
  | false =>
    cases htarget : c.ask.target? with
    | none =>
      obtain ⟨error, hserve⟩ := serve_of_unbound htarget hf
      rw [hserve, hserve]
    | some target => rw [h.answers htarget, h'.answers htarget, known, known, hsince]

theorem Recalls.memoSize (h : e.Recalls calls) (id : ExecutionId) :
    e.memoSize id = (asked id calls).toFinset.card := by
  have hkeys : ∀ p, p ∈ (e.memo id).keys ↔ p ∈ asked id calls := fun p => by
    rw [← Table.isSome_get?_iff, h.memo]
    split <;> simp_all
  rw [card_toFinset (e.memo id).nodup_keys hkeys]
  exact (Table.length_keys _).symm

theorem Recalls.active (h : e.Recalls calls) :
    e.active = ((calls.map EngineCall.id).toFinset.filter fun id => asked id calls ≠ []).card := by
  have hkeys : ∀ id, id ∈ e.memos.keys ↔ asked id calls ≠ [] := fun id => by
    rw [Shards.mem_keys_iff, h.held]
  have hcalled : ∀ id, asked id calls ≠ [] → id ∈ calls.map EngineCall.id := fun id hid => by
    obtain ⟨p, hp⟩ := List.exists_mem_of_ne_nil _ hid
    obtain ⟨c, hc, -⟩ := List.mem_filterMap.1 hp
    exact List.mem_map.2 ⟨c, mem_since hc⟩
  rw [Engine.active, ← Shards.length_keys, ← List.toFinset_card_of_nodup (Shards.nodup_keys _)]
  congr 1
  ext id
  rw [List.mem_toFinset, Finset.mem_filter, List.mem_toFinset, hkeys]
  exact ⟨fun hid => ⟨hcalled id hid, hid⟩, And.right⟩

theorem resolve_of_unbound {site : Site} {bound : String → Option Value} (e : Engine)
    (loader : Loader) (id : ExecutionId)
    (h : ∃ n ∈ site.template.inputs, (bound n).bind Value.pathText? = none) :
    ∃ n ∈ site.template.inputs, (bound n).bind Value.pathText? = none ∧
      e.resolve loader id site bound = (.error (.unresolvedInput site.template.text n), e) := by
  have hunbound : ∃ n ∈ site.template.inputs,
      (fun name => (bound name).bind Value.pathText?) n = none := h
  obtain ⟨m, hm, hmnone, herror⟩ := Template.render_of_unbound hunbound
  refine ⟨m, hm, hmnone, ?_⟩
  rw [resolve, render, herror]

/-- **Engines are maps from executions and canonical paths to outcomes.** -/
theorem remembers (assign : ExecutionId → Fin 16) : Remembers assign where
  answers calls c loader p htarget := (recalls_served assign calls).answers htarget
  again := by
    intro before between c c' p o hpath hreply hbetween hid hpath'
    have hknown := (recalls_served assign before).known_append hpath hreply
    have hlater := known_append_of_some hknown hbetween
    rw [List.append_assoc, List.singleton_append, ← hid] at hlater
    exact (recalls_served assign _).serve_of_known hpath' hlater
  retried := by
    intro before between c c' p loader error hpath hreply hbetween hid htarget
    have hknown := (recalls_served assign before).known_append hpath hreply
    have hlater := known_append_of_none hknown hbetween
    rw [List.append_assoc, List.singleton_append, ← hid] at hlater
    have hrecalls := recalls_served assign (before ++ c :: between)
    refine ⟨?_, hrecalls.compilations_serve htarget hlater⟩
    rw [hrecalls.answers htarget, hlater]
  apart calls c := (recalls_served assign calls).serve_congr (recalls_served assign _)
    (since_filter c.id calls).symm
  undisturbed calls c c' hid := by
    have hsince : since c'.id (calls ++ [c]) = since c'.id calls := since_append_of_ne (Ne.symm hid)
    refine ⟨(recalls_served assign _).serve_congr (recalls_served assign _) hsince, ?_⟩
    rw [(recalls_served assign _).memoSize, (recalls_served assign _).memoSize, asked, asked,
      hsince]
  counted calls id := (recalls_served assign calls).memoSize id
  ended calls id := (recalls_served assign calls).held id
  active calls := (recalls_served assign calls).active
  unbound calls loader id site bound h := resolve_of_unbound _ loader id h

/-- A module with a syntax error. -/
def brokenModule : Loader :=
  (Bundle.ofList [("f", "LET")]).loader

/-- A call for the module with the syntax error. -/
def asksBroken (path : String) : EngineCall :=
  ⟨1, .path brokenModule path⟩

/-- A call for a module that is not there. -/
def asksAbsent : EngineCall :=
  ⟨1, .path Bundle.empty.loader "f"⟩

/-- Nothing is remembered of a module that failed; that a module is absent is, though it comes
back. -/
theorem remembers_absent :
    ((served (Fin.ofNat 16) [asksBroken "f", asksAbsent]).serve (asksBroken "./f")).1 =
      .outcome (.ok (.absent "f")) := by
  have hpath : Path.canonical "f" = "f" ∧ Path.canonical "./f" = "f" := by decide +kernel
  have hbroken : ∃ error, outcome brokenModule "f" = .error error := by
    have hnone : (outcome brokenModule "f").toOption.isNone = true := by decide +kernel
    cases houtcome : outcome brokenModule "f" with
    | ok o =>
      rw [houtcome] at hnone
      cases hnone
    | error error => exact ⟨error, rfl⟩
  have habsent : outcome Bundle.empty.loader "f" = .ok (.absent "f") := by
    rw [outcome, Loader.compile, hpath.1]
    rfl
  have hfirst : (asksBroken "f").ask.target? = some (brokenModule, "f") := by
    rw [asksBroken, Ask.target?, hpath.1]
  have hsecond : asksAbsent.ask.target? = some (Bundle.empty.loader, "f") := by
    rw [asksAbsent, Ask.target?, hpath.1]
  have hthird : (asksBroken "./f").path? = some "f" := by
    rw [path?, asksBroken, Ask.target?, hpath.2]
    rfl
  have h := remembers (Fin.ofNat 16)
  obtain ⟨error, hbroken⟩ := hbroken
  have hfailed : ((served (Fin.ofNat 16) []).serve (asksBroken "f")).1 =
      .outcome (.error error) :=
    (h.answers [] hfirst).trans (congrArg Reply.outcome hbroken)
  have hretried := @Remembers.retried _ h [] [] (asksBroken "f") asksAbsent "f" Bundle.empty.loader
    error (by rw [path?, hfirst]; rfl) hfailed (by simp) rfl hsecond
  have hagain := @Remembers.again _ h [asksBroken "f"] [] asksAbsent (asksBroken "./f") "f"
    (.absent "f") (by rw [path?, hsecond]; rfl)
    (hretried.1.trans (congrArg Reply.outcome habsent)) (by simp) rfl hthird
  exact congrArg Prod.fst hagain

end Engine

end GatedRules
