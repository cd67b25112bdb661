import GatedRules.Evaluation.World
import GatedRules.Proofs.Protocol

/-!
# Evaluations without cells

Two ways to evaluate without cells, for programs that keep no state. A plain evaluation remembers
nothing: it computes a frame anew wherever it is asked for. A tracked evaluation knows which frames
it has entered, as an execution does, and fails if it would enter one of them again.

A budget is a matter of patience only: an evaluation that has finished finishes in the same way with
any larger budget (`plain_mono`, `tracked_mono`). And tracking makes no difference where a plain
evaluation finishes (`tracked_eq_plain`). The reason is that no frame on the stack can be needed
again. A frame on the stack awaits the goal at hand: within every budget that lets it finish, the
goal finishes within a smaller one. If the goal needed a frame that awaits it, there would be ever
smaller budgets.
-/

namespace GatedRules

/-- An evaluation has not run out of its budget. -/
def Finished {α : Type} (x : Except Halt α) : Prop :=
  x ≠ .error .exhausted

namespace Setting

/-- What an action results in where no state is kept: the input of a name is the one that was given,
or null. There is no result of a stateful call. -/
def result (σ : Setting) : (action : Action) → Except Halt action.Result
  | .input name => .ok ((σ.inputs.get? name).getD .null)
  | .call _ _ => .error .exhausted
  | .skip => .ok ()
  | .resolve path => (Engine.outcome σ.loader (Path.canonical path)).mapError .failed

/-- How to evaluate without remembering anything. -/
def plain (σ : Setting) : Handler (Except Halt) where
  fail error := .error (.failed error)
  exhaust := .error .exhausted
  perform := σ.result
  visit _ compute := compute

/-- How to evaluate with a stack but without cells. -/
def tracked (σ : Setting) : Handler (ReaderT (List String) (Except Halt)) where
  fail error _ := .error (.failed error)
  exhaust _ := .error .exhausted
  perform action _ := σ.result action
  visit frame compute stack :=
    if stack.contains frame.text then .error (.failed (.recursion (stack ++ [frame.text])))
    else compute (stack ++ [frame.text])

end Setting

/-! ### Budgets -/

section

variable {α β : Type}

theorem finished_ok (a : α) : Finished (.ok a) := by
  intro h
  cases h

theorem finished_failed (error : EvalError) :
    Finished (.error (.failed error) : Except Halt α) := by
  intro h
  cases h

/-- Whatever stops short of the budget finishes, whatever it was to result in. -/
theorem Finished.halt {halt : Halt} (h : Finished (.error halt : Except Halt α)) :
    Finished (.error halt : Except Halt β) := by
  rintro ⟨rfl⟩
  exact h rfl

/-- What finishes has finished its first part. -/
theorem Finished.of_bind {x : Except Halt α} {f : α → Except Halt β} (h : Finished (x >>= f)) :
    Finished x := by
  rintro rfl
  exact h rfl

theorem Finished.bind {x : Except Halt α} {f : α → Except Halt β} (hx : Finished x)
    (hf : ∀ a, Finished (f a)) : Finished (x >>= f) := by
  cases x with
  | error halt => exact hx.halt
  | ok a => exact hf a

/-- A step finishes together with what comes after it, if it does, and so does what comes after it
in the world to which it leads. -/
theorem EvalM.finished_bind {x : EvalM α} {f : α → EvalM β} {stack : List String} {w : World}
    (hx : Finished (x.exec stack w).1)
    (hf : ∀ a w', x.exec stack w = (.ok a, w') → Finished ((f a).exec stack w').1) :
    Finished ((x >>= f).exec stack w).1 := by
  rw [exec_bind]
  rcases hr : x.exec stack w with ⟨halt | a, w'⟩
  · rw [hr] at hx
    exact hx.halt
  · exact hf a w' hr

/-- An evaluation that has finished is repeated by another one. -/
def Repeats (x' x : Except Halt α) : Prop :=
  Finished x → x' = x

theorem Repeats.refl (x : Except Halt α) : Repeats x x :=
  fun _ => rfl

theorem Repeats.bind {x x' : Except Halt α} {f f' : α → Except Halt β} (hx : Repeats x' x)
    (hf : ∀ a, Repeats (f' a) (f a)) : Repeats (x' >>= f') (x >>= f) := by
  intro h
  rw [hx h.of_bind]
  cases x with
  | error halt => rfl
  | ok a => exact hf a h

end

namespace Setting

variable {σ : Setting} {k k' : Nat} {goal : Goal} {α : Type}

/-- Actions other than stateful calls finish. -/
theorem finished_result {action : Action} (h : ∀ slot c, action ≠ .call slot c) :
    Finished (σ.result action) := by
  cases action with
  | input name => exact finished_ok _
  | call slot c => exact absurd rfl (h slot c)
  | skip => exact finished_ok _
  | resolve path =>
    change Finished ((Engine.outcome σ.loader (Path.canonical path)).mapError Halt.failed)
    cases Engine.outcome σ.loader (Path.canonical path) with
    | error error => exact finished_failed error
    | ok outcome => exact finished_ok outcome

theorem plain_succ (k : Nat) (goal : Goal) :
    σ.plain.answer (k + 1) goal = goal.plan.run σ.plain (σ.plain.answer k) := by
  cases goal <;> rfl

theorem not_finished_plain_zero (goal : Goal) : ¬ Finished (σ.plain.answer 0 goal) :=
  fun h => h rfl

theorem run_plain_repeats {answer answer' : (goal : Goal) → Except Halt goal.Answer}
    (h : ∀ goal, Repeats (answer' goal) (answer goal)) (x : Plan α) :
    Repeats (x.run σ.plain answer') (x.run σ.plain answer) := by
  induction x with
  | done a => exact .refl _
  | fail error => exact .refl _
  | perform action next ih => exact (Repeats.refl (σ.result action)).bind ih
  | ask goal next ih => exact (h goal).bind ih

/-- A plain evaluation that has finished finishes in the same way with a larger budget. -/
theorem plain_mono (hk : k ≤ k') (goal : Goal) :
    Repeats (σ.plain.answer k' goal) (σ.plain.answer k goal) := by
  induction k generalizing k' goal with
  | zero => exact fun h => absurd h (not_finished_plain_zero goal)
  | succ k ih =>
    obtain ⟨k', rfl⟩ := Nat.exists_eq_add_of_le' hk
    rw [← Nat.add_assoc, plain_succ, plain_succ]
    exact run_plain_repeats (ih (Nat.le_add_left k k')) goal.plan

/-- A frame on the stack is not entered again. -/
theorem tracked_of_contains {f : Frame} {stack : List String} (hs : stack.contains f.text = true)
    (k : Nat) : σ.tracked.answer (k + 1) (.frame f) stack =
      .error (.failed (.recursion (stack ++ [f.text]))) :=
  if_pos hs

theorem tracked_of_not_contains {f : Frame} {stack : List String}
    (hs : ¬ stack.contains f.text = true) (k : Nat) : σ.tracked.answer (k + 1) (.frame f) stack =
      f.plan.run σ.tracked (σ.tracked.answer k) (stack ++ [f.text]) :=
  if_neg hs

theorem run_tracked_repeats
    {answer answer' : (goal : Goal) → ReaderT (List String) (Except Halt) goal.Answer}
    (h : ∀ goal stack, Repeats (answer' goal stack) (answer goal stack)) (x : Plan α)
    (stack : List String) :
    Repeats (x.run σ.tracked answer' stack) (x.run σ.tracked answer stack) := by
  induction x with
  | done a => exact .refl _
  | fail error => exact .refl _
  | perform action next ih => exact (Repeats.refl (σ.result action)).bind ih
  | ask goal next ih => exact (h goal stack).bind ih

/-- A tracked evaluation that has finished finishes in the same way with a larger budget. -/
theorem tracked_mono (hk : k ≤ k') (goal : Goal) (stack : List String) :
    Repeats (σ.tracked.answer k' goal stack) (σ.tracked.answer k goal stack) := by
  induction k generalizing k' goal stack with
  | zero => exact fun h => absurd rfl h
  | succ k ih =>
    obtain ⟨k', rfl⟩ := Nat.exists_eq_add_of_le' hk
    have hrun := run_tracked_repeats (σ := σ) (ih (Nat.le_add_left k k')) goal.plan
    cases goal with
    | primary scope name => exact hrun stack
    | frame f =>
      rw [← Nat.add_assoc]
      by_cases hs : stack.contains f.text = true
      · rw [tracked_of_contains hs, tracked_of_contains hs]
        exact .refl _
      · rw [tracked_of_not_contains hs, tracked_of_not_contains hs]
        exact hrun _

theorem run_plain_perform (action : Action) (next : action.Result → Plan α)
    (answer : (goal : Goal) → Except Halt goal.Answer) :
    (Plan.perform action next).run σ.plain answer =
      σ.result action >>= fun r => (next r).run σ.plain answer :=
  rfl

theorem run_plain_ask (goal : Goal) (next : goal.Answer → Plan α)
    (answer : (goal : Goal) → Except Halt goal.Answer) :
    (Plan.ask goal next).run σ.plain answer =
      answer goal >>= fun r => (next r).run σ.plain answer :=
  rfl

theorem run_tracked_perform (action : Action) (next : action.Result → Plan α)
    (answer : (goal : Goal) → ReaderT (List String) (Except Halt) goal.Answer)
    (stack : List String) :
    (Plan.perform action next).run σ.tracked answer stack =
      σ.result action >>= fun r => (next r).run σ.tracked answer stack :=
  rfl

theorem run_tracked_ask (goal : Goal) (next : goal.Answer → Plan α)
    (answer : (goal : Goal) → ReaderT (List String) (Except Halt) goal.Answer)
    (stack : List String) :
    (Plan.ask goal next).run σ.tracked answer stack =
      answer goal stack >>= fun r => (next r).run σ.tracked answer stack :=
  rfl

/-- A budget that is enough for an answer and for what comes after it is enough for both. -/
theorem run_plain_ask_max {i j : Nat} {next : goal.Answer → Plan α} {r : goal.Answer}
    (hi : σ.plain.answer i goal = .ok r) (hj : Finished ((next r).run σ.plain (σ.plain.answer j))) :
    (Plan.ask goal next).run σ.plain (σ.plain.answer (max i j)) =
      (next r).run σ.plain (σ.plain.answer j) := by
  have hanswer := plain_mono (Nat.le_max_left i j) goal (hi ▸ finished_ok r)
  rw [run_plain_ask, hanswer, hi]
  exact run_plain_repeats (plain_mono (Nat.le_max_right i j)) (next r) hj

theorem run_tracked_ask_max {i j : Nat} {next : goal.Answer → Plan α} {r : goal.Answer}
    {stack : List String} (hi : σ.tracked.answer i goal stack = .ok r)
    (hj : Finished ((next r).run σ.tracked (σ.tracked.answer j) stack)) :
    (Plan.ask goal next).run σ.tracked (σ.tracked.answer (max i j)) stack =
      (next r).run σ.tracked (σ.tracked.answer j) stack := by
  have hanswer := tracked_mono (Nat.le_max_left i j) goal stack (by rw [hi]; exact finished_ok r)
  rw [run_tracked_ask, hanswer, hi]
  exact run_tracked_repeats (tracked_mono (Nat.le_max_right i j)) (next r) stack hj

/-- Plain evaluations that finish finish in the same way. -/
theorem plain_unique (h : Finished (σ.plain.answer k goal))
    (h' : Finished (σ.plain.answer k' goal)) :
    σ.plain.answer k goal = σ.plain.answer k' goal := by
  rcases Nat.le_total k k' with hk | hk
  · exact (plain_mono hk goal h).symm
  · exact plain_mono hk goal h'

/-- Tracked evaluations that finish finish in the same way. -/
theorem tracked_unique {stack : List String} (h : Finished (σ.tracked.answer k goal stack))
    (h' : Finished (σ.tracked.answer k' goal stack)) :
    σ.tracked.answer k goal stack = σ.tracked.answer k' goal stack := by
  rcases Nat.le_total k k' with hk | hk
  · exact (tracked_mono hk goal stack h).symm
  · exact tracked_mono hk goal stack h'

/-! ### What evaluations ask for -/

/-- The protocol of evaluations that keep no state and ask for certain goals only: answers are those
of plain evaluations. -/
def protocol (σ : Setting) (may : Goal → Prop) : Protocol Unit where
  later _ _ := True
  mayAsk _ goal := may goal
  mayAct _ action := ∀ slot c, action ≠ .call slot c
  answered _ goal r := ∃ k, σ.plain.answer k goal = .ok r
  acted _ action r := σ.result action = .ok r
  refl _ := trivial
  trans _ _ := trivial
  mayAsk_mono _ h := h
  mayAct_mono _ h := h
  answered_mono _ h := h
  acted_mono _ h := h

/-- A plan that may ask for certain goals may ask for more. -/
theorem follows_permit {may may' : Goal → Prop} (h : ∀ goal, may goal → may' goal)
    {Q : Unit → α → Prop} {x : Plan α} (hx : x.Follows (σ.protocol may) Q ()) :
    x.Follows (σ.protocol may') Q () := by
  induction x with
  | done a => exact hx
  | fail error => exact hx
  | perform action next ih => exact ⟨hx.1, fun _ r ht hr => ih r (hx.2 () r ht hr)⟩
  | ask goal next ih => exact ⟨h goal hx.1, fun _ r ht hr => ih r (hx.2 () r ht hr)⟩

/-- What serves a name with certain goals serves it with more. -/
theorem serves_permit {may may' : Goal → Prop} (h : ∀ goal, may goal → may' goal) {scope : Scope}
    {name : String} (hs : (σ.protocol may).Serves scope name ()) :
    (σ.protocol may').Serves scope name () where
  condition hd c hc := h _ (hs.condition hd c hc)
  definition {_ _ t} hd ht ho := h _ (hs.definition (t := t) hd ht ho)
  site ha site hsite n hn := h _ (hs.site ha site hsite n hn)
  child ha site hsite t _ ht hl :=
    h _ (hs.child ha site hsite (t := t) ht ⟨hl.isOpen, hl.resolves⟩)
  resolve := hs.resolve
  skip := hs.skip

/-- Certain goals ask for no others, and different frames among them have different texts. -/
structure Closed (σ : Setting) (may : Goal → Prop) : Prop where
  /-- No other goals are asked for. -/
  follows : ∀ {goal}, may goal → goal.plan.Follows (σ.protocol may) (fun _ _ => True) ()
  /-- Frames are known by their texts. -/
  injective : ∀ {f g}, may (.frame f) → may (.frame g) → f.text = g.text → f = g

/-! ### Tracking -/

/-- Frames await something: within every budget that lets one of them finish, it finishes within a
smaller one. -/
def Awaited (σ : Setting) (frames : List Frame) (finishes : Nat → Prop) : Prop :=
  ∀ f ∈ frames, ∀ k, Finished (σ.plain.answer k (.frame f)) → ∃ j < k, finishes j

/-- Frames await the answer to a goal. -/
def AwaitedGoal (σ : Setting) (frames : List Frame) (goal : Goal) : Prop :=
  σ.Awaited frames fun j => Finished (σ.plain.answer j goal)

/-- Frames await the result of a plan. -/
def AwaitedPlan {α : Type} (σ : Setting) (frames : List Frame) (x : Plan α) : Prop :=
  σ.Awaited frames fun j => Finished (x.run σ.plain (σ.plain.answer j))

variable {frames : List Frame} {may : Goal → Prop}

/-- A frame that finishes does not await itself. -/
theorem not_mem_of_awaitedGoal {f : Frame} (h : σ.AwaitedGoal frames (.frame f))
    (hf : Finished (σ.plain.answer k (.frame f))) : f ∉ frames := by
  intro hm
  induction k using Nat.strongRecOn with
  | ind k ih =>
    obtain ⟨j, hj, hfinished⟩ := h f hm k hf
    exact ih j hj hfinished

/-- Frames that await a goal await its plan. -/
theorem AwaitedGoal.plan (h : σ.AwaitedGoal frames goal) : σ.AwaitedPlan frames goal.plan := by
  intro f hf k hk
  obtain ⟨j, hj, hfinished⟩ := h f hf k hk
  cases j with
  | zero => exact absurd hfinished (not_finished_plain_zero goal)
  | succ j =>
    rw [plain_succ] at hfinished
    exact ⟨j, Nat.lt_of_succ_lt hj, hfinished⟩

/-- A frame awaits its own plan. -/
theorem AwaitedGoal.enter {f : Frame} (h : σ.AwaitedGoal frames (.frame f)) :
    σ.AwaitedPlan (frames ++ [f]) f.plan := by
  intro g hg k hk
  rcases List.mem_append.1 hg with hg | hg
  · exact h.plan g hg k hk
  · obtain rfl := List.mem_singleton.1 hg
    cases k with
    | zero => exact absurd hk (not_finished_plain_zero _)
    | succ k =>
      rw [plain_succ] at hk
      exact ⟨k, Nat.lt_succ_self k, hk⟩

/-- Frames that await a plan await what it asks for. -/
theorem AwaitedPlan.asked {next : goal.Answer → Plan α}
    (h : σ.AwaitedPlan frames (.ask goal next)) : σ.AwaitedGoal frames goal := by
  intro f hf k hk
  obtain ⟨j, hj, hfinished⟩ := h f hf k hk
  exact ⟨j, hj, hfinished.of_bind⟩

/-- Frames that await a plan await how it goes on with an answer. -/
theorem AwaitedPlan.answered {next : goal.Answer → Plan α} {r : goal.Answer}
    (h : σ.AwaitedPlan frames (.ask goal next)) (hr : σ.plain.answer k goal = .ok r) :
    σ.AwaitedPlan frames (next r) := by
  intro f hf k' hk
  obtain ⟨j, hj, hfinished⟩ := h f hf k' hk
  refine ⟨j, hj, ?_⟩
  have hanswer := plain_unique hfinished.of_bind (hr ▸ finished_ok r)
  rw [Plan.run, hanswer, hr] at hfinished
  exact hfinished

/-- Frames that await a plan await how it goes on with the result of an action. -/
theorem AwaitedPlan.acted {action : Action} {next : action.Result → Plan α} {r : action.Result}
    (h : σ.AwaitedPlan frames (.perform action next)) (hr : σ.result action = .ok r) :
    σ.AwaitedPlan frames (next r) := by
  intro f hf k hk
  obtain ⟨j, hj, hfinished⟩ := h f hf k hk
  refine ⟨j, hj, ?_⟩
  have hact : σ.plain.perform action = .ok r := hr
  rw [Plan.run, hact] at hfinished
  exact hfinished

/-- Tracking makes no difference to a plan that finishes, if it makes none to answers. -/
theorem run_tracked_eq_plain {Q : Unit → α → Prop} {x : Plan α}
    (hx : x.Follows (σ.protocol may) Q ()) (ha : σ.AwaitedPlan frames x)
    (hanswer : ∀ goal, may goal → σ.AwaitedGoal frames goal → Finished (σ.plain.answer k goal) →
      σ.tracked.answer k goal (frames.map Frame.text) = σ.plain.answer k goal)
    (hfinished : Finished (x.run σ.plain (σ.plain.answer k))) :
    x.run σ.tracked (σ.tracked.answer k) (frames.map Frame.text) =
      x.run σ.plain (σ.plain.answer k) := by
  induction x with
  | done a => rfl
  | fail error => rfl
  | perform action next ih =>
    rw [run_plain_perform] at hfinished
    rw [run_tracked_perform, run_plain_perform]
    cases hr : σ.result action with
    | error halt => rfl
    | ok r =>
      rw [hr] at hfinished
      exact ih r (hx.2 () r trivial hr) (ha.acted hr) hfinished
  | ask goal next ih =>
    rw [run_plain_ask] at hfinished
    rw [run_tracked_ask, run_plain_ask, hanswer goal hx.1 ha.asked hfinished.of_bind]
    cases hr : σ.plain.answer k goal with
    | error halt => rfl
    | ok r =>
      rw [hr] at hfinished
      exact ih r (hx.2 () r trivial ⟨k, hr⟩) (ha.answered hr) hfinished

/-- Tracking makes no difference where a plain evaluation finishes. -/
theorem tracked_eq_plain (hc : σ.Closed may) (hgoal : may goal)
    (hframes : ∀ f ∈ frames, may (.frame f)) (ha : σ.AwaitedGoal frames goal)
    (hfinished : Finished (σ.plain.answer k goal)) :
    σ.tracked.answer k goal (frames.map Frame.text) = σ.plain.answer k goal := by
  induction k generalizing goal frames with
  | zero => exact absurd hfinished (not_finished_plain_zero goal)
  | succ k ih =>
    rw [plain_succ] at hfinished ⊢
    cases goal with
    | primary scope name =>
      exact run_tracked_eq_plain (hc.follows hgoal) ha.plan
        (fun goal hg hag hf => ih hg hframes hag hf) hfinished
    | frame f =>
      have hnot : ¬ (frames.map Frame.text).contains f.text = true := by
        intro hm
        -- A frame on the stack with this text would be this frame, and would await itself.
        obtain ⟨g, hg, htext⟩ := List.mem_map.1 (List.contains_iff_mem.1 hm)
        have hself : Finished (σ.plain.answer (k + 1) (.frame f)) := by rwa [plain_succ]
        exact not_mem_of_awaitedGoal ha hself (hc.injective (hframes g hg) hgoal htext ▸ hg)
      have hframes' : ∀ g ∈ frames ++ [f], may (.frame g) :=
        List.forall_mem_append.2 ⟨hframes, List.forall_mem_singleton.2 hgoal⟩
      have hrun := run_tracked_eq_plain (hc.follows hgoal) ha.enter
        (fun goal hg hag hf => ih hg hframes' hag hf) hfinished
      rw [List.map_append] at hrun
      exact (tracked_of_not_contains hnot k).trans hrun

end Setting

end GatedRules
