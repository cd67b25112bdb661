import GatedRules.Proofs.Growth
import GatedRules.Proofs.Memoless
import GatedRules.Proofs.Numbers
import GatedRules.Proofs.Session

/-!
# What cells hold

A world is sound if its cells hold values that plain evaluations find, and if what is noted of
module paths is what becomes of them. Evaluations keep worlds sound and find nothing but what plain
evaluations find (`finds_answer`), as long as no state is kept.

So cells never change an answer: an evaluation that finishes answers as a tracked one does
(`tracked_of_answer`). Where a cell is full, a plain evaluation of its frame finishes; so a tracked
one would not meet the stack, whatever the cell was filled under.
-/

namespace GatedRules

/-! ### Notes of module paths -/

namespace Engine

variable {e : Engine} {loader : Loader} {id : ExecutionId}

/-- What is noted of module paths for an execution is what becomes of them. -/
def Consistent (e : Engine) (loader : Loader) (id : ExecutionId) : Prop :=
  ∀ path o, (e.memo id).get? path = some (some o) → outcome loader path = .ok o

theorem Consistent.resolvePath_fst (h : e.Consistent loader id) (path : String) :
    (e.resolvePath loader id path).1 = outcome loader (Path.canonical path) := by
  rw [Engine.resolvePath_fst]
  split
  · rename_i o hm
    exact (h _ o hm).symm
  · rfl

theorem Consistent.resolvePath (h : e.Consistent loader id) (path : String) :
    (e.resolvePath loader id path).2.Consistent loader id := by
  intro p o hm
  rw [memo_resolvePath, h.resolvePath_fst] at hm
  split at hm
  · rename_i hp
    subst hp
    cases ho : outcome loader (Path.canonical path) with
    | error error =>
      rw [ho] at hm
      cases hm
    | ok o' =>
      rw [ho] at hm
      cases hm
      rfl
  · exact h p o hm

end Engine

open Setting

/-- The cells of certain goals hold what plain evaluations find, and what is noted of module paths
is what becomes of them. -/
structure World.Sound (σ : Setting) (may : Goal → Prop) (w : World) : Prop where
  /-- Cells hold what plain evaluations find. -/
  cells : ∀ {f v}, may (.frame f) → w.cells.get? f.text = some v →
    ∃ k, σ.plain.answer k (.frame f) = .ok v
  /-- What is noted of module paths is what becomes of them. -/
  modules : w.engine.Consistent σ.loader σ.id

namespace EvalM

variable {σ : Setting} {may : Goal → Prop} {α : Type} {w : World} {stack : List String} {k : Nat}

/-! ### Actions -/

/-- Actions other than stateful calls result in what they do where no state is kept. -/
theorem exec_act (hw : w.Sound σ may) {action : Action} (ha : ∀ slot c, action ≠ .call slot c)
    (stack : List String) : ((act σ action).exec stack w).1 = σ.result action := by
  cases action with
  | input name => rfl
  | call slot c => exact absurd rfl (ha slot c)
  | skip => rfl
  | resolve path =>
    have hr := congrArg Prod.fst (exec_resolve σ path stack w)
    dsimp only at hr
    rw [hw.modules.resolvePath_fst] at hr
    exact hr

theorem sound_act (hw : w.Sound σ may) {action : Action} (ha : ∀ slot c, action ≠ .call slot c)
    (stack : List String) : ((act σ action).exec stack w).2.Sound σ may := by
  cases action with
  | input name => exact hw
  | call slot c => exact absurd rfl (ha slot c)
  | skip => exact ⟨hw.cells, hw.modules⟩
  | resolve path =>
    change ((resolve σ path).exec stack w).2.Sound σ may
    rw [exec_resolve]
    exact ⟨hw.cells, hw.modules.resolvePath path⟩

/-! ### Soundness -/

/-- An outcome is sound: so is the world that is left behind, and a value is what plain evaluations
find with enough budget. -/
structure Finds (σ : Setting) (may : Goal → Prop) (plain : Nat → Except Halt α)
    (out : Except Halt α × World) : Prop where
  /-- The world is sound. -/
  sound : out.2.Sound σ may
  /-- A value is what plain evaluations find. -/
  value : ∀ {a}, out.1 = .ok a → ∃ k, plain k = .ok a

theorem finds_run {Q : Unit → α → Prop} {x : Plan α} (hx : x.Follows (σ.protocol may) Q ())
    (hanswer : ∀ goal w, may goal → w.Sound σ may →
      Finds σ may (σ.plain.answer · goal) (((handler σ).answer k goal).exec stack w))
    (hw : w.Sound σ may) :
    Finds σ may (fun j => x.run σ.plain (σ.plain.answer j))
      ((x.run (handler σ) ((handler σ).answer k)).exec stack w) := by
  induction x generalizing w with
  | done a => exact ⟨hw, fun h => ⟨0, h⟩⟩
  | fail error => exact ⟨hw, fun h => by cases h⟩
  | perform action next ih =>
    have hact : (handler σ).perform action = act σ action := rfl
    rw [Plan.run, exec_bind, hact]
    have hresult := exec_act hw hx.1 stack
    have hsound := sound_act hw hx.1 stack
    rcases hr : (act σ action).exec stack w with ⟨halt | r, w'⟩
    · rw [hr] at hsound
      exact ⟨hsound, fun h => by cases h⟩
    · rw [hr] at hresult hsound
      obtain ⟨hend, hvalue⟩ := ih r (hx.2 () r trivial hresult.symm) hsound
      refine ⟨hend, fun ha => ?_⟩
      obtain ⟨j, hj⟩ := hvalue ha
      refine ⟨j, ?_⟩
      rw [run_plain_perform, ← hresult]
      exact hj
  | ask goal next ih =>
    rw [Plan.run, exec_bind]
    have hgoal := hanswer goal w hx.1 hw
    rcases hr : ((handler σ).answer k goal).exec stack w with ⟨halt | r, w'⟩
    · rw [hr] at hgoal
      exact ⟨hgoal.sound, fun h => by cases h⟩
    · rw [hr] at hgoal
      obtain ⟨i, hi⟩ := hgoal.value rfl
      obtain ⟨hend, hvalue⟩ := ih r (hx.2 () r trivial ⟨i, hi⟩) hgoal.sound
      refine ⟨hend, fun ha => ?_⟩
      obtain ⟨j, hj⟩ := hvalue ha
      exact ⟨max i j, (run_plain_ask_max hi (hj ▸ finished_ok _)).trans hj⟩

/-- Putting a value into the cell of its frame keeps a world sound. -/
theorem sound_insert (hc : σ.Closed may) {f : Frame} {v : Value} (hf : may (.frame f))
    (hw : w.Sound σ may) (hv : ∃ k, σ.plain.answer k (.frame f) = .ok v) :
    { w with cells := w.cells.insert f.text v }.Sound σ may := by
  refine ⟨fun {g u} hg hu => ?_, hw.modules⟩
  dsimp only at hu
  rw [Table.get?_insert] at hu
  split at hu
  · rename_i htext
    cases hu
    exact hc.injective hg hf htext ▸ hv
  · exact hw.cells hg hu

/-- A visit keeps the world sound and finds nothing but what plain evaluations find, if computing
the frame does. -/
theorem finds_visit (hc : σ.Closed may) {f : Frame} {x : EvalM Value} (hf : may (.frame f))
    (hw : w.Sound σ may)
    (hx : Finds σ may (fun j => f.plan.run σ.plain (σ.plain.answer j))
      (x.exec (stack ++ [f.text]) w)) :
    Finds σ may (fun j => (σ.plain.answer j (.frame f) : Except Halt Value))
      (((handler σ).visit f x).exec stack w) := by
  rw [exec_visit]
  split
  · exact ⟨hw, fun h => by cases h⟩
  split
  · rename_i v hcell
    refine ⟨hw, fun h => ?_⟩
    cases h
    exact hw.cells hf hcell
  · rcases hr : x.exec (stack ++ [f.text]) w with ⟨halt | v, w'⟩
    · rw [hr] at hx
      exact ⟨hx.sound, fun h => by cases h⟩
    · rw [hr] at hx
      obtain ⟨j, hj⟩ := hx.value rfl
      refine ⟨sound_insert hc hf hx.sound ⟨j + 1, hj⟩, fun h => ?_⟩
      cases h
      exact ⟨j + 1, hj⟩

/-- An evaluation keeps the world sound and finds nothing but what plain evaluations find. -/
theorem finds_answer (hc : σ.Closed may) (k : Nat) {goal : Goal} (hgoal : may goal)
    (hw : w.Sound σ may) (stack : List String) :
    Finds σ may (σ.plain.answer · goal) (((handler σ).answer k goal).exec stack w) := by
  induction k generalizing goal stack w with
  | zero => exact ⟨hw, fun h => by cases h⟩
  | succ k ih =>
    have hrun : ∀ stack, Finds σ may (fun j => goal.plan.run σ.plain (σ.plain.answer j))
        ((goal.plan.run (handler σ) ((handler σ).answer k)).exec stack w) := fun stack =>
      finds_run (hc.follows hgoal) (fun goal w hg hw => ih hg hw stack) hw
    cases goal with
    | primary scope name =>
      obtain ⟨hsound, hvalue⟩ := hrun stack
      refine ⟨hsound, fun ha => ?_⟩
      obtain ⟨j, hj⟩ := hvalue ha
      exact ⟨j + 1, hj⟩
    | frame f => exact finds_visit hc hgoal hw (hrun _)

/-! ### Answers -/

variable {frames : List Frame}

/-- A run of a plan that finishes has the result of a tracked one, if this is so for answers. -/
theorem tracked_of_run {Q : Unit → α → Prop} {x : Plan α} (hc : σ.Closed may)
    (hx : x.Follows (σ.protocol may) Q ()) (hw : w.Sound σ may) (ha : σ.AwaitedPlan frames x)
    (hanswer : ∀ goal w, may goal → w.Sound σ may → σ.AwaitedGoal frames goal →
      Finished (((handler σ).answer k goal).exec (frames.map Frame.text) w).1 →
      ∃ j, σ.tracked.answer j goal (frames.map Frame.text) =
        (((handler σ).answer k goal).exec (frames.map Frame.text) w).1)
    (hfinished : Finished
      ((x.run (handler σ) ((handler σ).answer k)).exec (frames.map Frame.text) w).1) :
    ∃ j, x.run σ.tracked (σ.tracked.answer j) (frames.map Frame.text) =
      ((x.run (handler σ) ((handler σ).answer k)).exec (frames.map Frame.text) w).1 := by
  induction x generalizing w with
  | done a => exact ⟨0, rfl⟩
  | fail error => exact ⟨0, rfl⟩
  | perform action next ih =>
    have hact : (handler σ).perform action = act σ action := rfl
    rw [Plan.run, exec_bind, hact] at hfinished ⊢
    have hresult := exec_act hw hx.1 (frames.map Frame.text)
    have hsound := sound_act hw hx.1 (frames.map Frame.text)
    rcases hr : (act σ action).exec (frames.map Frame.text) w with ⟨halt | r, w'⟩
    · rw [hr] at hresult
      refine ⟨0, ?_⟩
      rw [run_tracked_perform, ← hresult]
      rfl
    · rw [hr] at hresult hsound hfinished
      have hnext := hx.2 () r trivial hresult.symm
      obtain ⟨j, hj⟩ := ih r hnext hsound (ha.acted hresult.symm) hfinished
      refine ⟨j, ?_⟩
      rw [run_tracked_perform, ← hresult]
      exact hj
  | ask goal next ih =>
    rw [Plan.run, exec_bind] at hfinished ⊢
    have hfinds := finds_answer hc k hx.1 hw (frames.map Frame.text)
    have hfirst := hanswer goal w hx.1 hw ha.asked
    rcases hr : ((handler σ).answer k goal).exec (frames.map Frame.text) w with ⟨halt | r, w'⟩
    · rw [hr] at hfirst hfinished
      obtain ⟨j, hj⟩ := hfirst (Finished.halt hfinished)
      refine ⟨j, ?_⟩
      rw [run_tracked_ask, hj]
      rfl
    · rw [hr] at hfirst hfinished hfinds
      obtain ⟨i, hi⟩ := hfirst (finished_ok r)
      -- A plain evaluation finds the same answer, so the frames await what comes after it.
      obtain ⟨l, hl⟩ := hfinds.value rfl
      obtain ⟨j, hj⟩ := ih r (hx.2 () r trivial ⟨l, hl⟩) hfinds.sound (ha.answered hl) hfinished
      exact ⟨max i j, (run_tracked_ask_max hi (hj ▸ hfinished)).trans hj⟩

/-- A visit that finishes has the result of a tracked one, if this is so for computing the frame. -/
theorem tracked_of_visit (hc : σ.Closed may) {f : Frame} {x : EvalM Value} (hf : may (.frame f))
    (hw : w.Sound σ may) (hframes : ∀ g ∈ frames, may (.frame g))
    (ha : σ.AwaitedGoal frames (.frame f))
    (hx : Finished (x.exec (frames.map Frame.text ++ [f.text]) w).1 →
      ∃ j, f.plan.run σ.tracked (σ.tracked.answer j) (frames.map Frame.text ++ [f.text]) =
        (x.exec (frames.map Frame.text ++ [f.text]) w).1)
    (hfinished : Finished (((handler σ).visit f x).exec (frames.map Frame.text) w).1) :
    ∃ j, (σ.tracked.answer j (.frame f) (frames.map Frame.text) : Except Halt Value) =
      (((handler σ).visit f x).exec (frames.map Frame.text) w).1 := by
  rw [exec_visit] at hfinished ⊢
  by_cases hs : (frames.map Frame.text).contains f.text = true
  · rw [if_pos hs]
    exact ⟨1, tracked_of_contains hs 0⟩
  rw [if_neg hs] at hfinished ⊢
  cases hcell : w.cells.get? f.text with
  | some v =>
    -- Whatever the stack was when the cell was filled: a plain evaluation of the frame finishes, so
    -- a tracked one does not come back to the stack.
    obtain ⟨j, hj⟩ := hw.cells hf hcell
    have hplain : Finished (σ.plain.answer j (.frame f)) := by
      rw [hj]
      exact finished_ok v
    exact ⟨j, (tracked_eq_plain hc hf hframes ha hplain).trans hj⟩
  | none =>
    rw [hcell] at hfinished
    dsimp only at hfinished ⊢
    rcases hr : x.exec (frames.map Frame.text ++ [f.text]) w with ⟨halt | v, w'⟩
    · rw [hr] at hx hfinished
      obtain ⟨j, hj⟩ := hx hfinished
      exact ⟨j + 1, (tracked_of_not_contains hs j).trans hj⟩
    · rw [hr] at hx
      obtain ⟨j, hj⟩ := hx (finished_ok v)
      exact ⟨j + 1, (tracked_of_not_contains hs j).trans hj⟩

/-- **Cells never change an answer.** An evaluation from a sound world that finishes answers as a
tracked evaluation does, which has the same stack but no cells. -/
theorem tracked_of_answer (hc : σ.Closed may) {goal : Goal} (hgoal : may goal)
    (hw : w.Sound σ may) (hframes : ∀ f ∈ frames, may (.frame f)) (ha : σ.AwaitedGoal frames goal)
    (hfinished : Finished (((handler σ).answer k goal).exec (frames.map Frame.text) w).1) :
    ∃ j, σ.tracked.answer j goal (frames.map Frame.text) =
      (((handler σ).answer k goal).exec (frames.map Frame.text) w).1 := by
  induction k generalizing goal frames w with
  | zero => exact absurd rfl hfinished
  | succ k ih =>
    cases goal with
    | primary scope name =>
      obtain ⟨j, hj⟩ := tracked_of_run hc (hc.follows hgoal) hw ha.plan
        (fun goal w hg hw hag hf => ih hg hw hframes hag hf) hfinished
      exact ⟨j + 1, hj⟩
    | frame f =>
      have hframes' : ∀ g ∈ frames ++ [f], may (.frame g) :=
        List.forall_mem_append.2 ⟨hframes, List.forall_mem_singleton.2 hgoal⟩
      have hrun := tracked_of_run (k := k) hc (hc.follows hgoal) hw ha.enter
        (fun goal w hg hw hag hf => ih hg hw hframes' hag hf)
      rw [List.map_append] at hrun
      exact tracked_of_visit hc hgoal hw hframes ha hrun hfinished

/-- An evaluation from a sound world with an empty stack that finishes answers as a tracked one. -/
theorem tracked_of_request (hc : σ.Closed may) {goal : Goal} (hgoal : may goal)
    (hw : w.Sound σ may) (hfinished : Finished (((handler σ).answer k goal).exec [] w).1) :
    ∃ i, σ.tracked.answer i goal [] = (((handler σ).answer k goal).exec [] w).1 := by
  have hnone : ∀ f ∈ ([] : List Frame), may (.frame f) := nofun
  exact tracked_of_answer hc hgoal hw hnone nofun hfinished

/-- Where a plain evaluation finishes, an evaluation from a sound world with an empty stack can only
answer in the same way. -/
theorem answer_eq_plain (hc : σ.Closed may) {goal : Goal} (hgoal : may goal) (hw : w.Sound σ may)
    (hfinished : Finished (((handler σ).answer k goal).exec [] w).1) {j : Nat}
    (hplain : Finished (σ.plain.answer j goal)) :
    (((handler σ).answer k goal).exec [] w).1 = σ.plain.answer j goal := by
  obtain ⟨i, hi⟩ := tracked_of_request hc hgoal hw hfinished
  have hnone : ∀ f ∈ ([] : List Frame), may (.frame f) := nofun
  have hj : σ.tracked.answer j goal [] = σ.plain.answer j goal :=
    tracked_eq_plain hc hgoal hnone nofun hplain
  rw [← hi, ← hj]
  exact tracked_unique (hi ▸ hfinished) (hj ▸ hplain)

end EvalM

/-- An execution starts in a sound world. -/
theorem Execution.sound_start {e : Engine} (he : e.Numbered) (g : Graph)
    (inputs : Table String Value) (loader : Loader) (may : Goal → Prop) :
    let out := Execution.start e g inputs
    (out.1.world out.2).Sound (out.1.setting loader) may := by
  intro out
  have hmemo : out.2.memo out.1.id = .empty := Execution.memo_start he g inputs
  refine ⟨fun {f v} _ hv => ?_, fun path o ho => ?_⟩
  · cases hv
  · have ho : (out.2.memo out.1.id).get? path = some (some o) := ho
    rw [hmemo] at ho
    cases ho

/-- A session keeps the world sound that it starts in. -/
theorem Execution.sound_worldAfter {x : Execution} {e : Engine} {loader : Loader}
    {may : Goal → Prop} (hc : (x.setting loader).Closed may)
    (hw : (x.world e).Sound (x.setting loader) may) {requests : List Request}
    (hr : ∀ r ∈ requests, r.loader = loader ∧ may (.frame (.name (.entry x.graph) r.name))) :
    (x.worldAfter e requests).Sound (x.setting loader) may := by
  refine worldAfter_induction hw fun r hmem w hw => ?_
  obtain ⟨rfl, hgoal⟩ := hr r hmem
  exact (EvalM.finds_answer hc r.budget hgoal hw []).sound

/-- A session that starts in a sound world answers as plain evaluations do, where both finish. -/
theorem Execution.serve_plain_of_sound {x : Execution} {e : Engine} {loader : Loader}
    {may : Goal → Prop} (hc : (x.setting loader).Closed may)
    (hw : (x.world e).Sound (x.setting loader) may) {k : Nat} {requests : List Request}
    (hr : ∀ r ∈ requests, r.loader = loader ∧ may (.frame (.name (.entry x.graph) r.name)))
    (hfinished : ∀ r ∈ requests, ∀ w, World.Sound (x.setting loader) may w →
      Finished (x.step EvalM.handler w r).1)
    (hplain : ∀ r ∈ requests,
      Finished ((x.setting loader).plain.answer k (.frame (.name (.entry x.graph) r.name)))) :
    (x.serve e requests).1 = requests.map fun r =>
      (x.setting loader).plain.answer k (.frame (.name (.entry x.graph) r.name)) := by
  let plain (r : Request) : Except Halt Value :=
    (x.setting loader).plain.answer k (.frame (.name (.entry x.graph) r.name))
  have hall : List.Forall₂ (fun r answer => plain r = answer) requests (x.serve e requests).1 := by
    refine serve_induction (P := World.Sound (x.setting loader) may) hw fun r hmem w hw => ?_
    obtain ⟨rfl, hgoal⟩ := hr r hmem
    have hanswer := EvalM.answer_eq_plain hc hgoal hw (hfinished r hmem w hw) (hplain r hmem)
    exact ⟨hanswer.symm, (EvalM.finds_answer hc r.budget hgoal hw []).sound⟩
  have hmap := List.forall₂_map_left_iff.2 hall
  rw [List.forall₂_eq_eq_eq] at hmap
  exact hmap.symm

/-- A session whose evaluations finish in all worlds answers as plain evaluations do. -/
theorem Execution.serve_plain {x : Execution} {e : Engine} {loader : Loader} {may : Goal → Prop}
    (hc : (x.setting loader).Closed may) (hw : (x.world e).Sound (x.setting loader) may)
    {k : Nat} {requests : List Request}
    (hr : ∀ r ∈ requests, r.loader = loader ∧ may (.frame (.name (.entry x.graph) r.name)))
    (hfinished : ∀ r ∈ requests, ∀ w, Finished (x.step EvalM.handler w r).1)
    (hplain : ∀ r ∈ requests,
      Finished ((x.setting loader).plain.answer k (.frame (.name (.entry x.graph) r.name)))) :
    (x.serve e requests).1 = requests.map fun r =>
      (x.setting loader).plain.answer k (.frame (.name (.entry x.graph) r.name)) :=
  serve_plain_of_sound hc hw hr (fun r hmem w _ => hfinished r hmem w) hplain

end GatedRules
