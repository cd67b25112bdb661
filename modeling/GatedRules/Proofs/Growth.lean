import GatedRules.Evaluation.World
import GatedRules.Proofs.Mirrors

/-!
# What evaluations leave behind

An evaluation only adds to a world: values that have been computed stay in their cells, and modules
that have been resolved stay so (`grows_answer`). While a frame is being evaluated its own cell
stays empty, since it cannot be entered again; this is what makes the value that is put there at the
end the first one.

The other facts say what a success means: the value of a frame is the one in its cell
(`cell_of_answer`), and what became of a module path is noted for the execution
(`memo_of_resolve`).
-/

namespace GatedRules

namespace World

/-- A world has everything that another one has computed or resolved in an execution. -/
structure Extends (id : ExecutionId) (w w' : World) : Prop where
  /-- Values stay in their cells. -/
  cells : ∀ {cell v}, w.cells.get? cell = some v → w'.cells.get? cell = some v
  /-- Modules stay resolved. -/
  modules : ∀ {path outcome}, (w.engine.memo id).get? path = some (some outcome) →
    (w'.engine.memo id).get? path = some (some outcome)

namespace Extends

variable {id : ExecutionId}

theorem refl (w : World) : Extends id w w :=
  ⟨fun h => h, fun h => h⟩

theorem trans {u v w : World} (h : Extends id u v) (h' : Extends id v w) : Extends id u w :=
  ⟨fun hc => h'.cells (h.cells hc), fun hm => h'.modules (h.modules hm)⟩

end Extends

/-- A world extends another one, and the cells of the frames on a stack are as they were. -/
structure Grows (id : ExecutionId) (stack : List String) (w w' : World) : Prop
    extends Extends id w w' where
  /-- The cells of the stack are as they were. -/
  frozen : ∀ cell ∈ stack, w'.cells.get? cell = w.cells.get? cell

namespace Grows

variable {id : ExecutionId} {stack : List String}

theorem refl (w : World) : Grows id stack w w :=
  ⟨.refl w, fun _ _ => rfl⟩

theorem trans {u v w : World} (h : Grows id stack u v) (h' : Grows id stack v w) :
    Grows id stack u w :=
  ⟨h.toExtends.trans h'.toExtends, fun cell hc => (h'.frozen cell hc).trans (h.frozen cell hc)⟩

end Grows

/-- Filling an empty cell extends a world. -/
theorem extends_insert {id : ExecutionId} {w : World} {cell : String} {v : Value}
    (h : w.cells.get? cell = none) : Extends id w { w with cells := w.cells.insert cell v } where
  cells {c u} hu := by
    have hc : c ≠ cell := by
      rintro rfl
      rw [h] at hu
      cases hu
    rw [Table.get?_insert_of_ne _ _ hc, hu]
  modules hm := hm

end World

open World

namespace EvalM

variable {α : Type} {σ : Setting}

/-- A step only adds to the world, and leaves the cells of the stack as they are. -/
def Grows (id : ExecutionId) (x : EvalM α) : Prop :=
  ∀ stack w, World.Grows id stack w (x.exec stack w).2

theorem Grows.bind {β : Type} {id : ExecutionId} {x : EvalM α} {f : α → EvalM β}
    (hx : x.Grows id) (hf : ∀ a, (f a).Grows id) : (x >>= f).Grows id := by
  intro stack w
  have h := hx stack w
  rw [exec_bind]
  rcases hr : x.exec stack w with ⟨_ | a, w'⟩ <;> rw [hr] at h
  · exact h
  · exact h.trans (hf a stack w')

theorem grows_pure {id : ExecutionId} (a : α) : (pure a : EvalM α).Grows id :=
  fun _ w => .refl w

theorem grows_fail {id : ExecutionId} (error : EvalError) : (fail error : EvalM α).Grows id :=
  fun _ w => .refl w

theorem grows_exhaust {id : ExecutionId} : (exhaust : EvalM α).Grows id :=
  fun _ w => .refl w

/-- The store is no part of what a world has computed or resolved. -/
theorem grows_withStore {id : ExecutionId} (f : Store → Except StoreFault α × Store) :
    (withStore f).Grows id := by
  intro stack w
  rw [exec_withStore]
  exact ⟨⟨fun h => h, fun h => h⟩, fun _ _ => rfl⟩

theorem grows_call {id : ExecutionId} (slot : String) (c : StatefulCall) :
    (call slot c).Grows id := by
  cases c with
  | count groups => exact (grows_withStore _).bind fun _ => grows_pure _
  | countUnique value groups => exact (grows_withStore _).bind fun _ => grows_withStore _
  | takeQuota quota groups => exact (grows_withStore _).bind fun _ => grows_pure _

theorem grows_resolve (path : String) : (resolve σ path).Grows σ.id := by
  intro stack w
  rw [exec_resolve]
  refine ⟨⟨fun h => h, fun {p outcome} hm => ?_⟩, fun _ _ => rfl⟩
  dsimp only
  rw [Engine.memo_resolvePath]
  split
  · rename_i hp
    subst hp
    rw [Engine.resolvePath_fst, hm]
    rfl
  · exact hm

theorem grows_act (action : Action) : (act σ action).Grows σ.id := by
  cases action with
  | input name => exact grows_pure _
  | call slot c => exact grows_call slot c
  | skip => exact fun _ w => ⟨⟨fun h => h, fun h => h⟩, fun _ _ => rfl⟩
  | resolve path => exact grows_resolve path

/-- What a visit does to its frame: it fails, takes the value of the cell, or computes the value
while the frame is on the stack. -/
theorem exec_visit (frame : Frame) (x : EvalM Value) (stack : List String) (w : World) :
    ((handler σ).visit frame x).exec stack w =
      if stack.contains frame.text then
        (.error (.failed (.recursion (stack ++ [frame.text]))), w)
      else
        match w.cells.get? frame.text with
        | some v => (.ok v, w)
        | none =>
          match x.exec (stack ++ [frame.text]) w with
          | (.ok v, w) => (.ok v, { w with cells := w.cells.insert frame.text v })
          | (.error halt, w) => (.error halt, w) := by
  change (enter frame.text (memo frame.text x)).exec stack w = _
  rw [exec_enter]
  split
  · rfl
  · exact exec_memo frame.text x (stack ++ [frame.text]) w

/-- Visits know frames by their texts. -/
theorem visit_congr {f f' : Frame} (h : f'.text = f.text) (σ σ' : Setting) (x : EvalM Value) :
    (handler σ').visit f' x = (handler σ).visit f x := by
  have hvisit : enter f'.text (memo f'.text x) = enter f.text (memo f.text x) := by rw [h]
  exact hvisit

/-- Putting a value into its cell at the end of a visit extends the world that computing it has left
behind: the frame was on the stack meanwhile, so the cell is still empty. -/
theorem extends_visit {id : ExecutionId} {frame : Frame} {x : EvalM Value} (hx : x.Grows id)
    {stack : List String} {w : World} (hs : ¬ stack.contains frame.text = true)
    (hc : w.cells.get? frame.text = none) :
    Extends id (x.exec (stack ++ [frame.text]) w).2
      (((handler σ).visit frame x).exec stack w).2 := by
  have h := hx (stack ++ [frame.text]) w
  rw [exec_visit, if_neg hs, hc]
  dsimp only
  rcases hr : x.exec (stack ++ [frame.text]) w with ⟨halt | v, w'⟩
  · exact .refl w'
  · rw [hr] at h
    exact extends_insert ((h.frozen _ (by simp)).trans hc)

theorem grows_visit {id : ExecutionId} {frame : Frame} {x : EvalM Value} (hx : x.Grows id) :
    ((handler σ).visit frame x).Grows id := by
  intro stack w
  by_cases hs : stack.contains frame.text = true
  · rw [exec_visit, if_pos hs]
    exact .refl w
  cases hc : w.cells.get? frame.text with
  | some v =>
    rw [exec_visit, if_neg hs, hc]
    exact .refl w
  | none =>
    have h := hx (stack ++ [frame.text]) w
    refine ⟨h.toExtends.trans (extends_visit hx hs hc), fun cell hm => ?_⟩
    have hfrozen := h.frozen cell (List.mem_append_left _ hm)
    -- A cell on the stack is not that of the frame, which is entered only if it is not on the
    -- stack.
    have hne : cell ≠ frame.text := by
      rintro rfl
      exact hs (by simpa using hm)
    rw [exec_visit, if_neg hs, hc]
    dsimp only
    rcases hr : x.exec (stack ++ [frame.text]) w with ⟨halt | v, w'⟩
    · rw [hr] at hfrozen
      exact hfrozen
    · rw [hr] at hfrozen
      exact (Table.get?_insert_of_ne _ _ hne).trans hfrozen

/-- Every step of an evaluation only adds to the world. -/
theorem related_grows :
    (handler σ).Related (fun _ x _ => x.Grows σ.id) (fun _ => True) (handler σ) where
  pure a := grows_pure a
  bind hx hf := hx.bind hf
  fail error := grows_fail error
  exhaust := grows_exhaust
  perform {action} _ := grows_act action
  visit _ hx := grows_visit hx

theorem grows_run {answer : (goal : Goal) → EvalM goal.Answer}
    (ha : ∀ goal, (answer goal).Grows σ.id) (x : Plan α) : (x.run (handler σ) answer).Grows σ.id :=
  related_grows.run answer answer ha x

/-- Answering a goal only adds to the world. -/
theorem grows_answer (k : Nat) (goal : Goal) : ((handler σ).answer k goal).Grows σ.id :=
  related_grows.answer k goal

/-! ### Successes -/

/-- The value of a frame is found in its cell afterwards. -/
theorem cell_of_answer {k : Nat} {frame : Frame} {stack : List String} {w w' : World} {v : Value}
    (h : ((handler σ).answer k (.frame frame)).exec stack w = (.ok v, w')) :
    w'.cells.get? frame.text = some v := by
  cases k with
  | zero => cases h
  | succ k =>
    have h : ((handler σ).visit frame (frame.plan.run (handler σ) ((handler σ).answer k))).exec
      stack w = (.ok v, w') := h
    rw [exec_visit] at h
    split at h
    · cases h
    split at h
    · cases h
      assumption
    · split at h
      · cases h
        exact Table.get?_insert_self _ _ _
      · cases h

/-- A frame whose value has been computed is answered without any change. -/
theorem answer_of_cell {k : Nat} {frame : Frame} {stack : List String} {w : World} {v : Value}
    (hs : ¬ stack.contains frame.text = true) (hc : w.cells.get? frame.text = some v) :
    ((handler σ).answer (k + 1) (.frame frame)).exec stack w = (.ok v, w) := by
  have h : ((handler σ).visit frame (frame.plan.run (handler σ) ((handler σ).answer k))).exec
      stack w = (.ok v, w) := by
    rw [exec_visit, if_neg hs, hc]
  exact h

/-- What became of a module path is noted for the execution. -/
theorem memo_of_resolve {path : String} {stack : List String} {w w' : World} {outcome : Outcome}
    (h : (resolve σ path).exec stack w = (.ok outcome, w')) :
    (w'.engine.memo σ.id).get? (Path.canonical path) = some (some outcome) := by
  rw [exec_resolve, Prod.mk.injEq] at h
  obtain ⟨hr, rfl⟩ := h
  dsimp only
  rw [Engine.memo_resolvePath, if_pos rfl]
  cases hres : (w.engine.resolvePath σ.loader σ.id path).1 with
  | ok o =>
    rw [hres] at hr
    cases hr
    rfl
  | error error =>
    rw [hres] at hr
    cases hr

end EvalM

end GatedRules
