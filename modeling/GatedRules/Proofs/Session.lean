import GatedRules.Evaluation.Execution
import Mathlib.Data.List.Forall2

/-!
# Sessions

A session is a series of requests that one execution serves, whatever becomes of the earlier ones.
Every request names the loader of its time, so the sources may change in between.

What every request preserves, a session preserves (`worldAfter_induction`), and what holds of every
answer in the worlds where this is so, holds of all answers of a session (`serve_induction`).
-/

namespace GatedRules

/-- A request for the value of a name. -/
structure Request where
  /-- Where modules come from at the time. -/
  loader : Loader
  /-- The budget. -/
  budget : Nat
  /-- The name. -/
  name : String

namespace Execution

/-- Serve requests one after the other, where actions do what a handler says that depends on the
setting. -/
def serveWith (h : Setting → Handler EvalM) (x : Execution) (e : Engine) :
    List Request → List (Except Halt Value) × Execution × Engine
  | [] => ([], x, e)
  | r :: rs =>
    let (answer, x, e) := x.fetchWith (h (x.setting r.loader)) r.budget e r.name
    let (answers, x, e) := serveWith h x e rs
    (answer :: answers, x, e)

/-- Serve requests one after the other. -/
def serve (x : Execution) (e : Engine) (requests : List Request) :
    List (Except Halt Value) × Execution × Engine :=
  x.serveWith EvalM.handler e requests

/-- The world from which an execution starts an evaluation. -/
def world (x : Execution) (e : Engine) : World :=
  ⟨e, x.cells⟩

/-- The world at the end of a session. -/
def worldAfter (x : Execution) (e : Engine) (requests : List Request) : World :=
  (x.serve e requests).2.1.world (x.serve e requests).2.2

/-! ### Requests as evaluations -/

/-- What is evaluated for a name. -/
def evaluation (x : Execution) (h : Handler EvalM) (budget : Nat) (name : String) : EvalM Value :=
  h.answer budget (.frame (.name (.entry x.graph) name))

/-- What a request of a session results in and leaves behind. -/
def step (h : Setting → Handler EvalM) (x : Execution) (w : World) (r : Request) :
    Except Halt Value × World :=
  (x.evaluation (h (x.setting r.loader)) r.budget r.name).exec [] w

/-- An execution with the cells of a world. -/
def resume (x : Execution) (w : World) : Execution :=
  { x with cells := w.cells }

/-- What is asked for is evaluated in the world of the execution. -/
theorem fetchWithin_eq (budget : Nat) (x : Execution) (e : Engine) (loader : Loader)
    (name : String) :
    x.fetchWithin budget e loader name =
      let out := (x.evaluation (EvalM.handler (x.setting loader)) budget name).exec [] (x.world e)
      (out.1, x.resume out.2, out.2.engine) :=
  rfl

theorem serveWith_cons (h : Setting → Handler EvalM) (x : Execution) (e : Engine) (r : Request)
    (rs : List Request) :
    x.serveWith h e (r :: rs) =
      let out := x.step h (x.world e) r
      let rest := (x.resume out.2).serveWith h out.2.engine rs
      (out.1 :: rest.1, rest.2) :=
  rfl

theorem worldAfter_cons (x : Execution) (e : Engine) (r : Request) (rs : List Request) :
    x.worldAfter e (r :: rs) =
      (x.resume (x.step EvalM.handler (x.world e) r).2).worldAfter
        (x.step EvalM.handler (x.world e) r).2.engine rs :=
  rfl

/-- At the end of a session the execution has the cells of the last world. -/
theorem serve_execution (x : Execution) (e : Engine) (requests : List Request) :
    (x.serve e requests).2.1 = x.resume (x.worldAfter e requests) := by
  induction requests generalizing x e with
  | nil => rfl
  | cons r rs ih => exact ih (x.resume (x.step EvalM.handler (x.world e) r).2) _

/-- A name that is asked for after a session is evaluated from the world at the end of it. -/
theorem fetchWithin_after (x : Execution) (e : Engine) (requests : List Request) (r : Request) :
    ((x.serve e requests).2.1.fetchWithin r.budget (x.serve e requests).2.2 r.loader r.name).1 =
      (x.step EvalM.handler (x.worldAfter e requests) r).1 := by
  rw [serve_execution]
  rfl

/-- What holds of the first world and is preserved by requests holds of the last one. -/
theorem worldAfter_induction {P : World → Prop} {x : Execution} {e : Engine}
    {requests : List Request} (start : P (x.world e))
    (step : ∀ r ∈ requests, ∀ w, P w → P (x.step EvalM.handler w r).2) :
    P (x.worldAfter e requests) := by
  induction requests generalizing x e with
  | nil => exact start
  | cons r rs ih =>
    rw [worldAfter_cons]
    exact ih (step r (by simp) _ start) fun s hs w hw => step s (by simp [hs]) w hw

/-- What holds of every answer in worlds of a kind that requests preserve, holds of all answers. -/
theorem serve_induction {P : World → Prop} {Q : Request → Except Halt Value → Prop} {x : Execution}
    {e : Engine} {requests : List Request} (start : P (x.world e))
    (step : ∀ r ∈ requests, ∀ w, P w →
      Q r (x.step EvalM.handler w r).1 ∧ P (x.step EvalM.handler w r).2) :
    List.Forall₂ Q requests (x.serve e requests).1 := by
  induction requests generalizing x e with
  | nil => exact .nil
  | cons r rs ih =>
    obtain ⟨hanswer, hworld⟩ := step r (by simp) _ start
    rw [serve, serveWith_cons]
    exact .cons hanswer (ih hworld fun s hs w hw => step s (by simp [hs]) w hw)

end Execution

end GatedRules
