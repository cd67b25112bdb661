import GatedRules.Proofs.Growth
import GatedRules.Proofs.Session

/-!
# Numbers of executions

Every execution has a number of its own, and an evaluation leaves alone what is noted for other
executions (`Engine.Minds`). So nothing is noted under numbers that are yet to be given
(`Engine.Numbered`): this holds of a new engine, and whatever an engine is used for preserves it.
-/

namespace GatedRules

namespace Engine

variable {e e' : Engine} {loader : Loader} {id : ExecutionId}

/-- One engine has come from another by what a single execution does. -/
structure Minds (id : ExecutionId) (e e' : Engine) : Prop where
  /-- No number has been given. -/
  nextId : e'.nextId = e.nextId
  /-- What is noted for other executions is as it was. -/
  memos : ∀ other, other ≠ id → e'.memos.get? other = e.memos.get? other

theorem Minds.refl (e : Engine) : Minds id e e :=
  ⟨rfl, fun _ _ => rfl⟩

theorem Minds.trans {d : Engine} (h : Minds id d e) (h' : Minds id e e') : Minds id d e' :=
  ⟨h'.nextId.trans h.nextId, fun other ho => (h'.memos other ho).trans (h.memos other ho)⟩

theorem minds_note (e : Engine) (id : ExecutionId) (path : String) (known : Option Outcome) :
    Minds id e (e.note id path known) :=
  ⟨rfl, fun _ ho => (Shards.get?_insert ..).trans (if_neg ho)⟩

theorem minds_resolveAnew (e : Engine) (loader : Loader) (id : ExecutionId) (path : String) :
    Minds id e (e.resolveAnew loader id path).2 := by
  unfold resolveAnew compile
  cases loader.compile path with
  | ok compiled => exact ⟨rfl, (minds_note _ id path _).memos⟩
  | error error =>
    dsimp only
    split
    · exact ⟨rfl, (minds_note _ id path _).memos⟩
    · exact ⟨rfl, fun _ _ => rfl⟩

theorem minds_resolvePath (e : Engine) (loader : Loader) (id : ExecutionId) (path : String) :
    Minds id e (e.resolvePath loader id path).2 := by
  unfold resolvePath
  dsimp only
  have hcount : ∀ known, Minds id e { e with metrics := e.metrics.countLookup known } :=
    fun _ => ⟨rfl, fun _ _ => rfl⟩
  split
  · exact hcount _
  · exact (hcount _).trans (minds_resolveAnew _ loader id _)
  · exact ((hcount _).trans (minds_note _ id _ none)).trans (minds_resolveAnew _ loader id _)

/-- Nothing is noted under numbers that are yet to be given. -/
def Numbered (e : Engine) : Prop :=
  ∀ id, e.nextId ≤ id → e.memos.get? id = none

theorem numbered_start : start.Numbered :=
  fun _ _ => Shards.get?_empty _ _

theorem Numbered.memo (h : e.Numbered) (hid : e.nextId ≤ id) : e.memo id = .empty := by
  rw [Engine.memo, h id hid]
  rfl

theorem Numbered.of_minds (h : e.Numbered) (hm : Minds id e e') (hid : id < e.nextId) :
    e'.Numbered := by
  intro other ho
  rw [hm.nextId] at ho
  rw [hm.memos other (Nat.ne_of_gt (Nat.lt_of_lt_of_le hid ho)), h other ho]

end Engine

/-! ### Evaluations -/

namespace EvalM

variable {α : Type} {σ : Setting} {P : World → Prop}

/-- A step preserves what it preserves whether or not it succeeds. -/
def Preserves (P : World → Prop) (x : EvalM α) : Prop :=
  ∀ stack w, P w → P (x.exec stack w).2

theorem Preserves.bind {β : Type} {x : EvalM α} {f : α → EvalM β} (hx : x.Preserves P)
    (hf : ∀ a, (f a).Preserves P) : (x >>= f).Preserves P := by
  intro stack w hw
  have h := hx stack w hw
  rw [exec_bind]
  rcases hr : x.exec stack w with ⟨halt | a, w'⟩ <;> rw [hr] at h
  · exact h
  · exact hf a stack w' h

theorem preserves_visit {f : Frame} {x : EvalM Value} (hx : x.Preserves P)
    (hcell : ∀ w cell v, P w → P { w with cells := w.cells.insert cell v }) :
    ((handler σ).visit f x).Preserves P := by
  intro stack w hw
  rw [exec_visit]
  split
  · exact hw
  split
  · exact hw
  · have h := hx (stack ++ [f.text]) w hw
    rcases hr : x.exec (stack ++ [f.text]) w with ⟨halt | v, w'⟩ <;> rw [hr] at h
    · exact h
    · exact hcell w' f.text v h

/-- What actions and the filling of cells preserve is preserved by every step of an evaluation. -/
theorem related_preserves {mayAct : Action → Prop} {h : Handler EvalM}
    (hact : ∀ action, mayAct action → (act σ action).Preserves P)
    (hcell : ∀ w cell v, P w → P { w with cells := w.cells.insert cell v }) :
    (handler σ).Related (fun _ x _ => x.Preserves P) mayAct h where
  pure _ _ _ hw := hw
  bind hx hf := hx.bind hf
  fail _ _ _ hw := hw
  exhaust _ _ hw := hw
  perform hmay := hact _ hmay
  visit _ hx := preserves_visit hx hcell

/-- What actions and the filling of cells preserve is preserved by evaluations. -/
theorem preserves_answer (hact : ∀ action, (act σ action).Preserves P)
    (hcell : ∀ w cell v, P w → P { w with cells := w.cells.insert cell v }) (k : Nat)
    (goal : Goal) : ((handler σ).answer k goal).Preserves P := by
  have hrelated : (handler σ).Related (fun _ x _ => x.Preserves P) (fun _ => True) (handler σ) :=
    related_preserves (fun action _ => hact action) hcell
  exact hrelated.answer k goal

theorem preserves_withStore {f : Store → Except StoreFault α × Store}
    (h : ∀ w store, P w → P { w with engine := { w.engine with store } }) :
    (withStore f).Preserves P := by
  intro stack w hw
  rw [exec_withStore]
  exact h w _ hw

/-- What changes of the store, the counters and the resolved modules preserve is preserved by
actions. -/
theorem preserves_act {action : Action}
    (hstore : ∀ w store, P w → P { w with engine := { w.engine with store } })
    (hskip : (count Metrics.countGatedSkip).Preserves P)
    (hresolve : ∀ path, action = .resolve path → (resolve σ path).Preserves P) :
    (act σ action).Preserves P := by
  have hpure : ∀ v : Value, (pure v : EvalM Value).Preserves P := fun _ _ _ hw => hw
  cases action with
  | input name => exact hpure _
  | skip => exact hskip
  | call slot c =>
    cases c with
    | count groups => exact (preserves_withStore hstore).bind fun _ => hpure _
    | countUnique value groups =>
      exact (preserves_withStore hstore).bind fun _ => preserves_withStore hstore
    | takeQuota quota groups => exact (preserves_withStore hstore).bind fun _ => hpure _
  | resolve path => exact hresolve path rfl

/-- An action leaves alone what is noted for other executions. -/
theorem minds_act (e : Engine) (action : Action) :
    (act σ action).Preserves fun w => Engine.Minds σ.id e w.engine := by
  refine preserves_act (fun _ _ hw => ⟨hw.nextId, hw.memos⟩) (fun _ _ hw => ⟨hw.nextId, hw.memos⟩)
    (fun path _ stack w hw => ?_)
  rw [exec_resolve]
  exact hw.trans (Engine.minds_resolvePath _ _ _ path)

/-- An action leaves the cells as they are. -/
theorem cells_act (action : Action) (stack : List String) (w : World) :
    ((act σ action).exec stack w).2.cells = w.cells := by
  refine preserves_act (P := fun w' => w'.cells = w.cells) (fun _ _ hw => hw) (fun _ _ hw => hw)
    (fun path _ stack w' hw => ?_) stack w rfl
  rw [exec_resolve]
  exact hw

end EvalM

/-! ### Executions -/

namespace Execution

variable {e : Engine} {x : Execution}

/-- A request leaves alone what is noted for other executions. -/
theorem minds_fetchWithin (budget : Nat) (x : Execution) (e : Engine) (loader : Loader)
    (name : String) : Engine.Minds x.id e (x.fetchWithin budget e loader name).2.2 :=
  EvalM.preserves_answer (σ := x.setting loader) (EvalM.minds_act e) (fun _ _ _ hw => hw) budget
    (.frame (.name (.entry x.graph) name)) [] ⟨e, x.cells⟩ (Engine.Minds.refl e)

theorem numbered_start (h : e.Numbered) (g : Graph) (inputs : Table String Value) :
    (start e g inputs).2.Numbered :=
  fun id hid => h id (Nat.le_of_succ_le hid)

/-- An execution that starts finds nothing noted. -/
theorem memo_start (h : e.Numbered) (g : Graph) (inputs : Table String Value) :
    (start e g inputs).2.memo (start e g inputs).1.id = .empty :=
  h.memo (Nat.le_refl e.nextId)

end Execution

end GatedRules
