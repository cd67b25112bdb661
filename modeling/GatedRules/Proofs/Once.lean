import GatedRules.Proofs.Numbers
import GatedRules.Proofs.Words
import GatedRules.Source.Bundle

/-!
# Once per execution

An execution computes the value of a frame at most once, whatever it is asked for, in which order,
and whether or not evaluations fail. To state this, evaluations are observed: `observer` goes about
an evaluation just as an execution does (`Observed.shows_answer`), and takes down which computations
begin, what is done inside them, and which of them give a value.

What is seen of an evaluation is in order (`Orderly`). Nothing is seen of a frame whose cell was
filled before, a computation that gives a value fills the cell of its frame, and from then on
nothing more is seen of this frame. The last follows from the other two, since cells are never
emptied. That the cell of a frame is still empty when its computation ends is because the frame has
been on the stack meanwhile.

An execution serves requests, and between them its engine may change in any way, just as the sources
may (`Turn`). The order is kept all the way (`computed_once`).
-/

namespace GatedRules

/-! ### Observed evaluations -/

/-- Something that is seen of an evaluation. -/
inductive Sight
  /-- The computation of a frame begins. -/
  | begins (frame : Frame)
  /-- Something is done inside frames, the innermost of which comes last. -/
  | acts (frames : List Frame) (action : Action)
  /-- The computation of a frame gives a value. -/
  | ends (frame : Frame) (value : Value)

namespace Sight

/-- The texts of the frames of which something is seen. -/
def texts : Sight → List String
  | begins f => [f.text]
  | acts frames _ => frames.map Frame.text
  | ends f _ => [f.text]

/-- Whether the computation of a frame with a given text gives a value. -/
def gives (text : String) : Sight → Bool
  | ends f _ => f.text = text
  | _ => false

/-- When the computation of a frame has given a value, nothing more is seen of the frame. -/
def Before (s s' : Sight) : Prop :=
  ∀ text, s.gives text = true → text ∉ s'.texts

theorem mem_texts_of_gives {s : Sight} {text : String} (h : s.gives text = true) :
    text ∈ s.texts := by
  cases s with
  | ends f v => simpa [gives, texts, eq_comm] using h
  | _ => cases h

end Sight

/-- An evaluation that is observed: what is seen of it, what it results in, and what it leaves
behind, given the frames that have been entered. -/
def Observed (α : Type) : Type :=
  List Frame → World → List Sight × Except Halt α × World

namespace Observed

variable {α β : Type}

/-- One evaluation after another one. -/
def bind (x : Observed α) (f : α → Observed β) : Observed β := fun stack w =>
  match x stack w with
  | (log, .ok a, w) => let (log', out) := f a stack w; (log ++ log', out)
  | (log, .error halt, w) => (log, .error halt, w)

instance : Monad Observed where
  pure a _ w := ([], .ok a, w)
  bind := bind

end Observed

/-- How an execution goes about an evaluation that is observed. -/
def observer (σ : Setting) : Handler Observed where
  fail error _ w := ([], .error (.failed error), w)
  exhaust _ w := ([], .error .exhausted, w)
  perform action stack w :=
    ([.acts stack action], (EvalM.act σ action).exec (stack.map Frame.text) w)
  visit frame compute stack w :=
    if (stack.map Frame.text).contains frame.text then
      ([], .error (.failed (.recursion (stack.map Frame.text ++ [frame.text]))), w)
    else
      match w.cells.get? frame.text with
      | some v => ([], .ok v, w)
      | none =>
        match compute (stack ++ [frame]) w with
        | (log, .ok v, w) =>
          (.begins frame :: (log ++ [.ends frame v]), .ok v,
            { w with cells := w.cells.insert frame.text v })
        | (log, .error halt, w) => (.begins frame :: log, .error halt, w)

namespace Observed

variable {α : Type} {σ : Setting}

/-! ### Observing changes nothing -/

/-- An observed evaluation results in what an evaluation does, and leaves behind the same. -/
def Shows (x : Observed α) (y : EvalM α) : Prop :=
  ∀ stack w, (x stack w).2 = y.exec (stack.map Frame.text) w

theorem Shows.bind {β : Type} {x : Observed α} {y : EvalM α} {f : α → Observed β}
    {g : α → EvalM β} (hx : Shows x y) (hf : ∀ a, Shows (f a) (g a)) :
    Shows (x >>= f) (y >>= g) := by
  intro stack w
  have h := hx stack w
  change (Observed.bind x f stack w).2 = _
  rw [EvalM.exec_bind, ← h, Observed.bind]
  rcases x stack w with ⟨log, halt | a, w'⟩
  · rfl
  · exact hf a stack w'

theorem Shows.visit {x : Observed Value} {y : EvalM Value} (h : Shows x y) (frame : Frame) :
    Shows ((observer σ).visit frame x) ((EvalM.handler σ).visit frame y) := by
  intro stack w
  have hinside := h (stack ++ [frame]) w
  rw [List.map_append, List.map_singleton] at hinside
  rw [EvalM.exec_visit, ← hinside]
  dsimp only [observer]
  split
  · rfl
  cases w.cells.get? frame.text with
  | some v => rfl
  | none => rcases x (stack ++ [frame]) w with ⟨log, halt | v, w'⟩ <;> rfl

theorem related_shows :
    (observer σ).Related (fun _ => Shows) (fun _ => True) (EvalM.handler σ) where
  pure _ _ _ := rfl
  bind hx hf := hx.bind hf
  fail _ _ _ := rfl
  exhaust _ _ := rfl
  perform _ _ _ := rfl
  visit {f} {_} {_} {x'} hf hx := by
    rw [EvalM.visit_congr hf σ σ x']
    exact hx.visit f

/-- **Observing an evaluation changes nothing.** -/
theorem shows_answer (k : Nat) (goal : Goal) :
    Shows ((observer σ).answer k goal) ((EvalM.handler σ).answer k goal) :=
  related_shows.answer k goal

end Observed

/-! ### Order -/

/-- The frames on a stack have not got a value. -/
def Open (stack : List Frame) (w : World) : Prop :=
  ∀ f ∈ stack, w.cells.get? f.text = none

/-- What is seen of an evaluation that leads from one world to another is in order. -/
structure Orderly (w : World) (log : List Sight) (w' : World) : Prop where
  /-- Values stay in their cells. -/
  stays : ∀ {text v}, w.cells.get? text = some v → w'.cells.get? text = some v
  /-- Nothing is seen of frames that have got a value before. -/
  silent : ∀ {text v}, w.cells.get? text = some v → ∀ s ∈ log, text ∉ s.texts
  /-- A computation that gives a value fills the cell of its frame. -/
  settles : ∀ {f v}, .ends f v ∈ log → w'.cells.get? f.text = some v
  /-- Cells are filled by computations. -/
  fills : ∀ {text v}, w'.cells.get? text = some v →
    w.cells.get? text = some v ∨ ∃ f, f.text = text ∧ .ends f v ∈ log
  /-- When a computation has given a value, nothing more is seen of its frame. -/
  once : log.Pairwise Sight.Before

namespace Orderly

variable {w w' w'' : World} {log log' : List Sight}

theorem quiet (h : w'.cells = w.cells) : Orderly w [] w' where
  stays ht := h ▸ ht
  silent _ _ hs := absurd hs List.not_mem_nil
  settles hs := absurd hs List.not_mem_nil
  fills ht := .inl (h ▸ ht)
  once := List.Pairwise.nil

/-- A cell that is filled at the end is filled by what is seen, or was filled before. -/
theorem settles_of_gives (h : Orderly w log w') {s : Sight} (hs : s ∈ log) {text : String}
    (hg : s.gives text = true) : ∃ v, w'.cells.get? text = some v := by
  cases s with
  | ends f v =>
    obtain rfl : f.text = text := by simpa [Sight.gives] using hg
    exact ⟨v, h.settles hs⟩
  | _ => cases hg

theorem append (h : Orderly w log w') (h' : Orderly w' log' w'') : Orderly w (log ++ log') w'' where
  stays ht := h'.stays (h.stays ht)
  silent ht s hs := by
    rcases List.mem_append.1 hs with hs | hs
    · exact h.silent ht s hs
    · exact h'.silent (h.stays ht) s hs
  settles hs := by
    rcases List.mem_append.1 hs with hs | hs
    · exact h'.stays (h.settles hs)
    · exact h'.settles hs
  fills ht := by
    rcases h'.fills ht with ht | ⟨f, hf, hs⟩
    · rcases h.fills ht with ht | ⟨f, hf, hs⟩
      · exact .inl ht
      · exact .inr ⟨f, hf, List.mem_append_left _ hs⟩
    · exact .inr ⟨f, hf, List.mem_append_right _ hs⟩
  once := by
    refine List.pairwise_append.2 ⟨h.once, h'.once, fun s hs s' hs' text hg => ?_⟩
    obtain ⟨v, hv⟩ := h.settles_of_gives hs hg
    exact h'.silent hv s' hs'

/-- The computation of a frame gives a value, and the cell of the frame is still empty. -/
theorem ends {frame : Frame} (hempty : w.cells.get? frame.text = none) (v : Value) :
    Orderly w [.ends frame v] { w with cells := w.cells.insert frame.text v } := by
  have hne : ∀ {text u}, w.cells.get? text = some u → text ≠ frame.text := by
    rintro text u hu rfl
    rw [hempty] at hu
    cases hu
  refine ⟨fun ht => ?_, fun ht s hs => ?_, fun hs => ?_, fun ht => ?_, List.pairwise_singleton _ _⟩
  · rw [Table.get?_insert_of_ne _ _ (hne ht)]
    exact ht
  · obtain rfl := List.mem_singleton.1 hs
    rw [Sight.texts, List.mem_singleton]
    exact hne ht
  · obtain ⟨rfl, rfl⟩ := Sight.ends.inj (List.mem_singleton.1 hs)
    exact Table.get?_insert_self _ _ _
  · rw [Table.get?_insert] at ht
    split at ht
    · rename_i htext
      cases ht
      exact .inr ⟨frame, htext.symm, List.mem_singleton_self _⟩
    · exact .inl ht

/-- The computation of a frame begins. -/
theorem begins (h : Orderly w log w') {frame : Frame} (hempty : w.cells.get? frame.text = none) :
    Orderly w (.begins frame :: log) w' where
  stays := h.stays
  silent {text v} ht s hs := by
    rcases List.mem_cons.1 hs with rfl | hs
    · rw [Sight.texts, List.mem_singleton]
      rintro rfl
      rw [hempty] at ht
      cases ht
    · exact h.silent ht s hs
  settles hs := h.settles (by simpa using hs)
  fills ht := (h.fills ht).imp_right fun ⟨f, hf, hs⟩ => ⟨f, hf, List.mem_cons_of_mem _ hs⟩
  once := List.pairwise_cons.2 ⟨fun _ _ _ hg => (Bool.false_ne_true hg).elim, h.once⟩

/-- Something is done inside frames that have not got a value. -/
theorem acts {stack : List Frame} (hopen : Open stack w) (h : w'.cells = w.cells)
    (action : Action) : Orderly w [.acts stack action] w' where
  stays ht := h ▸ ht
  silent {text v} ht s hs := by
    obtain rfl := List.mem_singleton.1 hs
    intro hmem
    obtain ⟨f, hf, rfl⟩ := List.mem_map.1 hmem
    rw [hopen f hf] at ht
    cases ht
  settles hs := by simp at hs
  fills ht := .inl (h ▸ ht)
  once := List.pairwise_singleton _ _

end Orderly

namespace Observed

variable {α : Type} {σ : Setting}

/-- What is seen of an evaluation is in order, and the frames on the stack do not get a value
meanwhile. -/
def Tidy (x : Observed α) : Prop :=
  ∀ stack w, Open stack w → Orderly w (x stack w).1 (x stack w).2.2 ∧ Open stack (x stack w).2.2

theorem Tidy.bind {β : Type} {x : Observed α} {f : α → Observed β} (hx : x.Tidy)
    (hf : ∀ a, (f a).Tidy) : (x >>= f).Tidy := by
  intro stack w hopen
  obtain ⟨horder, hopen'⟩ := hx stack w hopen
  change Orderly w (Observed.bind x f stack w).1 (Observed.bind x f stack w).2.2 ∧
    Open stack (Observed.bind x f stack w).2.2
  unfold Observed.bind
  rcases hr : x stack w with ⟨log, halt | a, w'⟩ <;> rw [hr] at horder hopen'
  · exact ⟨horder, hopen'⟩
  · obtain ⟨horder'', hopen''⟩ := hf a stack w' hopen'
    exact ⟨horder.append horder'', hopen''⟩

theorem tidy_perform (action : Action) : ((observer σ).perform action).Tidy := by
  intro stack w hopen
  have hcells := EvalM.cells_act (σ := σ) action (stack.map Frame.text) w
  refine ⟨.acts hopen hcells action, fun f hf => ?_⟩
  change ((EvalM.act σ action).exec (stack.map Frame.text) w).2.cells.get? f.text = none
  rw [hcells]
  exact hopen f hf

theorem Tidy.visit {x : Observed Value} (hx : x.Tidy) (frame : Frame) :
    ((observer σ).visit frame x).Tidy := by
  intro stack w hopen
  dsimp only [observer]
  split
  · exact ⟨.quiet rfl, hopen⟩
  rename_i hstack
  cases hcell : w.cells.get? frame.text with
  | some v => exact ⟨.quiet rfl, hopen⟩
  | none =>
    have hinside : Open (stack ++ [frame]) w := by
      intro f hf
      rcases List.mem_append.1 hf with hf | hf
      · exact hopen f hf
      · exact List.mem_singleton.1 hf ▸ hcell
    obtain ⟨horder, hopen'⟩ := hx (stack ++ [frame]) w hinside
    rcases hr : x (stack ++ [frame]) w with ⟨log, halt | v, w'⟩ <;> rw [hr] at horder hopen'
    · exact ⟨horder.begins hcell, fun f hf => hopen' f (List.mem_append_left _ hf)⟩
    · have hends := horder.append (.ends (hopen' frame (by simp)) v)
      refine ⟨hends.begins hcell, fun f hf => ?_⟩
      -- A frame on the stack has another text than the one that is entered.
      have hne : f.text ≠ frame.text := by
        intro htext
        exact hstack (by simpa [← htext] using ⟨f, hf, rfl⟩)
      dsimp only
      rw [Table.get?_insert_of_ne _ _ hne]
      exact hopen' f (List.mem_append_left _ hf)

theorem related_tidy :
    (observer σ).Related (fun _ x _ => x.Tidy) (fun _ => True) (observer σ) where
  pure _ _ _ hopen := ⟨.quiet rfl, hopen⟩
  bind hx hf := hx.bind hf
  fail _ _ _ hopen := ⟨.quiet rfl, hopen⟩
  exhaust _ _ hopen := ⟨.quiet rfl, hopen⟩
  perform {action} _ := tidy_perform action
  visit {f} {_} {_} {_} _ hx := hx.visit f

/-- What is seen of an evaluation is in order. -/
theorem tidy_answer (k : Nat) (goal : Goal) : ((observer σ).answer k goal).Tidy :=
  related_tidy.answer k goal

end Observed

/-! ### Executions -/

/-- What an execution is asked for, and what happens around it. -/
inductive Turn
  /-- A name is asked for. -/
  | request (r : Request)
  /-- The engine changes: another execution uses it, or what it keeps for an execution is
  forgotten. -/
  | change (f : Engine → Engine)

namespace Execution

/-- What an execution answers to requests while the engine changes. -/
def take (x : Execution) (e : Engine) :
    List Turn → List (Except Halt Value) × Execution × Engine
  | [] => ([], x, e)
  | .request r :: turns =>
    let (answer, x, e) := x.fetchWithin r.budget e r.loader r.name
    let (answers, x, e) := take x e turns
    (answer :: answers, x, e)
  | .change f :: turns => take x (f e) turns

/-- What is observed of a request. -/
def observed (x : Execution) (w : World) (r : Request) :
    List Sight × Except Halt Value × World :=
  let evaluation : Observed Value :=
    (observer (x.setting r.loader)).answer r.budget (.frame (.name (.entry x.graph) r.name))
  evaluation [] w

/-- What an execution answers, together with what is seen of its evaluations. -/
def observe (x : Execution) (e : Engine) :
    List Turn → List Sight × List (Except Halt Value) × Execution × Engine
  | [] => ([], [], x, e)
  | .request r :: turns =>
    let (log, answer, w) := x.observed (x.world e) r
    let (log', answers, x, e) := observe (x.resume w) w.engine turns
    (log ++ log', answer :: answers, x, e)
  | .change f :: turns => observe x (f e) turns

variable {x : Execution} {e : Engine}

theorem take_request (x : Execution) (e : Engine) (r : Request) (turns : List Turn) :
    x.take e (.request r :: turns) =
      let out := x.step EvalM.handler (x.world e) r
      let rest := (x.resume out.2).take out.2.engine turns
      (out.1 :: rest.1, rest.2) :=
  rfl

theorem observe_request (x : Execution) (e : Engine) (r : Request) (turns : List Turn) :
    x.observe e (.request r :: turns) =
      let out := x.observed (x.world e) r
      let rest := (x.resume out.2.2).observe out.2.2.engine turns
      (out.1 ++ rest.1, out.2.1 :: rest.2.1, rest.2.2) :=
  rfl

theorem snd_observed (x : Execution) (w : World) (r : Request) :
    (x.observed w r).2 = x.step EvalM.handler w r :=
  Observed.shows_answer r.budget (.frame (.name (.entry x.graph) r.name)) [] w

/-- Observing an execution changes nothing. -/
theorem snd_observe (x : Execution) (e : Engine) (turns : List Turn) :
    (x.observe e turns).2 = x.take e turns := by
  induction turns generalizing x e with
  | nil => rfl
  | cons turn turns ih =>
    cases turn with
    | change f => exact ih x (f e)
    | request r =>
      rw [observe_request, take_request, ← snd_observed]
      dsimp only
      rw [← ih]

/-- An execution keeps its number, its graph and its inputs. -/
theorem take_execution (x : Execution) (e : Engine) (turns : List Turn) :
    (x.take e turns).2.1 = { x with cells := (x.take e turns).2.1.cells } := by
  induction turns generalizing x e with
  | nil => rfl
  | cons turn turns ih =>
    cases turn with
    | change f => exact ih x (f e)
    | request r =>
      rw [take_request]
      exact ih (x.resume (x.step EvalM.handler (x.world e) r).2) _

/-- What is seen of an execution is in order. -/
theorem orderly_observe (x : Execution) (e : Engine) (turns : List Turn) :
    Orderly (x.world e) (x.observe e turns).1
      ((x.observe e turns).2.2.1.world (x.observe e turns).2.2.2) := by
  induction turns generalizing x e with
  | nil => exact .quiet rfl
  | cons turn turns ih =>
    cases turn with
    | change f =>
      have hchange : Orderly (x.world e) [] (x.world (f e)) := .quiet rfl
      exact hchange.append (ih x (f e))
    | request r =>
      have hopen : Open [] (x.world e) := fun _ hf => absurd hf List.not_mem_nil
      have horder : Orderly (x.world e) (x.observed (x.world e) r).1
          (x.observed (x.world e) r).2.2 :=
        (Observed.tidy_answer r.budget (.frame (.name (.entry x.graph) r.name)) [] _ hopen).1
      exact horder.append (ih (x.resume (x.observed (x.world e) r).2.2) _)

/-- A name whose value has been computed is answered without any change. -/
theorem fetchWithin_of_cell {name : String} {v : Value}
    (h : x.cells.get? ((Scope.entry x.graph).frame name) = some v) (k : Nat) (e : Engine)
    (loader : Loader) : x.fetchWithin (k + 1) e loader name = (.ok v, x, e) := by
  have hvisit : (x.evaluation (EvalM.handler (x.setting loader)) (k + 1) name).exec []
      (x.world e) = (.ok v, x.world e) := EvalM.answer_of_cell (fun hs => by cases hs) h
  rw [fetchWithin_eq, hvisit]
  rfl

/-- A name that has been asked for with success has its value in its cell. -/
theorem cell_of_fetchWithin {budget : Nat} {loader : Loader} {name : String} {v : Value}
    {x' : Execution} {e' : Engine} (h : x.fetchWithin budget e loader name = (.ok v, x', e')) :
    x'.graph = x.graph ∧ x'.cells.get? ((Scope.entry x.graph).frame name) = some v := by
  have hresult : (x.fetchWithin budget e loader name).1 = .ok v := by rw [h]
  obtain rfl : (x.fetchWithin budget e loader name).2.1 = x' := by rw [h]
  have heval : ((EvalM.handler (x.setting loader)).answer budget
      (.frame (.name (.entry x.graph) name))).exec [] (x.world e) = (.ok v, _) :=
    Prod.ext hresult rfl
  exact ⟨rfl, EvalM.cell_of_answer heval⟩

end Execution

/-- At most one computation of a frame is seen to give a value. -/
theorem Sight.countP_gives {log : List Sight} (h : log.Pairwise Sight.Before)
    (text : String) : log.countP (Sight.gives text) ≤ 1 := by
  induction log with
  | nil => exact Nat.zero_le 1
  | cons s log ih =>
    obtain ⟨hs, hlog⟩ := List.pairwise_cons.1 h
    cases hg : s.gives text with
    | false => simpa [hg] using ih hlog
    | true =>
      have hnone : log.countP (Sight.gives text) = 0 := by
        refine List.countP_eq_zero.2 fun s' hs' hg' => ?_
        exact hs s' hs' text hg (mem_texts_of_gives hg')
      simp [hg, hnone]

/-- **Everything is computed once per execution.** What is seen of an execution is in order: when
the computation of a frame has given a value, nothing more is seen of this frame, neither another
computation nor anything that is done inside it. So for every text, which a definition of a certain
rank of a name in a scope has, there is at most one computation that gives a value; there is one
just if the cell has been filled meanwhile. And a name that has been answered with a value is
answered with the same value from then on, and neither the execution nor the engine changes. -/
theorem computed_once (x : Execution) (e : Engine) (turns : List Turn) :
    (x.observe e turns).2 = x.take e turns ∧
      (x.observe e turns).1.Pairwise Sight.Before ∧
      (∀ text, (x.observe e turns).1.countP (Sight.gives text) ≤ 1) ∧
      (∀ text v, (x.take e turns).2.1.cells.get? text = some v ↔
        x.cells.get? text = some v ∨
          ∃ f, f.text = text ∧ .ends f v ∈ (x.observe e turns).1) ∧
      ∀ budget loader name v x' e', x.fetchWithin budget e loader name = (.ok v, x', e') →
        ∀ k e'' loader', (x'.take e' turns).2.1.fetchWithin (k + 1) e'' loader' name =
          (.ok v, (x'.take e' turns).2.1, e'') := by
  have horder := x.orderly_observe e turns
  have hshows := x.snd_observe e turns
  rw [hshows] at horder
  refine ⟨hshows, horder.once, Sight.countP_gives horder.once, fun text v => ?_, ?_⟩
  · constructor
    · exact horder.fills
    · rintro (hv | ⟨f, rfl, hends⟩)
      · exact horder.stays hv
      · exact horder.settles hends
  · intro budget loader name v x' e' hfetch k e'' loader'
    obtain ⟨hgraph, hcell⟩ := Execution.cell_of_fetchWithin hfetch
    have hgraph' : (x'.take e' turns).2.1.graph = x.graph := by
      rw [Execution.take_execution, hgraph]
    have horder' := x'.orderly_observe e' turns
    rw [x'.snd_observe e' turns] at horder'
    refine Execution.fetchWithin_of_cell ?_ k e'' loader'
    rw [hgraph']
    exact horder'.stays hcell

/-- A definition that counts, one that takes its value twice, and one that takes it and fails. -/
def tally : Loader :=
  (Bundle.ofList [("main", "LET Ip := input(); LET Hits := count(BY Ip);" ++
    "LET Twice := concat(Hits, Hits); LET Faulty := -concat(Hits);")]).loader

/-- An execution of the tally. -/
def tallied (g : Graph) : Execution × Engine :=
  Execution.start .start g (Table.ofList [("Ip", .string "here")])

/-- The tally is asked for names, and in between the engine forgets what it keeps. -/
def tallyTurns : List Turn :=
  [.request ⟨tally, 20, "Faulty"⟩, .change fun e => (e.finish 0).2, .request ⟨tally, 20, "Twice"⟩,
    .request ⟨tally, 20, "Faulty"⟩, .request ⟨tally, 20, "Hits"⟩]

theorem tally_counts_once : ∃ c, tally.compile "main" = .ok c ∧
    ((tallied c.graph).1.take (tallied c.graph).2 tallyTurns).1.map
      (fun answer => answer.toOption.map Value.compact) =
        [none, some "\"11\"", none, some "1"] ∧
    ((tallied c.graph).1.take (tallied c.graph).2 tallyTurns).2.2.store.calls.length = 1 ∧
    ((tallied c.graph).1.observe (tallied c.graph).2 tallyTurns).1.countP
      (Sight.gives "main::Hits#primary") = 1 ∧
    ∃ x e, (tallied c.graph).1.fetchWithin 20 (tallied c.graph).2 tally "Twice" =
        (.ok (.string "11"), x, e) ∧
      ∀ k e' loader, (x.take e tallyTurns).2.1.fetchWithin (k + 1) e' loader "Twice" =
        (.ok (.string "11"), (x.take e tallyTurns).2.1, e') := by
  have heval : (tally.compile "main").toOption.map (fun c =>
      (((tallied c.graph).1.take (tallied c.graph).2 tallyTurns).1.map
        (fun answer => answer.toOption.map Value.compact),
      ((tallied c.graph).1.take (tallied c.graph).2 tallyTurns).2.2.store.calls.length,
      ((tallied c.graph).1.observe (tallied c.graph).2 tallyTurns).1.countP
        (Sight.gives "main::Hits#primary"),
      ((tallied c.graph).1.fetchWithin 20 (tallied c.graph).2 tally "Twice").1.toOption)) =
        some ([none, some "\"11\"", none, some "1"], 1, 1, some (.string "11")) := by
    decide +kernel
  obtain ⟨c, hc, heval⟩ := exists_ok_of_map heval
  simp only [Prod.mk.injEq] at heval
  obtain ⟨hanswers, hcalls, hgives, htwice⟩ := heval
  obtain ⟨-, -, -, -, hagain⟩ := computed_once (tallied c.graph).1 (tallied c.graph).2 tallyTurns
  have hfetch : (tallied c.graph).1.fetchWithin 20 (tallied c.graph).2 tally "Twice" =
      (.ok (.string "11"), _, _) := Prod.ext (eq_ok_of_toOption htwice) rfl
  exact ⟨c, hc, hanswers, hcalls, hgives, _, _, hfetch, hagain _ _ _ _ _ _ hfetch⟩

end GatedRules
