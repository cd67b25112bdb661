import GatedRules.Proofs.Constants
import GatedRules.Proofs.Nesting

/-!
# What cells tell apart

An execution keeps the values that it has computed in cells, and a cell is known by a text: the
paths of the modules from the entry module inwards, joined with `|`, then `::`, the name, and for a
definition `#` and its rank. Names may be canonical texts of conditions, whose strings hold any of
these marks.

The text of a cell nevertheless gives back its parts. A balanced name is not left by a reader at a
`:` or `#`, so the `::` before the name is the one from which a reader gets through to the end or to
the mark of a rank (`Text.cell_inj`). The paths of the modules are known from their text as long as
none but that of the entry module holds a `|` (`Scope.Nested.paths_eq_of_text`).

Goals inside of an entry module are about names of this kind (`Goal.Inside.plan_follows`), and so
are the frames that are seen of an execution (`Execution.allAbout_observe`). So what a cell holds
has been computed for its own scope, name and rank (`cells_identify`). The condition on paths is
needed: modules at `a|b`, and at `b` inside of `a`, share their cells (`barred_path_shares_cells`).
-/

namespace GatedRules

/-! ### Names behind marks -/

namespace Text

variable {before before' name name' mark mark' rest : List Char}

/-- What may stand behind the name of a cell: nothing, or a `#` and something in which there is
neither a quotation mark nor a `:`. -/
structure IsMark (mark : List Char) : Prop where
  /-- It holds no quotation mark. -/
  quote : '"' ∉ mark
  /-- It holds no `:`. -/
  colon : ':' ∉ mark
  /-- It begins with a `#`, if at all. -/
  head : ∀ c ∈ mark.head?, c = '#'

/-- A mark does not begin inside of a balanced name. -/
theorem Balanced.eq_nil_of_mark (h : Balanced (name ++ rest)) (hm : IsMark (rest ++ mark)) :
    rest = [] := by
  cases rest with
  | nil => rfl
  | cons c rest =>
    obtain rfl : c = '#' := hm.head c rfl
    have hquote : '"' ∈ rest := quote_mem_of_run h
    exact absurd (by simp [hquote]) hm.quote

/-- A name with its mark gives back both. -/
theorem marked_inj (hn : Balanced name) (hn' : Balanced name') (hm : IsMark mark)
    (hm' : IsMark mark') (h : name ++ mark = name' ++ mark') : name = name' ∧ mark = mark' := by
  obtain ⟨rest, rfl, rfl⟩ | ⟨rest, rfl, rfl⟩ := List.append_eq_append_iff.1 h
  · obtain rfl := hn'.eq_nil_of_mark hm
    simp
  · obtain rfl := hn.eq_nil_of_mark hm'
    simp

/-- Behind a `:` that stands in a name, there is no other name up to the same end. -/
theorem marked_ne (hn : Balanced name) (hn' : Balanced name') (hm : IsMark mark)
    (hm' : IsMark mark') : name ++ mark ≠ before ++ ':' :: (name' ++ mark') := by
  intro h
  -- The `:` stands in the name, and inside of a string.
  obtain ⟨behind, rfl, hbehind⟩ :
      ∃ behind, name = before ++ ':' :: behind ∧ behind ++ mark = name' ++ mark' := by
    obtain ⟨rest, -, rfl⟩ | ⟨rest, rfl, hrest⟩ := List.append_eq_append_iff.1 h
    · exact absurd (by simp) hm.colon
    · cases rest with
      | nil =>
        obtain rfl : ':' :: (name' ++ mark') = mark := hrest
        exact absurd (by simp) hm.colon
      | cons c rest =>
        obtain ⟨rfl, hbehind⟩ := List.cons.inj hrest
        exact ⟨rest, rfl, hbehind.symm⟩
  have hinside : Quoting.inside.run behind = some .outside := run_inside (.inl rfl) hn
  -- From there the other name is read with strings for what is between them.
  have hflip := run_flip hn' (by decide)
  rw [Quoting.flip] at hflip
  obtain ⟨rest, rfl, rfl⟩ | ⟨rest, rfl, rfl⟩ := List.append_eq_append_iff.1 hbehind
  · obtain rfl := hn'.eq_nil_of_mark hm
    rw [List.append_nil, hinside] at hflip
    rcases hflip with hflip | hflip <;> cases hflip
  · have hquote : '"' ∉ rest := fun hq => hm'.quote (List.mem_append_left _ hq)
    rw [run_append] at hinside
    obtain ⟨q, hq, hrest⟩ := Option.bind_eq_some_iff.1 hinside
    rcases hflip with hflip | hflip <;> rw [hflip] at hq
    · cases hq
      exact run_ne_outside (q := .inside) hquote (by decide) hrest
    · cases hq

/-- **The text of a cell gives back its parts**: what stands before the name, the name and its mark.
-/
theorem cell_inj (hn : Balanced name) (hn' : Balanced name') (hm : IsMark mark)
    (hm' : IsMark mark')
    (h : before ++ ':' :: ':' :: (name ++ mark) = before' ++ ':' :: ':' :: (name' ++ mark')) :
    before = before' ∧ name = name' ∧ mark = mark' := by
  have hlonger : ∀ {before before' name name' mark mark' rest : List Char}, Balanced name →
      Balanced name' → IsMark mark → IsMark mark' → before' = before ++ rest →
      ':' :: ':' :: (name ++ mark) = rest ++ ':' :: ':' :: (name' ++ mark') →
      before = before' ∧ name = name' ∧ mark = mark' := by
    rintro before _ name name' mark mark' rest hn hn' hm hm' rfl h
    match rest, h with
    | [], h =>
      obtain ⟨rfl, rfl⟩ := marked_inj hn hn' hm hm' (by simpa using h)
      simp
    | [c], h =>
      have h : name ++ mark = [] ++ ':' :: (name' ++ mark') := (List.cons.inj (List.cons.inj h).2).2
      exact absurd h (marked_ne hn hn' hm hm')
    | c :: d :: rest, h =>
      have h : name ++ mark = (rest ++ [':']) ++ ':' :: (name' ++ mark') := by
        rw [List.append_assoc]
        exact (List.cons.inj (List.cons.inj h).2).2
      exact absurd h (marked_ne hn hn' hm hm')
  obtain ⟨rest, hbefore, h⟩ | ⟨rest, hbefore, h⟩ := List.append_eq_append_iff.1 h
  · exact hlonger hn hn' hm hm' hbefore h
  · obtain ⟨rfl, rfl, rfl⟩ := hlonger hn' hn hm' hm hbefore h
    exact ⟨rfl, rfl, rfl⟩

end Text

open Text

/-! ### Texts of cells -/

/-- The rank of a frame's definition, unless it is about a name. -/
def Frame.rank? : Frame → Option Rank
  | name .. => none
  | definition _ _ rank _ => some rank

namespace Scope

/-- The text of the cell for a name in a scope, or for its definition of a rank. -/
def cell (s : Scope) (name : String) : Option Rank → String
  | none => s.frame name
  | some rank => s.definitionFrame name rank

/-- What stands behind the name in the text of a cell. -/
def cellMark : Option Rank → List Char
  | none => []
  | some rank => '#' :: rank.text.toList

variable {s t : Scope} {n m : String} {rank? rank'? : Option Rank}

theorem toList_cell (s : Scope) (n : String) (rank? : Option Rank) :
    (s.cell n rank?).toList = s.text.toList ++ ':' :: ':' :: (n.toList ++ cellMark rank?) := by
  cases rank? with
  | none => simp [cell, frame, cellMark, String.toList_append]
  | some rank => simp [cell, frame, definitionFrame, cellMark, String.toList_append]

theorem isMark_cellMark (rank? : Option Rank) : IsMark (cellMark rank?) := by
  match rank? with
  | none => exact ⟨by decide, by decide, by simp [cellMark]⟩
  | some .primary => exact ⟨by decide, by decide, by simp [cellMark]⟩
  | some .fallback => exact ⟨by decide, by decide, by simp [cellMark]⟩

theorem cellMark_injective : Function.Injective cellMark := by
  intro rank? rank'? h
  match rank?, rank'? with
  | none, none => rfl
  | some .primary, some .primary => rfl
  | some .fallback, some .fallback => rfl
  | none, some _ => cases h
  | some _, none => cases h
  | some .primary, some .fallback => exact absurd h (by decide)
  | some .fallback, some .primary => exact absurd h (by decide)

/-- Cells for names that are looked up are told apart by the texts of their scopes, by the names and
by the ranks. -/
theorem cell_inj (hn : IsSlotName n) (hm : IsSlotName m) (h : s.cell n rank? = t.cell m rank'?) :
    s.text = t.text ∧ n = m ∧ rank? = rank'? := by
  have h := congrArg String.toList h
  rw [toList_cell, toList_cell] at h
  obtain ⟨htext, hname, hmark⟩ :=
    Text.cell_inj hn.balanced hm.balanced (isMark_cellMark _) (isMark_cellMark _) h
  exact ⟨String.toList_inj.1 htext, String.toList_inj.1 hname, cellMark_injective hmark⟩

theorem cell_congr (h : s.text = t.text) (n : String) (rank? : Option Rank) :
    s.cell n rank? = t.cell n rank? := by
  cases rank? with
  | none => rw [cell, cell, frame, frame, h]
  | some rank => rw [cell, cell, definitionFrame, definitionFrame, frame, frame, h]

/-! ### Texts of scopes -/

/-- No path but that of the entry module holds a `|`. -/
def Unbarred (s : Scope) : Prop :=
  ∀ path ∈ s.paths.tail, '|' ∉ path.toList

instance (s : Scope) : Decidable s.Unbarred :=
  inferInstanceAs (Decidable (∀ path ∈ s.paths.tail, _))

variable {r : Graph → Graph → Prop} {entry : Graph}

theorem Nested.paths (h : s.Nested r entry) : ∃ inner, s.paths = entry.root :: inner := by
  induction h with
  | entry => exact ⟨[], rfl⟩
  | child _ _ ih =>
    obtain ⟨inner, hinner⟩ := ih
    rw [paths_child, hinner]
    exact ⟨_, rfl⟩

/-- The paths of modules inside of an entry module are known from the text of their scope. -/
theorem Nested.paths_eq_of_text (hs : s.Nested r entry) (ht : t.Nested r entry)
    (hsu : s.Unbarred) (htu : t.Unbarred) (h : s.text = t.text) : s.paths = t.paths := by
  obtain ⟨inner, hinner⟩ := hs.paths
  obtain ⟨inner', hinner'⟩ := ht.paths
  rw [Unbarred, hinner, List.tail_cons] at hsu
  rw [Unbarred, hinner', List.tail_cons] at htu
  have hbar : "|".toList = ['|'] := rfl
  rw [Scope.text, Scope.text, joinedText, joinedText, String.ofList_inj, hinner, hinner', hbar] at h
  rw [hinner, hinner']
  have hcons : ∀ path paths, joined ['|'] ((entry.root :: path :: paths).map String.toList) =
      entry.root.toList ++ '|' :: joined ['|'] ((path :: paths).map String.toList) := by
    intro path paths
    rw [List.map_cons, List.map_cons, joined, List.append_assoc]
    rfl
  cases inner with
  | nil =>
    cases inner' with
    | nil => rfl
    | cons path paths =>
      rw [hcons] at h
      exact absurd (List.self_eq_append_right.1 h) (List.cons_ne_nil _ _)
  | cons path paths =>
    cases inner' with
    | nil =>
      rw [hcons] at h
      exact absurd (List.self_eq_append_right.1 h.symm) (List.cons_ne_nil _ _)
    | cons path' paths' =>
      rw [hcons, hcons] at h
      have hinner := (List.cons.inj (List.append_cancel_left h)).2
      have hchars : (path :: paths).map String.toList = (path' :: paths').map String.toList :=
        joined_inj (by simp) (by simp) (by simpa using hsu) (by simpa using htu) hinner
      rw [List.map_injective_iff.2 (fun _ _ => String.toList_inj.1) hchars]

end Scope

theorem Frame.text_eq_cell (f : Frame) :
    f.text = f.scope.cell (Goal.frame f).name f.rank? := by
  cases f <;> rfl

/-! ### Frames that are seen -/

/-- The frames of which something is seen. -/
def Sight.frames : Sight → List Frame
  | begins f => [f]
  | acts frames _ => frames
  | ends f _ => [f]

/-- All that is seen is about frames of a kind. -/
def Sight.AllAbout (p : Frame → Prop) (log : List Sight) : Prop :=
  ∀ s ∈ log, ∀ f ∈ s.frames, p f

namespace Sight

variable {p : Frame → Prop} {log log' : List Sight}

theorem allAbout_nil : AllAbout p [] :=
  fun _ hs => absurd hs List.not_mem_nil

theorem AllAbout.append (h : AllAbout p log) (h' : AllAbout p log') : AllAbout p (log ++ log') :=
  List.forall_mem_append.2 ⟨h, h'⟩

end Sight

namespace Observed

open Sight

variable {α : Type} {σ : Setting} {π : Protocol Unit} {P : World → Prop} {w : World} {k : Nat}
  {stack : List Frame}

theorem allAbout_bind {β : Type} {p : Frame → Prop} {x : Observed α} {f : α → Observed β}
    (hx : AllAbout p (x stack w).1)
    (hf : ∀ a w', (x stack w).2 = (.ok a, w') → AllAbout p (f a stack w').1) :
    AllAbout p ((x >>= f) stack w).1 := by
  change AllAbout p (Observed.bind x f stack w).1
  unfold Observed.bind
  rcases hr : x stack w with ⟨log, halt | a, w'⟩ <;> rw [hr] at hx hf
  · exact hx
  · exact hx.append (hf a w' rfl)

theorem allAbout_visit {p : Frame → Prop} {f : Frame} {x : Observed Value} (hf : p f)
    (hx : AllAbout p (x (stack ++ [f]) w).1) :
    AllAbout p ((observer σ).visit f x stack w).1 := by
  dsimp only [observer]
  split
  · exact allAbout_nil
  split
  · exact allAbout_nil
  · rcases hr : x (stack ++ [f]) w with ⟨log, halt | v, w'⟩ <;> rw [hr] at hx
    · exact List.forall_mem_cons.2 ⟨List.forall_mem_singleton.2 hf, hx⟩
    · refine List.forall_mem_cons.2 ⟨List.forall_mem_singleton.2 hf, hx.append ?_⟩
      exact List.forall_mem_singleton.2 (List.forall_mem_singleton.2 hf)

/-- The frames that are seen while a plan is run are those on the stack and those of the goals for
which it asks. -/
theorem allAbout_run {Q : Unit → α → Prop} {x : Plan α} (h : π.Upheld σ P) (hx : x.Follows π Q ())
    (hw : P w) (hstack : ∀ f ∈ stack, π.mayAsk () (.frame f))
    (hanswer : ∀ goal w, π.mayAsk () goal → P w →
      AllAbout (fun f => π.mayAsk () (.frame f)) ((observer σ).answer k goal stack w).1) :
    AllAbout (fun f => π.mayAsk () (.frame f))
      (x.run (observer σ) ((observer σ).answer k) stack w).1 := by
  induction x generalizing w with
  | done a => exact allAbout_nil
  | fail error => exact allAbout_nil
  | perform action next ih =>
    refine allAbout_bind ?_ fun r w' hr => ?_
    · exact List.forall_mem_singleton.2 hstack
    · have hout := h.acts hx.1 hw (stack.map Frame.text)
      have hr : (EvalM.act σ action).exec (stack.map Frame.text) w = (.ok r, w') := hr
      rw [hr] at hout
      exact ih r (hx.2 () r (π.refl ()) (hout.result rfl)) hout.world
  | ask goal next ih =>
    refine allAbout_bind (hanswer goal w hx.1 hw) fun r w' hr => ?_
    have hout := h.answer k hx.1 hw (stack.map Frame.text)
    rw [← shows_answer k goal stack w, hr] at hout
    exact ih r (hx.2 () r (π.refl ()) (hout.result rfl)) hout.world

/-- The frames that are seen of an evaluation are those on the stack and those for which goals may
ask. -/
theorem allAbout_answer (h : π.Upheld σ P) {goal : Goal} (hgoal : π.mayAsk () goal) (hw : P w)
    (hstack : ∀ f ∈ stack, π.mayAsk () (.frame f)) :
    AllAbout (fun f => π.mayAsk () (.frame f)) ((observer σ).answer k goal stack w).1 := by
  induction k generalizing goal w stack with
  | zero => exact allAbout_nil
  | succ k ih =>
    have hrun : ∀ {stack : List Frame}, (∀ f ∈ stack, π.mayAsk () (.frame f)) →
        AllAbout (fun f => π.mayAsk () (.frame f))
          (goal.plan.run (observer σ) ((observer σ).answer k) stack w).1 := fun hstack =>
      allAbout_run h (h.follows hgoal) hw hstack fun _ _ hg hw => ih hg hw hstack
    cases goal with
    | primary s n => exact hrun hstack
    | frame f =>
      refine allAbout_visit hgoal (hrun fun f' hf' => ?_)
      exact (List.mem_append.1 hf').elim (hstack f') fun hf' => List.mem_singleton.1 hf' ▸ hgoal

end Observed

/-! ### Executions -/

theorem Protocol.upheld_inside {entry : Graph} (hentry : entry.IsCompiled) (σ : Setting) :
    (inside entry IsSlotName fun _ _ => True).Upheld σ fun w => w.engine.NotesCompiled σ.id where
  follows h := (h.plan_follows (fun _ hn => hn) hentry).imp fun _ _ _ => trivial
  acts _ hw := hw.acts entry _ _ _
  reads _ _ _ := trivial
  fills _ hw _ := hw

/-- Requests are for words or canonical texts of conditions, and the engine changes so that all that
is noted for an execution has been compiled. -/
def Turn.Named (id : ExecutionId) : Turn → Prop
  | .request r => IsSlotName r.name
  | .change f => ∀ e : Engine, e.NotesCompiled id → (f e).NotesCompiled id

namespace Execution

/-- The frames that are seen of an execution are inside of its entry module, and about names that
are looked up. -/
theorem allAbout_observe {x : Execution} {e : Engine} {turns : List Turn}
    (hgraph : x.graph.IsCompiled) (he : e.NotesCompiled x.id)
    (hturns : ∀ turn ∈ turns, turn.Named x.id) :
    Sight.AllAbout (fun f => (Goal.frame f).Inside x.graph IsSlotName) (x.observe e turns).1 := by
  induction turns generalizing x e with
  | nil => exact Sight.allAbout_nil
  | cons turn turns ih =>
    obtain ⟨hturn, hrest⟩ := List.forall_mem_cons.1 hturns
    cases turn with
    | change f => exact ih hgraph (hturn e he) hrest
    | request r =>
      rw [observe_request]
      have hupheld := Protocol.upheld_inside hgraph (x.setting r.loader)
      have hgoal : (Goal.frame (.name (.entry x.graph) r.name)).Inside x.graph IsSlotName :=
        ⟨.entry, hturn, trivial⟩
      have hlog : Sight.AllAbout (fun f => (Goal.frame f).Inside x.graph IsSlotName)
          (x.observed (x.world e) r).1 :=
        Observed.allAbout_answer hupheld hgoal he (List.forall_mem_nil _)
      have hout := hupheld.answer r.budget hgoal (w := x.world e) he []
      refine hlog.append (ih (x := x.resume _) hgraph ?_ hrest)
      rw [snd_observed]
      exact hout.world

end Execution

open Execution

/-- **Cells identify what they hold.** The cells for two names that are looked up, or for their
definitions, are the same only for the same name and rank, and for scopes whose modules have the
same paths, as long as no path but that of the entry module holds a `|`. Whatever an execution is
asked for, and however the sources and the engine change meanwhile, all that is computed is about
such names in scopes of the entry module and compiled modules at sites; and as long as no value has
been computed inside of a module with a `|` in its path, a cell holds a value just if this value has
been computed for that name and rank inside of the same modules. -/
theorem cells_identify {g : Graph} (hg : g.IsCompiled) {e : Engine} (he : e.Numbered)
    (inputs : Table String Value) {turns : List Turn}
    (hturns : ∀ turn ∈ turns, turn.Named e.nextId) :
    let x := (start e g inputs).1
    let log := (x.observe (start e g inputs).2 turns).1
    let cells := (x.take (start e g inputs).2 turns).2.1.cells
    (∀ {s t : Scope} {n m rank? rank'?}, s.Inside g → t.Inside g → IsSlotName n → IsSlotName m →
      s.cell n rank? = t.cell m rank'? →
        n = m ∧ rank? = rank'? ∧ (s.Unbarred → t.Unbarred → s.paths = t.paths)) ∧
    Sight.AllAbout (fun f => f.scope.Inside g ∧ IsSlotName (Goal.frame f).name) log ∧
    ∀ {s : Scope} {n rank? v}, s.Inside g → s.Unbarred → IsSlotName n →
      (∀ f u, .ends f u ∈ log → f.scope.Unbarred) →
        (cells.get? (s.cell n rank?) = some v ↔ ∃ f, .ends f v ∈ log ∧
          f.scope.paths = s.paths ∧ (Goal.frame f).name = n ∧ f.rank? = rank?) := by
  intro x log cells
  have hkeys : ∀ {s t : Scope} {n m rank? rank'?}, s.Inside g → t.Inside g → IsSlotName n →
      IsSlotName m → s.cell n rank? = t.cell m rank'? →
        n = m ∧ rank? = rank'? ∧ (s.Unbarred → t.Unbarred → s.paths = t.paths) := by
    intro s t n m rank? rank'? hs ht hn hm h
    obtain ⟨htext, hname, hrank⟩ := Scope.cell_inj hn hm h
    exact ⟨hname, hrank, fun hsu htu => hs.paths_eq_of_text ht hsu htu htext⟩
  have hnotes : (start e g inputs).2.NotesCompiled x.id := by
    intro path g' hg'
    rw [memo_start he] at hg'
    cases hg'
  have hseen : Sight.AllAbout (fun f => f.scope.Inside g ∧ IsSlotName (Goal.frame f).name) log :=
    fun s hs f hf =>
      have hinside := allAbout_observe (x := x) hg hnotes hturns s hs f hf
      ⟨hinside.scope, hinside.name⟩
  refine ⟨hkeys, hseen, fun {s n rank? v} hs hsu hn hclear => ?_⟩
  have horder := x.orderly_observe (start e g inputs).2 turns
  rw [snd_observe] at horder
  constructor
  · intro hv
    obtain hempty | ⟨f, htext, hf⟩ := horder.fills hv
    · cases hempty
    · obtain ⟨hinside, hname⟩ := hseen _ hf f (List.mem_singleton_self f)
      rw [f.text_eq_cell] at htext
      obtain ⟨hsame, hrank, hpaths⟩ := hkeys hinside hs hname hn htext
      exact ⟨f, hf, hpaths (hclear f v hf) hsu, hsame, hrank⟩
  · rintro ⟨f, hf, hpaths, rfl, rfl⟩
    have htext : s.text = f.scope.text := by rw [Scope.text, Scope.text, hpaths]
    rw [Scope.cell_congr htext, ← f.text_eq_cell]
    exact horder.settles hf

/-- An archive whose rooms are found in wings. The gate of the wings has marks in its text. -/
def archive : Bundle :=
  .ofList [
    ("main", "LET Keeper := \"Ada\"; INCLUDE \"wings\" WHERE Day = \"::Keeper#primary\";"),
    ("wings", "INCLUDE \"${Wing}\";"),
    ("west", "INCLUDE \"${Room}\";"),
    ("attic", "LET Keeper := \"Bo\"; LET Contact := Keeper;")]

/-- An execution of the archive. -/
def archived (g : Graph) : Execution × Engine :=
  start .start g <| .ofList
    [("Wing", .string "west"), ("Room", .string "attic"), ("Day", .string "::Keeper#primary")]

/-- The archive is asked for the keeper of a room, and for its own. -/
def archiveTurns : List Turn :=
  [.request ⟨archive.loader, 20, "Contact"⟩, .request ⟨archive.loader, 20, "Keeper"⟩]

theorem archive_tells_keepers_apart : ∃ c west attic, archive.loader.compile "main" = .ok c ∧
    archive.loader.compile "west" = .ok west ∧ archive.loader.compile "attic" = .ok attic ∧
    let log := ((archived c.graph).1.observe (archived c.graph).2 archiveTurns).1
    let room := ((Scope.entry c.graph).child west.graph).child attic.graph
    (∃ f, .ends f (.string "Bo") ∈ log ∧ f.scope.paths = room.paths ∧
      (Goal.frame f).name = "Keeper" ∧ f.rank? = none) ∧
    ∃ f, .ends f (.string "Ada") ∈ log ∧ f.scope.paths = (Scope.entry c.graph).paths ∧
      (Goal.frame f).name = "Keeper" ∧ f.rank? = some .primary := by
  have hsome : (archive.loader.compile "west").toOption.isSome ∧
      (archive.loader.compile "attic").toOption.isSome := by
    decide +kernel
  have heval : (archive.loader.compile "main").toOption.map (fun c =>
      let cells := ((archived c.graph).1.take (archived c.graph).2 archiveTurns).2.1.cells
      let log := ((archived c.graph).1.observe (archived c.graph).2 archiveTurns).1
      (cells.get? "main|west|attic::Keeper", cells.get? "main::Keeper#primary",
        log.all fun s => s.frames.all fun f => f.scope.Unbarred)) =
      some (some (.string "Bo"), some (.string "Ada"), true) := by
    decide +kernel
  obtain ⟨c, hc, heval⟩ := exists_ok_of_map heval
  obtain ⟨west, hwest⟩ := Option.isSome_iff_exists.1 hsome.1
  obtain ⟨attic, hattic⟩ := Option.isSome_iff_exists.1 hsome.2
  replace hwest := eq_ok_of_toOption hwest
  replace hattic := eq_ok_of_toOption hattic
  simp only [Prod.mk.injEq] at heval
  obtain ⟨hroom, hentry, hclear⟩ := heval
  refine ⟨c, west, attic, hc, hwest, hattic, ?_⟩
  intro log room
  have hinside : (Scope.entry c.graph).Inside c.graph := .entry
  have hinside' : room.Inside c.graph :=
    .child (.child .entry ⟨_, _, west, hwest, rfl⟩) ⟨_, _, attic, hattic, rfl⟩
  have hpaths : (Scope.entry c.graph).paths = ["main"] := by
    have hroot : c.graph.root = "main" := (root_of_compile hc).1.trans (by decide)
    rw [← hroot]
    rfl
  have hpaths' : room.paths = ["main", "west", "attic"] := by
    have hroot : west.graph.root = "west" := (root_of_compile hwest).1.trans (by decide)
    have hroot' : attic.graph.root = "attic" := (root_of_compile hattic).1.trans (by decide)
    rw [Scope.paths_child, Scope.paths_child, hpaths, hroot, hroot']
    rfl
  have hwords : ["Keeper", "Contact"].all (fun n => n.toList.all isWordChar) = true := by decide
  have hname : ∀ n ∈ ["Keeper", "Contact"], IsSlotName n := fun n hn =>
    .inl (List.all_eq_true.1 (List.all_eq_true.1 hwords n hn))
  have hturns : ∀ turn ∈ archiveTurns, turn.Named Engine.start.nextId :=
    List.forall_mem_cons.2 ⟨hname _ (by simp), List.forall_mem_singleton.2 (hname _ (by simp))⟩
  have hclear : ∀ f u, .ends f u ∈ log → f.scope.Unbarred := fun f u hf => by
    have hframes := List.all_eq_true.1 hclear _ hf
    exact of_decide_eq_true (List.all_eq_true.1 hframes f (List.mem_singleton_self f))
  obtain ⟨-, -, hcells⟩ := cells_identify ⟨_, _, c, hc, rfl⟩ Engine.numbered_start
    (.ofList [("Wing", .string "west"), ("Room", .string "attic"),
      ("Day", .string "::Keeper#primary")]) hturns
  constructor
  · refine (hcells hinside' ?_ (hname _ (by simp)) hclear).1 ?_
    · rw [Scope.Unbarred, hpaths']
      decide
    · rw [Scope.cell, Scope.frame, Scope.text, hpaths']
      exact hroom
  · refine (hcells hinside ?_ (hname _ (by simp)) hclear).1 ?_
    · rw [Scope.Unbarred, hpaths]
      decide
    · rw [Scope.cell, Scope.definitionFrame, Scope.frame, Scope.text, hpaths]
      exact hentry

/-- A module at `a|b`, and one at `b` that is included by one at `a`. -/
def barred : Bundle :=
  .ofList [
    ("main", "INCLUDE \"${P}\"; INCLUDE \"${Q}\";"),
    ("a|b", "LET Z := Y; LET Y := \"of a|b\";"),
    ("a", "INCLUDE \"${R}\";"),
    ("b", "LET X := Y; LET Y := \"of b\";")]

/-- An execution in which both are included. -/
def barring (g : Graph) : Execution × Engine :=
  start .start g <| .ofList [("P", .string "a|b"), ("Q", .string "a"), ("R", .string "b")]

/-- A module with a `|` in its path shares its cells with modules that are nested: what has been
computed for its name is served for theirs. -/
theorem barred_path_shares_cells : ∃ c ab a b, barred.loader.compile "main" = .ok c ∧
    barred.loader.compile "a|b" = .ok ab ∧ barred.loader.compile "a" = .ok a ∧
    barred.loader.compile "b" = .ok b ∧
    let s := (Scope.entry c.graph).child ab.graph
    let t := ((Scope.entry c.graph).child a.graph).child b.graph
    s.paths = ["main", "a|b"] ∧ t.paths = ["main", "a", "b"] ∧
      (∀ n rank?, s.cell n rank? = t.cell n rank?) ∧
      ((barring c.graph).1.fetch (barring c.graph).2 barred.loader "X").1 =
        .ok (.string "of b") ∧
      ((barring c.graph).1.fetchAll (barring c.graph).2 barred.loader ["Z", "X"]).1 =
        .ok [.string "of a|b", .string "of a|b"] := by
  have hpaths : ∀ path ∈ ["a|b", "a", "b"], ∃ c, barred.loader.compile path = .ok c := by
    have heval : ∀ path ∈ ["a|b", "a", "b"], (barred.loader.compile path).toOption.isSome := by
      decide +kernel
    intro path hpath
    obtain ⟨c, hc⟩ := Option.isSome_iff_exists.1 (heval path hpath)
    exact ⟨c, eq_ok_of_toOption hc⟩
  obtain ⟨ab, hab⟩ := hpaths "a|b" (by simp)
  obtain ⟨a, ha⟩ := hpaths "a" (by simp)
  obtain ⟨b, hb⟩ := hpaths "b" (by simp)
  have heval : (barred.loader.compile "main").toOption.map (fun c =>
      (((barring c.graph).1.fetch (barring c.graph).2 barred.loader "X").1.toOption,
        ((barring c.graph).1.fetchAll (barring c.graph).2 barred.loader ["Z", "X"]).1.toOption)) =
      some (some (.string "of b"), some [.string "of a|b", .string "of a|b"]) := by
    decide +kernel
  obtain ⟨c, hc, heval⟩ := exists_ok_of_map heval
  obtain ⟨halone, hboth⟩ := Prod.mk.inj heval
  have hroots : c.graph.root = "main" ∧ ab.graph.root = "a|b" ∧ a.graph.root = "a" ∧
      b.graph.root = "b" :=
    ⟨(root_of_compile hc).1.trans (by decide), (root_of_compile hab).1.trans (by decide),
      (root_of_compile ha).1.trans (by decide), (root_of_compile hb).1.trans (by decide)⟩
  have hs : ((Scope.entry c.graph).child ab.graph).paths = ["main", "a|b"] := by
    rw [Scope.paths_child, hroots.2.1, ← hroots.1]
    rfl
  have ht : (((Scope.entry c.graph).child a.graph).child b.graph).paths = ["main", "a", "b"] := by
    rw [Scope.paths_child, Scope.paths_child, hroots.2.2.1, hroots.2.2.2, ← hroots.1]
    rfl
  refine ⟨c, ab, a, b, hc, hab, ha, hb, hs, ht, fun n rank? => Scope.cell_congr ?_ n rank?,
    eq_ok_of_toOption halone, eq_ok_of_toOption hboth⟩
  rw [Scope.text, Scope.text, hs, ht]
  decide

end GatedRules
