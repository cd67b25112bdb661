import GatedRules.Proofs.Cycles
import GatedRules.Proofs.Settled

/-!
# The names on which sites depend

The names on which sites depend are collected by a loop over a list of pending names. A turn of the
loop takes one of them; if it was not seen before, it is seen from then on, and the names on which
it depends become pending too (`Worklist.Turn`). It is left open which of the pending names a turn
takes, and in which order they are kept.

However the names are taken, the loop ends, after no more turns than there are dependencies of
sites and of slots, and then just those names have been seen that can be reached from a site.
`Graph.bound` is what one of these loops collects (`Dependency.turns_close`), so this is what bound
names are (`bindsSites_iff_reached`).
-/

namespace GatedRules

open Relation

/-- Where the loop stands. -/
structure Worklist where
  /-- The names that are still to be taken. A name may be pending more than once. -/
  pending : List String
  /-- The names that have been taken. -/
  seen : List String

namespace Worklist

open Dependency

variable {slots : Table String Slot} {w w' : Worklist} {sources : List String} {n : String}

/-- A turn of the loop. -/
inductive Turn (slots : Table String Slot) : Worklist → Worklist → Prop
  /-- A pending name that was seen before is dropped. -/
  | again {name : String} {before after seen : List String} : name ∈ seen →
    Turn slots ⟨before ++ name :: after, seen⟩ ⟨before ++ after, seen⟩
  /-- A pending name is seen for the first time, and what it depends on becomes pending. -/
  | first {name : String} {before after seen pending : List String} : name ∉ seen →
    pending.Perm (successors slots name ++ (before ++ after)) →
    Turn slots ⟨before ++ name :: after, seen⟩ ⟨pending, name :: seen⟩

/-- The name that is pending first may be taken. -/
theorem turn_of_mem {name : String} {pending seen : List String} (h : name ∈ seen) :
    Turn slots ⟨name :: pending, seen⟩ ⟨pending, seen⟩ :=
  @Turn.again slots name [] pending seen h

/-- The name that is pending first may be taken. -/
theorem turn_of_not_mem (slots : Table String Slot) (pending : List String) {name : String}
    {seen : List String} (h : name ∉ seen) :
    Turn slots ⟨name :: pending, seen⟩ ⟨successors slots name ++ pending, name :: seen⟩ :=
  @Turn.first slots name [] pending seen _ h (.refl _)

/-- As long as a name is pending, the loop goes on. -/
theorem exists_turn (slots : Table String Slot) (h : w.pending ≠ []) : ∃ w', Turn slots w w' := by
  obtain ⟨pending, seen⟩ := w
  cases pending with
  | nil => exact absurd rfl h
  | cons name pending =>
    by_cases hseen : name ∈ seen
    · exact ⟨_, turn_of_mem hseen⟩
    · exact ⟨_, turn_of_not_mem slots pending hseen⟩

/-- When no name is pending, the loop is over. -/
theorem Turn.pending_ne_nil (h : Turn slots w w') : w.pending ≠ [] := by
  cases h <;> simp

/-! ### The loop ends -/

/-- How many turns the loop can still take: one for every pending name, and one for everything on
which a name depends that has not been seen. -/
def turnsLeft (slots : Table String Slot) (w : Worklist) : Nat :=
  w.pending.length + outstanding slots w.seen slots.keys

/-- Every turn lowers it. -/
theorem Turn.turnsLeft_lt (h : Turn slots w w') : w'.turnsLeft slots < w.turnsLeft slots := by
  cases h with
  | again =>
    simp only [turnsLeft, List.length_append, List.length_cons]
    omega
  | @first name before after seen pending hseen hpending =>
    have hlength := hpending.length_eq
    have hnew : (successors slots name).length + outstanding slots (name :: seen) slots.keys ≤
        outstanding slots seen slots.keys := by
      by_cases hname : name ∈ slots.keys
      · have hnot : ¬ seen.contains name = true := by simpa using hseen
        have hle := outstanding_cons_add_le slots hname hnot
        omega
      · have hnone : slots.get? name = none := Table.get?_eq_none_iff.2 hname
        have hle := outstanding_cons_le slots seen slots.keys name
        simpa [successors, hnone] using hle
    simp only [turnsLeft, List.length_append, List.length_cons] at hlength ⊢
    omega

/-- A series of turns is no longer than where it begins allows. -/
theorem length_le_turnsLeft {ws : List Worklist} (h : (w :: ws).IsChain (Turn slots)) :
    ws.length ≤ w.turnsLeft slots := by
  induction ws generalizing w with
  | nil => exact Nat.zero_le _
  | cons w' ws ih =>
    obtain ⟨hturn, hrest⟩ := List.isChain_cons_cons.1 h
    exact Nat.lt_of_le_of_lt (ih hrest) hturn.turnsLeft_lt

/-- What is outstanding when nothing has been seen is all on which names depend. -/
theorem outstanding_nil (slots : Table String Slot) (names : List String) :
    outstanding slots [] names = (names.flatMap (successors slots)).length := by
  induction names with
  | nil => rfl
  | cons k names ih => simp [outstanding, ih]

/-! ### What the loop collects -/

/-- Where a loop may stand that began with some names: it has lost none of them, nothing that the
names seen depend on is missing, and all names can be reached from those with which it began. -/
structure Collects (slots : Table String Slot) (sources : List String) (w : Worklist) : Prop where
  /-- The names with which the loop began are seen or pending. -/
  begun : ∀ n ∈ sources, n ∈ w.seen ∨ n ∈ w.pending
  /-- What the names seen refer to is seen or pending. -/
  closed : ∀ n ∈ w.seen, ∀ m, Refers slots n m → m ∈ w.seen ∨ m ∈ w.pending
  /-- All names can be reached. -/
  reached : ∀ n, n ∈ w.seen ∨ n ∈ w.pending →
    ∃ m ∈ sources, ReflTransGen (Refers slots) m n

theorem collects_start (slots : Table String Slot) (sources : List String) :
    Collects slots sources ⟨sources, []⟩ where
  begun _ hn := .inr hn
  closed _ hn := absurd hn List.not_mem_nil
  reached n hn := ⟨n, by simpa using hn, .refl⟩

theorem Collects.turn (h : Collects slots sources w) (hturn : Turn slots w w') :
    Collects slots sources w' := by
  cases hturn with
  | @again name before after seen hseen =>
    -- The name that is dropped is among the names seen.
    have hkept : ∀ n, n ∈ seen ∨ n ∈ before ++ name :: after → n ∈ seen ∨ n ∈ before ++ after := by
      intro n hn
      by_cases hname : n = name
      · exact .inl (hname ▸ hseen)
      · simpa [hname] using hn
    exact ⟨fun n hn => hkept n (h.begun n hn),
      fun n hn m hm => hkept m (h.closed n hn m hm),
      fun n hn => h.reached n (hn.imp_right fun hn => by
        rcases List.mem_append.1 hn with hn | hn <;> simp [hn])⟩
  | @first name before after seen pending hseen hpending =>
    have hmem : ∀ m, m ∈ pending ↔ Refers slots name m ∨ m ∈ before ++ after := fun m => by
      rw [hpending.mem_iff, List.mem_append, refers_iff]
    have hkept : ∀ n, n ∈ seen ∨ n ∈ before ++ name :: after →
        n ∈ name :: seen ∨ n ∈ pending := by
      intro n hn
      by_cases hname : n = name
      · exact .inl (by simp [hname])
      · rw [hmem, List.mem_cons]
        simp only [List.mem_append, List.mem_cons, hname, false_or] at hn ⊢
        exact hn.imp id .inr
    refine ⟨fun n hn => hkept n (h.begun n hn), fun n hn m hm => ?_, fun n hn => ?_⟩
    · rcases List.mem_cons.1 hn with rfl | hn
      · exact .inr ((hmem m).2 (.inl hm))
      · exact hkept m (h.closed n hn m hm)
    · obtain ⟨source, hsource, hname⟩ := h.reached name (.inr (by simp))
      rw [List.mem_cons, hmem] at hn
      rcases hn with (rfl | hn) | hn | hn
      · exact ⟨source, hsource, hname⟩
      · exact h.reached n (.inl hn)
      · exact ⟨source, hsource, hname.tail hn⟩
      · refine h.reached n (.inr ?_)
        rcases List.mem_append.1 hn with hn | hn <;> simp [hn]

theorem Collects.turns (h : Collects slots sources w)
    (hturns : ReflTransGen (Turn slots) w w') : Collects slots sources w' := by
  induction hturns with
  | refl => exact h
  | tail _ hturn ih => exact ih.turn hturn

/-- When no name is pending any more, the names seen are those that can be reached. -/
theorem Collects.mem_seen_iff (h : Collects slots sources w) (hw : w.pending = []) :
    n ∈ w.seen ↔ ∃ m ∈ sources, ReflTransGen (Refers slots) m n := by
  refine ⟨fun hn => h.reached n (.inl hn), ?_⟩
  rintro ⟨m, hm, hreach⟩
  induction hreach with
  | refl => simpa [hw] using h.begun m hm
  | tail _ hstep ih => simpa [hw] using h.closed _ ih _ hstep

end Worklist

namespace Dependency

variable {slots : Table String Slot}

/-- Closing is a loop that takes the names from the first on. -/
theorem turns_close (pending seen : List String) :
    ReflTransGen (Worklist.Turn slots) ⟨pending, seen⟩ ⟨[], close slots pending seen⟩ := by
  induction pending, seen using close.induct slots with
  | case1 seen =>
    rw [close]
  | case2 name pending seen hseen ih =>
    rw [close, if_pos hseen]
    exact ih.head (Worklist.turn_of_mem (List.contains_iff_mem.1 hseen))
  | case3 name pending seen hseen hslot ih =>
    have hturn := Worklist.turn_of_not_mem slots pending
      fun h => hseen (List.contains_iff_mem.2 h)
    rw [successors, hslot] at hturn
    rw [close_of_not_seen hseen, successors, hslot]
    exact ih.head hturn
  | case4 name pending seen hseen slot hslot ih =>
    have hturn := Worklist.turn_of_not_mem slots pending
      fun h => hseen (List.contains_iff_mem.2 h)
    rw [successors, hslot] at hturn
    rw [close_of_not_seen hseen, successors, hslot]
    exact ih.head hturn

end Dependency

/-- Where the loop over the names on which sites depend begins. -/
def Graph.worklist (g : Graph) : Worklist :=
  ⟨g.sites.flatMap Site.dependencies, []⟩

open Worklist in
/-- **Bound names are those that can be reached from a site.** A graph binds its sites by a name
exactly if the name can be reached from a name in the template of a site, or from a condition of its
gate, by going from slots to names to which their definitions refer, proper or default, any number
of times. The loop that collects these names collects them whichever of the pending names it takes:
it goes on until no name is pending, and it takes no more turns than there are dependencies of sites
and of slots. -/
theorem bindsSites_iff_reached (g : Graph) :
    (∀ n, g.bindsSites n = true ↔ ∃ site ∈ g.sites, ∃ m,
      (m ∈ site.template.inputs ∨ ∃ c ∈ site.gate.conditions, c.name = m) ∧
        ReflTransGen (Dependency.Refers g.slots) m n) ∧
    ReflTransGen (Worklist.Turn g.slots) g.worklist ⟨[], g.bound⟩ ∧
    (∀ w, ReflTransGen (Worklist.Turn g.slots) g.worklist w →
      (∃ w', Worklist.Turn g.slots w w') ∨
        w.pending = [] ∧ ∀ n, n ∈ w.seen ↔ g.bindsSites n = true) ∧
    ∀ ws, (g.worklist :: ws).IsChain (Worklist.Turn g.slots) → ws.length ≤
      (g.sites.flatMap Site.dependencies).length +
        (g.names.flatMap (Dependency.successors g.slots)).length := by
  have hloop : ReflTransGen (Worklist.Turn g.slots) g.worklist ⟨[], g.bound⟩ := by
    rw [g.bound_eq]
    exact Dependency.turns_close _ []
  have hstart := collects_start g.slots (g.sites.flatMap Site.dependencies)
  have hbinds : ∀ n, g.bindsSites n = true ↔
      ∃ m ∈ g.sites.flatMap Site.dependencies,
        ReflTransGen (Dependency.Refers g.slots) m n := fun n => by
    rw [Graph.bindsSites, List.contains_iff_mem]
    exact (hstart.turns hloop).mem_seen_iff rfl
  refine ⟨fun n => ?_, hloop, fun w hw => ?_, fun ws hws => ?_⟩
  · simp only [hbinds, List.mem_flatMap, Site.mem_dependencies]
    constructor
    · rintro ⟨m, ⟨site, hsite, hm⟩, hreach⟩
      exact ⟨site, hsite, m, hm, hreach⟩
    · rintro ⟨site, hsite, m, hm, hreach⟩
      exact ⟨m, ⟨site, hsite, hm⟩, hreach⟩
  · by_cases hpending : w.pending = []
    · refine .inr ⟨hpending, fun n => ?_⟩
      rw [hbinds, (hstart.turns hw).mem_seen_iff hpending]
    · exact .inl (exists_turn g.slots hpending)
  · have hlength := length_le_turnsLeft hws
    rwa [turnsLeft, Graph.worklist, outstanding_nil] at hlength

/-- A module that is chosen by the value of another name, under a condition, beside a default of
which it is not chosen. -/
def keyed : Loader :=
  (Bundle.ofList [
    ("main", "LET Key := Action; LET Thing := \"d\" DEFAULT; INCLUDE \"features\" WHERE Enabled;"),
    ("features", "INCLUDE \"features/${Key}\";")]).loader

/-- Here the loop may take the condition first, and it takes as many turns as it can. -/
theorem keyed_bindsSites : ∃ c, keyed.compile "main" = .ok c ∧
    (∀ n, c.graph.bindsSites n = true ↔ n ∈ ["Action", "Key", "Enabled"]) ∧
    ∃ ws, (c.graph.worklist :: ws).IsChain (Worklist.Turn c.graph.slots) ∧ ws.length = 3 ∧
      ws.length ≤ (c.graph.sites.flatMap Site.dependencies).length +
        (c.graph.names.flatMap (Dependency.successors c.graph.slots)).length := by
  have heval : (keyed.compile "main").toOption.map (fun c =>
      (c.graph.worklist.pending,
        ["Enabled", "Key", "Action"].map (Dependency.successors c.graph.slots))) =
      some (["Key", "Enabled"], [[], ["Action"], []]) := by
    decide +kernel
  obtain ⟨c, hc, heval⟩ := exists_ok_of_map heval
  simp only [List.map_cons, List.map_nil, Prod.mk.injEq, List.cons.injEq, and_true] at heval
  obtain ⟨hpending, henabled, hkey, haction⟩ := heval
  have hstart : c.graph.worklist = ⟨["Key", "Enabled"], []⟩ := congrArg (Worklist.mk · []) hpending
  -- The condition is taken before the key, which is pending first.
  have hfirst : Worklist.Turn c.graph.slots c.graph.worklist ⟨["Key"], ["Enabled"]⟩ := by
    rw [hstart]
    exact @Worklist.Turn.first _ "Enabled" ["Key"] [] [] ["Key"] (by simp) (by rw [henabled]; rfl)
  have hsecond := Worklist.turn_of_not_mem c.graph.slots [] (show "Key" ∉ ["Enabled"] by decide)
  have hthird := Worklist.turn_of_not_mem c.graph.slots []
    (show "Action" ∉ ["Key", "Enabled"] by decide)
  rw [hkey] at hsecond
  rw [haction] at hthird
  obtain ⟨-, -, hends, hlength⟩ := bindsSites_iff_reached c.graph
  have hlast := ((ReflTransGen.single hfirst).tail hsecond).tail hthird
  have hchain := (((List.isChain_singleton _).cons_cons hthird).cons_cons hsecond).cons_cons hfirst
  refine ⟨c, hc, fun n => ?_, _, hchain, rfl, hlength _ hchain⟩
  obtain ⟨_, hnext⟩ | ⟨-, hseen⟩ := hends _ hlast
  · exact absurd rfl hnext.pending_ne_nil
  · exact (hseen n).symm

end GatedRules
