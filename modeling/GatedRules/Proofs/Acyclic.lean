import GatedRules.Slot.Dependency
import Mathlib.Data.List.Perm.Subperm

/-!
# Acyclic dependencies

If the search for a cycle meets none, the slots can be ranked such that every slot ranks above all
that it depends on (`exists_rank_of_findCycle`). The rank is read off the list of finished slots: a
search finishes a slot after all slots on which it depends.

The search never meets the bound on its depth, since the slots in progress are distinct.
-/

namespace GatedRules

namespace Dependency

variable {slots : Table String Slot}

/-- Only slots depend on something. -/
theorem mem_keys_of_mem_successors {n m : String} (h : m ∈ successors slots n) :
    n ∈ slots.keys := by
  rw [successors] at h
  cases hg : slots.get? n with
  | none =>
    rw [hg] at h
    cases h
  | some slot =>
    rw [← Table.isSome_get?_iff, hg]
    rfl

/-! ### Orders of slots -/

/-- The names on which a name of the list depends come later in the list, if they are slots; and no
name comes twice. -/
def Ordered (slots : Table String Slot) : List String → Prop
  | [] => True
  | n :: rest =>
    n ∉ rest ∧ (∀ m ∈ successors slots n, m ∈ slots.keys → m ∈ rest) ∧ Ordered slots rest

/-- How many names there are from a name to the end of a list; none for other names. -/
def rankIn : List String → String → Nat
  | [], _ => 0
  | n :: rest, m => if m = n then rest.length + 1 else rankIn rest m

theorem rankIn_le (order : List String) (n : String) : rankIn order n ≤ order.length := by
  induction order with
  | nil => exact Nat.le_refl 0
  | cons m rest ih =>
    rw [rankIn, List.length_cons]
    split
    · exact Nat.le_refl _
    · exact Nat.le_succ_of_le ih

theorem rankIn_of_not_mem {order : List String} {n : String} (h : n ∉ order) :
    rankIn order n = 0 := by
  induction order with
  | nil => rfl
  | cons m rest ih =>
    rw [List.mem_cons, not_or] at h
    rw [rankIn, if_neg h.1, ih h.2]

theorem rankIn_pos {order : List String} {n : String} (h : n ∈ order) : 0 < rankIn order n := by
  induction order with
  | nil => cases h
  | cons m rest ih =>
    rw [rankIn]
    split
    · exact Nat.succ_pos _
    · rename_i hne
      exact ih ((List.mem_cons.1 h).resolve_left hne)

theorem Ordered.nodup {order : List String} (ho : Ordered slots order) : order.Nodup := by
  induction order with
  | nil => exact List.nodup_nil
  | cons n rest ih => exact List.nodup_cons.2 ⟨ho.1, ih ho.2.2⟩

theorem Ordered.mem {order : List String} (ho : Ordered slots order) {n m : String}
    (hn : n ∈ order) (hm : m ∈ successors slots n) (hs : m ∈ slots.keys) : m ∈ order := by
  induction order with
  | nil => cases hn
  | cons k rest ih =>
    rcases List.mem_cons.1 hn with rfl | hn
    · exact List.mem_cons_of_mem _ (ho.2.1 m hm hs)
    · exact List.mem_cons_of_mem _ (ih ho.2.2 hn)

/-- In an ordered list, a name ranks above the slots on which it depends. -/
theorem Ordered.rankIn_lt {order : List String} (ho : Ordered slots order) {n m : String}
    (hn : n ∈ order) (hm : m ∈ successors slots n) (hs : m ∈ slots.keys) :
    rankIn order m < rankIn order n := by
  induction order with
  | nil => cases hn
  | cons k rest ih =>
    obtain ⟨hk, hsucc, hrest⟩ := ho
    by_cases hnk : n = k
    · subst hnk
      have hmr : m ∈ rest := hsucc m hm hs
      have hmn : m ≠ n := fun h => hk (h ▸ hmr)
      rw [rankIn, rankIn, if_neg hmn, if_pos rfl]
      exact Nat.lt_succ_of_le (rankIn_le rest m)
    · have hnr : n ∈ rest := (List.mem_cons.1 hn).resolve_left hnk
      have hmk : m ≠ k := fun h => hk (h ▸ hrest.mem hnr hm hs)
      rw [rankIn, rankIn, if_neg hmk, if_neg hnk]
      exact ih hrest hnr

/-! ### The search -/

/-- What a search has finished while the slots of `path` are in progress: slots in order, none of
them in progress. -/
structure Finished (slots : Table String Slot) (path done : List String) : Prop where
  /-- The slots are in order. -/
  ordered : Ordered slots done
  /-- They are slots. -/
  known : done ⊆ slots.keys
  /-- None of them is in progress. -/
  apart : ∀ n ∈ path, n ∉ done

/-- A search through several names finishes those that are slots, if at every name it finishes that
one, and keeps what it has finished before. -/
theorem foldlM_finishes {path : List String}
    {f : List String → String → Except (List String) (List String)} {names done done' : List String}
    (hf : ∀ d n d', n ∈ names → Finished slots path d → f d n = .ok d' →
      Finished slots path d' ∧ d ⊆ d' ∧ (n ∈ slots.keys → n ∈ d'))
    (hd : Finished slots path done) (h : names.foldlM f done = .ok done') :
    Finished slots path done' ∧ done ⊆ done' ∧ ∀ n ∈ names, n ∈ slots.keys → n ∈ done' := by
  induction names generalizing done with
  | nil =>
    cases h
    exact ⟨hd, List.Subset.refl _, fun n hn => absurd hn List.not_mem_nil⟩
  | cons n names ih =>
    rw [List.foldlM_cons] at h
    cases hn : f done n with
    | error cycle =>
      rw [hn] at h
      cases h
    | ok d =>
      rw [hn] at h
      obtain ⟨hd', hsub, hmem⟩ := hf done n d (by simp) hd hn
      obtain ⟨hdone', hsub', hmem'⟩ :=
        ih (fun e m e' hm => hf e m e' (by simp [hm])) hd' h
      refine ⟨hdone', List.Subset.trans hsub hsub', fun m hm hs => ?_⟩
      rcases List.mem_cons.1 hm with rfl | hm
      · exact hsub' (hmem hs)
      · exact hmem' m hm hs

/-- Taking a name keeps what has been finished and finishes the name if it is a slot, provided that
the search below slots does so. -/
theorem advance_finishes {path done done' : List String} {name : String}
    {below : List String → String → Except (List String) (List String)}
    (hbelow : name ∈ slots.keys → name ∉ path → name ∉ done → below done name = .ok done' →
      Finished slots path done' ∧ done ⊆ done' ∧ name ∈ done')
    (hdone : Finished slots path done) (h : advance slots path below done name = .ok done') :
    Finished slots path done' ∧ done ⊆ done' ∧ (name ∈ slots.keys → name ∈ done') := by
  unfold advance at h
  split at h
  · rename_i hslot
    cases h
    refine ⟨hdone, List.Subset.refl _, fun hs => ?_⟩
    rw [Table.contains_iff_mem_keys.2 hs] at hslot
    cases hslot
  rename_i hslot
  split at h
  · cases h
  rename_i hidx
  split at h
  · rename_i hmem
    cases h
    exact ⟨hdone, List.Subset.refl _, fun _ => by simpa using hmem⟩
  · rename_i hmem
    have hs : name ∈ slots.keys := Table.contains_iff_mem_keys.1 (by simpa using hslot)
    obtain ⟨hfin, hsub, hm⟩ :=
      hbelow hs (List.idxOf?_eq_none_iff.1 hidx) (by simpa using hmem) h
    exact ⟨hfin, hsub, fun _ => hm⟩

/-- A search below a slot finishes the slot and keeps what it has finished before. -/
theorem visit_finishes {bound : Nat} {path done done' : List String} {name : String}
    (h : visit slots bound path done name = .ok done') (hname : name ∈ slots.keys)
    (hpath : (path ++ [name]).Nodup) (hkeys : path ⊆ slots.keys)
    (hbound : slots.size ≤ bound + path.length) (hdone : Finished slots path done)
    (hnew : name ∉ done) : Finished slots path done' ∧ done ⊆ done' ∧ name ∈ done' := by
  have hkeys' : path ++ [name] ⊆ slots.keys :=
    List.append_subset.2 ⟨hkeys, by simpa using hname⟩
  induction bound generalizing path done done' name with
  | zero =>
    -- The slots in progress are distinct, so there are not more of them than slots.
    have hlen := (List.subperm_of_subset hpath hkeys').length_le
    rw [List.length_append, List.length_singleton, Table.length_keys] at hlen
    omega
  | succ bound ih =>
    have hdone' : Finished slots (path ++ [name]) done := by
      refine ⟨hdone.ordered, hdone.known, fun n hn => ?_⟩
      rcases List.mem_append.1 hn with hn | hn
      · exact hdone.apart n hn
      · rw [List.mem_singleton.1 hn]
        exact hnew
    -- Below a slot, the search goes through all on which the slot depends, while the slot itself is
    -- in progress.
    have hstep : ∀ d n d', n ∈ successors slots name → Finished slots (path ++ [name]) d →
        advance slots (path ++ [name]) (visit slots bound (path ++ [name])) d n = .ok d' →
        Finished slots (path ++ [name]) d' ∧ d ⊆ d' ∧ (n ∈ slots.keys → n ∈ d') := by
      intro d n d' _ hd
      refine advance_finishes (fun hs hn hnd hv => ?_) hd
      have hnodup : (path ++ [name] ++ [n]).Nodup := by
        rw [List.nodup_append]
        refine ⟨hpath, by simp, fun a ha b hb => ?_⟩
        rw [List.mem_singleton.1 hb]
        exact fun h => hn (h ▸ ha)
      have hlen : slots.size ≤ bound + (path ++ [name]).length := by
        rw [List.length_append, List.length_singleton]
        omega
      exact ih hv hs hnodup hkeys' hlen hd hnd
        (List.append_subset.2 ⟨hkeys', by simpa using hs⟩)
    rw [visit] at h
    split at h
    · cases h
    rename_i finished hfold
    cases h
    obtain ⟨hfin, hsub, hsucc⟩ := foldlM_finishes hstep hdone' hfold
    refine ⟨⟨⟨hfin.apart name (by simp), hsucc, hfin.ordered⟩, ?_, fun n hn => ?_⟩, ?_, by simp⟩
    · exact List.cons_subset.2 ⟨hname, hfin.known⟩
    · have hne : n ≠ name := by
        rintro rfl
        exact (List.nodup_append.1 hpath).2.2 n hn n (by simp) rfl
      rw [List.mem_cons, not_or]
      exact ⟨hne, hfin.apart n (List.mem_append_left _ hn)⟩
    · exact List.subset_cons_of_subset _ hsub

/-- If the search for a cycle meets none, every name ranks above those on which it depends. -/
theorem exists_rank_of_findCycle (h : findCycle slots = none) :
    ∃ rank : String → Nat, (∀ n, rank n ≤ slots.size) ∧
      ∀ n, ∀ m ∈ successors slots n, rank m < rank n := by
  have hstep : ∀ d n d', n ∈ slots.keys → Finished slots [] d →
      (if d.contains n then .ok d else visit slots slots.size [] d n) = .ok d' →
      Finished slots [] d' ∧ d ⊆ d' ∧ (n ∈ slots.keys → n ∈ d') := by
    intro d n d' hn hd hv
    split at hv
    · rename_i hmem
      cases hv
      exact ⟨hd, List.Subset.refl _, fun _ => by simpa using hmem⟩
    · rename_i hmem
      obtain ⟨hf, hs, hm⟩ := visit_finishes hv hn (by simp) (by simp) (by simp) hd
        (by simpa using hmem)
      exact ⟨hf, hs, fun _ => hm⟩
  unfold findCycle at h
  dsimp only at h
  split at h
  · rename_i order horder
    have hstart : Finished slots [] [] := ⟨trivial, by simp, by simp⟩
    obtain ⟨hfin, -, hall⟩ := foldlM_finishes hstep hstart horder
    refine ⟨rankIn order, fun n => ?_, fun n m hm => ?_⟩
    · rw [← Table.length_keys]
      exact Nat.le_trans (rankIn_le order n)
        (List.subperm_of_subset hfin.ordered.nodup hfin.known).length_le
    · have hn : n ∈ slots.keys := mem_keys_of_mem_successors hm
      -- Names that are no slots are not in the order; they rank below all that are.
      by_cases hms : m ∈ slots.keys
      · exact hfin.ordered.rankIn_lt (hall n hn hn) hm hms
      · rw [rankIn_of_not_mem fun h => hms (hfin.known h)]
        exact rankIn_pos (hall n hn hn)
  · cases h

end Dependency

end GatedRules
