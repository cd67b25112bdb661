/-!
# Tables in insertion order

A `Table` is a finite map whose keys are listed in the order of their first insertion. The list
of entries is the representation, and its keys are distinct by construction, so the position of a
key is well defined: it is the key's rank among all insertions.

The lemmas describe every operation through the view `get?` and, where order matters, through
`keys`. Nothing outside this module needs to look at the entries of a table that an operation
returns.
-/

namespace GatedRules

universe u v

/-- A finite map from `α` to `β` that lists its keys in the order of their first insertion. -/
structure Table (α : Type u) (β : Type v) where
  /-- The keys with their values, oldest key first. -/
  entries : List (α × β)
  /-- No key is listed twice. -/
  nodup_keys : (entries.map Prod.fst).Nodup

namespace Table

variable {α : Type u} {β : Type v}

/-- The keys, oldest first. -/
def keys (t : Table α β) : List α :=
  t.entries.map Prod.fst

/-- The values, in the order of their keys. -/
def values (t : Table α β) : List β :=
  t.entries.map Prod.snd

/-- The number of keys. -/
def size (t : Table α β) : Nat :=
  t.entries.length

/-- Whether the table has no key. -/
def isEmpty (t : Table α β) : Bool :=
  t.entries.isEmpty

/-- The table without keys. -/
def empty : Table α β :=
  ⟨[], List.nodup_nil⟩

instance : Inhabited (Table α β) :=
  ⟨empty⟩

/-- Tables with the same entries are equal. -/
@[ext]
theorem ext {s t : Table α β} (h : s.entries = t.entries) : s = t := by
  cases s
  cases t
  cases h
  rfl

@[simp]
theorem length_keys (t : Table α β) : t.keys.length = t.size := by
  simp [keys, size]

variable [DecidableEq α]

/-- The value held for `k`. -/
def get? (t : Table α β) (k : α) : Option β :=
  (t.entries.find? fun e => e.1 = k).map Prod.snd

/-- Whether `k` is a key. -/
def contains (t : Table α β) (k : α) : Bool :=
  t.keys.contains k

/-- The position of `k` among the keys, counted from zero. -/
def rank? (t : Table α β) (k : α) : Option Nat :=
  t.keys.idxOf? k

private theorem keys_replace (k : α) (v : β) (l : List (α × β)) :
    (l.map fun e => if e.1 = k then (k, v) else e).map Prod.fst = l.map Prod.fst := by
  induction l with
  | nil => rfl
  | cons e l ih =>
    by_cases h : e.1 = k
    · simp only [List.map_cons, h, ih, ite_true]
    · simp only [List.map_cons, h, ih, ite_false]

/-- Hold `v` for `k`. A key that is present keeps its position; a new one comes last. -/
def insert (t : Table α β) (k : α) (v : β) : Table α β :=
  if h : k ∈ t.keys then
    ⟨t.entries.map fun e => if e.1 = k then (k, v) else e, by
      rw [keys_replace]; exact t.nodup_keys⟩
  else
    ⟨t.entries ++ [(k, v)], by
      rw [List.map_append, List.nodup_append]
      refine ⟨t.nodup_keys, by simp, ?_⟩
      intro a ha b hb hab
      simp only [List.map_cons, List.map_nil, List.mem_singleton] at hb
      exact h (by rw [← hb, ← hab]; exact ha)⟩

/-- Forget `k`. -/
def erase (t : Table α β) (k : α) : Table α β :=
  ⟨t.entries.filter fun e => e.1 ≠ k, t.nodup_keys.sublist ((List.filter_sublist).map _)⟩

/-- The table of the pairs of a list; the last pair of a key counts. -/
def ofList (l : List (α × β)) : Table α β :=
  l.foldl (fun t e => t.insert e.1 e.2) empty

/-! ### The view through `get?` -/

@[simp]
theorem get?_empty (k : α) : (empty : Table α β).get? k = none :=
  rfl

theorem contains_iff_mem_keys {t : Table α β} {k : α} : t.contains k = true ↔ k ∈ t.keys := by
  simp [contains]

theorem get?_eq_none_iff {t : Table α β} {k : α} : t.get? k = none ↔ k ∉ t.keys := by
  simp only [get?, keys, Option.map_eq_none_iff, List.find?_eq_none, decide_eq_true_eq,
    List.mem_map, not_exists, not_and]

theorem isSome_get?_iff {t : Table α β} {k : α} : (t.get? k).isSome = true ↔ k ∈ t.keys := by
  rw [Option.isSome_iff_ne_none, Ne, get?_eq_none_iff, Classical.not_not]

private theorem find?_eq_of_mem {l : List (α × β)} (hl : (l.map Prod.fst).Nodup) {k : α} {v : β}
    (h : (k, v) ∈ l) : (l.find? fun e => e.1 = k) = some (k, v) := by
  induction l with
  | nil => cases h
  | cons e l ih =>
    rw [List.map_cons, List.nodup_cons] at hl
    rcases List.mem_cons.1 h with rfl | h'
    · simp
    · have hne : e.1 ≠ k := by
        intro he
        exact hl.1 (he ▸ List.mem_map_of_mem h')
      rw [List.find?_cons_of_neg (by simpa using hne)]
      exact ih hl.2 h'

/-- A table holds `v` for `k` exactly when it lists the pair. -/
theorem get?_eq_some_iff {t : Table α β} {k : α} {v : β} :
    t.get? k = some v ↔ (k, v) ∈ t.entries := by
  constructor
  · intro h
    obtain ⟨e, he, rfl⟩ := Option.map_eq_some_iff.1 h
    have hk : e.1 = k := by simpa using List.find?_some he
    exact hk ▸ List.mem_of_find?_eq_some he
  · intro h
    simp [get?, find?_eq_of_mem t.nodup_keys h]

@[simp]
theorem get?_insert_self (t : Table α β) (k : α) (v : β) : (t.insert k v).get? k = some v := by
  rw [get?_eq_some_iff]
  unfold insert
  split
  · rename_i h
    obtain ⟨e, he, hk⟩ := List.mem_map.1 h
    exact List.mem_map.2 ⟨e, he, by simp [hk]⟩
  · simp

theorem get?_insert_of_ne (t : Table α β) {k l : α} (v : β) (h : l ≠ k) :
    (t.insert k v).get? l = t.get? l := by
  apply Option.ext
  intro w
  rw [get?_eq_some_iff, get?_eq_some_iff]
  unfold insert
  split
  · constructor
    · intro hm
      obtain ⟨e, he, heq⟩ := List.mem_map.1 hm
      by_cases hk : e.1 = k
      · rw [if_pos hk] at heq
        exact absurd (congrArg Prod.fst heq).symm h
      · rw [if_neg hk] at heq
        exact heq ▸ he
    · intro hm
      exact List.mem_map.2 ⟨_, hm, if_neg h⟩
  · simp [h]

theorem get?_insert (t : Table α β) (k l : α) (v : β) :
    (t.insert k v).get? l = if l = k then some v else t.get? l := by
  by_cases h : l = k
  · rw [if_pos h, h, get?_insert_self]
  · rw [if_neg h, get?_insert_of_ne t v h]

@[simp]
theorem get?_erase_self (t : Table α β) (k : α) : (t.erase k).get? k = none := by
  rw [get?_eq_none_iff]
  simp [erase, keys]

theorem get?_erase_of_ne (t : Table α β) {k l : α} (h : l ≠ k) :
    (t.erase k).get? l = t.get? l := by
  apply Option.ext
  intro w
  rw [get?_eq_some_iff, get?_eq_some_iff]
  simp [erase, h]

theorem mem_keys_erase {t : Table α β} {k l : α} : l ∈ (t.erase k).keys ↔ l ∈ t.keys ∧ l ≠ k := by
  simp only [keys, erase, List.mem_map, List.mem_filter, decide_eq_true_eq]
  constructor
  · rintro ⟨e, ⟨he, hk⟩, rfl⟩
    exact ⟨⟨e, he, rfl⟩, hk⟩
  · rintro ⟨⟨e, he, rfl⟩, hk⟩
    exact ⟨e, ⟨he, hk⟩, rfl⟩

/-- Putting back what is held changes nothing. -/
theorem insert_eq_self {t : Table α β} {k : α} {v : β} (h : t.get? k = some v) :
    t.insert k v = t := by
  have hk : k ∈ t.keys := isSome_get?_iff.1 (by rw [h]; rfl)
  refine ext ?_
  rw [insert, dif_pos hk]
  refine (List.map_congr_left fun e he => ?_).trans (List.map_id t.entries)
  dsimp only [id]
  split
  · rename_i hkey
    have he : t.get? k = some e.2 := get?_eq_some_iff.2 (hkey ▸ he)
    rw [h] at he
    rw [Option.some.inj he, ← hkey]
  · rfl

/-! ### Order -/

theorem keys_insert_of_mem {t : Table α β} {k : α} (v : β) (h : k ∈ t.keys) :
    (t.insert k v).keys = t.keys := by
  unfold insert
  rw [dif_pos h]
  exact keys_replace k v t.entries

theorem keys_insert_of_not_mem {t : Table α β} {k : α} (v : β) (h : k ∉ t.keys) :
    (t.insert k v).keys = t.keys ++ [k] := by
  unfold insert
  rw [dif_neg h]
  simp [keys]

theorem mem_keys_insert {t : Table α β} {k l : α} {v : β} :
    l ∈ (t.insert k v).keys ↔ l = k ∨ l ∈ t.keys := by
  by_cases h : k ∈ t.keys
  · rw [keys_insert_of_mem v h]
    exact ⟨Or.inr, fun hl => hl.elim (fun e => e ▸ h) id⟩
  · rw [keys_insert_of_not_mem v h]
    simp [or_comm]

theorem entries_insert_of_mem {t : Table α β} {k : α} (v : β) (h : k ∈ t.keys) :
    (t.insert k v).entries = t.entries.map fun e => if e.1 = k then (k, v) else e := by
  rw [insert, dif_pos h]

theorem entries_insert_of_not_mem {t : Table α β} {k : α} (v : β) (h : k ∉ t.keys) :
    (t.insert k v).entries = t.entries ++ [(k, v)] := by
  rw [insert, dif_neg h]

/-- What is put last under a key counts. -/
theorem insert_insert (t : Table α β) (k : α) (v w : β) :
    (t.insert k v).insert k w = t.insert k w := by
  refine ext ?_
  rw [entries_insert_of_mem w (mem_keys_insert.2 (.inl rfl))]
  by_cases h : k ∈ t.keys
  · rw [entries_insert_of_mem v h, entries_insert_of_mem w h, List.map_map]
    refine List.map_congr_left fun e _ => ?_
    by_cases he : e.1 = k <;> simp [he]
  · have hne : ∀ e ∈ t.entries, e.1 ≠ k := fun e he hek => h (hek ▸ List.mem_map_of_mem he)
    have hself : (t.entries.map fun e => if e.1 = k then (k, w) else e) = t.entries :=
      (List.map_congr_left fun e he => if_neg (hne e he)).trans (List.map_id t.entries)
    rw [entries_insert_of_not_mem v h, entries_insert_of_not_mem w h, List.map_append, hself]
    simp

end Table

end GatedRules
