import GatedRules.Table

/-!
# Tables in shards

`Shards α β` is a finite map that is spread over sixteen tables, its shards. Which shard holds a key
is settled by an assignment that never changes, so a key is looked for in one shard only, and no key
is in two of them. Through `get?` the map looks like one table whatever the assignment is, and
`size` counts its keys.
-/

namespace GatedRules

universe u v

/-- A finite map from `α` to `β` in sixteen tables. -/
structure Shards (α : Type u) (β : Type v) where
  /-- The shard of a key. -/
  assign : α → Fin 16
  /-- The shards. -/
  tables : Vector (Table α β) 16
  /-- A key is in its own shard. -/
  placed : ∀ (i : Fin 16) (k : α), k ∈ (tables.get i).keys → assign k = i

namespace Shards

variable {α : Type u} {β : Type v}

private theorem get_replicate (t : Table α β) (i : Fin 16) : (Vector.replicate 16 t).get i = t :=
  Vector.getElem_replicate i.isLt

private theorem get_set (tables : Vector (Table α β) 16) (i j : Fin 16) (t : Table α β) :
    (tables.set i t).get j = if j = i then t else tables.get j := by
  refine (Vector.getElem_set i.isLt j.isLt).trans ?_
  simp only [Fin.val_inj, eq_comm]
  rfl

/-- The map without keys, where shards are assigned in a given way. -/
def empty (assign : α → Fin 16) : Shards α β :=
  ⟨assign, Vector.replicate 16 .empty, fun i k h => by
    rw [get_replicate] at h
    cases h⟩

/-- The keys, shard by shard. -/
def keys (s : Shards α β) : List α :=
  s.tables.toList.flatMap Table.keys

/-- The values, in the order of their keys. -/
def values (s : Shards α β) : List β :=
  s.tables.toList.flatMap Table.values

/-- The number of keys, shard by shard. -/
def size (s : Shards α β) : Nat :=
  (s.tables.toList.map Table.size).foldr (· + ·) 0

/-- The shard of a key. -/
def shard (s : Shards α β) (k : α) : Table α β :=
  s.tables.get (s.assign k)

/-- Change the shard of a key to a table that has no new keys but this. -/
def change (s : Shards α β) (k : α) (t : Table α β)
    (h : ∀ l ∈ t.keys, l = k ∨ l ∈ (s.shard k).keys) : Shards α β :=
  ⟨s.assign, s.tables.set (s.assign k) t, fun i l hl => by
    rw [get_set] at hl
    split at hl
    · rename_i hi
      rcases h l hl with rfl | hl
      · exact hi.symm
      · exact (s.placed _ l hl).trans hi.symm
    · exact s.placed i l hl⟩

/-- A shard is changed for all of its keys, and the other shards are not. -/
theorem shard_change (s : Shards α β) {k : α} {t : Table α β}
    (h : ∀ l ∈ t.keys, l = k ∨ l ∈ (s.shard k).keys) (l : α) :
    (s.change k t h).shard l = if s.assign l = s.assign k then t else s.shard l :=
  get_set _ _ _ t

/-- No key is listed twice. -/
theorem nodup_keys (s : Shards α β) : s.keys.Nodup := by
  refine List.pairwise_flatMap.2 ⟨fun t _ => t.nodup_keys, List.pairwise_iff_getElem.2 ?_⟩
  rintro i j hi hj hij k hk _ hk' rfl
  rw [Vector.getElem_toList] at hk hk'
  rw [Vector.length_toList] at hi hj
  have hplaced := (s.placed ⟨i, hi⟩ k hk).symm.trans (s.placed ⟨j, hj⟩ k hk')
  exact absurd (congrArg Fin.val hplaced) (Nat.ne_of_lt hij)

theorem length_keys (s : Shards α β) : s.keys.length = s.size := by
  rw [keys, size]
  induction s.tables.toList with
  | nil => rfl
  | cons t ts ih =>
    rw [List.flatMap_cons, List.length_append, ih, Table.length_keys]
    rfl

variable [DecidableEq α]

/-- The value held for `k`. -/
def get? (s : Shards α β) (k : α) : Option β :=
  (s.shard k).get? k

/-- Hold `v` for `k`. -/
def insert (s : Shards α β) (k : α) (v : β) : Shards α β :=
  s.change k ((s.shard k).insert k v) fun _ hl => Table.mem_keys_insert.1 hl

/-- Forget `k`. -/
def erase (s : Shards α β) (k : α) : Shards α β :=
  s.change k ((s.shard k).erase k) fun _ hl => .inr (Table.mem_keys_erase.1 hl).1

/-! ### The view through `get?` -/

@[simp]
theorem get?_empty (assign : α → Fin 16) (k : α) : (empty assign : Shards α β).get? k = none := by
  rw [get?, shard, empty, get_replicate, Table.get?_empty]

theorem get?_insert (s : Shards α β) (k l : α) (v : β) :
    (s.insert k v).get? l = if l = k then some v else s.get? l := by
  rw [get?, insert, shard_change]
  split
  · rename_i hl
    rw [Table.get?_insert, get?, shard, shard, hl]
  · rename_i hl
    rw [if_neg fun heq : l = k => hl (heq ▸ rfl), get?]

theorem get?_erase (s : Shards α β) (k l : α) :
    (s.erase k).get? l = if l = k then none else s.get? l := by
  rw [get?, erase, shard_change]
  split
  · rename_i hl
    split
    · rename_i heq
      rw [heq, Table.get?_erase_self]
    · rename_i hne
      rw [Table.get?_erase_of_ne _ hne, get?, shard, shard, hl]
  · rename_i hl
    rw [if_neg fun heq : l = k => hl (heq ▸ rfl), get?]

theorem mem_keys_iff {s : Shards α β} {k : α} : k ∈ s.keys ↔ (s.get? k).isSome = true := by
  rw [get?, Table.isSome_get?_iff, keys, List.mem_flatMap]
  constructor
  · rintro ⟨t, ht, hk⟩
    obtain ⟨i, hi, rfl⟩ := Vector.mem_iff_getElem.1 (Vector.mem_toList_iff.1 ht)
    rw [shard, s.placed ⟨i, hi⟩ k hk]
    exact hk
  · exact fun hk => ⟨_, Vector.mem_toList_iff.2 (Vector.getElem_mem _), hk⟩

end Shards

end GatedRules
