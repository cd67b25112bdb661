import GatedRules.Decimal.Read
import GatedRules.Store.Key
import GatedRules.Table

/-!
# The store

The state of stateful calls: counters, texts, lists and sets under keys. An operation on an entry of
the wrong kind fails and leaves the entries as they were. Operations that may change an entry are
logged, whether they succeed or not; the log is for inspection only.
-/

namespace GatedRules

/-- What the store holds under a key. -/
inductive Entry
  /-- A counter or an amount. -/
  | number (n : Int)
  /-- A text. -/
  | text (s : String)
  /-- Texts in order. -/
  | list (items : List String)
  /-- Distinct texts, in the order in which they came. -/
  | set (members : List String)
deriving DecidableEq, Repr

/-- The operations that are logged. -/
inductive Operation
  | takeQuota
  | increment
  | set
  | push
  | addMembers
deriving DecidableEq, Repr

/-- The name of an operation in the log. -/
def Operation.label : Operation → String
  | takeQuota => "rate_limit_fetch"
  | increment => "increment"
  | set => "set"
  | push => "list_push"
  | addMembers => "pfadd"

/-- An operation that was asked for. -/
structure Call where
  /-- The operation. -/
  operation : Operation
  /-- The key on which it works. -/
  key : Key
deriving DecidableEq, Repr

/-- A call as the log shows it. -/
def Call.text (c : Call) : String :=
  c.operation.label ++ " " ++ c.key.text

/-- Why an operation fails. -/
inductive StoreFault
  /-- A quota is taken from an entry that is no number. -/
  | quotaOfOther (key : Key)
  /-- A text that is incremented is no integer. -/
  | notInteger (key : Key)
  /-- A list or a set is incremented. -/
  | incrementOfOther (key : Key)
  /-- A list or a set is read as a text. -/
  | textOfOther (key : Key)
  /-- An entry that is no list is used as one. -/
  | notList (key : Key)
  /-- Members are added to an entry that is no set. -/
  | membersOfOther (key : Key)
deriving DecidableEq, Repr

/-- The message for a fault. -/
def StoreFault.message : StoreFault → String
  | quotaOfOther key => "WRONGTYPE rate limit on non-numeric key " ++ key.text
  | notInteger key => "value at " ++ key.text ++ " is not an integer"
  | incrementOfOther key => "WRONGTYPE increment on " ++ key.text
  | textOfOther key => "WRONGTYPE get on " ++ key.text
  | notList key => "Expected list at " ++ key.text
  | membersOfOther key => "WRONGTYPE pfadd on " ++ key.text

/-- When a text is stored. -/
inductive SetMode
  /-- In any case. -/
  | always
  /-- Only where there is no entry. -/
  | ifAbsent
  /-- Only where there is an entry. -/
  | ifPresent
deriving DecidableEq, Repr

/-- The entries of the store, and the log of operations. -/
structure Store where
  /-- What is held under the keys. -/
  entries : Table Key Entry
  /-- The operations asked for, in order. -/
  calls : List Call

namespace Store

/-- The store without entries. -/
def empty : Store :=
  ⟨.empty, []⟩

/-- The number of keys. -/
def size (s : Store) : Nat :=
  s.entries.size

/-- The entry under a key. -/
def entry? (s : Store) (key : Key) : Option Entry :=
  s.entries.get? key

/-- Log an operation. -/
def log (s : Store) (operation : Operation) (key : Key) : Store :=
  { s with calls := s.calls ++ [⟨operation, key⟩] }

/-- Hold an entry under a key. -/
def put (s : Store) (key : Key) (entry : Entry) : Store :=
  { s with entries := s.entries.insert key entry }

/-- The bounds of the integers that a text may write. -/
def integerBound : Int :=
  0x8000000000000000

/-- The integer that a text writes. -/
def integer? (s : String) : Option Int :=
  (Decimal.readInt? s.toList).filter fun n => -integerBound ≤ n && n < integerBound

/-- Texts without those that came before. -/
def union (members : List String) : List String → List String
  | [] => members
  | m :: ms => union (if members.contains m then members else members ++ [m]) ms

/-! ### Operations -/

/-- The amount that is available under a key, of which some is then taken. An amount that was never
asked for is `quota` at first, and no amount falls below zero. -/
def takeQuota (s : Store) (key : Key) (quota taken : Int) : Except StoreFault Int × Store :=
  let s := s.log .takeQuota key
  match (s.entry? key).getD (.number quota) with
  | .number available => (.ok available, s.put key (.number (max (available - taken) 0)))
  | _ => (.error (.quotaOfOther key), s)

/-- Count one more under a key. -/
def increment (s : Store) (key : Key) : Except StoreFault Int × Store :=
  let s := s.log .increment key
  match (s.entry? key).getD (.number 0) with
  | .number n => (.ok (n + 1), s.put key (.number (n + 1)))
  | .text t =>
    match integer? t with
    | some n => (.ok (n + 1), s.put key (.number (n + 1)))
    | none => (.error (.notInteger key), s)
  | _ => (.error (.incrementOfOther key), s)

/-- The text under a key. -/
def text? (s : Store) (key : Key) : Except StoreFault (Option String) :=
  match s.entry? key with
  | none => .ok none
  | some (.number n) => .ok (some (toString n))
  | some (.text t) => .ok (some t)
  | some _ => .error (.textOfOther key)

/-- Forget keys; the answer is how many of them were present. -/
def erase (s : Store) : List Key → Nat × Store
  | [] => (0, s)
  | key :: keys =>
    let (count, rest) := erase { s with entries := s.entries.erase key } keys
    (if (s.entry? key).isSome then count + 1 else count, rest)

/-- Store a text under a key; the answer is whether it was stored. -/
def set (s : Store) (key : Key) (value : String) (mode : SetMode) : Bool × Store :=
  let s := s.log .set key
  let allowed :=
    match mode with
    | .always => true
    | .ifAbsent => (s.entry? key).isNone
    | .ifPresent => (s.entry? key).isSome
  if allowed then (true, s.put key (.text value)) else (false, s)

/-- The number under a key, if there is one. -/
def number? (s : Store) (key : Key) : Option Int :=
  match s.entry? key with
  | some (.number n) => some n
  | some (.text t) => integer? t
  | _ => none

/-- The list under a key. -/
def items (s : Store) (key : Key) : Except StoreFault (List String) :=
  match s.entry? key with
  | none => .ok []
  | some (.list items) => .ok items
  | some _ => .error (.notList key)

/-- Put texts at the end of the list under a key. -/
def push (s : Store) (key : Key) (values : List String) : Except StoreFault Unit × Store :=
  let s := s.log .push key
  match (s.entry? key).getD (.list []) with
  | .list items => (.ok (), s.put key (.list (items ++ values)))
  | _ => (.error (.notList key), s)

/-- Put texts into the set under a key. -/
def addMembers (s : Store) (key : Key) (values : List String) : Except StoreFault Unit × Store :=
  let s := s.log .addMembers key
  match (s.entry? key).getD (.set []) with
  | .set members => (.ok (), s.put key (.set (union members values)))
  | _ => (.error (.membersOfOther key), s)

/-- The members of the set under a key. An entry of another kind has none. -/
def members (s : Store) (key : Key) : List String :=
  match s.entry? key with
  | some (.set members) => members
  | _ => []

/-- The number of distinct members of the sets under keys. -/
def countMembers (s : Store) (keys : List Key) : Nat :=
  (union [] (keys.flatMap s.members)).length

end Store

end GatedRules
