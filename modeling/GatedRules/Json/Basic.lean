import GatedRules.Decimal.Binary

/-!
# JSON values

The values that rules compute, that executions take as inputs and that group stateful calls. An
integer and a float are different values even when they denote the same number. The fields of an
object are listed by key in ascending order; `ofFields` builds such an object from fields in any
order.
-/

namespace GatedRules

/-- A JSON value. -/
inductive Value
  /-- The absent value. -/
  | null
  /-- A truth value. -/
  | bool (b : Bool)
  /-- A number written without decimal point and exponent. -/
  | int (n : Int)
  /-- Any other number. -/
  | float (x : Float)
  /-- A text. -/
  | string (s : String)
  /-- A sequence of values. -/
  | array (items : List Value)
  /-- Values under keys. -/
  | object (fields : List (String × Value))

namespace Value

instance : Inhabited Value :=
  ⟨null⟩

/-- Whether a value is null. -/
def isNull : Value → Bool
  | null => true
  | _ => false

/-- The double nearest to a number. -/
def toFloat? : Value → Option Float
  | int n => some (Decimal.ofInt n)
  | float x => some x
  | _ => none

/-- Put a field into a list of fields that is sorted by key. A field of the same key is
replaced. -/
def insertField (key : String) (v : Value) : List (String × Value) → List (String × Value)
  | [] => [(key, v)]
  | (k, w) :: fields =>
    if key < k then (key, v) :: (k, w) :: fields
    else if key = k then (key, v) :: fields
    else (k, w) :: insertField key v fields

/-- The object with the given fields; the last field of a key counts. -/
def ofFields (fields : List (String × Value)) : Value :=
  object (fields.foldl (fun sorted field => insertField field.1 field.2 sorted) [])

/-- The value of a field. -/
def field? (key : String) : Value → Option Value
  | object fields => (fields.find? fun f => f.1 = key).map Prod.snd
  | _ => none

/-! ### Equality -/

mutual

/-- Whether two values are the same. -/
def same : Value → Value → Bool
  | null, null => true
  | bool a, bool b => a = b
  | int a, int b => a = b
  | float a, float b => a = b
  | string a, string b => a = b
  | array a, array b => sameItems a b
  | object a, object b => sameFields a b
  | _, _ => false

/-- Whether two sequences of values are the same. -/
def sameItems : List Value → List Value → Bool
  | [], [] => true
  | v :: vs, w :: ws => v.same w && sameItems vs ws
  | _, _ => false

/-- Whether two sequences of fields are the same. -/
def sameFields : List (String × Value) → List (String × Value) → Bool
  | [], [] => true
  | (k, v) :: vs, (l, w) :: ws => k = l && v.same w && sameFields vs ws
  | _, _ => false

end

mutual

theorem same_iff : ∀ v w : Value, v.same w = true ↔ v = w
  | null, w => by cases w <;> simp [same]
  | bool _, w => by cases w <;> simp [same]
  | int _, w => by cases w <;> simp [same]
  | float _, w => by cases w <;> simp [same]
  | string _, w => by cases w <;> simp [same]
  | array vs, w => by cases w <;> simp [same, sameItems_iff vs]
  | object vs, w => by cases w <;> simp [same, sameFields_iff vs]

theorem sameItems_iff : ∀ vs ws : List Value, sameItems vs ws = true ↔ vs = ws
  | [], ws => by cases ws <;> simp [sameItems]
  | v :: vs, ws => by cases ws <;> simp [sameItems, same_iff v, sameItems_iff vs]

theorem sameFields_iff : ∀ vs ws : List (String × Value), sameFields vs ws = true ↔ vs = ws
  | [], ws => by cases ws <;> simp [sameFields]
  | (k, v) :: vs, ws => by
    rcases ws with _ | ⟨⟨l, w⟩, ws⟩ <;>
      simp [sameFields, same_iff v, sameFields_iff vs]

end

instance : DecidableEq Value := fun v w =>
  decidable_of_iff _ (same_iff v w)

end Value

end GatedRules
