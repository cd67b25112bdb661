import GatedRules.Json.Printer
import GatedRules.Text.Bytes

/-!
# Keys of the store

A stateful call keeps its state under a key made of the kind of call, the slot that holds it, and
the values by which it groups. The key is the text of these as one JSON array, so different calls
have different keys.
-/

namespace GatedRules

/-- A key of the store: a sequence of bytes. -/
structure Key where
  /-- The bytes of the key. -/
  bytes : List UInt8
deriving DecidableEq, Repr

namespace Key

/-- The key of the stateful call `kind` in a slot, grouped by values. -/
def ofCall (kind slot : String) (groups : List Value) : Key :=
  ⟨Text.utf8 (Value.array [.string kind, .string slot, .array groups]).compact⟩

/-- The bytes in hexadecimal digits. -/
def hex (k : Key) : String :=
  Text.hex k.bytes

/-- The key as text. -/
def text (k : Key) : String :=
  String.ofList (Text.decodeLossy k.bytes)

/-- Whether a key comes no later than another one in the order of their bytes. -/
def le (a b : Key) : Bool :=
  a.bytes ≤ b.bytes

end Key

end GatedRules
