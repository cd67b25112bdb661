/-!
# Bytes and text

Two ways to write a sequence of bytes as text. `hex` writes every byte as two hexadecimal digits
and is injective. `decodeLossy` reads the bytes as UTF-8 and puts the replacement character
`U+FFFD` for each maximal ill-formed part, so that it gives an answer for every sequence.
-/

namespace GatedRules

namespace Text

/-- The lower-case hexadecimal digit of a number below sixteen. -/
def hexDigit (n : Nat) : Char :=
  if n < 10 then Char.ofNat (n + 48) else Char.ofNat (n + 87)

/-- The value of a hexadecimal digit of either case. -/
def hexValue? (c : Char) : Option Nat :=
  if c.isDigit then some (c.toNat - 48)
  else if 'a' ≤ c && c ≤ 'f' then some (c.toNat - 87)
  else if 'A' ≤ c && c ≤ 'F' then some (c.toNat - 55)
  else none

/-- Two hexadecimal digits for each byte. -/
def hex (bytes : List UInt8) : String :=
  String.ofList (bytes.flatMap fun b => [hexDigit (b.toNat / 16), hexDigit (b.toNat % 16)])

/-- The bytes that a text of hexadecimal digits writes. -/
def unhex? : List Char → Option (List UInt8)
  | [] => some []
  | [_] => none
  | a :: b :: cs => do
    let high ← hexValue? a
    let low ← hexValue? b
    let rest ← unhex? cs
    return UInt8.ofNat (16 * high + low) :: rest

/-- The bytes of a text in UTF-8. -/
def utf8 (s : String) : List UInt8 :=
  s.toUTF8.data.toList

/-- What the first byte of a scalar value promises: its own bits, and for each byte to follow the
range from which it must come. -/
structure Lead where
  /-- The bits of the scalar value that the first byte holds. -/
  bits : Nat
  /-- The least and the greatest value of every byte that must follow. -/
  ranges : List (Nat × Nat)

/-- The promise of a first byte. None is made by a byte that cannot start a scalar value. -/
def lead? (b : Nat) : Option Lead :=
  let any := (0x80, 0xbf)
  if b < 0x80 then some ⟨b, []⟩
  else if b < 0xc2 then none
  else if b < 0xe0 then some ⟨b % 0x20, [any]⟩
  else if b = 0xe0 then some ⟨0, [(0xa0, 0xbf), any]⟩
  else if b = 0xed then some ⟨0xd, [(0x80, 0x9f), any]⟩
  else if b < 0xf0 then some ⟨b % 0x10, [any, any]⟩
  else if b = 0xf0 then some ⟨0, [(0x90, 0xbf), any, any]⟩
  else if b < 0xf4 then some ⟨b % 8, [any, any, any]⟩
  else if b = 0xf4 then some ⟨4, [(0x80, 0x8f), any, any]⟩
  else none

/-- Read the bytes that must follow. The scalar value is absent when one of them is missing or
out of range; the bytes from there on remain. -/
def follow : List (Nat × Nat) → Nat → List UInt8 → Option Nat × List UInt8
  | [], bits, bs => (some bits, bs)
  | _ :: _, _, [] => (none, [])
  | (low, high) :: ranges, bits, b :: bs =>
    if low ≤ b.toNat && b.toNat ≤ high then follow ranges (64 * bits + b.toNat % 64) bs
    else (none, b :: bs)

theorem length_follow_le (ranges : List (Nat × Nat)) (bits : Nat) (bs : List UInt8) :
    (follow ranges bits bs).2.length ≤ bs.length := by
  fun_induction follow ranges bits bs with
  | case1 => exact Nat.le_refl _
  | case2 => exact Nat.le_refl _
  | case3 low high ranges bits b bs _ ih => exact Nat.le_succ_of_le ih
  | case4 => exact Nat.le_refl _

/-- The replacement character. -/
def replacement : Char :=
  '\uFFFD'

/-- Read bytes as UTF-8, with the replacement character for each maximal ill-formed part. -/
def decodeLossy : List UInt8 → List Char
  | [] => []
  | b :: bs =>
    match lead? b.toNat with
    | none => replacement :: decodeLossy bs
    | some lead =>
      let next := follow lead.ranges lead.bits bs
      (next.1.map Char.ofNat).getD replacement :: decodeLossy next.2
termination_by bs => bs.length
decreasing_by
  · simp
  · exact Nat.lt_succ_of_le (length_follow_le ..)

end Text

end GatedRules
