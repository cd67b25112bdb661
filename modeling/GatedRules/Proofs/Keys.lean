import GatedRules.Proofs.Entries
import GatedRules.Proofs.Notation

/-!
# Keys of stateful calls

A stateful call keeps its state under the bytes of a JSON text, made of the kind of call, the slot
and the values by which it groups. The text determines all three, whatever stands in their strings,
so different calls have different keys (`Key.ofCall_eq_iff`), and as keys keep apart in the store,
so do the calls.
-/

namespace GatedRules

namespace Text

/-- Bytes are read back from their hexadecimal digits. -/
theorem unhex?_hex (bytes : List UInt8) : unhex? (hex bytes).toList = some bytes := by
  rw [hex, String.toList_ofList]
  induction bytes with
  | nil => rfl
  | cons b bytes ih =>
    have hlt : b.toNat < 256 := b.toNat_lt
    rw [List.flatMap_cons, List.cons_append, List.cons_append, List.nil_append, unhex?,
      hexValue?_hexDigit _ (by omega), hexValue?_hexDigit _ (by omega), ih]
    change some (UInt8.ofNat (16 * (b.toNat / 16) + b.toNat % 16) :: bytes) = _
    rw [Nat.div_add_mod, UInt8.ofNat_toNat]

theorem hex_inj {a b : List UInt8} : hex a = hex b ↔ a = b := by
  refine ⟨fun h => ?_, congrArg hex⟩
  rw [← Option.some_inj, ← unhex?_hex a, h, unhex?_hex b]

theorem utf8_inj {s t : String} : utf8 s = utf8 t ↔ s = t := by
  rw [utf8, utf8, Array.toList_inj, ← ByteArray.ext_iff]
  exact String.toByteArray_inj

end Text

namespace Key

theorem hex_inj {a b : Key} : a.hex = b.hex ↔ a = b := by
  rw [hex, hex, Text.hex_inj, mk.injEq]

/-- The key of a stateful call determines its kind, its slot and its groups. -/
theorem ofCall_inj {kind slot kind' slot' : String} {groups groups' : List Value}
    (h : ∀ v ∈ groups, v.Finite) (h' : ∀ v ∈ groups', v.Finite)
    (hkeys : ofCall kind slot groups = ofCall kind' slot' groups') :
    kind = kind' ∧ slot = slot' ∧ groups = groups' := by
  have hfinite : ∀ {kind slot : String} {groups : List Value}, (∀ v ∈ groups, v.Finite) →
      (Value.array [.string kind, .string slot, .array groups]).Finite := fun hgroups => by
    refine .array fun v hv => ?_
    simp only [List.mem_cons, List.not_mem_nil, or_false] at hv
    obtain rfl | rfl | rfl := hv
    · exact .string _
    · exact .string _
    · exact .array hgroups
  rw [ofCall, ofCall, mk.injEq, Text.utf8_inj] at hkeys
  cases Value.compact_inj (hfinite h) (hfinite h') hkeys
  exact ⟨rfl, rfl, rfl⟩

/-- **Different stateful calls have different keys.** Calls have the same key, or the same
hexadecimal digits of it, exactly when they are of the same kind, in the same slot, and grouped by
the same values, where an integer is not the same as a float. So what is asked of the store about
the key of a call leaves alone what it holds for any other one. -/
theorem ofCall_eq_iff {kind slot kind' slot' : String} {groups groups' : List Value}
    (h : ∀ v ∈ groups, v.Finite) (h' : ∀ v ∈ groups', v.Finite) :
    (ofCall kind slot groups = ofCall kind' slot' groups' ↔
      kind = kind' ∧ slot = slot' ∧ groups = groups') ∧
    ((ofCall kind slot groups).hex = (ofCall kind' slot' groups').hex ↔
      kind = kind' ∧ slot = slot' ∧ groups = groups') ∧
    (¬ (kind = kind' ∧ slot = slot' ∧ groups = groups') →
      ∀ (s : Store) (r : StoreRequest), r.IsOn (ofCall kind slot groups) →
        Store.entry? (s.perform r).2 (ofCall kind' slot' groups') =
          s.entry? (ofCall kind' slot' groups')) := by
  have heq : ofCall kind slot groups = ofCall kind' slot' groups' ↔
      kind = kind' ∧ slot = slot' ∧ groups = groups' := by
    refine ⟨ofCall_inj h h', ?_⟩
    rintro ⟨rfl, rfl, rfl⟩
    rfl
  refine ⟨heq, ?_, fun hne s r hr => Store.entry?_perform_of_not_mem fun hmem => ?_⟩
  · rw [hex_inj, heq]
  · exact hne (heq.1 (hr _ hmem).symm)

/-- Visits that are grouped by an integer are not counted with those that are grouped by a float. -/
theorem ofCall_int_ne_float :
    let visits := ofCall "count" "visits" [.array [.int 1]]
    let others := ofCall "count" "visits" [.array [.float 1]]
    visits ≠ others ∧ visits.hex ≠ others.hex ∧
      Store.entry? (Store.empty.perform (.increment visits)).2 others = none := by
  intro visits others
  have hint : ∀ v ∈ [Value.array [.int 1]], v.Finite := by
    simpa using Value.Finite.array (by simpa using .int 1)
  have hfloat : ∀ v ∈ [Value.array [.float 1]], v.Finite := by
    simpa using Value.Finite.array (by simpa using .float (x := 1) (by decide +kernel))
  have hne : ¬ ("count" = "count" ∧ "visits" = "visits" ∧
      [Value.array [.int 1]] = [.array [.float 1]]) := by
    simp
  obtain ⟨hkey, hhex, hentry⟩ :=
    @ofCall_eq_iff "count" "visits" "count" "visits" _ _ hint hfloat
  refine ⟨fun h => hne (hkey.1 h), fun h => hne (hhex.1 h), ?_⟩
  exact hentry hne Store.empty (.increment visits) fun j hj => List.mem_singleton.1 hj

end Key

end GatedRules
