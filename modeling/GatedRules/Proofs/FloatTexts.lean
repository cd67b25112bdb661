import GatedRules.Json.Printer
import GatedRules.Json.Reader
import GatedRules.Proofs.Decimals

/-!
# Numbers have distinct texts

In JSON text a finite float is written with a decimal point, a power of ten, or both, after a minus
sign if it has one (`Decimal.spellsFloat_unsigned`), and what is written is a decimal that rounds to
the float. So the text determines the bits of the float (`Json.floatChars_inj`): a decimal rounds to
one double only (`Decimal.Rounds.bits_eq`). An integer is written with neither, so its text is that
of no float (`Json.intChars_ne_floatChars`).
-/

namespace GatedRules

namespace Decimal

/-! ### One decimal, one double -/

/-- A number rounds to one double only. -/
theorem Rounds.bits_eq {m n : Nat} {e f : Int} {v : Rat} (hc : Canonical m e) (hc' : Canonical n f)
    (hm : 0 < m) (hn : 0 < n) (h : Rounds m e v) (h' : Rounds n f v) : bitsOf m e = bitsOf n f := by
  have hv : v = v.num.toNat / v.den := by
    have hnum : ((v.num.toNat : Int) : Rat) = v.num :=
      congrArg _ (Int.toNat_of_nonneg (Rat.num_nonneg.2 (h.pos hm).le))
    rw [Int.cast_natCast] at hnum
    rw [hnum, Rat.num_div_den]
  rw [hv] at h h'
  rw [← nearestBits_of_rounds hc hm v.den_pos h, nearestBits_of_rounds hc' hn v.den_pos h']

/-! ### Texts with a decimal point or a power of ten -/

/-- The digits after the decimal point with the point, if there are any. -/
def pointChars : List Char → List Char
  | [] => []
  | d :: ds => '.' :: d :: ds

/-- The text of a power of ten, if there is one. -/
def powerChars : Option Int → List Char
  | none => []
  | some power => 'e' :: (if power < 0 then '-' else '+') :: digitChars power.natAbs

/-- A text has a decimal point, a power of ten, or both, and spells a number. -/
def SpellsFloat (cs : List Char) (v : Rat) : Prop :=
  ∃ (whole fraction : List Char) (power : Option Int), whole ≠ [] ∧
    (∀ c ∈ whole ++ fraction, c.isDigit = true) ∧ (fraction ≠ [] ∨ power.isSome = true) ∧
    cs = whole ++ pointChars fraction ++ powerChars power ∧
    (digitsValue (whole ++ fraction) : Rat) * 10 ^ (power.getD 0 - fraction.length) = v

theorem pointChars_of_ne_nil {fraction : List Char} (h : fraction ≠ []) :
    pointChars fraction = '.' :: fraction := by
  cases fraction with
  | nil => exact absurd rfl h
  | cons d ds => rfl

theorem power?_powerChars (power : Option Int) :
    power? (powerChars power) = some (power.getD 0) := by
  cases power with
  | none => rfl
  | some power =>
    have hdigits : (digitChars power.natAbs).all Char.isDigit = true :=
      List.all_eq_true.2 isDigit_of_mem_digitChars
    have hne : (digitChars power.natAbs).isEmpty = false :=
      List.isEmpty_eq_false_iff.2 digitChars_ne_nil
    rw [powerChars, power?, if_pos (.inl rfl), Option.getD_some]
    by_cases hneg : power < 0
    · rw [if_pos hneg]
      simp only [sign, hdigits, hne, digitsValue_digitChars]
      change some (-(power.natAbs : Int)) = some power
      rw [Int.ofNat_natAbs_of_nonpos hneg.le, neg_neg]
    · rw [if_neg hneg]
      simp only [sign, hdigits, hne, digitsValue_digitChars]
      change some (power.natAbs : Int) = some power
      rw [Int.natAbs_of_nonneg (not_lt.1 hneg)]

theorem head?_powerChars {power : Option Int} : ∀ c ∈ (powerChars power).head?, c = 'e' := by
  cases power with
  | none => simp [powerChars]
  | some power => simp [powerChars]

/-- What a text spells can be read from it. -/
theorem SpellsFloat.read {cs : List Char} {v : Rat} (h : SpellsFloat cs v) :
    ∃ w, written? false cs = some w ∧
      (digitsValue (w.whole ++ w.fraction) : Rat) * 10 ^ (w.power - w.fraction.length) = v := by
  obtain ⟨whole, fraction, power, hne, hdigits, -, rfl, hv⟩ := h
  refine ⟨⟨false, whole, fraction, power.getD 0⟩, ?_, hv⟩
  have hwhole : ∀ c ∈ whole, c.isDigit = true := fun c hc => hdigits c (List.mem_append_left _ hc)
  have hfraction : ∀ c ∈ fraction, c.isDigit = true :=
    fun c hc => hdigits c (List.mem_append_right _ hc)
  -- each part ends where the next one starts, which is not with a digit
  have hpower : ∀ c ∈ (powerChars power).head?, c.isDigit = false := by
    intro c hc
    obtain rfl := head?_powerChars c hc
    rfl
  have hrest : ∀ c ∈ (pointChars fraction ++ powerChars power).head?, c.isDigit = false := by
    cases fraction with
    | nil => exact hpower
    | cons d ds =>
      rintro c ⟨⟩
      rfl
  have hsplit : fractionOf (pointChars fraction ++ powerChars power) =
      (fraction, powerChars power) := by
    cases fraction with
    | nil =>
      cases power <;> rfl
    | cons d ds =>
      rw [pointChars, List.cons_append, fractionOf, takeWhile_append hfraction hpower,
        dropWhile_append hfraction hpower]
  have hempty : (whole.isEmpty && fraction.isEmpty) = false := by
    rw [List.isEmpty_eq_false_iff.2 hne, Bool.false_and]
  unfold written?
  rw [List.append_assoc, takeWhile_append hwhole hrest, dropWhile_append hwhole hrest, hsplit]
  dsimp only
  rw [hempty, if_neg Bool.false_ne_true, power?_powerChars]
  rfl

theorem SpellsFloat.unique {cs : List Char} {v v' : Rat} (h : SpellsFloat cs v)
    (h' : SpellsFloat cs v') : v = v' := by
  obtain ⟨w, hw, rfl⟩ := h.read
  obtain ⟨w', hw', rfl⟩ := h'.read
  cases hw.symm.trans hw'
  rfl

/-- A number that is written out in full, with a zero after the point if it is whole. -/
theorem spellsFloat_positional {ds : List Char} (hne : ds ≠ []) (h : ∀ c ∈ ds, c.isDigit = true)
    (exponent : Int) :
    SpellsFloat (positional ['.', '0'] ds exponent) (digitsValue ds * 10 ^ exponent) := by
  by_cases hexponent : 0 ≤ exponent
  · obtain ⟨k, rfl⟩ := Int.eq_ofNat_of_zero_le hexponent
    rw [positional, if_pos hexponent, Int.toNat_natCast]
    have hdigits : ∀ c ∈ ds ++ List.replicate k '0' ++ ['0'], c.isDigit = true := by
      simp only [List.mem_append, List.mem_singleton]
      rintro c ((hc | hc) | rfl)
      · exact h c hc
      · exact isDigit_of_mem_zeros hc
      · rfl
    refine ⟨ds ++ List.replicate k '0', ['0'], none, by simp [hne], hdigits, .inl (by simp),
      by simp [pointChars, powerChars], ?_⟩
    rw [List.append_assoc, ← List.replicate_succ', digitsValue_append_zeros]
    push_cast
    rw [Option.getD_none, pow_succ, zero_sub, zpow_natCast, List.length_singleton, Nat.cast_one,
      zpow_neg_one]
    ring
  · obtain ⟨whole, fraction, hwhole, hfraction, hdigits, hcs, hv⟩ :=
      positional_of_neg hne h (not_le.1 hexponent) ['.', '0']
    refine ⟨whole, fraction, none, hwhole, hdigits, .inl hfraction, ?_, ?_⟩
    · rw [hcs, pointChars_of_ne_nil hfraction, powerChars, List.append_nil]
    · rw [← hv, Option.getD_none, zero_sub]

/-- A number that is written with a power of ten. -/
theorem spellsFloat_scientific {ds : List Char} (hne : ds ≠ []) (h : ∀ c ∈ ds, c.isDigit = true)
    (exponent : Int) :
    SpellsFloat (scientific ds (exponent + ds.length)) (digitsValue ds * 10 ^ exponent) := by
  obtain ⟨d, rest, rfl⟩ := List.exists_cons_of_ne_nil hne
  have hpoint : (if (d :: rest).length = 1 then [] else '.' :: (d :: rest).drop 1) =
      pointChars rest := by
    cases rest <;> rfl
  refine ⟨[d], rest, some (exponent + (d :: rest).length - 1), List.cons_ne_nil _ _, h, .inr rfl,
    ?_, ?_⟩
  · rw [scientific, hpoint]
    rfl
  · rw [List.singleton_append, Option.getD_some, List.length_cons]
    congr 2
    push_cast
    ring

/-- The text of a float without its sign. -/
theorem spellsFloat_unsigned (m : Nat) (e : Int) :
    ∃ v, SpellsFloat (jsonLayout.unsigned m e) v ∧ (m = 0 → v = 0) ∧ (0 < m → Rounds m e v) := by
  unfold Layout.unsigned
  split
  · rename_i hm
    have hzero : SpellsFloat ['0', '.', '0'] 0 := by
      refine ⟨['0'], ['0'], none, List.cons_ne_nil _ _, by simp, .inl (List.cons_ne_nil _ _), rfl,
        ?_⟩
      simp [digitsValue]
    exact ⟨0, hzero, fun _ => rfl, fun hpos => absurd hm hpos.ne'⟩
  · rename_i hm
    generalize hd : shortest jsonLayout.tie m e = d
    refine ⟨d.value, ?_, fun h => absurd h hm, fun h => hd ▸ rounds_shortest _ h⟩
    have hvalue : d.value = digitsValue (digitChars d.digits) * 10 ^ d.exponent := by
      rw [digitsValue_digitChars, Scaled.value]
    rw [hvalue]
    dsimp only
    split
    · exact spellsFloat_positional digitChars_ne_nil isDigit_of_mem_digitChars d.exponent
    · exact spellsFloat_scientific digitChars_ne_nil isDigit_of_mem_digitChars d.exponent

/-- The text of a float determines its bits, the sign apart. -/
theorem bits_eq_of_unsigned {m n : Nat} {e f : Int} (hc : Canonical m e) (hc' : Canonical n f)
    (h : jsonLayout.unsigned m e = jsonLayout.unsigned n f) : bitsOf m e = bitsOf n f := by
  obtain ⟨v, hv, hzero, hpos⟩ := spellsFloat_unsigned m e
  obtain ⟨v', hv', hzero', hpos'⟩ := spellsFloat_unsigned n f
  obtain rfl : v = v' := hv.unique (h ▸ hv')
  -- what rounds to a positive double is positive, so zeros are told from other doubles
  obtain rfl | hm := Nat.eq_zero_or_pos m
  · obtain rfl | hn := Nat.eq_zero_or_pos n
    · rw [hc.normal.resolve_left (by decide), hc'.normal.resolve_left (by decide)]
    · exact absurd (hzero rfl) ((hpos' hn).pos hn).ne'
  · obtain rfl | hn := Nat.eq_zero_or_pos n
    · exact absurd (hzero' rfl) ((hpos hm).pos hm).ne'
    · exact (hpos hm).bits_eq hc hc' hm hn (hpos' hn)

/-! ### Characters of numbers -/

/-- The text of a number starts with a digit. -/
theorem SpellsFloat.head {cs : List Char} {v : Rat} (h : SpellsFloat cs v) :
    ∃ d ds, cs = d :: ds ∧ d.isDigit = true := by
  obtain ⟨whole, fraction, power, hne, hdigits, -, rfl, -⟩ := h
  obtain ⟨d, ds, rfl⟩ := List.exists_cons_of_ne_nil hne
  exact ⟨d, _, rfl, hdigits d (by simp)⟩

/-- The text of a float has a decimal point or a power of ten. -/
theorem SpellsFloat.mark {cs : List Char} {v : Rat} (h : SpellsFloat cs v) :
    '.' ∈ cs ∨ 'e' ∈ cs := by
  obtain ⟨whole, fraction, power, -, -, hfraction | hpower, rfl, -⟩ := h
  · rw [pointChars_of_ne_nil hfraction]
    exact .inl (by simp)
  · obtain ⟨power, rfl⟩ := Option.isSome_iff_exists.1 hpower
    exact .inr (by simp [powerChars])

theorem isWordChar_of_isDigit {c : Char} (h : c.isDigit = true) : Json.isWordChar c = true := by
  simp [Json.isWordChar, Char.isAlphanum, h]

theorem SpellsFloat.isWordChar {cs : List Char} {v : Rat} (h : SpellsFloat cs v) :
    ∀ c ∈ cs, Json.isWordChar c = true := by
  obtain ⟨whole, fraction, power, -, hdigits, -, rfl, -⟩ := h
  have hpoint : ∀ c ∈ pointChars fraction, Json.isWordChar c = true := by
    cases fraction with
    | nil => exact fun c hc => nomatch hc
    | cons d ds =>
      intro c hc
      obtain rfl | hc := List.mem_cons.1 hc
      · rfl
      · exact isWordChar_of_isDigit (hdigits c (List.mem_append_right _ hc))
  have hpower : ∀ c ∈ powerChars power, Json.isWordChar c = true := by
    cases power with
    | none => exact fun c hc => nomatch hc
    | some power =>
      intro c hc
      obtain rfl | hc := List.mem_cons.1 hc
      · rfl
      · obtain rfl | hc := List.mem_cons.1 hc
        · split <;> rfl
        · exact isWordChar_of_isDigit (isDigit_of_mem_digitChars c hc)
  intro c hc
  obtain hc | hc := List.mem_append.1 hc
  · obtain hc | hc := List.mem_append.1 hc
    · exact isWordChar_of_isDigit (hdigits c (List.mem_append_left _ hc))
    · exact hpoint c hc
  · exact hpower c hc

theorem mem_intChars {n : Int} {c : Char} (h : c ∈ intChars n) : c = '-' ∨ c.isDigit = true := by
  unfold intChars at h
  split at h
  · exact (List.mem_cons.1 h).imp_right (isDigit_of_mem_digitChars c)
  · exact .inr (isDigit_of_mem_digitChars c h)

/-- Integers have distinct texts. -/
theorem intChars_inj {m n : Int} (h : intChars m = intChars n) : m = n := by
  have habs : ∀ {m n : Nat}, digitChars m = digitChars n → m = n := fun {m n} h => by
    rw [← digitsValue_digitChars m, h, digitsValue_digitChars]
  have hminus : ∀ {m n : Nat}, '-' :: digitChars m ≠ digitChars n := fun {m n} h => by
    have hdigit := isDigit_of_mem_digitChars '-' (h ▸ List.mem_cons_self)
    cases hdigit
  unfold intChars at h
  split at h <;> split at h
  · have := habs (List.cons.inj h).2
    omega
  · exact absurd h hminus
  · exact absurd h.symm hminus
  · have := habs h
    omega

end Decimal

namespace Json

open Decimal

theorem floatChars_eq {x : Float} {negative : Bool} {m : Nat} {e : Int}
    (h : Binary.ofFloat x = .finite negative m e) :
    floatChars x =
      if negative then '-' :: jsonLayout.unsigned m e else jsonLayout.unsigned m e := by
  unfold floatChars
  rw [h]

/-- A finite float is written with a decimal point, a power of ten, or both, after its sign. -/
theorem spells_floatChars {x : Float} (hx : x.isFinite = true) :
    ∃ cs v, SpellsFloat cs v ∧ (floatChars x = cs ∨ floatChars x = '-' :: cs) := by
  obtain ⟨negative, m, e, h⟩ := ofFloat_of_isFinite hx
  obtain ⟨v, hv, -⟩ := spellsFloat_unsigned m e
  rw [floatChars_eq h]
  cases negative with
  | false => exact ⟨_, v, hv, .inl rfl⟩
  | true => exact ⟨_, v, hv, .inr rfl⟩

/-- Finite floats have distinct texts. -/
theorem floatChars_inj {x y : Float} (hx : x.isFinite = true) (hy : y.isFinite = true)
    (h : floatChars x = floatChars y) : x = y := by
  obtain ⟨negative, m, e, hofx⟩ := ofFloat_of_isFinite hx
  obtain ⟨negative', n, f, hofy⟩ := ofFloat_of_isFinite hy
  obtain ⟨hc, hbits⟩ := ofFloat_finite hofx
  obtain ⟨hc', hbits'⟩ := ofFloat_finite hofy
  have hminus : ∀ {m n : Nat} {e f : Int},
      '-' :: jsonLayout.unsigned m e ≠ jsonLayout.unsigned n f := fun {m n e f} h => by
    obtain ⟨v, hv, -⟩ := spellsFloat_unsigned n f
    obtain ⟨d, ds, hcons, hd⟩ := hv.head
    cases h.trans hcons
    cases hd
  have hsame : x.toBits.toNat = y.toBits.toNat := by
    rw [floatChars_eq hofx, floatChars_eq hofy] at h
    rw [hbits, hbits']
    cases negative <;> cases negative'
    · rw [bits_eq_of_unsigned hc hc' h]
    · exact absurd h.symm hminus
    · exact absurd h hminus
    · rw [bits_eq_of_unsigned hc hc' (List.cons.inj h).2]
  rw [← Float.ofBits_toBits x, ← Float.ofBits_toBits y, UInt64.toNat.inj hsame]

/-- No integer has the text of a float. -/
theorem intChars_ne_floatChars {n : Int} {x : Float} (hx : x.isFinite = true) :
    intChars n ≠ floatChars x := by
  obtain ⟨cs, v, hv, hcs⟩ := spells_floatChars hx
  have hmem : ∀ c ∈ cs, c ∈ floatChars x := fun c hc =>
    hcs.elim (fun h => h ▸ hc) fun h => h ▸ List.mem_cons_of_mem _ hc
  intro h
  obtain hmark | hmark := hv.mark <;> obtain hc | hc := mem_intChars (h ▸ hmem _ hmark) <;> cases hc

/-- The text of a number starts with a digit or a minus sign. -/
theorem head_floatChars {x : Float} (hx : x.isFinite = true) :
    ∃ c cs, floatChars x = c :: cs ∧ (c = '-' ∨ c.isDigit = true) := by
  obtain ⟨cs, v, hv, hcs | hcs⟩ := spells_floatChars hx
  · obtain ⟨d, ds, rfl, hd⟩ := hv.head
    exact ⟨d, ds, hcs, .inr hd⟩
  · exact ⟨'-', cs, hcs, .inl rfl⟩

theorem head_intChars (n : Int) :
    ∃ c cs, intChars n = c :: cs ∧ (c = '-' ∨ c.isDigit = true) := by
  have hne : intChars n ≠ [] := by
    unfold intChars
    split
    · exact List.cons_ne_nil _ _
    · exact digitChars_ne_nil
  obtain ⟨c, cs, hcs⟩ := List.exists_cons_of_ne_nil hne
  exact ⟨c, cs, hcs, mem_intChars (hcs ▸ List.mem_cons_self)⟩

theorem isWordChar_of_mem_floatChars {x : Float} (hx : x.isFinite = true) :
    ∀ c ∈ floatChars x, isWordChar c = true := by
  obtain ⟨cs, v, hv, hcs | hcs⟩ := spells_floatChars hx <;> rw [hcs]
  · exact hv.isWordChar
  · exact List.forall_mem_cons.2 ⟨rfl, hv.isWordChar⟩

theorem isWordChar_of_mem_intChars {n : Int} :
    ∀ c ∈ intChars n, isWordChar c = true := by
  intro c hc
  obtain rfl | hc := mem_intChars hc
  · rfl
  · exact isWordChar_of_isDigit hc

end Json

end GatedRules
