import GatedRules.Decimal.Layout
import GatedRules.Decimal.Read
import GatedRules.Proofs.Rounding

/-!
# Numbers are read back from their texts

The text that a rule source has for a finite double without a sign is a row of digits with at most
one decimal point, and it is read as that double (`readsBack_of_ofFloat`). For the text spells a
decimal that rounds to the double: either the double itself, where it is a small integer, or its
shortest decimal. The search for the latter only takes decimals of the double's interval, and the
exact decimal stands behind it (`rounds_shortest`), so nothing has to be known about how many digits
suffice.

A number in a rule source is written without a sign, so if it is finite, it is such a double
(`readsBack_of_read?`).
-/

namespace GatedRules

section

variable {p : Char → Bool} {cs rest : List Char}

theorem takeWhile_append (h : ∀ c ∈ cs, p c = true) (hrest : ∀ c ∈ rest.head?, p c = false) :
    (cs ++ rest).takeWhile p = cs := by
  rw [List.takeWhile_append_of_pos h]
  cases rest with
  | nil => simp
  | cons c rest => simp [hrest c rfl]

theorem dropWhile_append (h : ∀ c ∈ cs, p c = true) (hrest : ∀ c ∈ rest.head?, p c = false) :
    (cs ++ rest).dropWhile p = rest := by
  rw [List.dropWhile_append_of_pos h]
  cases rest with
  | nil => rfl
  | cons c rest => simp [hrest c rfl]

end

namespace Decimal

/-! ### The shortest decimal -/

/-- The number that a decimal is. -/
def Scaled.value (d : Scaled) : Rat :=
  d.digits * 10 ^ d.exponent

theorem Scaled.value_strip (fuel : Nat) (d : Scaled) : (d.strip fuel).value = d.value := by
  induction fuel generalizing d with
  | zero => rfl
  | succ fuel ih =>
    unfold Scaled.strip
    split
    · obtain ⟨k, hk⟩ : ∃ k, d.digits = 10 * k := ⟨d.digits / 10, by omega⟩
      rw [ih, value, value, hk, Nat.mul_div_cancel_left k (by decide), zpow_add₀ (by norm_num)]
      push_cast
      ring
    · rfl

theorem Scaled.value_normal (d : Scaled) : d.normal.value = d.value :=
  d.value_strip _

theorem pow_toNat_div (b : Nat) (e : Int) :
    (b : Rat) ^ e.toNat / (b : Rat) ^ (-e).toNat = (b : Rat) ^ e := by
  obtain h | h := le_total 0 e
  · obtain ⟨k, rfl⟩ := Int.eq_ofNat_of_zero_le h
    simp
  · obtain ⟨k, rfl⟩ := Int.exists_eq_neg_ofNat h
    simp

/-- The ends of the interval of a double. -/
theorem ofDouble_ends {m : Nat} {e : Int} (hm : 0 < m) :
    ((Interval.ofDouble m e).low / (Interval.ofDouble m e).den : Rat) = (m - gap m e) * 2 ^ e ∧
      ((Interval.ofDouble m e).high / (Interval.ofDouble m e).den : Rat) =
        (m + 1 / 2) * 2 ^ e := by
  have hscale := pow_toNat_div 2 (e - 2)
  rw [neg_sub, zpow_sub₀ (by norm_num)] at hscale
  unfold Interval.ofDouble gap
  simp only [Nat.pow_eq]
  split <;>
  · push_cast [show 1 ≤ 4 * m by omega, show 2 ≤ 4 * m by omega] at hscale ⊢
    rw [mul_div_assoc, mul_div_assoc, hscale]
    refine ⟨?_, ?_⟩ <;> ring

/-- A quotient lies in the interval of a double exactly if it rounds to the double. -/
theorem holds_ofDouble {num den m : Nat} {e : Int} (hm : 0 < m) (hden : 0 < den) :
    (Interval.ofDouble m e).holds num den = true ↔ Rounds m e (num / den) := by
  obtain ⟨hlow, hhigh⟩ := ofDouble_ends (e := e) hm
  have hclosed : (Interval.ofDouble m e).closed = decide (m % 2 = 0) := rfl
  have hden' : (0 : Rat) < den := by exact_mod_cast hden
  have hipos : (0 : Rat) < (Interval.ofDouble m e).den := by
    exact_mod_cast (Nat.pow_pos (by decide) : 0 < 2 ^ (2 - e).toNat)
  generalize Interval.ofDouble m e = i at *
  have hle : ∀ {a b c d : Nat}, (0 : Rat) < c → (0 : Rat) < d →
      (a * d ≤ b * c ↔ (a / c : Rat) ≤ b / d) := fun hc hd => by
    rw [div_le_div_iff₀ hc hd]
    norm_cast
  have hlt : ∀ {a b c d : Nat}, (0 : Rat) < c → (0 : Rat) < d →
      (a * d < b * c ↔ (a / c : Rat) < b / d) := fun hc hd => by
    rw [div_lt_div_iff₀ hc hd]
    norm_cast
  unfold Interval.holds
  rw [hclosed]
  split
  · rename_i heven
    rw [decide_eq_true_eq] at heven
    rw [Bool.and_eq_true, decide_eq_true_eq, decide_eq_true_eq, hle hipos hden', hle hden' hipos,
      hlow, hhigh]
    exact ⟨fun h => ⟨h.1, h.2, fun hodd => by omega⟩, fun h => ⟨h.lower, h.upper⟩⟩
  · rename_i hodd
    rw [decide_eq_true_eq] at hodd
    rw [Bool.and_eq_true, decide_eq_true_eq, decide_eq_true_eq, hlt hipos hden', hlt hden' hipos,
      hlow, hhigh]
    exact ⟨fun h => ⟨h.1.le, h.2.le, fun _ => h⟩, fun h => h.strict (by omega)⟩

theorem rounds_of_onGrid? {tie : Tie} {m : Nat} {e point : Int} {d : Scaled} (hm : 0 < m)
    (h : (Interval.ofDouble m e).onGrid? tie point = some d) : Rounds m e d.value := by
  generalize hi : Interval.ofDouble m e = i at h
  have hchosen : ∀ (below above : Scaled) (upward : Bool),
      (if i.holdsScaled below && !(i.holdsScaled above && upward) then some below
        else if i.holdsScaled above then some above else none) = some d →
      i.holdsScaled d = true := fun below above upward h => by
    split at h
    · cases h
      exact (Bool.and_eq_true_iff.1 ‹_›).1
    · split at h
      · cases h
        assumption
      · cases h
  have hinside := hchosen _ _ _ h
  rw [← hi, Interval.holdsScaled, Nat.pow_eq, Nat.pow_eq,
    holds_ofDouble hm (Nat.pow_pos (by decide)), Nat.cast_mul, mul_div_assoc, Nat.cast_pow,
    Nat.cast_pow, pow_toNat_div] at hinside
  exact hinside

theorem value_exactly (m : Nat) (e : Int) : (exactly m e).value = m * 2 ^ e := by
  unfold exactly
  split
  · obtain ⟨k, rfl⟩ := Int.eq_ofNat_of_zero_le ‹_›
    simp [Scaled.value]
  · obtain ⟨k, rfl⟩ := Int.exists_eq_neg_ofNat (not_le.1 ‹_›).le
    have hten : (10 : Rat) ^ k = 2 ^ k * 5 ^ k := by
      rw [← mul_pow]
      norm_num
    simp only [Scaled.value, neg_neg, Int.toNat_natCast, Nat.pow_eq, zpow_neg, zpow_natCast, hten]
    push_cast
    field_simp

/-- A double itself rounds to it. -/
theorem rounds_self (m : Nat) (e : Int) : Rounds m e (m * 2 ^ e) := by
  have hpos : (0 : Rat) < 2 ^ e := by positivity
  have hlower : ((m : Rat) - gap m e) * 2 ^ e < m * 2 ^ e :=
    mul_lt_mul_of_pos_right (by linarith [gap_pos m e]) hpos
  have hupper : (m : Rat) * 2 ^ e < (m + 1 / 2) * 2 ^ e :=
    mul_lt_mul_of_pos_right (by linarith) hpos
  exact ⟨hlower.le, hupper.le, fun _ => ⟨hlower, hupper⟩⟩

/-- **The shortest decimal of a double rounds to the double.** -/
theorem rounds_shortest (tie : Tie) {m : Nat} {e : Int} (hm : 0 < m) :
    Rounds m e (shortest tie m e).value := by
  unfold shortest
  dsimp only
  rw [Scaled.value_normal]
  generalize hfound : List.findSome? _ _ = found
  cases found with
  | none => exact value_exactly m e ▸ rounds_self m e
  | some d =>
    obtain ⟨n, -, hn⟩ := List.exists_of_findSome?_eq_some hfound
    exact rounds_of_onGrid? hm hn

/-! ### Rows of digits -/

theorem digitsValue_digitChars (n : Nat) : digitsValue (digitChars n) = n :=
  Nat.ofDigitChars_ten_toDigits

theorem digitsValue_append_zeros (ds : List Char) (k : Nat) :
    digitsValue (ds ++ List.replicate k '0') = digitsValue ds * 10 ^ k := by
  induction k with
  | zero => simp
  | succ k ih =>
    unfold digitsValue at *
    rw [List.replicate_succ', ← List.append_assoc, List.foldl_append, ih, Nat.pow_succ]
    simp only [List.foldl_cons, List.foldl_nil]
    rw [show '0'.toNat = 48 from rfl]
    ring

theorem digitsValue_zeros_append (ds : List Char) (k : Nat) :
    digitsValue (List.replicate k '0' ++ ds) = digitsValue ds := by
  induction k with
  | zero => rfl
  | succ k ih => exact ih

/-- A text is a row of digits with at most one decimal point and spells a number. -/
def Spells (cs : List Char) (v : Rat) : Prop :=
  ∃ whole fraction : List Char, whole ≠ [] ∧ (∀ c ∈ whole ++ fraction, c.isDigit = true) ∧
    (cs = whole ∧ fraction = [] ∨ cs = whole ++ '.' :: fraction) ∧
    (digitsValue (whole ++ fraction) : Rat) * 10 ^ (-fraction.length : Int) = v

theorem spells_digits {ds : List Char} (hne : ds ≠ []) (h : ∀ c ∈ ds, c.isDigit = true) :
    Spells ds (digitsValue ds) := by
  refine ⟨ds, [], hne, by simpa using h, .inl ⟨rfl, rfl⟩, ?_⟩
  simp

theorem isDigit_of_mem_zeros {k : Nat} {c : Char} (h : c ∈ List.replicate k '0') :
    c.isDigit = true :=
  List.eq_of_mem_replicate h ▸ rfl

/-- A number with a negative power of ten that is written out in full has digits on both sides of a
decimal point. -/
theorem positional_of_neg {ds : List Char} (hne : ds ≠ []) (h : ∀ c ∈ ds, c.isDigit = true)
    {exponent : Int} (hexponent : exponent < 0) (afterWhole : List Char) :
    ∃ whole fraction : List Char, whole ≠ [] ∧ fraction ≠ [] ∧
      (∀ c ∈ whole ++ fraction, c.isDigit = true) ∧
      positional afterWhole ds exponent = whole ++ '.' :: fraction ∧
      (digitsValue (whole ++ fraction) : Rat) * 10 ^ (-fraction.length : Int) =
        digitsValue ds * 10 ^ exponent := by
  obtain ⟨k, rfl⟩ := Int.exists_eq_neg_ofNat hexponent.le
  have hlength := List.length_pos_of_ne_nil hne
  rw [positional, if_neg (by omega)]
  simp only [neg_neg, Int.toNat_natCast]
  split
  · refine ⟨ds.take (ds.length - k), ds.drop (ds.length - k), ?_, ?_, ?_, rfl, ?_⟩
    · rw [ne_eq, List.take_eq_nil_iff, not_or]
      exact ⟨by omega, hne⟩
    · rw [ne_eq, List.drop_eq_nil_iff]
      omega
    · rwa [List.take_append_drop]
    · rw [List.take_append_drop, List.length_drop, Nat.sub_sub_self (by omega)]
  · refine ⟨['0'], List.replicate (k - ds.length) '0' ++ ds, by simp, by simp [hne],
      fun c hc => ?_, rfl, ?_⟩
    · rw [List.singleton_append, List.mem_cons, List.mem_append] at hc
      rcases hc with rfl | hc | hc
      · rfl
      · exact isDigit_of_mem_zeros hc
      · exact h c hc
    · have hlength : (List.replicate (k - ds.length) '0' ++ ds).length = k := by
        rw [List.length_append, List.length_replicate]
        omega
      rw [hlength]
      change (digitsValue (List.replicate (k - ds.length + 1) '0' ++ ds) : Rat) * _ = _
      rw [digitsValue_zeros_append]

/-- A number that is written out in full is digits with at most one decimal point. -/
theorem spells_positional {ds : List Char} (hne : ds ≠ []) (h : ∀ c ∈ ds, c.isDigit = true)
    (exponent : Int) : Spells (positional [] ds exponent) (digitsValue ds * 10 ^ exponent) := by
  by_cases hexponent : 0 ≤ exponent
  · obtain ⟨k, rfl⟩ := Int.eq_ofNat_of_zero_le hexponent
    have hspells : Spells (ds ++ List.replicate k '0') _ :=
      spells_digits (by simp [hne]) fun c hc =>
        (List.mem_append.1 hc).elim (h c) isDigit_of_mem_zeros
    rw [digitsValue_append_zeros] at hspells
    rw [positional, if_pos hexponent]
    simpa using hspells
  · obtain ⟨whole, fraction, hwhole, -, hdigits, hcs, hv⟩ :=
      positional_of_neg hne h (not_le.1 hexponent) []
    exact ⟨whole, fraction, hwhole, hdigits, .inr hcs, hv⟩

theorem digitChars_ne_nil {n : Nat} : digitChars n ≠ [] :=
  Nat.toDigits_ne_nil

theorem isDigit_of_mem_digitChars {n : Nat} : ∀ c ∈ digitChars n, c.isDigit = true :=
  fun _ hc => Nat.isDigit_of_mem_toDigits (by decide) (by decide) hc

theorem spells_digitChars (n : Nat) : Spells (digitChars n) n := by
  have hspells : Spells (digitChars n) _ :=
    spells_digits digitChars_ne_nil isDigit_of_mem_digitChars
  rwa [digitsValue_digitChars] at hspells

/-! ### Reading a number -/

theorem toNat_of_isDigit {c : Char} (h : c.isDigit = true) : 48 ≤ c.toNat ∧ c.toNat ≤ 57 := by
  unfold Char.isDigit at h
  simp only [Bool.and_eq_true, decide_eq_true_eq, UInt32.le_iff_toNat_le, ge_iff_le] at h
  exact h

theorem sign_of_isDigit {c : Char} {cs : List Char} (h : c.isDigit = true) :
    sign (c :: cs) = (false, c :: cs) := by
  unfold sign
  split
  · rename_i heq
    cases heq
    exact absurd h (by decide)
  · rename_i heq
    cases heq
    exact absurd h (by decide)
  · rfl

/-- What starts with a digit is none of the names of numbers. -/
theorem read?_of_isDigit {c : Char} {cs : List Char} (h : c.isDigit = true) :
    read? (c :: cs) = (written? false (c :: cs)).map Written.toFloat := by
  have hlower : c.toLower = c := by
    unfold Char.toLower
    rw [dif_neg]
    rintro ⟨hge, -⟩
    rw [ge_iff_le, UInt32.le_iff_toNat_le] at hge
    change 65 ≤ c.toNat at hge
    have hle := (toNat_of_isDigit h).2
    omega
  have hname : ∀ {name : String} {d : Char} {ds : List Char}, name.toList = d :: ds →
      d.isDigit = false → String.ofList ((c :: cs).map Char.toLower) ≠ name := by
    rintro name d ds hname hd rfl
    rw [String.toList_ofList, List.map_cons, hlower] at hname
    cases hname
    exact absurd h (Bool.eq_false_iff.1 hd)
  unfold read?
  rw [sign_of_isDigit h]
  dsimp only
  rw [if_neg (not_or.2 ⟨hname rfl rfl, hname rfl rfl⟩), if_neg (hname rfl rfl)]

/-- Digits with at most one decimal point are read as the double nearest to what they spell. -/
theorem read?_of_spells {cs : List Char} {v : Rat} (h : Spells cs v) : ∃ digits exponent,
    read? cs = some (nearestScaled false digits exponent) ∧ (digits * 10 ^ exponent : Rat) = v := by
  obtain ⟨whole, fraction, hne, hdigits, hcs, hv⟩ := h
  obtain ⟨c, ds, rfl⟩ := List.exists_cons_of_ne_nil hne
  have hwhole : ∀ d ∈ c :: ds, d.isDigit = true := fun d hd =>
    hdigits d (List.mem_append_left _ hd)
  have hfraction : ∀ d ∈ fraction, d.isDigit = true := fun d hd =>
    hdigits d (List.mem_append_right _ hd)
  obtain ⟨tail, rfl, htail, hsplit⟩ : ∃ tail, cs = c :: ds ++ tail ∧
      (∀ d ∈ tail.head?, d.isDigit = false) ∧ fractionOf tail = (fraction, []) := by
    obtain ⟨rfl, rfl⟩ | rfl := hcs
    · exact ⟨[], by simp, by simp, rfl⟩
    · refine ⟨_, rfl, by simp, ?_⟩
      rw [fractionOf, List.takeWhile_eq_self_iff.2 hfraction,
        List.dropWhile_eq_nil_iff.2 hfraction]
  refine ⟨digitsValue (c :: ds ++ fraction), -fraction.length, ?_, hv⟩
  rw [List.cons_append, read?_of_isDigit (hwhole c (List.mem_cons_self ..)), ← List.cons_append]
  unfold written?
  rw [takeWhile_append hwhole htail, dropWhile_append hwhole htail, hsplit, ← zero_sub]
  rfl

/-! ### Doubles -/

theorem nearestScaled_zero {x : Float} {e : Int} (hx : Binary.ofFloat x = .finite false 0 e)
    (exponent : Int) : nearestScaled false 0 exponent = x := by
  obtain ⟨hc, hbits⟩ := ofFloat_finite hx
  have he : e = leastExponent := hc.normal.resolve_left (by decide)
  have hzero : x.toBits.toNat = 0 := by rw [hbits, he]; rfl
  have hfloat : nearest false 0 1 = x := by
    rw [← Float.ofBits_toBits x, ← UInt64.ofNat_toNat (x := x.toBits), hzero]
    rfl
  rw [nearestScaled, if_pos (.inl rfl), hfloat]

/-- The text of a number reads back as the number: digits with at most one decimal point. -/
structure ReadsBack (x : Float) : Prop where
  /-- It is a row of digits, which may go on with a decimal point and more digits. -/
  digits : ∃ whole fraction : List Char, whole ≠ [] ∧ (∀ c ∈ whole ++ fraction, c.isDigit = true) ∧
    (sourceChars x = whole ∨ sourceChars x = whole ++ '.' :: fraction)
  /-- It is read as the number. -/
  read : read? (sourceChars x) = some x

/-- An integer that a double without a sign equals is its value. -/
theorem whole?_eq_some {x : Float} {m : Nat} {e n : Int}
    (hx : Binary.ofFloat x = .finite false m e) (h : whole? x = some n) :
    ∃ k : Nat, n = k ∧ (k : Rat) = m * 2 ^ e := by
  unfold whole? at h
  rw [hx] at h
  obtain ⟨_, hsize, hn⟩ := Option.map_eq_some_iff.1 h
  obtain ⟨k, hk, rfl⟩ := Option.map_eq_some_iff.1 ((Option.map_eq_bind ..).trans hsize)
  rw [if_neg Bool.false_ne_true] at hn
  refine ⟨k, hn.symm, ?_⟩
  split at hk
  · cases hk
    obtain ⟨j, rfl⟩ := Int.eq_ofNat_of_zero_le ‹_›
    simp
  · obtain ⟨j, rfl⟩ := Int.exists_eq_neg_ofNat (not_le.1 ‹_›).le
    simp only [neg_neg, Int.toNat_natCast, Nat.pow_eq] at hk
    split at hk
    · cases hk
      rw [Nat.cast_div (Nat.dvd_of_mod_eq_zero ‹_›) (by simp), Nat.cast_pow,
        zpow_neg, zpow_natCast, div_eq_mul_inv]
      rfl
    · cases hk

/-- A double without a sign that equals an integer is the double nearest to it. -/
theorem ofInt_of_whole? {x : Float} {m : Nat} {e n : Int}
    (hx : Binary.ofFloat x = .finite false m e) (h : whole? x = some n) : ofInt n = x := by
  obtain ⟨k, rfl, hk⟩ := whole?_eq_some hx h
  have hnearest : ofInt k = nearest false k 1 := by
    rw [ofInt, decide_eq_false (by omega), Int.natAbs_natCast]
  rw [hnearest]
  obtain rfl | hm := Nat.eq_zero_or_pos m
  · obtain rfl : k = 0 := by simpa using hk
    rw [← nearestScaled_zero hx 0]
    rfl
  · refine nearest_of_rounds hx hm Nat.one_pos ?_
    rw [Nat.cast_one, div_one, hk]
    exact rounds_self m e

/-- The text of a double without a sign spells a decimal that rounds to the double. -/
theorem spells_sourceChars {x : Float} {m : Nat} {e : Int}
    (hx : Binary.ofFloat x = .finite false m e) :
    ∃ v, Spells (sourceChars x) v ∧ (m = 0 → v = 0) ∧ (0 < m → Rounds m e v) := by
  unfold sourceChars
  split
  · rename_i n hn
    obtain ⟨k, rfl, hk⟩ := whole?_eq_some hx (Option.filter_eq_some_iff.1 hn).1
    refine ⟨k, ?_, ?_, ?_⟩
    · rw [intChars, if_neg (by omega), Int.natAbs_natCast]
      exact spells_digitChars k
    · rintro rfl
      simpa using hk
    · exact fun _ => hk ▸ rounds_self m e
  · unfold plainChars
    rw [hx]
    dsimp only
    rw [if_neg Bool.false_ne_true]
    unfold Layout.unsigned
    split
    · rename_i hm
      refine ⟨0, spells_digitChars 0, fun _ => rfl, fun hpos => absurd hm hpos.ne'⟩
    · rename_i hm
      generalize hd : shortest sourceLayout.tie m e = d
      refine ⟨d.value, ?_, fun h => absurd h hm, fun h => hd ▸ rounds_shortest _ h⟩
      have hspells : Spells (positional [] (digitChars d.digits) d.exponent) _ :=
        spells_positional digitChars_ne_nil isDigit_of_mem_digitChars d.exponent
      rwa [digitsValue_digitChars] at hspells

/-- **Every finite double without a sign is read back from its text.** -/
theorem readsBack_of_ofFloat {x : Float} {m : Nat} {e : Int}
    (hx : Binary.ofFloat x = .finite false m e) : ReadsBack x := by
  obtain ⟨v, hspells, hzero, hpos⟩ := spells_sourceChars hx
  refine ⟨?_, ?_⟩
  · obtain ⟨whole, fraction, hne, hdigits, hcs, -⟩ := hspells
    exact ⟨whole, fraction, hne, hdigits, hcs.imp_left And.left⟩
  · obtain ⟨digits, exponent, hread, hv⟩ := read?_of_spells hspells
    rw [hread]
    obtain rfl | hm := Nat.eq_zero_or_pos m
    · rw [hzero rfl] at hv
      have hdigits : digits = 0 := by
        obtain hd | hd := mul_eq_zero.1 hv
        · exact_mod_cast hd
        · exact absurd hd (by positivity)
      rw [hdigits, nearestScaled_zero hx]
    · rw [nearestScaled_of_rounds hx hm (hv ▸ hpos hm)]

/-! ### Numbers of rule source -/

theorem nearestScaled_eq_nearest (significand : Nat) (exponent : Int) :
    ∃ num den, nearestScaled false significand exponent = nearest false num den := by
  unfold nearestScaled
  split
  · exact ⟨_, _, rfl⟩
  · split
    · exact ⟨_, _, rfl⟩
    · split <;> exact ⟨_, _, rfl⟩

/-- A finite number that is written without a sign has none. -/
theorem ofFloat_of_read? {c : Char} {cs : List Char} {x : Float} (hc : c.isDigit = true)
    (h : read? (c :: cs) = some x) (hx : x.isFinite = true) :
    ∃ m e, Binary.ofFloat x = .finite false m e := by
  rw [read?_of_isDigit hc] at h
  obtain ⟨w, hw, rfl⟩ := Option.map_eq_some_iff.1 h
  have hsign : w.negative = false := by
    unfold written? at hw
    dsimp only at hw
    split at hw
    · cases hw
    · obtain ⟨power, -, rfl⟩ := Option.map_eq_some_iff.1 hw
      rfl
  unfold Written.toFloat at hx ⊢
  rw [hsign] at hx ⊢
  obtain ⟨num, den, hnearest⟩ := nearestScaled_eq_nearest (digitsValue (w.whole ++ w.fraction))
    (w.power - w.fraction.length)
  rw [hnearest] at hx ⊢
  exact ofFloat_nearest hx

/-- A number that is written without a sign is read back from its text. -/
theorem readsBack_of_read? {c : Char} {cs : List Char} {x : Float} (hc : c.isDigit = true)
    (h : read? (c :: cs) = some x) (hx : x.isFinite = true) : ReadsBack x := by
  obtain ⟨m, e, hfinite⟩ := ofFloat_of_read? hc h hx
  exact readsBack_of_ofFloat hfinite

/-- A finite number that reads back from its text has no sign. -/
theorem ReadsBack.ofFloat {x : Float} (h : ReadsBack x) (hx : x.isFinite = true) :
    ∃ m e, Binary.ofFloat x = .finite false m e := by
  obtain ⟨whole, fraction, hne, hdigits, hcs⟩ := h.digits
  obtain ⟨c, ds, rfl⟩ := List.exists_cons_of_ne_nil hne
  have hc : c.isDigit = true := hdigits c (by simp)
  have hread := h.read
  obtain hcs | hcs := hcs <;> rw [hcs] at hread
  · exact ofFloat_of_read? hc hread hx
  · exact ofFloat_of_read? hc hread hx

end Decimal

end GatedRules
