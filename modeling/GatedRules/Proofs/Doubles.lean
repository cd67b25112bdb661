import GatedRules.Evaluation.Operator
import GatedRules.Proofs.Decimals

/-!
# The order of doubles

Finite doubles are ordered like the integers that their bits denote, read as a magnitude with a sign
(`Decimal.floatOrder_eq`). So what rounding does to integers can be told from the bits. A greater
number has no smaller bits (`Decimal.nearestBits_mono`): with the same unit its significand is no
smaller, and the least significand of a greater unit is worth as much as the bound of the smaller
one. Hence integers of sixty-four bits are compared as integers unless they are rounded to one
double (`Decimal.floatOrder_ofInt`), which does not happen up to `2 ^ 53` (`Decimal.ofInt_inj`).

The texts of doubles tell as much. A double without a sign is read back from its text, and a minus
sign tells the others, so doubles with one text have one rank (`Decimal.rank_eq_of_sourceChars`).
-/

namespace GatedRules

namespace Decimal

/-! ### Comparing -/

/-- Where a finite double stands among the others: its bits, read as a magnitude with a sign. -/
def rank (negative : Bool) (m : Nat) (e : Int) : Int :=
  if negative then -bitsOf m e else bitsOf m e

/-- A greater exponent makes a greater double, and with the same exponent a greater significand. -/
theorem compare_bitsOf {m n : Nat} {e f : Int} (hc : Canonical m e) (hc' : Canonical n f) :
    (compare e f).then (compare m n) = compare (bitsOf m e : Int) (bitsOf n f) := by
  have hlt : ∀ {m n : Nat} {e f : Int}, Canonical m e → Canonical n f → e < f →
      bitsOf m e < bitsOf n f := by
    intro m n e f hc hc' hef
    have hm := hc.lt
    have hleast := hc.least_le
    have hn := hc'.normal
    unfold bitsOf leastExponent hidden at *
    omega
  obtain hef | rfl | hfe := lt_trichotomy e f
  · rw [compare_lt_iff_lt.2 hef, Ordering.lt_then]
    exact (compare_lt_iff_lt.2 (by exact_mod_cast hlt hc hc' hef)).symm
  · rw [compare_eq_iff_eq.2 rfl, Ordering.eq_then]
    have hbits : ∀ {m n : Nat}, (bitsOf m e : Int) < bitsOf n e ↔ m < n := by
      intro m n
      unfold bitsOf
      omega
    obtain hmn | rfl | hnm := lt_trichotomy m n
    · rw [compare_lt_iff_lt.2 hmn, compare_lt_iff_lt.2 (hbits.2 hmn)]
    · rw [compare_eq_iff_eq.2 rfl, compare_eq_iff_eq.2 rfl]
    · rw [compare_gt_iff_gt.2 hnm, compare_gt_iff_gt.2 (hbits.2 hnm)]
  · rw [compare_gt_iff_gt.2 hfe, Ordering.gt_then]
    exact (compare_gt_iff_gt.2 (by exact_mod_cast hlt hc' hc hfe)).symm

section

open Float.Model UnpackedFloat

/-- The sign of a double. -/
def signOf (negative : Bool) : Sign :=
  if negative then .negative else .positive

theorem unpackExponent_eq_iff {b : BitVec Format.binary64.numBits} {v : BitVec 11} :
    unpackExponent b = v ↔ b.toNat / hidden % 2048 = v.toNat := by
  rw [← toNat_unpackExponent]
  exact BitVec.toNat_inj.symm

theorem unpackMantissa_eq_iff {b : BitVec Format.binary64.numBits} {v : BitVec 52} :
    unpackMantissa b = v ↔ b.toNat % hidden = v.toNat := by
  rw [← toNat_unpackMantissa]
  exact BitVec.toNat_inj.symm

theorem toNat_one_append (v : BitVec 52) : (1#1 ++ v).toNat = hidden + v.toNat := by
  rw [BitVec.toNat_append, Nat.shiftLeft_eq_mul_pow]
  have h := Nat.two_pow_add_eq_or_of_lt v.isLt 1
  rw [Nat.mul_one] at h
  rw [BitVec.toNat_ofNat, Nat.one_mod, Nat.one_mul]
  exact h.symm

theorem ofBitVec_unpackSign (b : BitVec Format.binary64.numBits) :
    Sign.ofBitVec (unpackSign b) = signOf (b.toNat / (2048 * hidden) = 1) := by
  have hnat : (unpackSign b).toNat = b.toNat / (2048 * hidden) % 2 := by
    unfold unpackSign
    rw [BitVec.toNat_cast, BitVec.extractLsb_toNat, Nat.shiftRight_eq_div_pow]
    rfl
  have hlt : b.toNat < 2 ^ 64 := b.isLt
  unfold Sign.ofBitVec signOf
  by_cases h : unpackSign b = 0#1
  · rw [h] at hnat
    have hzero : b.toNat / (2048 * hidden) = 0 := by
      change 0 = _ at hnat
      unfold hidden at *
      omega
    rw [if_pos h, hzero]
    rfl
  · have hone : b.toNat / (2048 * hidden) = 1 := by
      have hne : (unpackSign b).toNat ≠ 0 := fun hzero => h (BitVec.eq_of_toNat_eq hzero)
      unfold hidden at *
      omega
    rw [if_neg h, hone]
    rfl

/-- How a finite double is taken apart where doubles are compared. -/
theorem unpack_eq {x : Float} {negative : Bool} {m : Nat} {e : Int}
    (h : Binary.ofFloat x = .finite negative m e) :
    (m = 0 ∧ x.toModel.unpack = .zero (signOf negative)) ∨
      ∃ hm : 0 < m, x.toModel.unpack = .finite (signOf negative) m e hm := by
  have hmodel : x.toModel.unpack = UnpackedFloat.unpack Format.binary64 x.toBits.toBitVec := rfl
  have hfield : ∀ v : BitVec 11, @unpackExponent Format.binary64 x.toBits.toBitVec = v ↔
      x.toBits.toNat / hidden % 2048 = v.toNat := fun _ => unpackExponent_eq_iff
  have hfraction : ∀ v : BitVec 52, @unpackMantissa Format.binary64 x.toBits.toBitVec = v ↔
      x.toBits.toNat % hidden = v.toNat := fun _ => unpackMantissa_eq_iff
  rw [hmodel]
  unfold UnpackedFloat.unpack
  dsimp only
  rw [ofBitVec_unpackSign]
  unfold Binary.ofFloat at h
  dsimp only at h
  split at h
  · split at h <;> cases h
  · rename_i hfinite
    rw [if_neg (mt (hfield (-1#11)).1 hfinite)]
    split at h
    · rename_i hzero
      rw [if_pos ((hfield 0#11).2 hzero)]
      cases h
      by_cases hm : x.toBits.toNat % hidden = 0
      · rw [dif_pos ((hfraction 0#52).2 hm)]
        exact .inl ⟨hm, rfl⟩
      · rw [dif_neg (mt (hfraction 0#52).1 hm)]
        refine .inr ⟨Nat.pos_of_ne_zero hm, ?_⟩
        rw [UnpackedFloat.finite.injEq, toNat_unpackExponent]
        refine ⟨rfl, toNat_unpackMantissa _, ?_⟩
        change ((x.toBits.toNat / hidden % 2048 : Nat) : Int) - (1023 + 52) + 1 = _
        rw [hzero]
        rfl
    · rename_i hnormal
      rw [if_neg (mt (hfield 0#11).1 hnormal)]
      cases h
      refine .inr ⟨Nat.add_pos_left (by decide) _, ?_⟩
      rw [UnpackedFloat.finite.injEq, toNat_unpackExponent]
      refine ⟨rfl, (toNat_one_append _).trans ?_, ?_⟩
      · rw [toNat_unpackMantissa]
        rfl
      · change ((x.toBits.toNat / hidden % 2048 : Nat) : Int) - (1023 + 52) = _
        unfold leastExponent
        omega

theorem rank_false (m : Nat) (e : Int) : rank false m e = bitsOf m e :=
  if_neg Bool.false_ne_true

theorem rank_true (m : Nat) (e : Int) : rank true m e = -bitsOf m e :=
  if_pos rfl

theorem Canonical.rank_zero {e : Int} (hc : Canonical 0 e) (negative : Bool) :
    rank negative 0 e = 0 := by
  rw [hc.normal.resolve_left (by decide)]
  cases negative <;> rfl

theorem bitsOf_pos {m : Nat} (e : Int) (hm : 0 < m) : (0 : Int) < bitsOf m e := by
  have hpos : 0 < bitsOf m e := by
    unfold bitsOf
    exact Nat.add_pos_right _ hm
  exact_mod_cast hpos

theorem swap_compare (a b : Int) : (compare a b).swap = compare (-a) (-b) := by
  obtain h | rfl | h := lt_trichotomy a b
  · rw [compare_lt_iff_lt.2 h, compare_gt_iff_gt.2 (neg_lt_neg h), Ordering.swap_lt]
  · rw [compare_eq_iff_eq.2 rfl, compare_eq_iff_eq.2 rfl, Ordering.swap_eq]
  · rw [compare_gt_iff_gt.2 h, compare_lt_iff_lt.2 (neg_lt_neg h), Ordering.swap_gt]

/-- Doubles are compared by their ranks. -/
theorem compare_unpack {x y : Float} {negative negative' : Bool} {m n : Nat} {e f : Int}
    (hx : Binary.ofFloat x = .finite negative m e) (hy : Binary.ofFloat y = .finite negative' n f) :
    UnpackedFloat.compare x.toModel.unpack y.toModel.unpack =
      some (compare (rank negative m e) (rank negative' n f)) := by
  have hc := (ofFloat_finite hx).1
  have hc' := (ofFloat_finite hy).1
  have hlt : ∀ {a b : Int}, a < b → some Ordering.lt = some (compare a b) := fun h =>
    congrArg some (compare_lt_iff_lt.2 h).symm
  have hgt : ∀ {a b : Int}, b < a → some Ordering.gt = some (compare a b) := fun h =>
    congrArg some (compare_gt_iff_gt.2 h).symm
  obtain ⟨rfl, hux⟩ | ⟨hm, hux⟩ := unpack_eq hx <;>
    obtain ⟨rfl, huy⟩ | ⟨hn, huy⟩ := unpack_eq hy <;> rw [hux, huy]
  · rw [hc.rank_zero, hc'.rank_zero]
    rfl
  · have hf := bitsOf_pos f hn
    rw [hc.rank_zero]
    cases negative' with
    | false =>
      rw [rank_false]
      exact hlt hf
    | true =>
      rw [rank_true]
      exact hgt (neg_neg_of_pos hf)
  · have he := bitsOf_pos e hm
    rw [hc'.rank_zero]
    cases negative with
    | false =>
      rw [rank_false]
      exact hgt he
    | true =>
      rw [rank_true]
      exact hlt (neg_neg_of_pos he)
  · have he := bitsOf_pos e hm
    have hf := bitsOf_pos f hn
    cases negative <;> cases negative' <;> simp only [rank_false, rank_true]
    · rw [← compare_bitsOf hc hc']
      rfl
    · exact hgt ((neg_neg_of_pos hf).trans he)
    · exact hlt ((neg_neg_of_pos he).trans hf)
    · rw [← swap_compare, ← compare_bitsOf hc hc']
      rfl

theorem floatOrder_eq {x y : Float} {negative negative' : Bool} {m n : Nat} {e f : Int}
    (hx : Binary.ofFloat x = .finite negative m e) (hy : Binary.ofFloat y = .finite negative' n f) :
    Value.floatOrder x y = some (compare (rank negative m e) (rank negative' n f)) := by
  have hless : ∀ x y : Float, (x < y) ↔
      UnpackedFloat.compare x.toModel.unpack y.toModel.unpack = some .lt := by
    intro x y
    change decide (x.toModel < y.toModel) = true ↔ _
    rw [decide_eq_true_iff]
    change (UnpackedFloat.compare _ _ == _) = true ↔ _
    exact beq_iff_eq
  have hsame : (x == y) =
      (UnpackedFloat.compare x.toModel.unpack y.toModel.unpack == some .eq) := rfl
  unfold Value.floatOrder
  simp only [hless, hsame, compare_unpack hx hy, compare_unpack hy hx, Option.some.injEq,
    compare_lt_iff_lt]
  generalize rank negative m e = a
  generalize rank negative' n f = b
  obtain h | rfl | h := lt_trichotomy a b
  · rw [if_pos h, compare_lt_iff_lt.2 h]
  · rw [if_neg (lt_irrefl a), if_neg (lt_irrefl a), compare_eq_iff_eq.2 rfl]
    rfl
  · rw [if_neg h.not_gt, if_pos h, compare_gt_iff_gt.2 h]

end

/-! ### Rounding keeps the order -/

theorem near_roundQuotient (num : Nat) {den : Nat} (hden : 0 < den) :
    Near (roundQuotient num den) (num / den) := by
  have hden' : (0 : Rat) < den := by exact_mod_cast hden
  have hnum : (num : Rat) / den = (num / den : Nat) + (num % den : Nat) / den := by
    rw [div_eq_iff hden'.ne', add_mul, div_mul_cancel₀ _ hden'.ne', mul_comm]
    exact_mod_cast (Nat.div_add_mod num den).symm
  have hnonneg : (0 : Rat) ≤ (num % den : Nat) / den := by positivity
  have hhalf : ∀ {r : Nat}, 2 * r < den ↔ (r : Rat) / den < 1 / 2 := fun {r} => by
    rw [div_lt_div_iff₀ hden' two_pos, one_mul, mul_comm]
    exact_mod_cast Iff.rfl
  have hhalf' : ∀ {r : Nat}, 2 * r = den ↔ (r : Rat) / den = 1 / 2 := fun {r} => by
    rw [div_eq_div_iff hden'.ne' two_ne_zero, one_mul, mul_comm]
    exact_mod_cast Iff.rfl
  have hless : ((num % den : Nat) : Rat) / den < 1 :=
    (div_lt_one hden').2 (by exact_mod_cast Nat.mod_lt num hden)
  rw [hnum]
  unfold roundQuotient
  simp only [hhalf, hhalf']
  generalize ((num % den : Nat) : Rat) / den = t at *
  generalize num / den = q
  split
  · exact ⟨by linarith, by linarith, fun _ => ⟨by linarith, by linarith⟩⟩
  · split
    · rename_i _ ht
      obtain heven | hodd := Nat.mod_two_eq_zero_or_one q
      · rw [heven, Nat.add_zero]
        exact ⟨by linarith, by linarith, fun hodd => by omega⟩
      · rw [hodd]
        exact ⟨by push_cast; linarith, by push_cast; linarith, fun hodd' => by omega⟩
    · rename_i hlow hhalf
      have hhigh : 1 / 2 < t := lt_of_le_of_ne (not_lt.1 hlow) (Ne.symm hhalf)
      exact ⟨by push_cast; linarith, by push_cast; linarith,
        fun _ => ⟨by push_cast; linarith, by push_cast; linarith⟩⟩

/-- Nearness keeps the order. -/
theorem Near.le_of_le {m n : Nat} {v w : Rat} (h : Near m v) (h' : Near n w) (hvw : v ≤ w) :
    m ≤ n := by
  by_contra hlt
  have hmn : (n : Rat) + 1 ≤ m := by exact_mod_cast not_le.1 hlt
  have hlower := h.lower
  have hupper := h'.upper
  have hm : m = n + 1 := by
    have : (m : Rat) ≤ n + 1 := by linarith
    refine le_antisymm (by exact_mod_cast this) (not_le.1 hlt)
  subst hm
  push_cast at hlower
  obtain hodd | hodd : n % 2 = 1 ∨ (n + 1) % 2 = 1 := by omega
  · linarith [(h'.strict hodd).2]
  · have := (h.strict hodd).1
    push_cast at this
    linarith

theorem near_natCast (m : Nat) : Near m m :=
  ⟨by linarith, by linarith, fun _ => ⟨by linarith, by linarith⟩⟩

/-- A greater quotient has no smaller bits. -/
theorem nearestBits_mono {num den num' den' : Nat} (hden : 0 < den) (hden' : 0 < den')
    (h : (num / den : Rat) ≤ num' / den') : nearestBits num den ≤ nearestBits num' den' := by
  obtain rfl | hnum := Nat.eq_zero_or_pos num
  · exact Nat.zero_le _
  have hpos : (0 : Rat) < num / den :=
    div_pos (by exact_mod_cast hnum) (by exact_mod_cast hden)
  have hnum' : 0 < num' := by
    refine Nat.pos_of_ne_zero fun hzero => ?_
    rw [hzero, Nat.cast_zero, zero_div] at h
    exact absurd h (not_le.2 hpos)
  obtain ⟨hleast, hlt, hle⟩ := unitExponent_spec hnum hden
  obtain ⟨hleast', hlt', hle'⟩ := unitExponent_spec hnum' hden'
  have hscaled : 0 < (scaled num den (unitExponent num den)).2 := scaled_den_pos hden _
  have hscaled' : 0 < (scaled num' den' (unitExponent num' den')).2 := scaled_den_pos hden' _
  have hnear := near_roundQuotient (scaled num den (unitExponent num den)).1 hscaled
  have hnear' := near_roundQuotient (scaled num' den' (unitExponent num' den')).1 hscaled'
  rw [scaled_div] at hnear hnear'
  unfold nearestBits
  rw [if_neg hnum.ne', if_neg hnum'.ne']
  dsimp only
  refine min_le_min_left _ ?_
  generalize unitExponent num den = unit at *
  generalize unitExponent num' den' = unit' at *
  generalize (num / den : Rat) = v at *
  generalize (num' / den' : Rat) = w at *
  generalize roundQuotient (scaled num den unit).1 (scaled num den unit).2 = q at *
  generalize roundQuotient (scaled num' den' unit').1 (scaled num' den' unit').2 = q' at *
  have hexp : ∀ {a b : Int}, (2 : Rat) ^ a < 2 ^ b → a < b := fun h =>
    (zpow_lt_zpow_iff_right₀ one_lt_two).1 h
  obtain hless | rfl | hgreater := lt_trichotomy unit unit'
  · -- the significand is at most the double of the least one, and the other one is at least that
    have hq : q ≤ 2 * hidden := by
      refine hnear.le_of_le (near_natCast _) ?_
      rw [div_le_iff₀ (by positivity)]
      push_cast
      rw [two_mul_hidden_mul_zpow]
      exact hlt.le
    have hq' : hidden ≤ q' := by
      refine (near_natCast _).le_of_le hnear' ?_
      rw [le_div_iff₀ (by positivity), hidden_mul_zpow]
      exact hle'.resolve_left (by omega)
    unfold leastExponent hidden at *
    omega
  · have hq : q ≤ q' := hnear.le_of_le hnear' (by gcongr)
    omega
  · have := hexp ((hle.resolve_left (by omega)).trans_lt (h.trans_lt hlt'))
    omega

/-! ### Integers -/

/-- Where the double nearest to an integer stands among the doubles. -/
def intRank (n : Int) : Int :=
  if n < 0 then -nearestBits n.natAbs 1 else nearestBits n.natAbs 1

theorem nearestBits_natCast_mono {m n : Nat} (h : m ≤ n) : nearestBits m 1 ≤ nearestBits n 1 := by
  refine nearestBits_mono Nat.one_pos Nat.one_pos ?_
  rw [Nat.cast_one, div_one, div_one]
  exact_mod_cast h

theorem nearestBits_pos {n : Nat} (h : 0 < n) : 0 < nearestBits n 1 :=
  calc 0 < nearestBits 1 1 := by decide +kernel
    _ ≤ nearestBits n 1 := nearestBits_natCast_mono h

/-- An integer that is stored in sixty-four bits, with a sign or without one. -/
def FitsWord (n : Int) : Prop :=
  -2 ^ 63 ≤ n ∧ n < 2 ^ 64

theorem FitsWord.nearestBits_lt {n : Int} (h : FitsWord n) :
    nearestBits n.natAbs 1 < 2047 * hidden := by
  unfold FitsWord at h
  calc nearestBits n.natAbs 1 ≤ nearestBits (2 ^ 64) 1 := nearestBits_natCast_mono (by omega)
    _ < 2047 * hidden := by decide +kernel

/-- Rounding does not turn the order of integers around. -/
theorem intRank_mono {a b : Int} (h : a ≤ b) : intRank a ≤ intRank b := by
  unfold intRank
  split <;> split
  · have := nearestBits_natCast_mono (m := b.natAbs) (n := a.natAbs) (by omega)
    omega
  · omega
  · omega
  · have := nearestBits_natCast_mono (m := a.natAbs) (n := b.natAbs) (by omega)
    omega

/-- Integers with one rank are rounded to one double. -/
theorem ofInt_eq_of_intRank {a b : Int} (h : intRank a = intRank b) : ofInt a = ofInt b := by
  have hpos : ∀ {n : Int}, n < 0 → 0 < nearestBits n.natAbs 1 := fun h =>
    nearestBits_pos (by omega)
  unfold intRank at h
  unfold ofInt nearest
  dsimp only
  split at h <;> split at h <;> rename_i ha hb
  · rw [decide_eq_true ha, decide_eq_true hb, Nat.cast_injective (neg_injective h)]
  · have := hpos ha
    omega
  · have := hpos hb
    omega
  · rw [decide_eq_false ha, decide_eq_false hb, Nat.cast_injective h]


/-- A double whose bits are not those of infinity, the sign apart, is finite. -/
theorem ofFloat_of_bits {x : Float} {negative : Bool} {bits : Nat} (hlt : bits < 2047 * hidden)
    (h : x.toBits.toNat = (if negative then 2048 * hidden else 0) + bits) :
    ∃ m e, Binary.ofFloat x = .finite negative m e ∧ bitsOf m e = bits := by
  obtain ⟨negative', m, e, hx⟩ : ∃ negative' m e, Binary.ofFloat x = .finite negative' m e := by
    have hfield : x.toBits.toNat / hidden % 2048 ≠ 2047 := by
      rw [h]
      unfold hidden at *
      split <;> omega
    unfold Binary.ofFloat
    dsimp only
    rw [if_neg hfield]
    split <;> exact ⟨_, _, _, rfl⟩
  obtain ⟨hc, hbits⟩ := ofFloat_finite hx
  have hm := hc.bits_lt
  rw [h] at hbits
  have hsame : negative' = negative ∧ bitsOf m e = bits := by
    unfold hidden at *
    cases negative <;> cases negative' <;> simp at hbits ⊢ <;> omega
  obtain ⟨rfl, hsame⟩ := hsame
  exact ⟨m, e, hx, hsame⟩

/-- An integer of sixty-four bits is rounded to a finite double. -/
theorem ofFloat_ofInt {n : Int} (h : FitsWord n) :
    ∃ m e, Binary.ofFloat (ofInt n) = .finite (n < 0) m e ∧ rank (n < 0) m e = intRank n := by
  obtain ⟨m, e, hx, hbits⟩ := ofFloat_of_bits h.nearestBits_lt (toNat_toBits_nearest (n < 0) _ 1)
  refine ⟨m, e, hx, ?_⟩
  unfold rank intRank
  rw [hbits]
  simp only [decide_eq_true_eq]

/-- Integers of sixty-four bits are compared by what they are rounded to. -/
theorem floatOrder_intRank {a b : Int} (ha : FitsWord a) (hb : FitsWord b) :
    Value.floatOrder (ofInt a) (ofInt b) = some (compare (intRank a) (intRank b)) := by
  obtain ⟨m, e, hx, hm⟩ := ofFloat_ofInt ha
  obtain ⟨n, f, hy, hn⟩ := ofFloat_ofInt hb
  rw [floatOrder_eq hx hy, hm, hn]

/-- **Integers of sixty-four bits that are not rounded to one double are compared as integers.** -/
theorem floatOrder_ofInt {a b : Int} (ha : FitsWord a) (hb : FitsWord b) (hne : ofInt a ≠ ofInt b) :
    Value.floatOrder (ofInt a) (ofInt b) = some (compare a b) := by
  rw [floatOrder_intRank ha hb]
  have hrank : intRank a ≠ intRank b := mt ofInt_eq_of_intRank hne
  congr 1
  obtain h | rfl | h := lt_trichotomy a b
  · rw [compare_lt_iff_lt.2 h, compare_lt_iff_lt.2 (lt_of_le_of_ne (intRank_mono h.le) hrank)]
  · exact absurd rfl hrank
  · rw [compare_gt_iff_gt.2 h, compare_gt_iff_gt.2 (lt_of_le_of_ne (intRank_mono h.le) hrank.symm)]

/-- A natural number up to `2 ^ 53` is a double. -/
theorem exists_canonical {n : Nat} (hn : 0 < n) (hle : n ≤ 2 ^ 53) :
    ∃ m e, Canonical m e ∧ 0 < m ∧ (m : Rat) * 2 ^ e = n := by
  obtain rfl | hlt := eq_or_lt_of_le hle
  · refine ⟨hidden, 1, ⟨by decide, by decide, by decide, .inl le_rfl⟩, by decide, ?_⟩
    norm_num [hidden]
  · have hlog : n.log2 ≤ 52 := Nat.lt_succ_iff.1 ((Nat.log2_lt hn.ne').2 hlt)
    have hlow := Nat.log2_self_le hn.ne'
    have hhigh := @Nat.lt_log2_self n
    have hshift : 2 ^ n.log2 * 2 ^ (52 - n.log2) = hidden := by
      rw [← pow_add, Nat.add_sub_cancel' hlog]
      rfl
    refine ⟨n * 2 ^ (52 - n.log2), (n.log2 : Int) - 52, ⟨?_, ?_, ?_, .inl ?_⟩, by positivity, ?_⟩
    · rw [← hshift, ← mul_assoc, ← pow_succ']
      exact Nat.mul_lt_mul_of_pos_right hhigh (by positivity)
    · unfold leastExponent
      omega
    · omega
    · rw [← hshift]
      exact Nat.mul_le_mul_right _ hlow
    · rw [show (n.log2 : Int) - 52 = -((52 - n.log2 : Nat) : Int) by omega]
      push_cast
      rw [zpow_neg, zpow_natCast, mul_inv_cancel_right₀ (by positivity)]

/-- The bits of a double determine its significand and its exponent. -/
theorem Canonical.eq_of_bitsOf_eq {m n : Nat} {e f : Int} (hc : Canonical m e)
    (hc' : Canonical n f) (h : bitsOf m e = bitsOf n f) : m = n ∧ e = f := by
  have hcompare := compare_bitsOf hc hc'
  rw [h, compare_eq_iff_eq.2 rfl, Ordering.then_eq_eq, compare_eq_iff_eq, compare_eq_iff_eq]
    at hcompare
  exact hcompare.symm

theorem nearestBits_inj {m n : Nat} (hm : m ≤ 2 ^ 53) (hn : n ≤ 2 ^ 53)
    (h : nearestBits m 1 = nearestBits n 1) : m = n := by
  have hself : ∀ {n k : Nat} {e : Int}, Canonical k e → 0 < k → (k : Rat) * 2 ^ e = n →
      nearestBits n 1 = bitsOf k e := fun {n k e} hc hk hv => by
    refine nearestBits_of_rounds hc hk Nat.one_pos ?_
    rw [Nat.cast_one, div_one, ← hv]
    exact rounds_self k e
  obtain rfl | hm' := Nat.eq_zero_or_pos m
  · obtain rfl | hn' := Nat.eq_zero_or_pos n
    · rfl
    · exact absurd h (nearestBits_pos hn').ne
  · obtain rfl | hn' := Nat.eq_zero_or_pos n
    · exact absurd h (nearestBits_pos hm').ne'
    · obtain ⟨k, e, hc, hk, hv⟩ := exists_canonical hm' hm
      obtain ⟨l, f, hc', hl, hw⟩ := exists_canonical hn' hn
      rw [hself hc hk hv, hself hc' hl hw] at h
      obtain ⟨rfl, rfl⟩ := hc.eq_of_bitsOf_eq hc' h
      exact_mod_cast hv.symm.trans hw

/-- **Up to `2 ^ 53` no two integers are rounded to one double.** -/
theorem ofInt_inj {a b : Int} (ha : a.natAbs ≤ 2 ^ 53) (hb : b.natAbs ≤ 2 ^ 53)
    (h : ofInt a = ofInt b) : a = b := by
  obtain ⟨m, e, hx, hm⟩ := ofFloat_ofInt (n := a) ⟨by omega, by omega⟩
  obtain ⟨n, f, hy, hn⟩ := ofFloat_ofInt (n := b) ⟨by omega, by omega⟩
  rw [← h, hx, Binary.finite.injEq] at hy
  obtain ⟨hsign, rfl, rfl⟩ := hy
  rw [hsign, hn] at hm
  have hnegative : a < 0 ↔ b < 0 := decide_eq_decide.1 hsign
  have hbits : nearestBits a.natAbs 1 = nearestBits b.natAbs 1 := by
    unfold intRank at hm
    split at hm <;> split at hm <;> omega
  have hnat := nearestBits_inj ha hb hbits
  omega


/-! ### Texts -/

/-- Every double has one of the same size without a sign. -/
theorem Canonical.exists_float {m : Nat} {e : Int} (hc : Canonical m e) :
    ∃ x, Binary.ofFloat x = .finite false m e := by
  have hlt := hc.bits_lt
  have htoNat : (UInt64.ofNat (bitsOf m e)).toNat = bitsOf m e :=
    UInt64.toNat_ofNat_of_lt' (hlt.trans (by decide))
  have hbits : (Float.ofBits (UInt64.ofNat (bitsOf m e))).toBits.toNat =
      (if false then 2048 * hidden else 0) + bitsOf m e := by
    rw [toBits_ofBits, htoNat, if_neg Bool.false_ne_true, Nat.zero_add]
    rw [htoNat]
    exact (Nat.mod_le _ _).trans hlt.le
  obtain ⟨n, f, hx, hsame⟩ := ofFloat_of_bits hlt hbits
  obtain ⟨rfl, rfl⟩ := (ofFloat_finite hx).1.eq_of_bitsOf_eq hc hsame
  exact ⟨_, hx⟩

section

variable {x y : Float} {m : Nat} {e : Int} (hx : Binary.ofFloat x = .finite true m e)
  (hy : Binary.ofFloat y = .finite false m e)

include hx hy

theorem whole?_of_negative : whole? x = (whole? y).map fun n => -n := by
  unfold whole?
  rw [hx, hy, Option.map_map]
  rfl

/-- The text of a negative double is that of the double without the sign, after a minus sign. -/
theorem sourceChars_of_negative (hm : 0 < m) : sourceChars x = '-' :: sourceChars y := by
  have hplain : plainChars x = '-' :: plainChars y := by
    unfold plainChars
    rw [hx, hy]
    rfl
  unfold sourceChars smallWhole?
  rw [whole?_of_negative hx hy]
  cases hwhole : whole? y with
  | none => exact hplain
  | some n =>
    obtain ⟨k, rfl, hk⟩ := whole?_eq_some hy hwhole
    have hpos : 0 < k := by
      have : (0 : Rat) < k := hk ▸ mul_pos (by exact_mod_cast hm) (by positivity)
      exact_mod_cast this
    rw [Option.map_some, Option.filter_some, Option.filter_some, Int.natAbs_neg]
    by_cases hsmall : decide ((k : Int).natAbs < wholeBound) = true
    · rw [if_pos hsmall, if_pos hsmall]
      change intChars (-k) = '-' :: intChars k
      rw [intChars, intChars, if_pos (by omega), if_neg (by omega), Int.natAbs_neg]
    · rw [if_neg hsmall, if_neg hsmall]
      exact hplain

end

/-- The text of a finite double is that of the double of its size without a sign, after a minus
sign unless the two have one rank. -/
theorem exists_unsigned {x : Float} {negative : Bool} {m : Nat} {e : Int}
    (hx : Binary.ofFloat x = .finite negative m e) :
    ∃ y, Binary.ofFloat y = .finite false m e ∧
      (negative = true ∧ sourceChars x = '-' :: sourceChars y ∨
        rank negative m e = rank false m e ∧ sourceChars x = sourceChars y) := by
  cases negative with
  | false => exact ⟨x, hx, .inr ⟨rfl, rfl⟩⟩
  | true =>
    have hc := (ofFloat_finite hx).1
    obtain ⟨y, hy⟩ := hc.exists_float
    refine ⟨y, hy, ?_⟩
    obtain rfl | hm := Nat.eq_zero_or_pos m
    · refine .inr ⟨by rw [hc.rank_zero, hc.rank_zero], ?_⟩
      have hzero : ∀ {x : Float} {negative : Bool}, Binary.ofFloat x = .finite negative 0 e →
          sourceChars x = intChars 0 := fun {x negative} hx => by
        have hwhole : whole? x = some 0 := by
          unfold whole?
          rw [hx]
          dsimp only
          rw [hc.normal.resolve_left (by decide), if_neg (by decide), Nat.zero_mod, if_pos rfl,
            Nat.zero_div]
          cases negative <;> rfl
        rw [sourceChars, smallWhole?, hwhole]
        rfl
      rw [hzero hx, hzero hy]
    · exact .inl ⟨rfl, sourceChars_of_negative hx hy hm⟩


theorem ReadsBack.isDigit_head {x : Float} (h : ReadsBack x) :
    ∃ c cs, sourceChars x = c :: cs ∧ c.isDigit = true := by
  obtain ⟨whole, fraction, hne, hdigits, hcs⟩ := h.digits
  obtain ⟨c, cs, rfl⟩ := List.exists_cons_of_ne_nil hne
  have hc : c.isDigit = true := hdigits c (by simp)
  obtain hcs | hcs := hcs
  · exact ⟨c, cs, hcs, hc⟩
  · exact ⟨c, _, hcs, hc⟩

/-- **Doubles with one text have one rank.** -/
theorem rank_eq_of_sourceChars {x y : Float} {negative negative' : Bool} {m n : Nat} {e f : Int}
    (hx : Binary.ofFloat x = .finite negative m e) (hy : Binary.ofFloat y = .finite negative' n f)
    (h : sourceChars x = sourceChars y) : rank negative m e = rank negative' n f := by
  obtain ⟨u, hu, hxu⟩ := exists_unsigned hx
  obtain ⟨v, hv, hyv⟩ := exists_unsigned hy
  have hminus : ∀ {x y : Float} {n : Nat} {f : Int}, Binary.ofFloat y = .finite false n f →
      '-' :: sourceChars x ≠ sourceChars y := fun hy h => by
    obtain ⟨c, cs, hcs, hc⟩ := (readsBack_of_ofFloat hy).isDigit_head
    cases h.trans hcs
    cases hc
  have hsame : sourceChars u = sourceChars v → m = n ∧ e = f := fun h => by
    have hread := (readsBack_of_ofFloat hu).read
    rw [h, (readsBack_of_ofFloat hv).read] at hread
    cases hread
    rw [hu, Binary.finite.injEq] at hv
    exact hv.2
  obtain ⟨rfl, hxu⟩ | ⟨hm, hxu⟩ := hxu <;> obtain ⟨rfl, hyv⟩ | ⟨hn, hyv⟩ := hyv <;>
    rw [hxu, hyv] at h
  · obtain ⟨rfl, rfl⟩ := hsame (List.cons.inj h).2
    rfl
  · exact absurd h (hminus hv)
  · exact absurd h.symm (hminus hu)
  · obtain ⟨rfl, rfl⟩ := hsame h
    rw [hm, hn]

/-- **Integers of sixty-four bits with one text are rounded to one double.** -/
theorem ofInt_eq_of_sourceChars {a b : Int} (ha : FitsWord a) (hb : FitsWord b)
    (h : sourceChars (ofInt a) = sourceChars (ofInt b)) : ofInt a = ofInt b := by
  obtain ⟨m, e, hx, hm⟩ := ofFloat_ofInt ha
  obtain ⟨n, f, hy, hn⟩ := ofFloat_ofInt hb
  exact ofInt_eq_of_intRank (hm.symm.trans ((rank_eq_of_sourceChars hx hy h).trans hn))

end Decimal

end GatedRules
