import GatedRules.Decimal.Binary
import Mathlib

/-!
# Rounding to doubles

`nearest` gives the double nearest to a quotient, and `nearestScaled` the double nearest to a
decimal. A double `m * 2 ^ e` is the nearest one to every number of an interval around it
(`Decimal.Rounds`), which reaches half a unit up and down; below a power of two the doubles are
twice as dense, and there it reaches down a quarter of a unit only. A number of the interval is
scaled by the unit of the double, or by half of it right below a power of two, and what is then
nearest to it has the bits of the double (`Decimal.Rounds.exists_near`).

Numbers are compared as rational numbers. The units of the doubles are powers of two with integers
as exponents, and `unitExponent` finds the one in which a number has as many digits as a double.
-/

namespace GatedRules

namespace Decimal

/-! ### Significands and exponents -/

/-- The significand and the exponent of a finite double. -/
structure Canonical (m : Nat) (e : Int) : Prop where
  lt : m < 2 * hidden
  least_le : leastExponent ≤ e
  le : e ≤ 971
  normal : hidden ≤ m ∨ e = leastExponent

/-- The bits of the double `m * 2 ^ e`. -/
def bitsOf (m : Nat) (e : Int) : Nat :=
  (e - leastExponent).toNat * hidden + m

theorem Canonical.bits_lt {m : Nat} {e : Int} (h : Canonical m e) : bitsOf m e < 2047 * hidden := by
  have hle := h.le
  have hlt := h.lt
  unfold bitsOf leastExponent hidden at *
  omega

theorem ofFloat_finite {x : Float} {negative : Bool} {m : Nat} {e : Int}
    (h : Binary.ofFloat x = .finite negative m e) :
    Canonical m e ∧ x.toBits.toNat = (if negative then 2048 * hidden else 0) + bitsOf m e := by
  have hbits : x.toBits.toNat < 2 ^ 64 := x.toBits.toNat_lt
  unfold Binary.ofFloat at h
  generalize x.toBits.toNat = bits at h hbits
  have hsign : (if decide (bits / (2048 * hidden) = 1) then 2048 * hidden else 0) =
      bits / (2048 * hidden) * (2048 * hidden) := by
    have hle : bits / (2048 * hidden) ≤ 1 := by unfold hidden; omega
    obtain h0 | h1 := Nat.le_one_iff_eq_zero_or_eq_one.1 hle
    · rw [h0, if_neg (by decide), Nat.zero_mul]
    · rw [h1, if_pos (by decide), Nat.one_mul]
  dsimp only at h
  split at h
  · split at h <;> cases h
  · split at h
    · cases h
      rw [hsign]
      refine ⟨⟨?_, ?_, ?_, .inr rfl⟩, ?_⟩ <;>
        simp only [bitsOf, leastExponent, hidden] at * <;> omega
    · cases h
      rw [hsign]
      refine ⟨⟨?_, ?_, ?_, .inl ?_⟩, ?_⟩ <;>
        simp only [bitsOf, leastExponent, hidden] at * <;> omega

section

open Float.Model UnpackedFloat

theorem toNat_unpackExponent (b : BitVec Format.binary64.numBits) :
    (unpackExponent b).toNat = b.toNat / hidden % 2048 := by
  unfold unpackExponent
  rw [BitVec.toNat_cast, BitVec.extractLsb_toNat, Nat.shiftRight_eq_div_pow]
  rfl

theorem toNat_unpackMantissa (b : BitVec Format.binary64.numBits) :
    (unpackMantissa b).toNat = b.toNat % hidden := by
  unfold unpackMantissa
  rw [BitVec.toNat_cast, BitVec.extractLsb_toNat]
  rfl

/-- Bits that are those of infinity at most, the sign apart, are the bits of a double. -/
theorem toBits_ofBits {bits : UInt64} (h : bits.toNat % (2048 * hidden) ≤ 2047 * hidden) :
    (Float.ofBits bits).toBits = bits := by
  have hnumber : @isNaNBits Format.binary64 bits.toBitVec = false := by
    refine decide_eq_false fun ⟨hexponent, hmantissa⟩ => hmantissa (BitVec.eq_of_toNat_eq ?_)
    have hfield := toNat_unpackExponent bits.toBitVec
    rw [hexponent] at hfield
    rw [toNat_unpackMantissa]
    change 2047 = bits.toNat / hidden % 2048 at hfield
    change bits.toNat % hidden = 0
    unfold hidden at *
    omega
  have hpack := @pack_unpack Format.binary64 bits.toBitVec (by decide)
  rw [hnumber, if_neg Bool.false_ne_true] at hpack
  exact congrArg UInt64.ofBitVec hpack

theorem ofFloat_of_isFinite {x : Float} (h : x.isFinite = true) :
    ∃ negative m e, Binary.ofFloat x = .finite negative m e := by
  have hfield : x.toBits.toNat / hidden % 2048 ≠ 2047 := fun hfield => by
    have hexponent : @unpackExponent Format.binary64 x.toBits.toBitVec = -1#11 :=
      BitVec.eq_of_toNat_eq ((toNat_unpackExponent _).trans hfield)
    change (UnpackedFloat.unpack Format.binary64 x.toBits.toBitVec).isFinite = true at h
    unfold UnpackedFloat.unpack at h
    dsimp only at h
    rw [if_pos hexponent] at h
    split at h <;> cases h
  unfold Binary.ofFloat
  dsimp only
  rw [if_neg hfield]
  split <;> exact ⟨_, _, _, rfl⟩

end

/-! ### Rounding to the nearest -/

/-- A rational number is nearer to a natural number than to any other, or half way from it to the
next one and the natural number is even. -/
structure Near (m : Nat) (v : Rat) : Prop where
  lower : (m : Rat) - 1 / 2 ≤ v
  upper : v ≤ m + 1 / 2
  strict : m % 2 = 1 → (m : Rat) - 1 / 2 < v ∧ v < m + 1 / 2

theorem roundQuotient_eq {num den m : Nat} (hden : 0 < den) (h : Near m (num / den)) :
    roundQuotient num den = m := by
  have hden' : (0 : Rat) < den := by exact_mod_cast hden
  obtain ⟨hlower, hupper, hstrict⟩ := h
  rw [le_div_iff₀ hden'] at hlower
  rw [div_le_iff₀ hden'] at hupper
  rw [lt_div_iff₀ hden', div_lt_iff₀ hden'] at hstrict
  have hnum : (num : Rat) = den * (num / den : Nat) + (num % den : Nat) := by
    exact_mod_cast (Nat.div_add_mod num den).symm
  have hmod : num % den < den := Nat.mod_lt num hden
  unfold roundQuotient
  dsimp only
  generalize num / den = q at *
  generalize num % den = r at *
  have hmod' : (r : Rat) < den := by exact_mod_cast hmod
  -- the quotient is `q + r / den`
  have hm : (m : Rat) - 1 / 2 < q + 1 :=
    lt_of_mul_lt_mul_right (hlower.trans_lt (by linarith)) hden'.le
  have hq : (q : Rat) ≤ m + 1 / 2 :=
    le_of_mul_le_mul_right (le_trans (by linarith) hupper) hden'
  have hm' : m < q + 2 := by exact_mod_cast (by linarith : (m : Rat) < q + 2)
  have hq' : q < m + 1 := by exact_mod_cast (by linarith : (q : Rat) < m + 1)
  obtain rfl | rfl : m = q ∨ m = q + 1 := by omega
  · have hr : 2 * r ≤ den := by
      have : 2 * (r : Rat) ≤ den := by linarith
      exact_mod_cast this
    have hr' : m % 2 = 1 → 2 * r < den := fun hm => by
      have : 2 * (r : Rat) < den := by linarith [(hstrict hm).2]
      exact_mod_cast this
    split <;> (try split) <;> omega
  · push_cast at *
    have hr : den ≤ 2 * r := by
      have : (den : Rat) ≤ 2 * r := by linarith
      exact_mod_cast this
    have hr' : (q + 1) % 2 = 1 → den < 2 * r := fun hm => by
      have : (den : Rat) < 2 * r := by linarith [(hstrict hm).1]
      exact_mod_cast this
    split <;> (try split) <;> omega

/-! ### Units -/

theorem scaled_den_pos {num den : Nat} (hden : 0 < den) (e : Int) : 0 < (scaled num den e).2 := by
  unfold scaled
  split
  · exact Nat.mul_pos hden (Nat.pow_pos (by decide))
  · exact hden

theorem scaled_div (num den : Nat) (e : Int) :
    ((scaled num den e).1 / (scaled num den e).2 : Rat) = num / den / 2 ^ e := by
  unfold scaled
  split
  · obtain ⟨k, rfl⟩ := Int.eq_ofNat_of_zero_le ‹_›
    rw [Int.toNat_natCast, Nat.pow_eq, zpow_natCast, div_div]
    push_cast
    rfl
  · obtain ⟨k, rfl⟩ := Int.exists_eq_neg_ofNat (not_le.1 ‹_›).le
    rw [neg_neg, Int.toNat_natCast, Nat.pow_eq, zpow_neg, zpow_natCast, div_inv_eq_mul,
      div_mul_eq_mul_div]
    push_cast
    rfl

theorem log2_bounds {n : Nat} (h : 0 < n) :
    (2 : Rat) ^ (n.log2 : Int) ≤ n ∧ (n : Rat) < 2 ^ (n.log2 + 1 : Int) := by
  refine ⟨?_, ?_⟩
  · rw [zpow_natCast]
    exact_mod_cast Nat.log2_self_le h.ne'
  · have hlt : n < 2 ^ (n.log2 + 1) := Nat.lt_log2_self
    exact_mod_cast hlt

theorem div_bounds {num den : Nat} (hnum : 0 < num) (hden : 0 < den) :
    (2 : Rat) ^ (num.log2 - den.log2 - 1 : Int) ≤ num / den ∧
      (num / den : Rat) < 2 ^ (num.log2 - den.log2 + 1 : Int) := by
  have hden' : (0 : Rat) < den := by exact_mod_cast hden
  obtain ⟨hnlow, hnhigh⟩ := log2_bounds hnum
  obtain ⟨hdlow, hdhigh⟩ := log2_bounds hden
  have hlow : (2 : Rat) ^ (num.log2 - den.log2 - 1 : Int) =
      2 ^ (num.log2 : Int) / 2 ^ (den.log2 + 1 : Int) := by
    rw [← zpow_sub₀ two_ne_zero]
    congr 1
    ring
  have hhigh : (2 : Rat) ^ (num.log2 - den.log2 + 1 : Int) =
      2 ^ (num.log2 + 1 : Int) / 2 ^ (den.log2 : Int) := by
    rw [← zpow_sub₀ two_ne_zero]
    congr 1
    ring
  rw [hlow, hhigh]
  exact ⟨div_le_div₀ (by positivity) hnlow hden' hdhigh.le,
    div_lt_div₀ hnhigh hdlow (by positivity) (by positivity)⟩

theorem hidden_mul_zpow (e : Int) : (hidden : Rat) * 2 ^ e = 2 ^ (e + 52) := by
  rw [zpow_add₀ two_ne_zero, mul_comm]
  norm_num [hidden]

theorem two_mul_hidden_mul_zpow (e : Int) : (2 * hidden : Rat) * 2 ^ e = 2 ^ (e + 53) := by
  rw [mul_assoc, hidden_mul_zpow, ← zpow_one_add₀ two_ne_zero]
  congr 1
  ring

/-- A positive quotient is at least `2 ^ 52` in its unit, or the unit is the least one, and it is
always less than `2 ^ 53`. -/
theorem unitExponent_spec {num den : Nat} (hnum : 0 < num) (hden : 0 < den) :
    leastExponent ≤ unitExponent num den ∧
      (num / den : Rat) < 2 ^ (unitExponent num den + 53) ∧
      (unitExponent num den = leastExponent ∨
        (2 : Rat) ^ (unitExponent num den + 52) ≤ num / den) := by
  obtain ⟨hlow, hhigh⟩ := div_bounds hnum hden
  unfold unitExponent
  dsimp only
  generalize hguess : (num.log2 - den.log2 - 52 : Int) = guess
  have hunit : (scaled num den guess).1 < hidden * (scaled num den guess).2 ↔
      (num / den : Rat) < hidden * 2 ^ guess := by
    have hpos : (0 : Rat) < (scaled num den guess).2 := by exact_mod_cast scaled_den_pos hden guess
    rw [← div_lt_iff₀ (by positivity), ← scaled_div, div_lt_iff₀ hpos]
    norm_cast
  rw [hidden_mul_zpow] at hunit
  -- the unit found, before it is compared with the least one
  obtain ⟨unit, hfound, hle, hlt⟩ : ∃ unit : Int,
      (if (scaled num den guess).1 < hidden * (scaled num den guess).2 then guess - 1
        else guess) = unit ∧ (2 : Rat) ^ (unit + 52) ≤ num / den ∧
        (num / den : Rat) < 2 ^ (unit + 53) := by
    refine ⟨_, rfl, ?_⟩
    split
    · refine ⟨?_, ?_⟩
      · rwa [show guess - 1 + 52 = (num.log2 - den.log2 - 1 : Int) by omega]
      · rw [show guess - 1 + 53 = guess + 52 by omega]
        exact hunit.1 ‹_›
    · refine ⟨?_, ?_⟩
      · exact not_lt.1 fun hc => ‹¬ _› (hunit.2 hc)
      · rwa [show guess + 53 = (num.log2 - den.log2 + 1 : Int) by omega]
  rw [hfound]
  refine ⟨le_max_left _ _, hlt.trans_le (zpow_le_zpow_right₀ one_le_two ?_), ?_⟩
  · have := le_max_right leastExponent unit
    omega
  · obtain h | h := le_total leastExponent unit
    · rw [max_eq_right h]
      exact .inr hle
    · exact .inl (max_eq_left h)

/-! ### The double nearest to a quotient -/

/-- How far below a double, in its unit, the decimals begin that round to it. Below a power of two
the doubles are twice as dense. -/
def gap (m : Nat) (e : Int) : Rat :=
  if m = hidden ∧ leastExponent < e then 1 / 4 else 1 / 2

/-- A number rounds to the double `m * 2 ^ e`. -/
structure Rounds (m : Nat) (e : Int) (v : Rat) : Prop where
  lower : (m - gap m e) * 2 ^ e ≤ v
  upper : v ≤ (m + 1 / 2) * 2 ^ e
  strict : m % 2 = 1 → (m - gap m e) * 2 ^ e < v ∧ v < (m + 1 / 2) * 2 ^ e

theorem gap_le (m : Nat) (e : Int) : gap m e ≤ 1 / 2 := by
  unfold gap
  split <;> norm_num

theorem gap_pos (m : Nat) (e : Int) : 0 < gap m e := by
  unfold gap
  split <;> norm_num

theorem Rounds.near {m : Nat} {e : Int} {v : Rat} (h : Rounds m e v) : Near m (v / 2 ^ e) := by
  have hpos : (0 : Rat) < 2 ^ e := by positivity
  have hgap : ((m : Rat) - 1 / 2) * 2 ^ e ≤ (m - gap m e) * 2 ^ e :=
    mul_le_mul_of_nonneg_right (by linarith [gap_le m e]) hpos.le
  refine ⟨?_, ?_, fun hm => ⟨?_, ?_⟩⟩
  · rw [le_div_iff₀ hpos]
    exact hgap.trans h.lower
  · rw [div_le_iff₀ hpos]
    exact h.upper
  · rw [lt_div_iff₀ hpos]
    exact hgap.trans_lt (h.strict hm).1
  · rw [div_lt_iff₀ hpos]
    exact (h.strict hm).2

theorem Rounds.lt {m : Nat} {e : Int} {v : Rat} (hc : Canonical m e) (h : Rounds m e v) :
    v < 2 ^ (e + 53) := by
  have hm : (m : Rat) + 1 ≤ 2 * hidden := by exact_mod_cast hc.lt
  rw [← two_mul_hidden_mul_zpow]
  exact h.upper.trans_lt (mul_lt_mul_of_pos_right (by linarith) (by positivity))

/-- A number that rounds to a power of two from below. -/
theorem Rounds.near_of_lt {m : Nat} {e : Int} {v : Rat} (hc : Canonical m e) (h : Rounds m e v)
    (he : leastExponent < e) (hv : v < 2 ^ (e + 52)) :
    m = hidden ∧ (2 : Rat) ^ (e + 51) ≤ v ∧ Near (2 * hidden) (v / 2 ^ (e - 1)) := by
  have hpos : (0 : Rat) < 2 ^ (e - 1) := by positivity
  have htwice : (2 : Rat) ^ e = 2 * 2 ^ (e - 1) := by
    rw [← zpow_one_add₀ two_ne_zero]
    congr 1
    ring
  have hm : m = hidden := by
    refine le_antisymm (Nat.lt_succ_iff.1 ?_) (hc.normal.resolve_right he.ne')
    have hless := h.lower.trans_lt hv
    rw [← hidden_mul_zpow] at hless
    have : (m : Rat) - gap m e < hidden := lt_of_mul_lt_mul_right hless (by positivity)
    have : (m : Rat) < hidden + 1 := by linarith [gap_le m e]
    exact_mod_cast this
  subst hm
  have hgap : gap hidden e = 1 / 4 := if_pos ⟨rfl, he⟩
  have hlower := h.lower
  rw [hgap, htwice] at hlower
  rw [← hidden_mul_zpow, htwice] at hv
  have hhidden : (1 : Rat) ≤ hidden := by norm_num [hidden]
  refine ⟨rfl, ?_, ?_, ?_, fun hodd => absurd hodd (by decide)⟩
  · rw [show e + 51 = e - 1 + 52 by ring, ← hidden_mul_zpow]
    nlinarith
  · push_cast
    rw [le_div_iff₀ hpos]
    nlinarith
  · push_cast
    rw [div_le_iff₀ hpos]
    nlinarith

/-- A number that rounds to a double is nearest to a natural number in its unit, and the two have
the bits of the double: the unit is that of the double, or half of it right below a power of two. -/
theorem Rounds.exists_near {m : Nat} {e unit : Int} {v : Rat} (hc : Canonical m e)
    (h : Rounds m e v) (hleast : leastExponent ≤ unit) (hlt : v < 2 ^ (unit + 53))
    (hle : unit = leastExponent ∨ (2 : Rat) ^ (unit + 52) ≤ v) :
    ∃ n, Near n (v / 2 ^ unit) ∧ bitsOf n unit = bitsOf m e := by
  have hunit : ∀ {a b : Int}, (2 : Rat) ^ a ≤ v → v < 2 ^ b → a < b := fun ha hb =>
    (zpow_lt_zpow_iff_right₀ one_lt_two).1 (ha.trans_lt hb)
  by_cases hbelow : leastExponent < e ∧ v < 2 ^ (e + 52)
  · obtain ⟨rfl, hv, hnear⟩ := h.near_of_lt hc hbelow.1 hbelow.2
    have hge := hunit hv hlt
    have hunit : unit = e - 1 := by
      obtain rfl | hle := hle
      · omega
      · have := hunit hle hbelow.2
        omega
    refine ⟨2 * hidden, hunit ▸ hnear, ?_⟩
    unfold bitsOf leastExponent hidden at *
    omega
  · have hunit : unit = e := by
      have hle' : unit ≤ e := by
        obtain rfl | hle := hle
        · exact hc.least_le
        · have := hunit hle (h.lt hc)
          omega
      by_cases he : leastExponent < e
      · have := hunit (not_lt.1 fun hv => hbelow ⟨he, hv⟩) hlt
        omega
      · omega
    exact ⟨m, hunit ▸ h.near, hunit ▸ rfl⟩

theorem Rounds.pos {m : Nat} {e : Int} {v : Rat} (hm : 0 < m) (h : Rounds m e v) : 0 < v := by
  have hm' : (1 : Rat) ≤ m := by exact_mod_cast hm
  exact (mul_pos (by linarith [gap_le m e]) (by positivity)).trans_le h.lower

/-- The double nearest to a number that rounds to a double is that double. -/
theorem nearestBits_of_rounds {num den m : Nat} {e : Int} (hc : Canonical m e) (hm : 0 < m)
    (hden : 0 < den) (h : Rounds m e (num / den)) : nearestBits num den = bitsOf m e := by
  have hden' : (0 : Rat) < den := by exact_mod_cast hden
  have hnum : 0 < num := by
    have hpos := h.pos hm
    rw [lt_div_iff₀ hden', zero_mul] at hpos
    exact_mod_cast hpos
  obtain ⟨hleast, hlt, hle⟩ := unitExponent_spec hnum hden
  obtain ⟨n, hnear, hbits⟩ := h.exists_near hc hleast hlt hle
  rw [← scaled_div] at hnear
  unfold nearestBits
  rw [if_neg hnum.ne']
  dsimp only
  rw [roundQuotient_eq (scaled_den_pos hden _) hnear]
  change min (2047 * hidden) (bitsOf n _) = _
  rw [hbits, min_eq_right hc.bits_lt.le]

theorem two_zpow_lt_ten_zpow : (2 : Rat) ^ (1300 : Int) < 10 ^ (400 : Int) := by
  have h : ((2 : Rat) ^ 13) ^ 100 < (10 ^ 4) ^ 100 := by gcongr; norm_num
  rw [← pow_mul, ← pow_mul, ← zpow_natCast, ← zpow_natCast] at h
  exact h

section

variable {x : Float} {m : Nat} {e : Int} (hx : Binary.ofFloat x = .finite false m e)

include hx

theorem nearest_of_rounds {num den : Nat} (hm : 0 < m) (hden : 0 < den)
    (h : Rounds m e (num / den)) : nearest false num den = x := by
  obtain ⟨hc, hbits⟩ := ofFloat_finite hx
  rw [if_neg Bool.false_ne_true, Nat.zero_add] at hbits
  unfold nearest
  dsimp only
  rw [if_neg Bool.false_ne_true, nearestBits_of_rounds hc hm hden h, ← hbits, UInt64.ofNat_toNat,
    Float.ofBits_toBits]

/-- A number that rounds to a positive double is in the range in which powers of ten are
computed. -/
theorem Rounds.range {v : Rat} (hm : 0 < m) (h : Rounds m e v) :
    (10 : Rat) ^ (-400 : Int) < v ∧ v < 10 ^ (400 : Int) := by
  obtain ⟨hc, -⟩ := ofFloat_finite hx
  have hm' : (1 : Rat) ≤ m := by exact_mod_cast hm
  have hle := hc.le
  have hleast : -1074 ≤ e := hc.least_le
  refine ⟨?_, ?_⟩
  · calc (10 : Rat) ^ (-400 : Int) < 2 ^ (-1300 : Int) := by
          rw [zpow_neg, zpow_neg]
          exact inv_strictAnti₀ (by positivity) two_zpow_lt_ten_zpow
      _ ≤ 2 ^ (-1 + -1074 : Int) := zpow_le_zpow_right₀ one_le_two (by omega)
      _ = 1 / 2 * 2 ^ (-1074 : Int) := by
        rw [zpow_add₀ two_ne_zero, zpow_neg_one, one_div]
      _ ≤ (m - gap m e) * 2 ^ e := by
        refine mul_le_mul (by linarith [gap_le m e]) ?_ (by positivity)
          (by linarith [gap_le m e])
        exact zpow_le_zpow_right₀ one_le_two hleast
      _ ≤ v := h.lower
  · calc v < 2 ^ (e + 53) := h.lt hc
      _ ≤ 2 ^ (1300 : Int) := zpow_le_zpow_right₀ one_le_two (by omega)
      _ < 10 ^ (400 : Int) := two_zpow_lt_ten_zpow

/-- **A decimal that rounds to a positive double is read as that double.** -/
theorem nearestScaled_of_rounds {digits : Nat} {exponent : Int} (hm : 0 < m)
    (h : Rounds m e (digits * 10 ^ exponent)) : nearestScaled false digits exponent = x := by
  obtain ⟨hlow, hhigh⟩ := h.range hx hm
  have hdigits : 0 < digits := by
    have hpos : (0 : Rat) < digits := pos_of_mul_pos_left (h.pos hm) (by positivity)
    exact_mod_cast hpos
  have hsmall : ¬ exponent < -400 - digits.log2 := fun hc => by
    have hlt : (digits : Rat) < 10 ^ (digits.log2 + 1 : Int) :=
      (log2_bounds hdigits).2.trans_le (zpow_le_zpow_left₀ (by omega) (by norm_num) (by norm_num))
    have hless : (digits : Rat) * 10 ^ exponent < 10 ^ (digits.log2 + 1 + exponent : Int) := by
      rw [zpow_add₀ (by norm_num)]
      exact mul_lt_mul_of_pos_right hlt (by positivity)
    have := (zpow_lt_zpow_iff_right₀ (by norm_num)).1 (hlow.trans hless)
    omega
  have hlarge : ¬ 400 < exponent := fun hc => by
    have hone : (1 : Rat) ≤ digits := by exact_mod_cast hdigits
    have hle : (10 : Rat) ^ exponent ≤ digits * 10 ^ exponent :=
      le_mul_of_one_le_left (by positivity) hone
    have := (zpow_lt_zpow_iff_right₀ (by norm_num)).1 (hle.trans_lt hhigh)
    omega
  unfold nearestScaled
  rw [if_neg (by omega), if_neg hlarge]
  split
  · obtain ⟨k, rfl⟩ := Int.eq_ofNat_of_zero_le ‹_›
    refine nearest_of_rounds hx hm Nat.one_pos ?_
    simpa using h
  · obtain ⟨k, rfl⟩ := Int.exists_eq_neg_ofNat (not_le.1 ‹_›).le
    refine nearest_of_rounds hx hm (Nat.pow_pos (by decide)) ?_
    simpa [div_eq_mul_inv] using h

end

/-! ### Signs -/

theorem nearestBits_le (num den : Nat) : nearestBits num den ≤ 2047 * hidden := by
  unfold nearestBits
  split
  · exact Nat.zero_le _
  · exact min_le_left _ _

theorem toNat_toBits_nearest (negative : Bool) (num den : Nat) :
    (nearest negative num den).toBits.toNat =
      (if negative then 2048 * hidden else 0) + nearestBits num den := by
  have hle := nearestBits_le num den
  have htoBits : ∀ {bits : Nat}, bits < 2 ^ 64 → bits % (2048 * hidden) ≤ 2047 * hidden →
      (Float.ofBits (UInt64.ofNat bits)).toBits.toNat = bits := fun {bits} hlt hbits => by
    have htoNat : (UInt64.ofNat bits).toNat = bits := UInt64.toNat_ofNat_of_lt' hlt
    rw [toBits_ofBits (htoNat.symm ▸ hbits), htoNat]
  unfold nearest
  dsimp only
  unfold hidden at *
  cases negative with
  | false =>
    rw [if_neg Bool.false_ne_true, if_neg Bool.false_ne_true, htoBits (by omega) (by omega),
      Nat.zero_add]
  | true => rw [if_pos rfl, if_pos rfl, htoBits (by omega) (by omega)]

/-- The double nearest to a quotient, if it is finite, has no sign. -/
theorem ofFloat_nearest {num den : Nat} (h : (nearest false num den).isFinite = true) :
    ∃ m e, Binary.ofFloat (nearest false num den) = .finite false m e := by
  obtain ⟨negative, m, e, hx⟩ := ofFloat_of_isFinite h
  cases negative with
  | false => exact ⟨m, e, hx⟩
  | true =>
    obtain ⟨-, hbits⟩ := ofFloat_finite hx
    have hle := nearestBits_le num den
    rw [toNat_toBits_nearest, if_pos rfl, if_neg Bool.false_ne_true] at hbits
    unfold hidden at *
    omega

end Decimal

end GatedRules
