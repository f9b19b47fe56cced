import NeuralGraph.Proofs.Binary32.Grid
import NeuralGraph.Proofs.Binary32.Order

/-!
# Rounding to binary32

A mantissa with its two residual bits says where an exact magnitude lies among the natural numbers and
the points halfway between them.  Shifting keeps this, so the rounded mantissa is a nearest natural
number on the scale that is shifted to, and the result is a nearest number of the grid.  Packing keeps
all results but the too large ones, which become infinite.
-/

namespace NeuralGraph.Binary32
set_option autoImplicit false

open Float.Model (UnpackedFloat Format totalExponent)
open Float.Model.UnpackedFloat

/-! ## Residual bits -/

/-- Where the mantissa and the residual bits say that `y` lies. -/
def Holds (em : ExtendedMantissa) (y : ℚ) : Prop :=
  match em with
  | ⟨m, false, false⟩ => y = m
  | ⟨m, false, true⟩ => m < y ∧ y < m + 1 / 2
  | ⟨m, true, false⟩ => y = m + 1 / 2
  | ⟨m, true, true⟩ => m + 1 / 2 < y ∧ y < m + 1

namespace Holds
variable {em : ExtendedMantissa} {y : ℚ}

theorem floor (h : Holds em y) : em.mantissa ≤ y ∧ y < em.mantissa + 1 := by
  obtain ⟨m, roundBit, stickyBit⟩ := em
  cases roundBit <;> cases stickyBit <;> simp only [Holds] at h <;> constructor <;> linarith

theorem shiftRightOne (h : Holds em y) : Holds em.shiftRightOne (y / 2) := by
  obtain ⟨m, roundBit, stickyBit⟩ := em
  rcases Nat.even_or_odd' m with ⟨n, rfl | rfl⟩
  · have half : 2 * n / 2 = n := by omega
    have bit : (2 * n % 2 != 0) = false := by simp
    cases roundBit <;> cases stickyBit <;>
      simp only [Holds, ExtendedMantissa.shiftRightOne, half, bit, Bool.or_false, Bool.or_true,
        Nat.cast_mul, Nat.cast_ofNat] at h ⊢
    · linarith
    all_goals constructor <;> linarith
  · have half : (2 * n + 1) / 2 = n := by omega
    have bit : ((2 * n + 1) % 2 != 0) = true := by simp [Nat.add_mod]
    cases roundBit <;> cases stickyBit <;>
      simp only [Holds, ExtendedMantissa.shiftRightOne, half, bit, Bool.or_false, Bool.or_true,
        Nat.cast_mul, Nat.cast_ofNat, Nat.cast_add, Nat.cast_one] at h ⊢
    · linarith
    all_goals constructor <;> linarith

theorem shiftRight (h : Holds em y) (n : ℕ) : Holds (em >>> n) (y / 2 ^ n) := by
  induction n with
  | zero =>
    rw [pow_zero, div_one]
    exact h
  | succ n ih =>
    rw [pow_succ, ← div_div]
    exact ih.shiftRightOne

theorem near (h : Holds em y) (k : ℤ) : |(em.roundedMantissa : ℚ) - y| ≤ |k - y| := by
  obtain ⟨m, roundBit, stickyBit⟩ := em
  have apart : (k : ℚ) ≤ m ∨ (m : ℚ) + 1 ≤ k := by
    rcases le_or_gt k (m : ℤ) with below | above
    · exact .inl (by exact_mod_cast below)
    · exact .inr (by exact_mod_cast above)
  cases roundBit <;> cases stickyBit <;>
    simp only [Holds, ExtendedMantissa.roundedMantissa, ExtendedMantissa.accuracy,
      Accuracy.roundToNearestEven] at h ⊢
  · rw [h, sub_self, abs_zero]
    exact abs_nonneg _
  · rw [abs_of_nonpos (by linarith)]
    rcases apart with below | above
    · exact le_abs.mpr (.inr (by linarith))
    · exact le_abs.mpr (.inl (by linarith))
  · have even : (m % 2 : ℕ) = 0 ∨ (m % 2 : ℕ) = 1 := by omega
    have halfway : |((m + m % 2 : ℕ) : ℚ) - y| = 1 / 2 := by
      rcases even with bit | bit
      · rw [bit, h, abs_of_nonpos (by simp)]
        simp
      · rw [bit, h, abs_of_nonneg (by norm_num)]
        norm_num
    rw [halfway]
    rcases apart with below | above
    · exact le_abs.mpr (.inr (by linarith))
    · exact le_abs.mpr (.inl (by linarith))
  · push_cast
    rw [abs_of_nonneg (by linarith)]
    rcases apart with below | above
    · exact le_abs.mpr (.inr (by linarith))
    · exact le_abs.mpr (.inl (by linarith))

end Holds

/-! ## Shifts -/

theorem holds_exact (m : ℕ) : Holds (.ofMantissaAndAccuracy m .exact) m := rfl

theorem targetExponent_eq (m : ℕ) (e : ℤ) :
    Format.binary32.targetExponent (totalExponent m e) = max (m.log2 + e - 23) (-149) := by
  have digits : Format.binary32.mantissaBits = 24 := rfl
  have least : Format.binary32.minExponent = -149 := rfl
  rw [Format.targetExponent, totalExponent, digits, least]
  push_cast
  omega

theorem floor_of_ofMantissaAndAccuracy {m : ℕ} {acc : Accuracy} {y : ℚ}
    (h : Holds (.ofMantissaAndAccuracy m acc) y) : (m : ℚ) ≤ y ∧ y < m + 1 := by
  have bounds := h.floor
  cases acc with
  | exact => exact bounds
  | inexact place => cases place <;> exact bounds

/-- The first shift goes to the scale of 24 digits, or to the least one. -/
theorem shift_spec {m : ℕ} {e : ℤ} {acc : Accuracy} {y : ℚ} (wide : 2 ^ 23 ≤ m ∨ e ≤ -149)
    (h : Holds (.ofMantissaAndAccuracy m acc) y) :
    ∃ em t x, shiftToTargetExponent .binary32 m e acc = (em, t) ∧ Holds em x ∧
      x * 2 ^ t = y * 2 ^ e ∧ -149 ≤ t ∧ (2 ^ 23 ≤ x ∨ t = -149) ∧ x < 2 ^ 24 := by
  obtain ⟨low, high⟩ := floor_of_ofMantissaAndAccuracy h
  have target := targetExponent_eq m e
  have large : 2 ^ 23 ≤ m → 23 ≤ m.log2 := fun le => (Nat.le_log2 (by omega)).mpr le
  obtain ⟨n, steps⟩ : ∃ n : ℕ, max ((m.log2 : ℤ) + e - 23) (-149) = e + n :=
    ⟨(max ((m.log2 : ℤ) + e - 23) (-149) - e).toNat, by
      have : e ≤ max ((m.log2 : ℤ) + e - 23) (-149) := by
        rcases wide with wide | wide
        · have := large wide
          omega
        · omega
      omega⟩
  have unit : (0 : ℚ) < 2 ^ n := by positivity
  refine ⟨_, e + n, y / 2 ^ n, ?_, h.shiftRight n, ?_, by omega, ?_, ?_⟩
  · rw [shiftToTargetExponent, target, steps, shiftToExponent]
    simp
  · rw [two_zpow_add, zpow_natCast]
    field_simp
  · by_cases lowest : e + (n : ℤ) = -149
    · exact .inr lowest
    · left
      have digits : m.log2 = 23 + n := by omega
      have leading := Nat.log2_self_le (n := m) (by rintro rfl; simp at digits; omega)
      rw [digits, pow_add] at leading
      rw [le_div_iff₀ unit]
      exact le_trans (by exact_mod_cast leading) low
  · have digits : m.log2 + 1 ≤ 24 + n := by omega
    have next : m + 1 ≤ 2 ^ 24 * 2 ^ n := by
      rw [← pow_add]
      exact Nat.lt_log2_self.trans_le (Nat.pow_le_pow_right (by norm_num) digits)
    rw [div_lt_iff₀ unit]
    exact lt_of_lt_of_le high (by exact_mod_cast next)

/-- After rounding nothing is left to shift, unless the mantissa has come to have one more digit. -/
theorem shift_again {r : ℕ} {t : ℤ} (least : -149 ≤ t) (small : r ≤ 2 ^ 24) :
    shiftToTargetExponent .binary32 r t .exact =
      if r = 2 ^ 24 then (⟨2 ^ 23, false, false⟩, t + 1) else (⟨r, false, false⟩, t) := by
  have target := targetExponent_eq r t
  rw [shiftToTargetExponent, target, shiftToExponent]
  split_ifs with full
  · subst full
    have steps : max (((2 ^ 24 : ℕ).log2 : ℤ) + t - 23) (-149) - t = 1 := by
      rw [Nat.log2_two_pow]
      omega
    rw [steps]
    rfl
  · have digits : r.log2 ≤ 23 := by
      by_cases zero : r = 0
      · rw [zero]
        decide
      · have := (Nat.log2_lt zero).mpr (by omega : r < 2 ^ 24)
        omega
    have steps : (max ((r.log2 : ℤ) + t - 23) (-149) - t).toNat = 0 := by omega
    rw [steps]
    simp only [Nat.cast_zero, add_zero]
    rfl

/-! ## Results -/

/-- `v` with a sign. -/
def signed (s : Sign) (v : ℚ) : ℚ :=
  match s with
  | .negative => -v
  | .positive => v

/-- A zero or a finite number in the form that packing asks for, but for its size, and its value. -/
inductive Canonical : UnpackedFloat → ℚ → Prop where
  | zero (s : Sign) : Canonical (.zero s) 0
  | finite (s : Sign) {m : ℕ} {e : ℤ} (positive : 0 < m) (small : m < 2 ^ 24) (least : -149 ≤ e)
      (normal : 2 ^ 23 ≤ m ∨ e = -149) : Canonical (.finite s m e positive) (signed s (m * 2 ^ e))

theorem Nearest.signed {y v : ℚ} (h : Nearest y v) (s : Sign) :
    Nearest (signed s y) (signed s v) := by
  cases s with
  | negative => exact h.neg
  | positive => exact h

theorem canonical_roundWithAccuracy {m : ℕ} {e : ℤ} {acc : Accuracy} {y : ℚ} (s : Sign)
    (wide : 2 ^ 23 ≤ m ∨ e ≤ -149) (h : Holds (.ofMantissaAndAccuracy m acc) y) :
    ∃ v, Canonical (roundWithAccuracy .binary32 s m e acc) v ∧ Nearest (signed s (y * 2 ^ e)) v := by
  obtain ⟨em, t, x, first, holds, value, least, reaches, below⟩ := shift_spec wide h
  have closest := (nearest_scaled least reaches below holds.near).signed s
  rw [value] at closest
  have few : em.roundedMantissa ≤ 2 ^ 24 := by
    have top := holds.near (2 ^ 24)
    rw [Int.cast_pow, Int.cast_ofNat] at top
    exact_mod_cast le_of_near top below.le
  have normal : 2 ^ 23 ≤ em.roundedMantissa ∨ t = -149 := by
    refine reaches.imp_left fun reaches => ?_
    have bottom := holds.near (2 ^ 23)
    rw [Int.cast_pow, Int.cast_ofNat] at bottom
    exact_mod_cast ge_of_near bottom reaches
  have result : roundWithAccuracy .binary32 s m e acc =
      if zero : em.roundedMantissa = 0 then .zero s
      else if em.roundedMantissa = 2 ^ 24 then .finite s (2 ^ 23) (t + 1) (by norm_num)
      else .finite s em.roundedMantissa t (Nat.pos_of_ne_zero zero) := by
    simp only [roundWithAccuracy, first, shift_again least few]
    split_ifs <;> simp_all
  refine ⟨_, ?_, closest⟩
  rw [result]
  split_ifs with zero full
  · rw [zero, Nat.cast_zero, zero_mul]
    cases s
    · rw [signed, neg_zero]
      exact .zero _
    · exact .zero _
  · have carry : ((2 ^ 24 : ℕ) : ℚ) * 2 ^ t = ((2 ^ 23 : ℕ) : ℚ) * 2 ^ (t + 1) := by
      rw [two_zpow_add]
      push_cast
      ring
    rw [full, carry]
    exact .finite s _ (by norm_num) (by omega) (.inl le_rfl)
  · exact .finite s _ (by omega) least normal

theorem decreaseExponent_eq (m : ℕ) (e t : ℤ) :
    decreaseExponent m e t = (m * 2 ^ (e - t).toNat, min e t) := by
  rw [decreaseExponent, Nat.shiftLeft_eq, Prod.mk.injEq]
  exact ⟨rfl, by omega⟩

theorem decreaseExponent_value (m : ℕ) (e t : ℤ) :
    ((m * 2 ^ (e - t).toNat : ℕ) : ℚ) * 2 ^ min e t = m * 2 ^ e := by
  obtain ⟨n, steps⟩ : ∃ n : ℕ, (e - t).toNat = n ∧ e = n + min e t := ⟨_, rfl, by omega⟩
  rw [steps.1]
  conv_rhs => rw [steps.2, two_zpow_add, zpow_natCast]
  push_cast
  ring

theorem canonical_round {m : ℕ} (s : Sign) (e : ℤ) (positive : 0 < m) :
    ∃ v, Canonical (UnpackedFloat.round .binary32 s m e) v ∧ Nearest (signed s (m * 2 ^ e)) v := by
  rw [UnpackedFloat.round, targetExponent_eq, decreaseExponent_eq, ← decreaseExponent_value m e
    (max (m.log2 + e - 23) (-149))]
  refine canonical_roundWithAccuracy s ?_ (holds_exact _)
  by_cases lowest : min e (max ((m.log2 : ℤ) + e - 23) (-149)) ≤ -149
  · exact .inr lowest
  · left
    have digits : 23 ≤ m.log2 + (e - max ((m.log2 : ℤ) + e - 23) (-149)).toNat := by omega
    calc 2 ^ 23 ≤ 2 ^ (m.log2 + (e - max ((m.log2 : ℤ) + e - 23) (-149)).toNat) :=
          Nat.pow_le_pow_right (by norm_num) digits
      _ = 2 ^ m.log2 * 2 ^ (e - max ((m.log2 : ℤ) + e - 23) (-149)).toNat := pow_add _ _ _
      _ ≤ m * 2 ^ (e - max ((m.log2 : ℤ) + e - 23) (-149)).toNat :=
          Nat.mul_le_mul_right _ (Nat.log2_self_le positive.ne')

theorem canonical_normalize (m e : ℤ) (s : Sign) :
    ∃ v, Canonical (UnpackedFloat.normalize .binary32 m e s) v ∧ Nearest (m * 2 ^ e) v := by
  rw [UnpackedFloat.normalize]
  rcases lt_trichotomy m 0 with negative | rfl | positive
  · rw [Int.compare_eq_lt.mpr negative]
    obtain ⟨v, form, closest⟩ := canonical_round .negative e (m := (-m).toNat) (by omega)
    have size : (((-m).toNat : ℕ) : ℚ) = -m := by
      exact_mod_cast Int.toNat_of_nonneg (by omega : 0 ≤ -m)
    rw [signed, size, neg_mul, neg_neg] at closest
    exact ⟨v, form, closest⟩
  · refine ⟨0, .zero s, ?_⟩
    rw [Int.cast_zero, zero_mul]
    exact .of_mem zero_mem_grid
  · rw [Int.compare_eq_gt.mpr positive]
    obtain ⟨v, form, closest⟩ := canonical_round .positive e (m := m.toNat) (by omega)
    have size : ((m.toNat : ℕ) : ℚ) = m := by exact_mod_cast Int.toNat_of_nonneg positive.le
    rw [signed, size] at closest
    exact ⟨v, form, closest⟩

/-! ## Packing -/

theorem unpackSign_packComponents {spec : Format} (s : Sign) (e : BitVec spec.exponentBits)
    (m : BitVec spec.mantissaBitsWithoutImplicit) :
    unpackSign (packComponents spec s e m) = s.toBitVec := by
  refine BitVec.eq_of_getLsbD_eq fun i hi => ?_
  obtain rfl : i = 0 := by omega
  simp [unpackSign, packComponents, BitVec.getLsbD_append, BitVec.getElem_append]

theorem ofBitVec_toBitVec (s : Sign) : Sign.ofBitVec s.toBitVec = s := by
  cases s <;> rfl

theorem unpack_packedInfinity (s : Sign) :
    unpack .binary32 (packedInfinity .binary32 s) = .infinity s := by
  cases s <;> rfl

theorem unpack_packedZero (s : Sign) : unpack .binary32 (packedZero .binary32 s) = .zero s := by
  cases s <;> rfl

theorem finite_congr {s : Sign} {m m' : ℕ} {e e' : ℤ} {positive : 0 < m} {positive' : 0 < m'}
    (hm : m = m') (he : e = e') :
    UnpackedFloat.finite s m e positive = .finite s m' e' positive' := by
  subst hm he
  rfl

theorem unpack_normal {m e : ℕ} (s : Sign) (low : 2 ^ 23 ≤ m) (high : m < 2 ^ 24) (hp : 0 < e)
    (he : e < 255) :
    unpack .binary32 (packComponents .binary32 s (BitVec.ofNat 8 e) (BitVec.ofNat 23 m)) =
      .finite s m ((e : ℤ) - 150) (by omega) := by
  have bias : Format.binary32.exponentBias = 127 := rfl
  have field : (BitVec.ofNat 8 e).toNat = e := by
    rw [BitVec.toNat_ofNat]
    exact Nat.mod_eq_of_lt (by omega)
  have notTop : BitVec.ofNat 8 e ≠ -1#8 := fun h => by
    have := congrArg BitVec.toNat h
    rw [field] at this
    simp at this
    omega
  have notBottom : BitVec.ofNat 8 e ≠ 0#8 := fun h => by
    have := congrArg BitVec.toNat h
    rw [field] at this
    simp at this
    omega
  have whole : (1#1 ++ BitVec.ofNat 23 m).toNat = m := by
    have last : m % 2 ^ 23 < 2 ^ 23 := Nat.mod_lt _ (by norm_num)
    rw [BitVec.toNat_append, BitVec.toNat_ofNat m 23, ← Nat.shiftLeft_add_eq_or_of_lt last]
    show 2 ^ 23 + m % 2 ^ 23 = m
    omega
  rw [unpack]
  simp only [unpackMantissa_packComponents, unpackExponent_packComponents,
    unpackSign_packComponents, ofBitVec_toBitVec, if_neg notTop, if_neg notBottom, field, bias]
  exact finite_congr whole (by omega)

theorem unpack_subnormal {m : ℕ} (s : Sign) (positive : 0 < m) (small : m < 2 ^ 23) :
    unpack .binary32 (packComponents .binary32 s 0#8 (BitVec.ofNat 23 m)) =
      .finite s m (-149) positive := by
  have bias : Format.binary32.exponentBias = 127 := rfl
  have mantissa : (BitVec.ofNat 23 m).toNat = m := by
    rw [BitVec.toNat_ofNat]
    exact Nat.mod_eq_of_lt small
  have nonzero : BitVec.ofNat 23 m ≠ 0#23 := fun h => by
    have := congrArg BitVec.toNat h
    rw [mantissa] at this
    simp at this
    omega
  rw [unpack]
  simp only [unpackMantissa_packComponents, unpackExponent_packComponents,
    unpackSign_packComponents, ofBitVec_toBitVec, if_neg (by decide : 0#8 ≠ -1#8), if_true,
    dif_neg nonzero, bias]
  exact finite_congr mantissa (by simp)

/-- A finite number that is not too large comes back from its bits. -/
theorem unpack_pack {m : ℕ} {e : ℤ} (s : Sign) (positive : 0 < m) (small : m < 2 ^ 24)
    (least : -149 ≤ e) (normal : 2 ^ 23 ≤ m ∨ e = -149) (greatest : e ≤ 104) :
    unpack .binary32 (pack .binary32 (.finite s m e positive)) = .finite s m e positive := by
  have bias : Format.binary32.exponentBias = 127 := rfl
  have digits : Format.binary32.mantissaBits = 24 := rfl
  rw [pack, bias, digits]
  dsimp only
  rw [if_neg (by omega)]
  by_cases leading : 2 ^ 23 ≤ m
  · have log : m.log2 + 1 = 24 := by
      have := (Nat.le_log2 positive.ne').mpr leading
      have := (Nat.log2_lt positive.ne').mpr small
      omega
    rw [if_pos log, unpack_normal s leading small (by omega) (by omega)]
    exact finite_congr rfl (by omega)
  · have log : m.log2 + 1 ≠ 24 := by
      have := (Nat.log2_lt positive.ne').mpr (not_le.mp leading)
      omega
    rw [if_neg log, unpack_subnormal s positive (not_le.mp leading)]
    exact finite_congr rfl (normal.resolve_left leading).symm

theorem pack_overflow {m : ℕ} {e : ℤ} (s : Sign) (positive : 0 < m) (large : 105 ≤ e) :
    pack .binary32 (.finite s m e positive) = packedInfinity .binary32 s := by
  have bias : Format.binary32.exponentBias = 127 := rfl
  rw [pack, bias]
  dsimp only
  rw [if_pos (by omega)]

end NeuralGraph.Binary32
