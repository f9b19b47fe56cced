import NeuralGraph.Proofs.Binary32.Rounding

/-!
# Arithmetic on binary32

The value of a finite number is a rational number.  On finite operands, sums, differences, products
and quotients are the exact results rounded once: a nearest number of the grid, or an infinity where
that number has no place below `2 ^ 128`.
-/

namespace NeuralGraph.Binary32
set_option autoImplicit false

open Float.Model (UnpackedFloat Format)
open Float.Model.UnpackedFloat

/-! ## Values -/

/-- The value of what was read, zero for all that is not finite. -/
def valueOf : UnpackedFloat → ℚ
  | .finite s m e _ => signed s (m * 2 ^ e)
  | _ => 0

/-- The value of a finite number. -/
def value (x : Float32) : ℚ := valueOf x.toModel.unpack

/-- The sign of a number that is not zero. -/
def signOf (v : ℚ) : Sign := if v < 0 then .negative else .positive

/-- `r` is `y` after rounding. -/
inductive Rounds (y : ℚ) (r : Float32) : Prop where
  | finite (finite : r.isFinite = true) (nearest : Nearest y (value r))
  | infinite {v : ℚ} (nearest : Nearest y v) (large : 2 ^ 128 ≤ |v|)
      (infinite : r.toModel.unpack = .infinity (signOf v))

namespace Rounds
variable {y z : ℚ} {r : Float32}

/-- What is not above a number of the grid below `2 ^ 128` stays finite. -/
theorem within (h : Rounds y r) (hz : z ∈ Grid) (bound : |y| ≤ z) (small : z < 2 ^ 128) :
    r.isFinite = true ∧ Nearest y (value r) := by
  cases h with
  | finite finite nearest => exact ⟨finite, nearest⟩
  | infinite nearest large _ =>
    have := nearest.abs_bound hz bound
    linarith

/-- A number of the grid is kept if it is not too large. -/
theorem kept (h : Rounds y r) (member : y ∈ Grid) (small : |y| < 2 ^ 128) :
    r.isFinite = true ∧ value r = y := by
  cases h with
  | finite finite nearest => exact ⟨finite, nearest.eq_of_mem member⟩
  | infinite nearest large _ =>
    rw [nearest.eq_of_mem member] at large
    linarith

theorem nearest (h : Rounds y r) (finite : r.isFinite = true) : Nearest y (value r) := by
  cases h with
  | finite _ nearest => exact nearest
  | infinite _ _ infinite =>
    have finite : r.toModel.unpack.isFinite = true := finite
    rw [infinite] at finite
    cases finite

end Rounds

theorem abs_signed (s : Sign) (v : ℚ) : |signed s v| = |v| := by
  cases s with
  | negative => exact abs_neg v
  | positive => rfl

theorem signOf_signed (s : Sign) {v : ℚ} (positive : 0 < v) : signOf (signed s v) = s := by
  cases s with
  | negative => exact if_pos (neg_neg_of_pos positive)
  | positive => exact if_neg positive.le.not_gt

theorem signOf_neg {v : ℚ} (nonzero : v ≠ 0) : signOf (-v) = -signOf v := by
  rcases lt_or_gt_of_ne nonzero with negative | positive
  · rw [signOf, signOf, if_pos negative, if_neg (neg_pos_of_neg negative).le.not_gt]
    rfl
  · rw [signOf, signOf, if_neg positive.le.not_gt, if_pos (neg_neg_of_pos positive)]
    rfl

theorem signOf_mul {x y : ℚ} (hx : x ≠ 0) (hy : y ≠ 0) :
    signOf (x * y) = signOf x * signOf y := by
  rcases lt_or_gt_of_ne hx with negative | positive
  · rcases lt_or_gt_of_ne hy with negative' | positive'
    · rw [signOf, signOf, signOf, if_pos negative, if_pos negative',
        if_neg (mul_pos_of_neg_of_neg negative negative').le.not_gt]
      rfl
    · rw [signOf, signOf, signOf, if_pos negative, if_neg positive'.le.not_gt,
        if_pos (mul_neg_of_neg_of_pos negative positive')]
      rfl
  · rcases lt_or_gt_of_ne hy with negative' | positive'
    · rw [signOf, signOf, signOf, if_neg positive.le.not_gt, if_pos negative',
        if_pos (mul_neg_of_pos_of_neg positive negative')]
      rfl
    · rw [signOf, signOf, signOf, if_neg positive.le.not_gt, if_neg positive'.le.not_gt,
        if_neg (mul_pos positive positive').le.not_gt]
      rfl

/-- Rounding keeps the sign of what does not become zero. -/
theorem Nearest.signOf_eq {x v : ℚ} (h : Nearest x v) (nonzero : v ≠ 0) : signOf v = signOf x := by
  by_cases negative : x < 0
  · have below : v < 0 := lt_of_le_of_ne (h.le_of_le zero_mem_grid negative.le) nonzero
    rw [signOf, signOf, if_pos negative, if_pos below]
  · have above : 0 ≤ v := h.ge_of_ge zero_mem_grid (not_lt.mp negative)
    rw [signOf, signOf, if_neg negative, if_neg above.not_gt]

theorem magnitude_nonneg (m : ℕ) (e : ℤ) : (0 : ℚ) ≤ m * 2 ^ e :=
  mul_nonneg m.cast_nonneg (two_zpow_pos e).le

theorem Canonical.valueOf_eq {u : UnpackedFloat} {v : ℚ} (h : Canonical u v) : valueOf u = v := by
  cases h <;> rfl

theorem signed_mem_grid {v : ℚ} (s : Sign) (h : v ∈ Grid) : signed s v ∈ Grid := by
  cases s with
  | negative => exact neg_mem_grid h
  | positive => exact h

theorem Canonical.mem_grid {u : UnpackedFloat} {v : ℚ} (h : Canonical u v) : v ∈ Grid := by
  cases h with
  | zero s => exact zero_mem_grid
  | @finite s m e _ small least _ =>
    have digits : |(m : ℤ)| < 2 ^ 24 := by
      rw [Nat.abs_cast]
      exact_mod_cast small
    exact signed_mem_grid s ⟨m, e, digits, least, by norm_num⟩

/-- A magnitude has a place below `2 ^ 128` if its exponent has one. -/
theorem magnitude_lt_iff {m : ℕ} {e : ℤ} (small : m < 2 ^ 24) (normal : 2 ^ 23 ≤ m ∨ e = -149) :
    (m : ℚ) * 2 ^ e < 2 ^ 128 ↔ e ≤ 104 := by
  have digits : (m : ℚ) < 2 ^ 24 := by exact_mod_cast small
  constructor
  · intro below
    by_contra large
    have leading : (2 : ℚ) ^ 23 ≤ m := by exact_mod_cast normal.resolve_right (by omega)
    have scale : (2 : ℚ) ^ (105 : ℤ) ≤ 2 ^ e := zpow_le_zpow_right₀ (by norm_num) (by omega)
    have reached : (2 : ℚ) ^ 23 * 2 ^ (105 : ℤ) ≤ m * 2 ^ e :=
      mul_le_mul leading scale (two_zpow_pos _).le m.cast_nonneg
    norm_num at reached below
    linarith
  · intro within
    have scale : (2 : ℚ) ^ e ≤ 2 ^ (104 : ℤ) := zpow_le_zpow_right₀ (by norm_num) within
    calc (m : ℚ) * 2 ^ e ≤ m * 2 ^ (104 : ℤ) := mul_le_mul_of_nonneg_left scale m.cast_nonneg
      _ < 2 ^ 24 * 2 ^ (104 : ℤ) := mul_lt_mul_of_pos_right digits (two_zpow_pos _)
      _ = 2 ^ 128 := by norm_num

theorem Reads.canonical {x : Float32} {u : UnpackedFloat} (h : Reads x u)
    (finite : u.isFinite = true) : Canonical u (valueOf u) ∧ |valueOf u| < 2 ^ 128 := by
  cases h with
  | notANumber => cases finite
  | infinity _ => cases finite
  | zero _ => exact ⟨.zero _, by norm_num [valueOf]⟩
  | @finite m e positive small least greatest normal _ =>
    refine ⟨.finite _ positive small least normal, ?_⟩
    rw [valueOf, abs_signed, abs_of_nonneg (magnitude_nonneg m e)]
    exact (magnitude_lt_iff small normal).mpr greatest

section
variable {x : Float32} (finite : x.isFinite = true)
include finite

theorem canonical_unpack : Canonical x.toModel.unpack (value x) := ((reads x).canonical finite).1

theorem value_mem_grid : value x ∈ Grid := (canonical_unpack finite).mem_grid

theorem abs_value_lt : |value x| < 2 ^ 128 := ((reads x).canonical finite).2

end

/-- Packing rounds off only what is too large. -/
theorem Canonical.rounds {u : UnpackedFloat} {v y : ℚ} (h : Canonical u v) (nearest : Nearest y v) :
    Rounds y (.ofModel (.pack u)) := by
  have packed : (Float32.Model.pack u).unpack = unpack .binary32 (pack .binary32 u) := rfl
  cases h with
  | zero s =>
    have read : (Float32.Model.pack (.zero s)).unpack = .zero s :=
      packed.trans (unpack_packedZero s)
    refine .finite ?_ ?_
    · show (Float32.Model.pack (.zero s)).unpack.isFinite = true
      rw [read]
      rfl
    · show Nearest y (valueOf (Float32.Model.pack (.zero s)).unpack)
      rw [read]
      exact nearest
  | @finite s m e positive small least normal =>
    by_cases within : e ≤ 104
    · have read : (Float32.Model.pack (.finite s m e positive)).unpack = .finite s m e positive :=
        packed.trans (unpack_pack s positive small least normal within)
      refine .finite ?_ ?_
      · show (Float32.Model.pack (.finite s m e positive)).unpack.isFinite = true
        rw [read]
        rfl
      · show Nearest y (valueOf (Float32.Model.pack (.finite s m e positive)).unpack)
        rw [read]
        exact nearest
    · have read : (Float32.Model.pack (.finite s m e positive)).unpack = .infinity s := by
        rw [packed, pack_overflow s positive (by omega)]
        exact unpack_packedInfinity s
      have size : 2 ^ 128 ≤ (m : ℚ) * 2 ^ e :=
        not_lt.mp fun below => within ((magnitude_lt_iff small normal).mp below)
      refine .infinite nearest ?_ ?_
      · rw [abs_signed, abs_of_nonneg (magnitude_nonneg m e)]
        exact size
      · show (Float32.Model.pack (.finite s m e positive)).unpack = _
        rw [read]
        rw [signOf_signed s (lt_of_lt_of_le (by norm_num) size)]

/-! ## Comparisons -/

section
variable {m k : ℕ} {e f : ℤ} (small : m < 2 ^ 24) (small' : k < 2 ^ 24) (least : -149 ≤ e)
  (least' : -149 ≤ f) (normal : 2 ^ 23 ≤ m ∨ e = -149) (normal' : 2 ^ 23 ≤ k ∨ f = -149)
include small small' least least' normal normal'

theorem magnitude_lt (below : (e + 149) * 2 ^ 23 + m < (f + 149) * 2 ^ 23 + k) :
    (m : ℚ) * 2 ^ e < k * 2 ^ f := by
  have order : e < f ∨ e = f ∧ m < k := by omega
  rcases order with order | ⟨rfl, order⟩
  · have digits : (m : ℚ) < 2 ^ 24 := by exact_mod_cast small
    have leading : (2 : ℚ) ^ 23 ≤ k := by exact_mod_cast normal'.resolve_right (by omega)
    have scale : (2 : ℚ) ^ (1 + e) ≤ 2 ^ f := zpow_le_zpow_right₀ (by norm_num) (by omega)
    calc (m : ℚ) * 2 ^ e < 2 ^ 24 * 2 ^ e := mul_lt_mul_of_pos_right digits (two_zpow_pos e)
      _ = 2 ^ 23 * 2 ^ (1 + e) := by rw [two_zpow_add]; ring
      _ ≤ k * 2 ^ f := mul_le_mul leading scale (two_zpow_pos _).le k.cast_nonneg
  · exact mul_lt_mul_of_pos_right (by exact_mod_cast order) (two_zpow_pos e)

theorem magnitude_lt_magnitude_iff :
    (e + 149) * 2 ^ 23 + m < (f + 149) * 2 ^ 23 + k ↔ (m : ℚ) * 2 ^ e < k * 2 ^ f := by
  refine ⟨magnitude_lt small small' least least' normal normal', fun below => ?_⟩
  by_contra notBelow
  rcases (not_lt.mp notBelow).lt_or_eq with above | same
  · exact lt_asymm below (magnitude_lt small' small least' least normal' normal above)
  · obtain ⟨rfl, rfl⟩ : e = f ∧ m = k := by omega
    exact lt_irrefl _ below

theorem magnitude_inj (same : (m : ℚ) * 2 ^ e = k * 2 ^ f) : m = k ∧ e = f := by
  have forth := magnitude_lt_magnitude_iff small small' least least' normal normal'
  have back := magnitude_lt_magnitude_iff small' small least' least normal' normal
  rw [same, iff_false_right (lt_irrefl _)] at forth
  rw [same, iff_false_right (lt_irrefl _)] at back
  omega

end

theorem Canonical.compare_lt_iff {u w : UnpackedFloat} {x y : ℚ} (hu : Canonical u x)
    (hw : Canonical w y) : u.compare w = some .lt ↔ x < y := by
  cases hu with
  | zero s =>
    cases hw with
    | zero t => simp [UnpackedFloat.compare]
    | @finite t k f positive' _ _ _ =>
      have size : (0 : ℚ) < k * 2 ^ f := mul_pos (by exact_mod_cast positive') (two_zpow_pos f)
      cases t <;> simp [UnpackedFloat.compare, signed, size, size.le]
  | @finite s m e positive small least normal =>
    have size : (0 : ℚ) < m * 2 ^ e := mul_pos (by exact_mod_cast positive) (two_zpow_pos e)
    cases hw with
    | zero t => cases s <;> simp [UnpackedFloat.compare, signed, size, size.le]
    | @finite t k f positive' small' least' normal' =>
      have size' : (0 : ℚ) < k * 2 ^ f := mul_pos (by exact_mod_cast positive') (two_zpow_pos f)
      have forth := then_compare_eq_lt_iff small small' least least' normal normal'
      have back := then_compare_eq_lt_iff small' small least' least normal' normal
      rw [magnitude_lt_magnitude_iff small small' least least' normal normal'] at forth
      rw [magnitude_lt_magnitude_iff small' small least' least normal' normal] at back
      cases s <;> cases t <;>
        simp [UnpackedFloat.compare, then_compare_swap, forth, back, signed] <;> linarith

theorem signed_inj {s t : Sign} {x y : ℚ} (hx : 0 < x) (hy : 0 < y)
    (same : signed s x = signed t y) : s = t ∧ x = y := by
  cases s <;> cases t <;> simp only [signed] at same
  · exact ⟨rfl, neg_inj.mp same⟩
  · linarith
  · linarith
  · exact ⟨rfl, same⟩

theorem Canonical.compare_eq_iff {u w : UnpackedFloat} {x y : ℚ} (hu : Canonical u x)
    (hw : Canonical w y) : u.compare w = some .eq ↔ x = y := by
  rw [Binary32.compare_eq_iff]
  constructor
  · rintro ⟨-, rfl | ⟨⟨s, rfl⟩, t, rfl⟩⟩
    · rw [← hu.valueOf_eq, ← hw.valueOf_eq]
    · cases hu
      cases hw
      rfl
  · rintro rfl
    refine ⟨fun (number : u = .notANumber) => ?_, ?_⟩
    · rw [number] at hu
      cases hu
    generalize value : x = y at hw
    cases hu with
    | zero s =>
      cases hw with
      | zero t => exact .inr ⟨⟨s, rfl⟩, t, rfl⟩
      | @finite t k f positive' _ _ _ =>
        have size : (0 : ℚ) < k * 2 ^ f := mul_pos (by exact_mod_cast positive') (two_zpow_pos f)
        cases t <;> simp only [signed] at value <;> linarith
    | @finite s m e positive small least normal =>
      have size : (0 : ℚ) < m * 2 ^ e := mul_pos (by exact_mod_cast positive) (two_zpow_pos e)
      cases hw with
      | zero t => cases s <;> simp only [signed] at value <;> linarith
      | @finite t k f positive' small' least' normal' =>
        have size' : (0 : ℚ) < k * 2 ^ f :=
          mul_pos (by exact_mod_cast positive') (two_zpow_pos f)
        obtain ⟨rfl, same⟩ := signed_inj size size' value
        obtain ⟨rfl, rfl⟩ := magnitude_inj small small' least least' normal normal' same
        exact .inl rfl

theorem lt_iff_value {a b : Float32} (ha : a.isFinite = true) (hb : b.isFinite = true) :
    Scalar.lt a b = true ↔ value a < value b :=
  lt_iff_compare.trans ((canonical_unpack ha).compare_lt_iff (canonical_unpack hb))

theorem beq_iff_value {a b : Float32} (ha : a.isFinite = true) (hb : b.isFinite = true) :
    (a == b) = true ↔ value a = value b :=
  beq_iff.trans ((canonical_unpack ha).compare_eq_iff (canonical_unpack hb))

/-! ## Sums and differences -/

section
variable {u w : UnpackedFloat} {x y : ℚ}

theorem Canonical.neg (h : Canonical u x) : Canonical u.neg (-x) := by
  cases h with
  | zero s =>
    rw [neg_zero]
    exact .zero (-s)
  | @finite s m e positive small least normal =>
    have flip : -signed s ((m : ℚ) * 2 ^ e) = signed (-s) (m * 2 ^ e) := by
      cases s
      · exact neg_neg _
      · rfl
    rw [flip]
    exact .finite (-s) positive small least normal

/-- Mantissas on the scale of the smaller exponent are whole numbers. -/
theorem apply_scaled (s : Sign) (m : ℕ) {e t : ℤ} (below : t ≤ e) :
    ((s.apply ((m * 2 ^ (e - t).toNat : ℕ) : ℤ) : ℤ) : ℚ) * 2 ^ t = signed s (m * 2 ^ e) := by
  have scaled := decreaseExponent_value m e t
  rw [min_eq_right below] at scaled
  rw [← scaled]
  cases s with
  | negative =>
    rw [Sign.apply, signed, Int.cast_neg, Int.cast_natCast]
    ring
  | positive => rfl

theorem Canonical.add (hu : Canonical u x) (hw : Canonical w y) :
    ∃ v, Canonical (UnpackedFloat.add .binary32 u w) v ∧ Nearest (x + y) v := by
  cases hu with
  | zero s =>
    rw [zero_add]
    cases hw with
    | zero t =>
      refine ⟨0, ?_, .of_mem zero_mem_grid⟩
      rw [UnpackedFloat.add]
      split <;> exact .zero _
    | finite t positive small least normal =>
      have kept := Canonical.finite t positive small least normal
      exact ⟨_, kept, .of_mem kept.mem_grid⟩
  | @finite s m e positive small least normal =>
    have kept := Canonical.finite s positive small least normal
    cases hw with
    | zero t =>
      rw [add_zero]
      exact ⟨_, kept, .of_mem kept.mem_grid⟩
    | @finite t k f positive' small' least' normal' =>
      rw [UnpackedFloat.add]
      simp only [decreaseExponent_eq]
      have exact_sum : ((s.apply ((m * 2 ^ (e - min e f).toNat : ℕ) : ℤ) +
          t.apply ((k * 2 ^ (f - min e f).toNat : ℕ) : ℤ) : ℤ) : ℚ) * 2 ^ min e f =
          signed s (m * 2 ^ e) + signed t (k * 2 ^ f) := by
        rw [Int.cast_add, add_mul, apply_scaled s m (min_le_left e f),
          apply_scaled t k (min_le_right e f)]
      rw [← exact_sum]
      exact canonical_normalize _ _ _

theorem unpacked_sub (u w : UnpackedFloat) :
    UnpackedFloat.sub .binary32 u w = UnpackedFloat.add .binary32 u w.neg := by
  cases u with
  | finite s m e _ =>
    cases w with
    | finite t k f _ =>
      have flip : ∀ a b : ℤ, a - t.apply b = a + (-t).apply b := fun a b => by
        cases t
        · exact sub_neg_eq_add a b
        · exact sub_eq_add_neg a b
      simp only [UnpackedFloat.sub, UnpackedFloat.neg, UnpackedFloat.add, flip]
    | _ => rfl
  | _ => cases w <;> rfl

theorem Canonical.sub (hu : Canonical u x) (hw : Canonical w y) :
    ∃ v, Canonical (UnpackedFloat.sub .binary32 u w) v ∧ Nearest (x - y) v := by
  rw [unpacked_sub, sub_eq_add_neg]
  exact hu.add hw.neg

/-! ## Products and quotients -/

theorem signed_mul (s t : Sign) (x y : ℚ) : signed (s * t) (x * y) = signed s x * signed t y := by
  cases s <;> cases t
  · exact (neg_mul_neg x y).symm
  · exact (neg_mul x y).symm
  · exact (mul_neg x y).symm
  · rfl

theorem signed_div (s t : Sign) (x y : ℚ) : signed (s / t) (x / y) = signed s x / signed t y := by
  cases s <;> cases t
  · exact (neg_div_neg_eq x y).symm
  · exact (neg_div y x).symm
  · exact (div_neg x).symm
  · rfl

theorem Canonical.mul (hu : Canonical u x) (hw : Canonical w y) :
    ∃ v, Canonical (UnpackedFloat.mul .binary32 u w) v ∧ Nearest (x * y) v := by
  cases hu with
  | zero s =>
    rw [zero_mul]
    cases hw <;> exact ⟨0, .zero _, .of_mem zero_mem_grid⟩
  | @finite s m e positive small least normal =>
    cases hw with
    | zero t =>
      rw [mul_zero]
      exact ⟨0, .zero _, .of_mem zero_mem_grid⟩
    | @finite t k f positive' small' least' normal' =>
      have wide : 2 ^ 23 ≤ m * k ∨ e + f ≤ -149 := by
        rcases normal with normal | rfl
        · exact .inl (normal.trans (Nat.le_mul_of_pos_right m positive'))
        · rcases normal' with normal' | rfl
          · exact .inl (normal'.trans (Nat.le_mul_of_pos_left k positive))
          · exact .inr (by norm_num)
      obtain ⟨v, form, nearest⟩ := canonical_roundWithAccuracy (s * t) wide (holds_exact (m * k))
      refine ⟨v, form, ?_⟩
      rw [← signed_mul]
      convert nearest using 2
      rw [two_zpow_add]
      push_cast
      ring

/-- The remainder of a division tells on which side of the halfway point the quotient lies. -/
theorem holds_fraction (n : ℕ) {d : ℕ} (hd : 0 < d) :
    Holds (.ofMantissaAndAccuracy (n / d) (accuracyOfFraction (n % d) d)) ((n : ℚ) / d) := by
  have unit : (0 : ℚ) < d := by exact_mod_cast hd
  have split : (n : ℚ) / d = (n / d : ℕ) + ((n % d : ℕ) : ℚ) / d := by
    have whole : (n : ℚ) = (n / d : ℕ) * d + (n % d : ℕ) := by
      exact_mod_cast (Nat.div_add_mod' n d).symm
    rw [div_eq_iff unit.ne', add_mul, div_mul_cancel₀ _ unit.ne']
    exact whole
  have below : ((n % d : ℕ) : ℚ) / d < 1 := by
    rw [div_lt_one unit]
    exact_mod_cast Nat.mod_lt n hd
  rw [accuracyOfFraction]
  split_ifs with divides
  · rw [divides, Nat.cast_zero, zero_div, add_zero] at split
    exact split
  · have above : 0 < ((n % d : ℕ) : ℚ) / d :=
      div_pos (by exact_mod_cast Nat.pos_of_ne_zero divides) unit
    rcases lt_trichotomy (2 * (n % d)) d with less | half | more
    · have below' : ((n % d : ℕ) : ℚ) / d < 1 / 2 := by
        rw [div_lt_div_iff₀ unit (by norm_num)]
        exact_mod_cast (by omega : n % d * 2 < 1 * d)
      rw [compare_lt_iff_lt.mpr less]
      exact ⟨by linarith, by linarith⟩
    · have middle : ((n % d : ℕ) : ℚ) / d = 1 / 2 := by
        rw [div_eq_div_iff unit.ne' (by norm_num)]
        exact_mod_cast (by omega : n % d * 2 = 1 * d)
      rw [compare_eq_iff_eq.mpr half]
      exact split.trans (by rw [middle])
    · have above' : 1 / 2 < ((n % d : ℕ) : ℚ) / d := by
        rw [div_lt_div_iff₀ (by norm_num) unit]
        exact_mod_cast (by omega : 1 * d < n % d * 2)
      rw [compare_gt_iff_gt.mpr more]
      exact ⟨by linarith, by linarith⟩

/-- The quotient of two mantissas is taken on a scale that leaves it at least 24 digits, or on the
least one. -/
theorem divCore_spec {m k : ℕ} (e f : ℤ) (hm : 0 < m) (hk : 0 < k) :
    ∃ q t acc z, divCore .binary32 m e k f = (q, t, acc) ∧ (2 ^ 23 ≤ q ∨ t ≤ -149) ∧
      Holds (.ofMantissaAndAccuracy q acc) z ∧ z * 2 ^ t = m * 2 ^ e / (k * 2 ^ f) := by
  have digits : Format.binary32.mantissaBits = 24 := rfl
  have least : Format.binary32.minExponent = -149 := rfl
  obtain ⟨t, scale⟩ : ∃ t, min (e - f) (Format.binary32.targetExponent
      (Float.Model.totalExponent m e - Float.Model.totalExponent k f)) = t := ⟨_, rfl⟩
  obtain ⟨n, steps⟩ : ∃ n : ℕ, e - f - t = n := ⟨(e - f - t).toNat, by omega⟩
  have shifted : (k : ℚ) * 2 ^ f ≠ 0 :=
    (mul_pos (by exact_mod_cast hk) (two_zpow_pos f)).ne'
  refine ⟨m * 2 ^ n / k, t, accuracyOfFraction (m * 2 ^ n % k) k, _, ?_, ?_,
    holds_fraction (m * 2 ^ n) hk, ?_⟩
  · rw [divCore, scale, steps, Nat.shiftLeft_eq]
    rfl
  · rw [Format.targetExponent, Float.Model.totalExponent, Float.Model.totalExponent, digits,
      least] at scale
    by_cases lowest : t ≤ -149
    · exact .inr lowest
    · left
      have room : 24 + k.log2 ≤ m.log2 + n := by omega
      rw [Nat.le_div_iff_mul_le hk]
      calc 2 ^ 23 * k ≤ 2 ^ 23 * 2 ^ (k.log2 + 1) := Nat.mul_le_mul_left _ Nat.lt_log2_self.le
        _ = 2 ^ (24 + k.log2) := by ring
        _ ≤ 2 ^ (m.log2 + n) := Nat.pow_le_pow_right (by norm_num) room
        _ = 2 ^ m.log2 * 2 ^ n := pow_add _ _ _
        _ ≤ m * 2 ^ n := Nat.mul_le_mul_right _ (Nat.log2_self_le hm.ne')
  · have exponent : e = n + t + f := by omega
    rw [eq_div_iff shifted, exponent, two_zpow_add, two_zpow_add, zpow_natCast]
    push_cast
    field_simp

theorem Canonical.div (hu : Canonical u x) (hw : Canonical w y) (nonzero : y ≠ 0) :
    ∃ v, Canonical (UnpackedFloat.div .binary32 u w) v ∧ Nearest (x / y) v := by
  cases hw with
  | zero t => exact absurd rfl nonzero
  | @finite t k f positive' _ _ _ =>
    cases hu with
    | zero s =>
      rw [zero_div]
      exact ⟨0, .zero _, .of_mem zero_mem_grid⟩
    | @finite s m e positive _ _ _ =>
      obtain ⟨q, r, acc, z, core, wide, holds, quotient⟩ := divCore_spec e f positive positive'
      rw [UnpackedFloat.div, core, ← signed_div, ← quotient]
      exact canonical_roundWithAccuracy (s / t) wide holds

end

/-! ## Operations -/

section
variable {a b : Float32} (ha : a.isFinite = true) (hb : b.isFinite = true)
include ha hb

theorem rounds_add : Rounds (value a + value b) (a + b) := by
  obtain ⟨v, form, nearest⟩ := (canonical_unpack ha).add (canonical_unpack hb)
  exact form.rounds nearest

theorem rounds_sub : Rounds (value a - value b) (a - b) := by
  obtain ⟨v, form, nearest⟩ := (canonical_unpack ha).sub (canonical_unpack hb)
  exact form.rounds nearest

theorem rounds_mul : Rounds (value a * value b) (a * b) := by
  obtain ⟨v, form, nearest⟩ := (canonical_unpack ha).mul (canonical_unpack hb)
  exact form.rounds nearest

theorem rounds_div (nonzero : value b ≠ 0) : Rounds (value a / value b) (a / b) := by
  obtain ⟨v, form, nearest⟩ := (canonical_unpack ha).div (canonical_unpack hb) nonzero
  exact form.rounds nearest

end

end NeuralGraph.Binary32
