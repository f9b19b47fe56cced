import NeuralGraph.Kernel.Operator
import NeuralGraph.Proofs.Binary32.Integers
import NeuralGraph.Proofs.Exact.Images
import NeuralGraph.Proofs.Kernel.Results
import NeuralGraph.Quantization

/-!
# Positions in binary32

Positions are stored as binary32.  One that binary32 holds comes back as it was, and all others come
back as the nearest one that it holds or are refused.  So gathering rows and the gradient of softmax
take the rows and the classes that were named wherever binary32 holds their numbers, in particular
all up to `2 ^ 24`.
-/

namespace NeuralGraph
set_option autoImplicit false

open Binary32 (Rounds Nearest value)

/-- Binary32 holds this natural number. -/
def Binary32.Exact (n : ℕ) : Prop := ∃ m e : ℕ, m < 2 ^ 24 ∧ e ≤ 104 ∧ n = m * 2 ^ e

namespace Binary32
variable {n i : ℕ}

theorem exact_of_le (small : n ≤ 2 ^ 24) : Exact n := by
  by_cases top : n = 2 ^ 24
  · exact ⟨2 ^ 23, 1, by norm_num, by norm_num, by rw [top]; norm_num⟩
  · exact ⟨n, 0, by omega, by norm_num, by rw [pow_zero, mul_one]⟩

theorem Exact.mem_grid (h : Exact n) : (n : ℚ) ∈ Grid := by
  obtain ⟨m, e, small, -, rfl⟩ := h
  refine ⟨m, e, ?_, by omega, ?_⟩
  · rw [Nat.abs_cast]
    exact_mod_cast small
  · rw [zpow_natCast]
    push_cast
    rfl

theorem Exact.lt (h : Exact n) : n < 2 ^ 128 := by
  obtain ⟨m, e, small, greatest, rfl⟩ := h
  calc m * 2 ^ e ≤ m * 2 ^ 104 := Nat.mul_le_mul_left m (Nat.pow_le_pow_right (by norm_num) greatest)
    _ < 2 ^ 24 * 2 ^ 104 := Nat.mul_lt_mul_of_pos_right small (by norm_num)
    _ = 2 ^ 128 := by norm_num

/-- The natural numbers among the finite numbers are the exact ones. -/
theorem exact_of_value {x : Float32} (finite : x.isFinite = true) (h : value x = n) : Exact n := by
  have form := canonical_unpack finite
  have bound := abs_value_lt finite
  rw [h] at form bound
  generalize read : (n : ℚ) = v at form bound
  generalize x.toModel.unpack = u at form
  cases form with
  | zero s =>
    have zero : n = 0 := by exact_mod_cast read
    exact exact_of_le (by omega)
  | @finite s m e positive small least normal =>
    have size : (0 : ℚ) < m * 2 ^ e := mul_pos (by exact_mod_cast positive) (two_zpow_pos e)
    cases s with
    | negative =>
      rw [signed] at read
      linarith [n.cast_nonneg (α := ℚ)]
    | positive =>
      rw [signed] at read bound
      rw [abs_of_pos size] at bound
      have greatest := (magnitude_lt_iff small normal).mp bound
      by_cases whole : 0 ≤ e
      · obtain ⟨k, rfl⟩ := Int.eq_ofNat_of_zero_le whole
        refine ⟨m, k, small, by omega, ?_⟩
        rw [zpow_natCast] at read
        exact_mod_cast read
      · have scale : (2 : ℚ) ^ e ≤ 1 := zpow_le_one_of_nonpos₀ (by norm_num) (by omega)
        have below : (n : ℚ) ≤ m := by
          rw [read]
          exact mul_le_of_le_one_right m.cast_nonneg scale
        have below : n ≤ m := by exact_mod_cast below
        exact exact_of_le (by omega)

/-- A natural number comes back from binary32 if it is exact. -/
theorem toNat?_ofNat_iff : toNat? (Float32.ofNat n) = some n ↔ Exact n := by
  rw [toNat?_eq_some_iff]
  constructor
  · rintro ⟨finite, same⟩
    exact exact_of_value finite same
  · intro exact_
    refine (rounds_ofNat n).kept exact_.mem_grid ?_
    rw [Nat.abs_cast]
    exact_mod_cast exact_.lt

/-- What comes back from binary32 is the nearest exact number. -/
theorem nearest_of_toNat? {j : ℕ} (h : toNat? (Float32.ofNat n) = some j) :
    Exact j ∧ ∀ k, Exact k → |(j : ℤ) - n| ≤ |(k : ℤ) - n| := by
  obtain ⟨finite, same⟩ := toNat?_eq_some_iff.mp h
  refine ⟨exact_of_value finite same, fun k hk => ?_⟩
  have closest := ((rounds_ofNat n).nearest finite).near k hk.mem_grid
  rw [same] at closest
  exact_mod_cast closest

end Binary32

namespace Kernel
open Binary32 (Exact)

theorem readIndex_eq_ok_iff {v : Float32} {bound j : ℕ} :
    readIndex v bound = .ok j ↔ Binary32.toNat? v = some j ∧ j < bound := by
  have same : Scalar.toNat? v = Binary32.toNat? v := rfl
  rw [readIndex, same]
  cases Binary32.toNat? v with
  | none => simp
  | some n =>
    dsimp only
    split_ifs with within
    · simp only [Except.ok.injEq, Option.some.injEq]
      exact ⟨fun h => ⟨h, h ▸ within⟩, fun h => h.1⟩
    · simp only [Option.some.injEq, false_iff, not_and]
      rintro rfl
      exact within

/-- Positions are read back as they were if binary32 holds them. -/
theorem readIndices_cast {bound : ℕ} (values : List ℕ)
    (h : ∀ n ∈ values, n < bound ∧ Exact n) :
    (values.map fun (n : ℕ) => (n : Float32)).mapM (fun (v : Float32) => readIndex v bound) =
      .ok values := by
  induction values with
  | nil => rfl
  | cons n ns ih =>
    obtain ⟨within, exact_⟩ := h n List.mem_cons_self
    have first : readIndex (n : Float32) bound = .ok n :=
      readIndex_eq_ok_iff.mpr ⟨Binary32.toNat?_ofNat_iff.mpr exact_, within⟩
    rw [List.map_cons, List.mapM_cons, first, ih fun n hn => h n (List.mem_cons_of_mem _ hn)]
    rfl

end Kernel

theorem Tensor.ofIndices_array {dims : List ℕ} {values : Array ℕ} {t : Tensor Float32}
    (h : Tensor.ofIndices dims values = .ok t) : t.decoded.array.dims = dims ∧
      values.size = volume dims ∧
      t.decoded.array.data.toList = values.toList.map fun (n : ℕ) => (n : Float32) := by
  rw [ofIndices, ofData] at h
  split at h
  · next fits =>
    split at h
    · cases h
      refine ⟨rfl, by simpa using fits, ?_⟩
      show ((values.map fun (n : ℕ) => (n : Float32)).map fun (v : Float32) => v).toList = _
      simp
    · cases h
  · cases h

theorem Tensor.ofIndices_get {dims : List ℕ} {values : Array ℕ} {t : Tensor Float32}
    (h : Tensor.ofIndices dims values = .ok t) {p : ℕ} (hp : p < values.size) :
    t.decoded.array.get p = (values[p] : Float32) := by
  obtain ⟨-, -, stored⟩ := ofIndices_array h
  have element : t.decoded.array.data.toList[p]? = some (values[p] : Float32) := by
    rw [stored]
    simp [hp]
  rw [DenseArray.get, Array.getD_eq_getD_getElem?, ← Array.getElem?_toList, element,
    Option.getD_some]

theorem Tensor.exists_ofIndices (dims : List ℕ) (values : Array ℕ)
    (fits : values.size = volume dims) (room : addressable dims = true) :
    ∃ t : Tensor Float32, Tensor.ofIndices dims values = .ok t := by
  have count : (values.map fun (n : ℕ) => (n : Float32)).size =
      volume (TensorType.index dims : TensorType Float32).dims := by simpa using fits
  rw [ofIndices, ofData, dif_pos count]
  exact ⟨_, if_pos room⟩

namespace Kernel
open Binary32 (Exact)
variable {rows : ℕ} {slice dims out : List ℕ} {values : Array ℕ} {t : Tensor Float32}

/-- Gathering takes the rows that were named. -/
theorem gather_named {x : PlacedArray Float32} (hx : x.array.dims = rows :: slice)
    (ht : Tensor.ofIndices dims values = .ok t) (room : addressable (dims ++ slice) = true)
    (named : ∀ n ∈ values, n < rows ∧ Exact n) :
    ∃ y, Operator.gather.apply out [x, t.decoded] = .ok y ∧ y.array.dims = dims ++ slice ∧
      ∀ p (hp : p < values.size), ∀ q < volume slice,
        y.array.get (p * volume slice + q) = x.array.get (values[p] * volume slice + q) := by
  obtain ⟨shape, count, stored⟩ := Tensor.ofIndices_array ht
  have picked := readIndices_cast values.toList fun n hn => named n (by simpa using hn)
  rw [← stored] at picked
  have gathered : gather x.array t.decoded.array = .ok (.ofFn (dims ++ slice) fun (i : ℕ) =>
      x.array.get (values.getD (i / volume slice) 0 * volume slice + i % volume slice)) := by
    simp only [gather, hx, picked, shape]
    rfl
  have applied : (Operator.gather : Operator Float32).apply out [x, t.decoded] = .ok
      ⟨.ofFn (dims ++ slice) fun (i : ℕ) =>
        x.array.get (values.getD (i / volume slice) 0 * volume slice + i % volume slice),
        .rowMajor (dims ++ slice)⟩ := by
    rw [Operator.apply, Operator.compute, gathered]
    show (if addressable (dims ++ slice) = true then _ else _) = _
    rw [if_pos room]
    rfl
  refine ⟨_, applied, rfl, fun p hp q hq => ?_⟩
  have inside : p * volume slice + q < volume (dims ++ slice) := by
    rw [volume_append, ← count]
    exact cell_lt hp hq
  show (DenseArray.ofFn (dims ++ slice) _).get (p * volume slice + q) = _
  rw [DenseArray.get_ofFn _ _ inside, cell_div hq, cell_mod hq, Array.getD_eq_getD_getElem?,
    Array.getElem?_eq_getElem hp, Option.getD_some]

/-- Adding at one column of each row leaves all other columns alone. -/
theorem get_foldl_labels {c : ℕ} {v : Float32} (picked : List ℕ) {k r j : ℕ}
    {a : DenseArray Float32} (labels : ∀ p ∈ picked, p < c) (hj : j < c)
    (fits : (k + picked.length) * c ≤ volume a.dims) :
    ((picked.zipIdx k).foldl (fun (a : DenseArray Float32) (p : ℕ × ℕ) =>
        a.addAt (p.2 * c + p.1) v) a).get (r * c + j) =
      if k ≤ r ∧ picked[r - k]? = some j then a.get (r * c + j) + v else a.get (r * c + j) := by
  induction picked generalizing k a with
  | nil => simp
  | cons p ps ih =>
    have hp := labels p List.mem_cons_self
    have length : k + (p :: ps).length = k + 1 + ps.length := by
      rw [List.length_cons]
      omega
    have place : k * c + p < volume a.dims :=
      (cell_lt (n := k + (p :: ps).length) (by rw [length]; omega) hp).trans_le fits
    rw [List.zipIdx_cons, List.foldl_cons, ih (fun q hq => labels q (List.mem_cons_of_mem _ hq))
      (by rw [← length]; exact fits)]
    dsimp only
    rw [DenseArray.addAt, DenseArray.get_set _ place]
    by_cases here : k = r
    · -- in its own row the label decides, and later labels are below this row
      subst here
      rw [if_neg (by omega), Nat.sub_self, List.getElem?_cons_zero]
      by_cases label : p = j
      · rw [if_pos (by rw [label]), if_pos ⟨le_rfl, by rw [label]⟩, label]
      · rw [if_neg (by omega), if_neg fun h => label (Option.some.inj h.2)]
    · rw [if_neg fun same => here (cell_inj hp hj same).1]
      by_cases later : k + 1 ≤ r
      · have shift : r - k = r - (k + 1) + 1 := by omega
        have both : k ≤ r := by omega
        rw [shift, List.getElem?_cons_succ]
        simp only [later, both, true_and]
      · have before : ¬k ≤ r := by omega
        simp only [later, before, false_and, if_false]

/-- The gradient of softmax takes one off at the classes that were named. -/
theorem softmaxGradient_named {n c : ℕ} {y : PlacedArray Float32} (hy : y.array.dims = [n, c])
    (ht : Tensor.ofIndices dims values = .ok t) (count : values.size = n)
    (named : ∀ k ∈ values, k < c ∧ Exact k) :
    ∃ z, Operator.softmaxGradient.apply out [y, t.decoded] = .ok z ∧ z.array.dims = [n, c] ∧
      ∀ r (hr : r < values.size), ∀ j < c, z.array.get (r * c + j) =
        if values[r] = j then y.array.get (r * c + j) + -1 else y.array.get (r * c + j) := by
  obtain ⟨shape, size, stored⟩ := Tensor.ofIndices_array ht
  have picked := readIndices_cast values.toList fun n hn => named n (by simpa using hn)
  rw [← stored] at picked
  have labels : t.decoded.array.size = n := by
    rw [DenseArray.size, t.decoded.array.size_eq, shape, ← size, count]
  have subtracted : softmaxGradient y.array t.decoded.array =
      .ok (values.toList.zipIdx.foldl (fun (a : DenseArray Float32) (p : ℕ × ℕ) =>
        a.addAt (p.2 * c + p.1) (-1)) y.array) := by
    simp only [softmaxGradient, hy, labels, ne_eq, not_true_eq_false, if_false, picked]
    rfl
  have applied : (Operator.softmaxGradient : Operator Float32).apply out [y, t.decoded] = .ok
      ⟨values.toList.zipIdx.foldl (fun (a : DenseArray Float32) (p : ℕ × ℕ) =>
        a.addAt (p.2 * c + p.1) (-1)) y.array, y.layout⟩ := by
    rw [Operator.apply, Operator.compute, subtracted]
    rfl
  refine ⟨_, applied, ?_, fun r hr j hj => ?_⟩
  · exact (foldl_dims _ (fun _ _ => DenseArray.addAt_dims _ _ _) _ _).trans hy
  · have all := get_foldl_labels values.toList (v := -1) (k := 0) (r := r) (a := y.array)
      (fun p hp => (named p (by simpa using hp)).1) hj (by
        rw [hy, volume_matrix, Nat.zero_add, Array.length_toList, count])
    dsimp only
    rw [all]
    simp [hr]

/-- A position is read back as it was exactly if binary32 holds it, and else as the nearest one that
it holds, if at all.  So rows and classes are the named ones where binary32 holds their numbers. -/
theorem positions_kept (ht : Tensor.ofIndices dims values = .ok t) :
    (∀ p (hp : p < values.size), ∀ bound, values[p] < bound →
      (readIndex (t.decoded.array.get p) bound = .ok values[p] ↔ Exact values[p]) ∧
      ∀ j, readIndex (t.decoded.array.get p) bound = .ok j →
        Exact j ∧ ∀ k, Exact k → |(j : ℤ) - values[p]| ≤ |(k : ℤ) - values[p]|) ∧
    (∀ n ≤ 2 ^ 24, Exact n) ∧
    (∀ (x : PlacedArray Float32) (rows : ℕ) (slice out : List ℕ), x.array.dims = rows :: slice →
      addressable (dims ++ slice) = true → (∀ n ∈ values, n < rows ∧ Exact n) →
      ∃ y, Operator.gather.apply out [x, t.decoded] = .ok y ∧ y.array.dims = dims ++ slice ∧
        ∀ p (hp : p < values.size), ∀ q < volume slice,
          y.array.get (p * volume slice + q) = x.array.get (values[p] * volume slice + q)) ∧
    ∀ (y : PlacedArray Float32) (c : ℕ) (out : List ℕ), y.array.dims = [values.size, c] →
      (∀ k ∈ values, k < c ∧ Exact k) →
      ∃ z, Operator.softmaxGradient.apply out [y, t.decoded] = .ok z ∧
        z.array.dims = [values.size, c] ∧
        ∀ r (hr : r < values.size), ∀ j < c, z.array.get (r * c + j) =
          if values[r] = j then y.array.get (r * c + j) + -1 else y.array.get (r * c + j) := by
  refine ⟨fun p hp bound within => ?_, fun n small => Binary32.exact_of_le small,
    fun x rows slice out hx room named => gather_named hx ht room named,
    fun y c out hy named => softmaxGradient_named hy ht rfl named⟩
  rw [Tensor.ofIndices_get ht hp]
  constructor
  · rw [readIndex_eq_ok_iff, and_iff_left within]
    exact Binary32.toNat?_ofNat_iff
  · intro j read
    exact Binary32.nearest_of_toNat? (readIndex_eq_ok_iff.mp read).1

theorem largePosition_kept : ∃ t : Tensor Float32, Tensor.ofIndices [2] #[2, 16777216] = .ok t ∧
    readIndex (t.decoded.array.get 1) 16777217 = .ok 16777216 := by
  obtain ⟨t, ht⟩ := Tensor.exists_ofIndices [2] #[2, 16777216] rfl rfl
  obtain ⟨kept, small, -⟩ := positions_kept ht
  exact ⟨t, ht, (kept 1 (by decide) 16777217 (by decide)).1.mpr (small _ (by decide))⟩

/-- Binary32 does not hold the next position. -/
theorem nextPosition_lost : 16777217 < 16777218 ∧
    ∃ t : Tensor Float32, Tensor.ofIndices [1] #[16777217] = .ok t ∧
      readIndex (t.decoded.array.get 0) 16777218 = .ok 16777216 := by
  obtain ⟨t, ht⟩ := Tensor.exists_ofIndices [1] #[16777217] rfl rfl
  refine ⟨by decide, t, ht, ?_⟩
  rw [Tensor.ofIndices_get ht (by decide), readIndex_eq_ok_iff]
  decide +kernel

end Kernel

end NeuralGraph
