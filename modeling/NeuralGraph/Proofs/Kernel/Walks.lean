import Mathlib.Data.Set.Card
import NeuralGraph.Proofs.Exact.Pooling

/-!
# Walks of windows

A convolution walks the rows, the columns and the channels under each window; a pooling counts the
taps of a window and divides.  Both stay within the image, the first visits each place of the patch
matrix at most once, and the second meets what the first visits for the same pixel and channel, in
the same order.
-/

namespace NeuralGraph
set_option autoImplicit false
variable {β γ : Type}

/-! ## Nested loops as lists -/

theorem flatMap_range_single {n i : Nat} {f : Nat → List β} (hi : i < n)
    (others : ∀ j, j < n → j ≠ i → f j = []) : (List.range n).flatMap f = f i := by
  induction n with
  | zero => omega
  | succ n ih =>
    rw [List.range_succ, List.flatMap_append, List.flatMap_singleton]
    by_cases last : i = n
    · subst last
      have before : (List.range i).flatMap f = [] := List.flatMap_eq_nil_iff.mpr fun j hj => by
        have := List.mem_range.mp hj
        exact others j (by omega) (by omega)
      rw [before, List.nil_append]
    · rw [ih (by omega) fun j hj => others j (by omega), others n (by omega) fun h => last h.symm,
        List.append_nil]

theorem range_mul_flatMap (m k : Nat) (f : Nat → List β) : (List.range (m * k)).flatMap f =
    (List.range m).flatMap fun (i : Nat) => (List.range k).flatMap fun (j : Nat) => f (i * k + j) := by
  induction m with
  | zero => simp
  | succ m ih =>
    rw [Nat.succ_mul, List.range_add, List.flatMap_append, ih, List.range_succ, List.flatMap_append,
      List.flatMap_singleton, List.flatMap_map]

theorem pairwise_flatMap_range {R : β → β → Prop} {n : Nat} {f : Nat → List β}
    (each : ∀ i, i < n → (f i).Pairwise R)
    (apart : ∀ i j, i < n → j < n → i ≠ j → ∀ x ∈ f i, ∀ y ∈ f j, R x y) :
    ((List.range n).flatMap f).Pairwise R := by
  refine List.pairwise_flatMap.mpr ⟨fun i hi => each i (List.mem_range.mp hi), ?_⟩
  refine List.pairwise_lt_range.imp_of_mem fun {i j} hi hj lt => ?_
  exact apart i j (List.mem_range.mp hi) (List.mem_range.mp hj) lt.ne

/-! ## Positions -/

namespace Window

/-- The positions at which the whole window lies on the padded side. -/
def places (w : Window) (extent : Nat) : Set Nat :=
  {o | o * w.stride + w.kernel ≤ extent + 2 * w.pad}

theorem places_eq {w : Window} {extent count : Nat} (h : w.positions? extent = some count) :
    w.places extent = Set.Iio count := by
  rw [positions?] at h
  split at h
  · cases h
  · next fits =>
    simp only [not_or, not_lt, Option.some.injEq] at fits h
    obtain ⟨stride, -, room⟩ := fits
    ext o
    show o * w.stride + w.kernel ≤ extent + 2 * w.pad ↔ o < count
    rw [← h, Nat.lt_succ_iff, Nat.le_div_iff_mul_le (Nat.pos_of_ne_zero stride)]
    omega

theorem ncard_places {w : Window} {extent count : Nat} (h : w.positions? extent = some count) :
    (w.places extent).ncard = count := by
  rw [places_eq h, ← Finset.coe_Iio, Set.ncard_coe_finset, Nat.card_Iio]

end Window

/-- The place in the patch matrix that a tap is written to. -/
def PatchTap.place (t : PatchTap) : Nat × Nat := (t.row, t.column)

/-- Two taps are written to different places. -/
def PatchTap.Apart (t t' : PatchTap) : Prop := t.place ≠ t'.place

namespace Sliding
variable {s : Sliding} {b oy ox ky kx c y : Nat} {t t' : PatchTap}

/-! ## Taps of a convolution -/

theorem mem_patchRow (h : t ∈ s.patchRow b oy ox ky y) : ∃ kx c, kx < s.window.kernel ∧
    c < s.channels ∧ t.place = (s.patchNumber b oy ox, s.tapNumber ky kx c) := by
  simp only [patchRow, List.mem_flatMap, List.mem_range, List.mem_map] at h
  obtain ⟨kx, hkx, _, -, c, hc, rfl⟩ := h
  exact ⟨kx, c, hkx, hc, rfl⟩

theorem row_of_mem_patch (h : t ∈ s.patch b oy ox) : t.row = s.patchNumber b oy ox := by
  simp only [patch, List.mem_flatMap] at h
  obtain ⟨_, -, _, -, ht⟩ := h
  obtain ⟨_, _, -, -, place⟩ := mem_patchRow ht
  exact congrArg Prod.fst place

theorem patchRow_apart (s : Sliding) (b oy ox ky y : Nat) :
    (s.patchRow b oy ox ky y).Pairwise PatchTap.Apart := by
  refine pairwise_flatMap_range (fun kx hkx => ?_) fun kx kx' hkx hkx' ne t ht t' ht' same => ?_
  · cases s.column? ox kx with
    | none => exact .nil
    | some x =>
      rw [Option.toList_some, List.flatMap_singleton, List.pairwise_map]
      refine List.pairwise_lt_range.imp fun {c c'} lt same => ?_
      have columns : s.tapNumber ky kx c = s.tapNumber ky kx c' := congrArg Prod.snd same
      rw [tapNumber, tapNumber] at columns
      omega
  · simp only [List.mem_flatMap, List.mem_map, List.mem_range] at ht ht'
    obtain ⟨_, -, c, hc, rfl⟩ := ht
    obtain ⟨_, -, c', hc', rfl⟩ := ht'
    have columns : s.tapNumber ky kx c = s.tapNumber ky kx' c' := congrArg Prod.snd same
    have taps := (cell_inj hc hc' columns).1
    omega

theorem patch_apart (s : Sliding) (b oy ox : Nat) : (s.patch b oy ox).Pairwise PatchTap.Apart := by
  refine pairwise_flatMap_range (fun ky hky => ?_) fun ky ky' hky hky' ne t ht t' ht' same => ?_
  · cases s.row? oy ky with
    | none => exact .nil
    | some y =>
      rw [Option.toList_some, List.flatMap_singleton]
      exact patchRow_apart s b oy ox ky y
  · simp only [List.mem_flatMap] at ht ht'
    obtain ⟨_, -, ht⟩ := ht
    obtain ⟨_, -, ht'⟩ := ht'
    obtain ⟨kx, c, hkx, hc, place⟩ := mem_patchRow ht
    obtain ⟨kx', c', hkx', hc', place'⟩ := mem_patchRow ht'
    have columns : s.tapNumber ky kx c = s.tapNumber ky' kx' c' := by
      have both := place.symm.trans (same.trans place')
      exact congrArg Prod.snd both
    exact ne (cell_inj hkx hkx' (cell_inj hc hc' columns).1).1

theorem patchTaps_apart (s : Sliding) : s.patchTaps.Pairwise PatchTap.Apart := by
  refine pairwise_flatMap_range (fun b _ => pairwise_flatMap_range (fun oy _ =>
    pairwise_flatMap_range (fun ox _ => patch_apart s b oy ox) ?_) ?_) ?_
  · intro ox ox' hox hox' ne t ht t' ht' same
    have rows : s.patchNumber b oy ox = s.patchNumber b oy ox' :=
      (row_of_mem_patch ht).symm.trans ((congrArg Prod.fst same).trans (row_of_mem_patch ht'))
    exact ne (cell_inj hox hox' rows).2
  · intro oy oy' hoy hoy' ne t ht t' ht' same
    obtain ⟨ox, hox, ht⟩ := List.mem_flatMap.mp ht
    obtain ⟨ox', hox', ht'⟩ := List.mem_flatMap.mp ht'
    have rows : s.patchNumber b oy ox = s.patchNumber b oy' ox' :=
      (row_of_mem_patch ht).symm.trans ((congrArg Prod.fst same).trans (row_of_mem_patch ht'))
    have pixels := (cell_inj (List.mem_range.mp hox) (List.mem_range.mp hox') rows).1
    exact ne (cell_inj hoy hoy' pixels).2
  · intro b b' hb hb' ne t ht t' ht' same
    simp only [List.mem_flatMap, List.mem_range] at ht ht'
    obtain ⟨oy, hoy, ox, hox, ht⟩ := ht
    obtain ⟨oy', hoy', ox', hox', ht'⟩ := ht'
    have rows : s.patchNumber b oy ox = s.patchNumber b' oy' ox' :=
      (row_of_mem_patch ht).symm.trans ((congrArg Prod.fst same).trans (row_of_mem_patch ht'))
    exact ne (cell_inj hoy hoy' (cell_inj hox hox' rows).1).1

/-! ## The taps of one pixel and channel -/

/-- The image elements of one channel under a window, row by row. -/
def covered (s : Sliding) (b oy ox c : Nat) : List Nat :=
  (List.range s.window.kernel).flatMap fun (ky : Nat) =>
    (s.row? oy ky).toList.flatMap fun (y : Nat) =>
      (List.range s.window.kernel).flatMap fun (kx : Nat) =>
        (s.column? ox kx).toList.map fun (x : Nat) => s.inputOffset b y x c

theorem taps_eq_covered (s : Sliding) (b oy ox c : Nat) :
    s.taps ⟨b, oy, ox, c⟩ = s.covered b oy ox c := by
  rw [taps, List.filterMap_eq_flatMap_toList, range_mul_flatMap, covered]
  refine List.flatMap_congr fun ky _ => ?_
  cases rows : s.row? oy ky with
  | none =>
    refine List.flatMap_eq_nil_iff.mpr fun kx hkx => ?_
    have hkx := List.mem_range.mp hkx
    simp only [cell_div hkx, rows, Option.bind_eq_bind, Option.bind_none, Option.toList_none]
  | some y =>
    rw [Option.toList_some, List.flatMap_singleton]
    refine List.flatMap_congr fun kx hkx => ?_
    have hkx := List.mem_range.mp hkx
    simp only [cell_div hkx, cell_mod hkx, rows, Option.bind_eq_bind, Option.bind_some]
    cases s.column? ox kx <;> rfl

theorem filter_channel (hc : c < s.channels) (col : Nat) :
    (List.range s.channels).filter (fun (c' : Nat) => (col * s.channels + c') % s.channels = c) =
      [c] := by
  have same : ∀ c' ∈ List.range s.channels,
      decide ((col * s.channels + c') % s.channels = c) = (c' == c) := fun c' hc' => by
    rw [cell_mod (List.mem_range.mp hc')]
    rfl
  rw [List.filter_congr same, List.filter_beq,
    List.count_eq_one_of_mem List.nodup_range (List.mem_range.mpr hc), List.replicate_one]

theorem patch_channel (hc : c < s.channels) (oy ox : Nat) :
    ((s.patch b oy ox).filter fun (t : PatchTap) => t.column % s.channels = c).map
      PatchTap.offset = s.covered b oy ox c := by
  rw [patch, List.filter_flatMap, List.map_flatMap, covered]
  refine List.flatMap_congr fun ky _ => ?_
  rw [List.filter_flatMap, List.map_flatMap]
  refine List.flatMap_congr fun y _ => ?_
  rw [patchRow, List.filter_flatMap, List.map_flatMap]
  refine List.flatMap_congr fun kx _ => ?_
  rw [List.filter_flatMap, List.map_flatMap, List.map_eq_flatMap]
  refine List.flatMap_congr fun x _ => ?_
  have channel := filter_channel hc (ky * s.window.kernel + kx)
  rw [List.filter_map, Function.comp_def, channel]
  rfl

/-- Of all taps those of one patch are taken out by their row. -/
theorem filter_row (hb : b < s.batch) (hoy : oy < s.outHeight) (hox : ox < s.outWidth)
    (p : PatchTap → Bool) :
    s.patchTaps.filter (fun (t : PatchTap) => t.row = s.patchNumber b oy ox && p t) =
      (s.patch b oy ox).filter p := by
  have skip : ∀ b' oy' ox', s.patchNumber b' oy' ox' ≠ s.patchNumber b oy ox →
      (s.patch b' oy' ox').filter (fun (t : PatchTap) =>
        t.row = s.patchNumber b oy ox && p t) = [] := by
    intro b' oy' ox' ne
    refine List.filter_eq_nil_iff.mpr fun t ht => ?_
    rw [row_of_mem_patch ht, decide_eq_false ne]
    simp
  rw [patchTaps, List.filter_flatMap, flatMap_range_single hb, List.filter_flatMap,
    flatMap_range_single hoy, List.filter_flatMap, flatMap_range_single hox]
  · refine List.filter_congr fun t ht => ?_
    rw [row_of_mem_patch ht, decide_eq_true rfl, Bool.true_and]
  · exact fun ox' hox' ne => skip b oy ox' fun rows => ne (cell_inj hox' hox rows).2
  · intro oy' hoy' ne
    rw [List.filter_flatMap, List.flatMap_eq_nil_iff]
    intro ox' hox'
    refine skip b oy' ox' fun rows => ne ?_
    exact (cell_inj hoy' hoy (cell_inj (List.mem_range.mp hox') hox rows).1).2
  · intro b' hb' ne
    rw [List.filter_flatMap, List.flatMap_eq_nil_iff]
    intro oy' hoy'
    rw [List.filter_flatMap, List.flatMap_eq_nil_iff]
    intro ox' hox'
    refine skip b' oy' ox' fun rows => ne ?_
    have pixels := (cell_inj (List.mem_range.mp hox') hox rows).1
    exact (cell_inj (List.mem_range.mp hoy') hoy pixels).1

/-! ## The two walks -/

theorem places_of_over? {n height width channels : Nat} {w : Window}
    (fits : over? n height width channels w = some s) :
    s = ⟨n, height, width, channels, s.outHeight, s.outWidth, w⟩ ∧
      w.positions? height = some s.outHeight ∧ w.positions? width = some s.outWidth := by
  simp only [over?, Option.bind_eq_bind, Option.bind_eq_some_iff, Option.some.injEq] at fits
  obtain ⟨outHeight, rows, outWidth, columns, rfl⟩ := fits
  exact ⟨rfl, rows, columns⟩

theorem patchTaps_within (h : t ∈ s.patchTaps) :
    t.row < s.patches ∧ t.column < s.patchSize ∧ t.offset < volume s.inputDims := by
  obtain ⟨_, _, _, _, _, _, y, x, tap, hy, hx, rfl⟩ := mem_patchTaps.mp h
  exact ⟨patchNumber_lt tap.batch tap.row tap.column,
    tapNumber_lt tap.kernelRow tap.kernelColumn tap.channel,
    inputOffset_lt tap.batch (row?_lt hy) (column?_lt hx) tap.channel⟩

/-- An image that is smaller than the window, with a border wider than the window. -/
def wideBorder : Sliding := ⟨1, 1, 2, 2, 4, 4, ⟨3, 2, 4⟩⟩

example : wideBorder.taps ⟨0, 1, 1, 1⟩ = [1] := by decide

end Sliding
end NeuralGraph
