import NeuralGraph.Proofs.Exact.Fields
import NeuralGraph.Proofs.Exact.Images

/-!
# Exact average pooling

Over a field the gradient of average pooling is its adjoint.  What the mean divides once for each
window the gradient divides for each tap.
-/

namespace NeuralGraph
set_option autoImplicit false
variable {α : Type}

namespace Sliding
variable {s : Sliding}

theorem site_lt {i : Nat} (h : i < volume s.pooledDims) :
    (s.site i).batch < s.batch ∧ (s.site i).channel < s.channels := by
  have bound : i < s.batch * s.outHeight * s.outWidth * s.channels := by
    simpa [pooledDims, outputDims, Nat.mul_assoc] using h
  constructor
  · rw [Nat.mul_comm _ s.channels] at bound
    have pixel := Nat.div_lt_of_lt_mul bound
    rw [Nat.mul_comm _ s.outWidth] at pixel
    have row := Nat.div_lt_of_lt_mul pixel
    rw [Nat.mul_comm _ s.outHeight] at row
    exact Nat.div_lt_of_lt_mul row
  · exact Nat.mod_lt i (Nat.pos_of_lt_mul_left bound)

/-- The taps of a window lie in the image. -/
theorem mem_taps_lt {site : PoolSite} {j : Nat} (hb : site.batch < s.batch)
    (hc : site.channel < s.channels) (h : j ∈ s.taps site) : j < volume s.inputDims := by
  simp only [taps, List.mem_filterMap, Option.bind_eq_bind, Option.bind_eq_some_iff,
    Option.some.injEq] at h
  obtain ⟨_, -, y, hy, x, hx, rfl⟩ := h
  exact inputOffset_lt hb (row?_lt hy) (column?_lt hx) hc

end Sliding

namespace Kernel
variable [FieldScalar α]

theorem mean_eq (area : Nat) (xs : List α) : mean area xs = xs.sum * (1 / (area : α)) := by
  rw [mean, ← List.sum_eq_foldl, div_eq_mul_one_div]

section
variable (s : Sliding) (x g : DenseArray α)

/-- The means of the windows. -/
def pooledMeans : DenseArray α :=
  .ofFn s.pooledDims fun (i : Nat) => mean s.area ((s.taps (s.site i)).map x.get)

/-- The gradient of one window is shared out among its taps. -/
def spreadShare (image : DenseArray α) (i : Nat) : DenseArray α :=
  (s.taps (s.site i)).foldl
    (fun (image : DenseArray α) (j : Nat) => image.addAt j (g.get i * (1 / (s.area : α)))) image

/-- The gradients of all windows are shared out. -/
def spreadShares : DenseArray α :=
  (List.range (volume s.pooledDims)).foldl (spreadShare s g) (.zeros s.inputDims)

theorem spreadShare_dims (image : DenseArray α) (i : Nat) :
    (spreadShare s g image i).dims = image.dims :=
  foldl_dims _ (fun image j => DenseArray.addAt_dims image j _) _ image

theorem spreadShares_dims : (spreadShares s g).dims = s.inputDims :=
  foldl_dims _ (spreadShare_dims s g) _ _

/-- A window contributes to the pairing with the image what its mean contributes to the pairing with
the gradient. -/
theorem pairing_spreadShare {image : DenseArray α} {i : Nat} (hi : i < volume s.pooledDims)
    (same : image.dims = s.inputDims) :
    pairing (volume s.inputDims) x.get (spreadShare s g image i).get =
      pairing (volume s.inputDims) x.get image.get +
        mean s.area ((s.taps (s.site i)).map x.get) * g.get i := by
  obtain ⟨hb, hc⟩ := Sliding.site_lt hi
  rw [spreadShare, pairing_foldl_addAt same fun j hj => Sliding.mem_taps_lt hb hc hj,
    List.sum_map_mul_right, mean_eq]
  ring

theorem pairing_pooledMeans : pairing (volume s.pooledDims) (pooledMeans s x).get g.get =
    pairing (volume s.inputDims) x.get (spreadShares s g).get := by
  have gains := fun (image : DenseArray α) (i : Nat) (hi : i ∈ List.range (volume s.pooledDims))
      (same : image.dims = s.inputDims) =>
    pairing_spreadShare s x g (List.mem_range.mp hi) same
  rw [spreadShares, pairing_foldl (DenseArray.zeros_dims _) (spreadShare_dims s g) gains,
    pairing_zeros, zero_add, sum_map_range]
  refine Finset.sum_congr rfl fun i hi => ?_
  rw [pooledMeans, DenseArray.get_ofFn _ _ (Finset.mem_range.mp hi)]

end

end Kernel

/-! ## Overlapping windows -/

/-- A column of three pixels. -/
def columnImage : DenseArray ℚ := ⟨[1, 3, 1, 1], #[1, 2, 4], rfl⟩

/-- One gradient for each of the windows of two pixels, which overlap and reach over the border. -/
def columnGradient : DenseArray ℚ := ⟨[1, 4, 2, 1], #[1, 2, 3, 4, 5, 6, 7, 8], rfl⟩

end NeuralGraph
