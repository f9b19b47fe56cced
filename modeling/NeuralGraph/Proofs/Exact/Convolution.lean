import NeuralGraph.Proofs.Exact.Images
import NeuralGraph.Proofs.Yields

/-!
# Exact convolutions

Over a commutative ring a convolution is the direct sum over the taps that fall on the image, and its
two gradients are its adjoints, in the image and in the filters.
-/

namespace NeuralGraph
set_option autoImplicit false
variable {α : Type}

theorem Sliding.volume_outputDims_eq (s : Sliding) (depth : Nat) :
    volume (s.outputDims depth) = s.patches * depth := by
  simp [outputDims, patches, Nat.mul_assoc]

namespace Kernel

theorem volume_filterDims (s : Sliding) (depth : Nat) :
    volume (filterDims s depth) = depth * s.patchSize := by
  simp [filterDims, Sliding.patchSize, Nat.mul_assoc]

theorem imageDims_eq_ok {role : ImageRole} {dims : List Nat} {a b c d : Nat}
    (h : (imageDims role dims : Kernel α (Nat × Nat × Nat × Nat)) = .ok (a, b, c, d)) :
    dims = [a, b, c, d] := by
  unfold imageDims at h
  split at h
  · cases h
    rfl
  · cases h

theorem convolutionGeometry_eq_ok {input filter : List Nat} {w : Window} {depth : Nat} {s : Sliding}
    (h : (convolutionGeometry input filter w : Kernel α (Nat × Sliding)) = .ok (depth, s)) :
    input = s.inputDims ∧ filter = filterDims s depth := by
  simp only [convolutionGeometry, bind, Except.bind] at h
  split at h
  · cases h
  · next image hi =>
    split at h
    · cases h
    · next taps hf =>
      split at h
      · cases h
      · next same =>
        simp only [not_or, ne_eq, not_not] at same
        split at h
        · next fits =>
          cases h
          simp only [Sliding.over?, Option.bind_eq_bind, Option.bind_eq_some_iff,
            Option.some.injEq] at fits
          obtain ⟨_, -, _, -, rfl⟩ := fits
          refine ⟨imageDims_eq_ok hi, ?_⟩
          rw [imageDims_eq_ok hf, same.1, same.2.1, same.2.2]
          rfl
        · cases h

end Kernel

/-! ## What the kernels compute -/

namespace Kernel
variable [RingScalar α] {x f b g y : DenseArray α} {w : Window}

theorem exists_geometry (h : convolution x f b w = .ok y) : ∃ depth s,
    (convolutionGeometry x.dims f.dims w : Kernel α (Nat × Sliding)) = .ok (depth, s) := by
  cases geometry : (convolutionGeometry x.dims f.dims w : Kernel α (Nat × Sliding)) with
  | error e => simp [convolution, geometry, bind, Except.bind] at h
  | ok r => exact ⟨r.1, r.2, rfl⟩

section
variable {depth : Nat} {s : Sliding}
  (geometry : (convolutionGeometry x.dims f.dims w : Kernel α (Nat × Sliding)) = .ok (depth, s))
include geometry

/-- The product of the patch matrix and the filters, and the bias. -/
theorem convolution_get (h : convolution x f b w = .ok y) : y.dims = s.outputDims depth ∧
    ∀ p d, p < s.patches → d < depth → y.get (p * depth + d) =
      ∑ t ∈ Finset.range s.patchSize,
        (patchMatrix s x).get (p * s.patchSize + t) * f.get (d * s.patchSize + t) + b.get d := by
  simp only [convolution, geometry, checkPatches, bind, Except.bind] at h
  split at h
  · cases h
  · split at h
    · cases h
    · split at h
      · cases h
      · cases h
        refine ⟨rfl, fun p d hp hd => ?_⟩
        have bound : p * depth + d < volume (s.outputDims depth) := by
          rw [Sliding.volume_outputDims_eq]
          exact cell_lt hp hd
        rw [DenseArray.get_ofFn _ _ bound, Scalar.dot_eq]
        simp only [cell_div hd, cell_mod hd]

/-- The product of the gradient and the filters, added back into an image. -/
theorem convolutionInputGradient_eq_ok (h : convolutionInputGradient x.dims f g w = .ok y) :
    g.dims = s.outputDims depth ∧ y = addPatches s (product s.patches depth s.patchSize g f) := by
  simp only [convolutionInputGradient, geometry, checkConvolutionGradient, bind, Except.bind] at h
  split at h
  · cases h
  · next checked =>
    split at checked
    · next same =>
      cases h
      exact ⟨same, rfl⟩
    · cases checked

/-- The product of the transposed gradient and the patch matrix. -/
theorem convolutionFilterGradient_get (h : convolutionFilterGradient x f.dims g w = .ok y) :
    y.dims = f.dims ∧ ∀ d t, d < depth → t < s.patchSize → y.get (d * s.patchSize + t) =
      ∑ p ∈ Finset.range s.patches,
        g.get (p * depth + d) * (patchMatrix s x).get (p * s.patchSize + t) := by
  have hf := (convolutionGeometry_eq_ok geometry).2
  simp only [convolutionFilterGradient, geometry, checkConvolutionGradient, checkPatches, bind,
    Except.bind] at h
  split at h
  · cases h
  · split at h
    · cases h
    · cases h
      refine ⟨rfl, fun d t hd ht => ?_⟩
      have bound : d * s.patchSize + t < volume f.dims := by
        rw [hf, volume_filterDims]
        exact cell_lt hd ht
      rw [DenseArray.get_ofFn _ _ bound, Scalar.dot_eq]
      simp only [cell_div ht, cell_mod ht]

/-- An element of a convolution is a sum over the taps that fall on the image. -/
theorem convolution_get_sum {i oy ox d : Nat} (h : convolution x f b w = .ok y) (hi : i < s.batch)
    (hoy : oy < s.outHeight) (hox : ox < s.outWidth) (hd : d < depth) :
    y.get (s.patchNumber i oy ox * depth + d) =
      b.get d + ∑ ky ∈ Finset.range s.window.kernel, ∑ kx ∈ Finset.range s.window.kernel,
        ∑ c ∈ Finset.range s.channels, s.onImage oy ox ky kx fun (row column : Nat) =>
          x.get (s.inputOffset i row column c) * f.get (d * s.patchSize + s.tapNumber ky kx c) := by
  rw [(convolution_get geometry h).2 _ d (Sliding.patchNumber_lt hi hoy hox) hd, add_comm,
    Sliding.sum_taps]
  refine congrArg (b.get d + ·) (Finset.sum_congr rfl fun ky hky =>
    Finset.sum_congr rfl fun kx hkx => Finset.sum_congr rfl fun c hc => ?_)
  rw [Finset.mem_range] at hky hkx hc
  have seen := patchMatrix_get x (s := s) ⟨hi, hoy, hox, hky, hkx, hc⟩
  rw [← Sliding.onImage_mul, ← seen, Sliding.cell]

end

/-! ## The direct sum -/

/-- A convolution adds up, for each filter and each window position, the products of the elements of
the filter and the elements of the image under them. -/
theorem convolution_direct {n height width channels depth outHeight outWidth : Nat}
    (hx : x.dims = [n, height, width, channels])
    (hf : f.dims = [depth, w.kernel, w.kernel, channels])
    (hh : w.positions? height = some outHeight) (hw : w.positions? width = some outWidth)
    (h : convolution x f b w = .ok y) :
    y.dims = [n, outHeight, outWidth, depth] ∧
      ∀ i oy ox d, i < n → oy < outHeight → ox < outWidth → d < depth →
        y.at? [i, oy, ox, d] = some (b.get d +
          ∑ ky ∈ Finset.range w.kernel, ∑ kx ∈ Finset.range w.kernel, ∑ c ∈ Finset.range channels,
            if (w.pad ≤ oy * w.stride + ky ∧ oy * w.stride + ky < height + w.pad) ∧
                w.pad ≤ ox * w.stride + kx ∧ ox * w.stride + kx < width + w.pad
            then x.element [i, oy * w.stride + ky - w.pad, ox * w.stride + kx - w.pad, c] *
              f.element [d, ky, kx, c]
            else 0) := by
  have fits : Sliding.over? n height width channels w =
      some ⟨n, height, width, channels, outHeight, outWidth, w⟩ := over?_eq hh hw
  have geometry := convolutionGeometry_eq (α := α)
    (s := ⟨n, height, width, channels, outHeight, outWidth, w⟩) hx hf fits
  have dims : y.dims = [n, outHeight, outWidth, depth] := (convolution_get geometry h).1
  refine ⟨dims, fun i oy ox d hi hoy hox hd => ?_⟩
  have within : DenseArray.Within [i, oy, ox, d] y.dims := by
    rw [dims]
    exact .cons hi (.cons hoy (.cons hox (.cons hd .nil)))
  rw [DenseArray.at?_eq within, dims, DenseArray.position_image]
  refine congrArg some ((convolution_get_sum geometry h hi hoy hox hd).trans ?_)
  refine congrArg (b.get d + ·) (Finset.sum_congr rfl fun ky hky =>
    Finset.sum_congr rfl fun kx hkx => Finset.sum_congr rfl fun c hc => ?_)
  rw [Sliding.onImage_eq]
  dsimp only
  split_ifs with inside
  · have pixel : DenseArray.Within
        [i, oy * w.stride + ky - w.pad, ox * w.stride + kx - w.pad, c] x.dims := by
      rw [hx]
      exact .cons hi (.cons (by omega) (.cons (by omega) (.cons (Finset.mem_range.mp hc) .nil)))
    have tap : DenseArray.Within [d, ky, kx, c] f.dims := by
      rw [hf]
      exact .cons hd (.cons (Finset.mem_range.mp hky) (.cons (Finset.mem_range.mp hkx)
        (.cons (Finset.mem_range.mp hc) .nil)))
    -- filters are stored one after the other, each as one row of the patch matrix
    have place : ((d * w.kernel + ky) * w.kernel + kx) * channels + c =
        d * (w.kernel * w.kernel * channels) + ((ky * w.kernel + kx) * channels + c) := by ring
    rw [DenseArray.element_eq pixel, DenseArray.element_eq tap, hx, hf, DenseArray.position_image,
      DenseArray.position_image, place]
    rfl
  · rfl

/-! ## The gradients -/

/-- The sum over window positions, filters and taps that image, filters and gradient have in
common. -/
def convolutionForm (s : Sliding) (depth : Nat) (x f g : DenseArray α) : α :=
  ∑ p ∈ Finset.range s.patches, ∑ d ∈ Finset.range depth, ∑ t ∈ Finset.range s.patchSize,
    (patchMatrix s x).get (p * s.patchSize + t) * f.get (d * s.patchSize + t) *
      g.get (p * depth + d)

section
variable {depth : Nat} {s : Sliding}
  (geometry : (convolutionGeometry x.dims f.dims w : Kernel α (Nat × Sliding)) = .ok (depth, s))
include geometry

theorem convolution_inner {dims : List Nat} (h : convolution x f (.zeros dims) w = .ok y) :
    y.inner g = convolutionForm s depth x f g := by
  obtain ⟨hy, elements⟩ := convolution_get geometry h
  rw [DenseArray.inner, hy, Sliding.volume_outputDims_eq, pairing_cells]
  refine Finset.sum_congr rfl fun p hp => Finset.sum_congr rfl fun d hd => ?_
  rw [elements p d (Finset.mem_range.mp hp) (Finset.mem_range.mp hd), DenseArray.get_zeros, add_zero,
    Finset.sum_mul]

theorem convolutionInputGradient_inner (h : convolutionInputGradient x.dims f g w = .ok y) :
    x.inner y = convolutionForm s depth x f g := by
  obtain ⟨-, rfl⟩ := convolutionInputGradient_eq_ok geometry h
  rw [DenseArray.inner, (convolutionGeometry_eq_ok geometry).1, ← pairing_patches, pairing_cells]
  refine Finset.sum_congr rfl fun p hp => ?_
  refine Eq.trans (Finset.sum_congr rfl fun t ht => ?_) Finset.sum_comm
  rw [product_get g f (Finset.mem_range.mp hp) (Finset.mem_range.mp ht), Finset.mul_sum]
  exact Finset.sum_congr rfl fun d _ => by ring

theorem convolutionFilterGradient_inner (h : convolutionFilterGradient x f.dims g w = .ok y) :
    f.inner y = convolutionForm s depth x f g := by
  obtain ⟨-, elements⟩ := convolutionFilterGradient_get geometry h
  rw [DenseArray.inner, (convolutionGeometry_eq_ok geometry).2, volume_filterDims, pairing_cells,
    convolutionForm]
  refine Eq.trans (Finset.sum_congr rfl fun d hd => ?_) Finset.sum_comm
  refine Eq.trans (Finset.sum_congr rfl fun t ht => ?_) Finset.sum_comm
  rw [elements d t (Finset.mem_range.mp hd) (Finset.mem_range.mp ht), Finset.mul_sum]
  exact Finset.sum_congr rfl fun p _ => by ring

end

/-- The gradients of a convolution are its adjoints in the image and in the filters. -/
theorem convolution_adjoint {dims : List Nat} {dx df : DenseArray α}
    (hy : convolution x f (.zeros dims) w = .ok y)
    (hdx : convolutionInputGradient x.dims f g w = .ok dx)
    (hdf : convolutionFilterGradient x f.dims g w = .ok df) :
    y.dims = g.dims ∧ dx.dims = x.dims ∧ df.dims = f.dims ∧
      y.inner g = x.inner dx ∧ y.inner g = f.inner df := by
  obtain ⟨depth, s, geometry⟩ := exists_geometry hy
  obtain ⟨hg, added⟩ := convolutionInputGradient_eq_ok geometry hdx
  have image : dx.dims = x.dims := by
    rw [added, addPatches_dims, (convolutionGeometry_eq_ok geometry).1]
  refine ⟨(convolution_get geometry hy).1.trans hg.symm, image,
    (convolutionFilterGradient_get geometry hdf).1, ?_, ?_⟩
  · rw [convolution_inner geometry hy, convolutionInputGradient_inner geometry hdx]
  · rw [convolution_inner geometry hy, convolutionFilterGradient_inner geometry hdf]

end Kernel

/-! ## An image smaller than the window -/

/-- One pixel with two channels. -/
def dotImage : DenseArray Int := ⟨[1, 1, 1, 2], #[3, 5], rfl⟩

/-- A filter of three rows and columns. -/
def ringFilter : DenseArray Int :=
  ⟨[1, 3, 3, 2], #[1, 2, 3, 4, 5, 6, 7, 8, 9, 10, 11, 12, 13, 14, 15, 16, 17, 18], rfl⟩

/-- A gradient for the only window position. -/
def dotGradient : DenseArray Int := .fill [1, 1, 1, 1] 2

/-- With one row and one column of padding the pixel lies under the middle of the filter. -/
theorem dotImage_convolution_direct : dotImage.dims = [1, 1, 1, 2] ∧
    ringFilter.dims = [1, 3, 3, 2] ∧ Window.positions? ⟨3, 2, 1⟩ 1 = some 1 ∧
    ∃ y, Kernel.convolution dotImage ringFilter (.fill [1] 7) ⟨3, 2, 1⟩ = .ok y ∧
      y.dims = [1, 1, 1, 1] ∧ y.at? [0, 0, 0, 0] = some (7 + (3 * 9 + 5 * 10)) := by
  have runs : (Kernel.convolution dotImage ringFilter (.fill [1] 7) ⟨3, 2, 1⟩).isOk = true := by
    decide +kernel
  obtain ⟨y, hy⟩ := exists_eq_ok runs
  obtain ⟨dims, elements⟩ := Kernel.convolution_direct (x := dotImage) (f := ringFilter)
    (w := ⟨3, 2, 1⟩) rfl rfl rfl rfl hy
  have element := elements 0 0 0 0 (by decide) (by decide) (by decide) (by decide)
  exact ⟨rfl, rfl, rfl, y, hy, dims, element.trans (by decide +kernel)⟩

theorem dotImage_convolution_adjoint : ∃ y dx df : DenseArray Int,
    Kernel.convolution dotImage ringFilter (.zeros [1]) ⟨3, 2, 1⟩ = .ok y ∧
    Kernel.convolutionInputGradient dotImage.dims ringFilter dotGradient ⟨3, 2, 1⟩ = .ok dx ∧
    Kernel.convolutionFilterGradient dotImage ringFilter.dims dotGradient ⟨3, 2, 1⟩ = .ok df ∧
    y.dims = dotGradient.dims ∧ dx.dims = dotImage.dims ∧ df.dims = ringFilter.dims ∧
    y.inner dotGradient = dotImage.inner dx ∧ y.inner dotGradient = ringFilter.inner df := by
  have forward : (Kernel.convolution dotImage ringFilter (.zeros [1]) ⟨3, 2, 1⟩).isOk = true := by
    decide +kernel
  have input : (Kernel.convolutionInputGradient dotImage.dims ringFilter dotGradient
      ⟨3, 2, 1⟩).isOk = true := by decide +kernel
  have filter : (Kernel.convolutionFilterGradient dotImage ringFilter.dims dotGradient
      ⟨3, 2, 1⟩).isOk = true := by decide +kernel
  obtain ⟨y, hy⟩ := exists_eq_ok forward
  obtain ⟨dx, hdx⟩ := exists_eq_ok input
  obtain ⟨df, hdf⟩ := exists_eq_ok filter
  exact ⟨y, dx, df, hy, hdx, hdf, Kernel.convolution_adjoint hy hdx hdf⟩

end NeuralGraph
