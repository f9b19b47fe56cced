import NeuralGraph.Proofs.Exact.Convolution
import NeuralGraph.Proofs.Exact.Fields
import NeuralGraph.Proofs.Exact.FormalDerivatives

/-!
# Response normalization and its gradient

An element of the input has a part in the outputs of all channels whose window holds its own.  These
are the channels of the window around its own channel, also where the windows are cut off.
-/

namespace NeuralGraph
set_option autoImplicit false

/-- The channels lie in the windows around each other. -/
def ResponseParams.Near {α : Type} (p : ResponseParams α) (c j : Nat) : Prop :=
  c ≤ j + p.halfWindow ∧ j ≤ c + p.halfWindow

namespace ResponseParams
variable {α : Type} {p : ResponseParams α} {c j : Nat}

instance instDecidableNear : Decidable (p.Near c j) :=
  inferInstanceAs (Decidable (c ≤ j + p.halfWindow ∧ j ≤ c + p.halfWindow))

theorem near_comm : p.Near c j ↔ p.Near j c := and_comm

end ResponseParams

theorem DenseArray.set_get_self {α : Type} [Zero α] {x : DenseArray α} {i : Nat}
    (bound : i < volume x.dims) : x.set i (x.get i) = x := by
  rw [← x.size_eq] at bound
  have same : x.data.setIfInBounds i (x.get i) = x.data := by
    rw [DenseArray.get, Array.getD_eq_getD_getElem?, Array.getElem?_eq_getElem bound,
      Option.getD_some, Array.setIfInBounds_def, dif_pos bound, Array.set_getElem_self]
  obtain ⟨dims, data, size⟩ := x
  simp only [DenseArray.set, DenseArray.mk.injEq, true_and]
  exact same

namespace Kernel

section
variable {α : Type} [RingScalar α] (p : ResponseParams α) {x : DenseArray α}
  {channels pixel c : Nat}

/-- The sum goes over the channels whose window holds this one. -/
theorem windowSum_eq {base : Nat} {f : Nat → α} (hc : c < channels) :
    windowSum p channels base c f =
      ∑ j ∈ Finset.range channels, if p.Near j c then f (base + j) else 0 := by
  have window : Finset.Ico (p.first c) (p.last channels c + 1) =
      (Finset.range channels).filter fun (j : Nat) => p.Near j c := by
    ext j
    have last : p.last channels c = min (c + p.halfWindow) (channels - 1) := rfl
    rw [Finset.mem_Ico, Finset.mem_filter, Finset.mem_range, ResponseParams.Near,
      ResponseParams.first, last]
    omega
  rw [windowSum, Scalar.sumFrom_eq, neg_zero, zero_add, ← Finset.sum_filter, ← window,
    Finset.sum_Ico_eq_sum_range]
  simp only [Nat.add_assoc]

theorem responseScale_get (hc : c < channels) (bound : pixel * channels + c < volume x.dims) :
    (responseScale p channels x).get (pixel * channels + c) = p.k + p.share *
      ∑ j ∈ Finset.range channels, if p.Near j c then
        x.get (pixel * channels + j) * x.get (pixel * channels + j) else 0 := by
  rw [responseScale, DenseArray.get_ofFn _ _ bound, cell_div hc, cell_mod hc, windowSum_eq p hc]

/-- Each element, divided by a power of its scale. -/
def normalized (channels : Nat) (x : DenseArray α) : DenseArray α :=
  .ofFn x.dims fun (i : Nat) =>
    x.get i * Scalar.pow ((responseScale p channels x).get i) (-p.beta)

/-- Each gradient through the element itself, less what comes back through the scales of its
window. -/
def normalizedGradient (channels : Nat) (x y g : DenseArray α) : DenseArray α :=
  .ofFn x.dims fun (i : Nat) =>
    g.get i * Scalar.pow ((responseScale p channels x).get i) (-p.beta)
      - ((2 : Nat) : α) * p.share * p.beta * x.get i
        * windowSum p channels (i / channels * channels) (i % channels)
          (DenseArray.ofFn x.dims fun (i : Nat) =>
            g.get i * y.get i / (responseScale p channels x).get i).get

theorem responseNormalization_image {n height width : Nat}
    (hx : x.dims = [n, height, width, channels]) :
    responseNormalization p x = .ok (normalized p channels x) := by
  rw [responseNormalization, normalized, hx]
  rfl

theorem responseNormalizationGradient_image {n height width : Nat} {y g : DenseArray α}
    (hx : x.dims = [n, height, width, channels]) (hy : y.dims = x.dims) (hg : g.dims = x.dims) :
    responseNormalizationGradient p x y g = .ok (normalizedGradient p channels x y g) := by
  have same : ¬(x.dims ≠ y.dims ∨ x.dims ≠ g.dims) := by
    rw [hy, hg]
    simp
  rw [responseNormalizationGradient, if_neg same, normalizedGradient, hx]
  rfl

end

section
variable {α : Type} [FieldScalar α] {p : ResponseParams α} {x g : DenseArray α}
  {channels pixel c c' b : Nat}

section
variable (within : ∀ j, j < channels → pixel * channels + j < volume x.dims) (hc : c < channels)
include within hc

theorem hasFormalDerivative_element (j : Nat) :
    HasFormalDerivative (fun v => (x.set (pixel * channels + c) v).get (pixel * channels + j))
      (x.get (pixel * channels + c)) (if j = c then 1 else 0) := by
  simp only [DenseArray.get_set _ (within c hc), Nat.add_left_cancel_iff]
  by_cases same : j = c
  · simp only [same, if_true]
    exact .self
  · simp only [same, Ne.symm same, if_false]
    exact .const _

theorem hasFormalDerivative_square (c' j : Nat) :
    HasFormalDerivative
      (fun v => if p.Near j c' then (x.set (pixel * channels + c) v).get (pixel * channels + j) *
        (x.set (pixel * channels + c) v).get (pixel * channels + j) else 0)
      (x.get (pixel * channels + c))
      (if c = j then if p.Near c c' then 2 * x.get (pixel * channels + c) else 0 else 0) := by
  have element := hasFormalDerivative_element within hc j
  by_cases near : p.Near j c'
  · simp only [if_pos near]
    refine (element.mul element).of_eq ?_
    rw [DenseArray.set_get_self (within c hc)]
    by_cases same : j = c
    · subst same
      simp only [if_pos near, if_true]
      ring
    · simp only [same, Ne.symm same, if_false]
      ring
  · simp only [if_neg near]
    refine (HasFormalDerivative.const 0).of_eq ?_
    split_ifs with same near'
    · exact absurd (same ▸ near') near
    · rfl
    · rfl

/-- The scale of a channel only depends on the elements in its window. -/
theorem hasFormalDerivative_scale (hc' : c' < channels) :
    HasFormalDerivative
      (fun v => (responseScale p channels (x.set (pixel * channels + c) v)).get
        (pixel * channels + c'))
      (x.get (pixel * channels + c))
      (p.share * if p.Near c c' then 2 * x.get (pixel * channels + c) else 0) := by
  have squares := HasFormalDerivative.sum fun j (_ : j ∈ Finset.range channels) =>
    hasFormalDerivative_square (p := p) within hc c' j
  have scale := (HasFormalDerivative.const p.k).add
    ((HasFormalDerivative.const p.share).mul squares)
  simp only [responseScale_get p hc' (x := x.set _ _) (within c' hc')]
  refine scale.of_eq ?_
  rw [Finset.sum_ite_eq, if_pos (Finset.mem_range.mpr hc)]
  ring

/-- The partial derivative of the output of channel `c'` by the input of channel `c`. -/
def responseSlope (p : ResponseParams α) (x : DenseArray α) (channels pixel b c c' : Nat) : α :=
  (if c' = c then 1 / (responseScale p channels x).get (pixel * channels + c') ^ b else 0) -
    if p.Near c c' then 2 * p.share * b * x.get (pixel * channels + c) *
      x.get (pixel * channels + c') /
        (responseScale p channels x).get (pixel * channels + c') ^ (b + 1) else 0

theorem hasFormalDerivative_normalized (hc' : c' < channels)
    (power : ∀ s : α, s ≠ 0 → Scalar.pow s (-p.beta) = 1 / s ^ b)
    (nonzero : (responseScale p channels x).get (pixel * channels + c') ≠ 0) :
    HasFormalDerivative
      (fun v => (normalized p channels (x.set (pixel * channels + c) v)).get
        (pixel * channels + c'))
      (x.get (pixel * channels + c)) (responseSlope p x channels pixel b c c') := by
  have element := hasFormalDerivative_element within hc c'
  have scale := hasFormalDerivative_scale (p := p) within hc hc'
  have factor := scale.reciprocal_pow b (by rwa [DenseArray.set_get_self (within c hc)])
    fun s => power _
  refine ((element.mul factor).congr fun v => ?_).of_eq ?_
  · exact DenseArray.get_ofFn _ _ (within c' hc')
  · rw [DenseArray.set_get_self (within c hc), responseSlope, power _ nonzero]
    split_ifs <;> field_simp <;> ring

theorem normalizedGradient_get (beta : p.beta = b)
    (power : ∀ s : α, s ≠ 0 → Scalar.pow s (-p.beta) = 1 / s ^ b)
    (nonzero : ∀ i, i < volume x.dims → (responseScale p channels x).get i ≠ 0) :
    (normalizedGradient p channels x (normalized p channels x) g).get (pixel * channels + c) =
      ∑ c' ∈ Finset.range channels,
        g.get (pixel * channels + c') * responseSlope p x channels pixel b c c' := by
  rw [normalizedGradient, DenseArray.get_ofFn _ _ (within c hc), cell_div hc, cell_mod hc,
    windowSum_eq p hc, power _ (nonzero _ (within c hc)), beta]
  simp only [responseSlope, mul_sub, Finset.sum_sub_distrib, mul_ite, mul_zero]
  rw [Finset.sum_ite_eq', if_pos (Finset.mem_range.mpr hc), Finset.mul_sum]
  -- The sum runs over the window around `c`, the slopes over the windows that hold `c`.
  refine congrArg _ (Finset.sum_congr rfl fun j hj => ?_)
  rw [Finset.mem_range] at hj
  have scale := nonzero _ (within j hj)
  rw [DenseArray.get_ofFn _ _ (within j hj), normalized, DenseArray.get_ofFn _ _ (within j hj),
    power _ scale]
  by_cases near : p.Near j c
  · rw [if_pos near, if_pos (ResponseParams.near_comm.mp near)]
    push_cast
    field_simp
    ring
  · rw [if_neg near, if_neg fun near' => near (ResponseParams.near_comm.mp near'), mul_zero]

end

variable [CharZero α]

end
end Kernel

/-! ## Windows cut off on both sides -/

/-- A pixel of three channels. -/
def prism : DenseArray ℚ := ⟨[1, 1, 1, 3], #[1, 2, -3], rfl⟩

/-- One gradient for each channel. -/
def prismGradient : DenseArray ℚ := ⟨[1, 1, 1, 3], #[1, 5, 7], rfl⟩

/-- The window of the channel in the middle holds all three. -/
def squaredScale : ResponseParams ℚ where
  halfWindow := 1
  alpha := 3
  beta := 2
  k := 1

end NeuralGraph
