import NeuralGraph.Program.Signature
import NeuralGraph.Proofs.Kernel.Results

/-!
# Signatures as propositions

What the checks of operand types ask for, one lemma for each check.
-/

namespace NeuralGraph
set_option autoImplicit false
variable {α : Type}

namespace TensorType
variable {t : TensorType α}

theorem rows_of_dims {n : Nat} {slice : List Nat} (h : t.dims = n :: slice) : t.rows = n := by
  rw [rows, h]
  rfl

theorem rowSize_of_dims {n : Nat} {slice : List Nat} (h : t.dims = n :: slice) :
    t.rowSize = volume slice := by
  rw [rowSize, h]
  rfl

theorem channels_of_dims {s : Sliding} (h : t.dims = s.inputDims) : t.channels = s.channels := by
  rw [channels, h]
  rfl

end TensorType

namespace Signature

-- The equations of `operator` are made here, so that the proofs below do not all wait for them.
attribute [local simp] operator

@[simp] theorem require_eq_ok_iff {condition : Bool} {fault : SignatureFault α} {u : Unit} :
    require condition fault = .ok u ↔ condition = true := by
  cases condition <;> simp [require]

/-- Two checks one after the other. -/
@[simp] theorem bind_eq_ok_iff {x y : Except (SignatureFault α) Unit} {u : Unit} :
    (x >>= fun _ => y) = .ok u ↔ x = .ok () ∧ y = .ok u := by
  cases x <;> simp [bind, Except.bind]

@[simp] theorem sameDims_eq_ok_iff {t : TensorType α} {ts : List (TensorType α)} {u : Unit} :
    sameDims (t :: ts) = .ok u ↔ ∀ s ∈ ts, s.dims = t.dims := by
  simp [sameDims]

/-! ## Windows -/

/-- The dimensions under a window are those of a geometry that fits the image. -/
theorem slidDims?_eq_some {t : TensorType α} {w : Window} {channels : Nat} {dims : List Nat}
    (h : t.slidDims? w channels = some dims) :
    ∃ s : Sliding, s.window = w ∧
      Sliding.over? s.batch s.height s.width s.channels s.window = some s ∧
      t.dims = s.inputDims ∧ dims = s.outputDims channels := by
  simp only [TensorType.slidDims?] at h
  split at h
  · next batch height width c hd =>
    cases hh : w.positions? height with
    | none => simp [hh] at h
    | some outHeight =>
      cases hw : w.positions? width with
      | none => simp [hh, hw] at h
      | some outWidth =>
        simp only [hh, hw, Option.bind_eq_bind, Option.bind_some, Option.some.injEq] at h
        exact ⟨⟨batch, height, width, c, outHeight, outWidth, w⟩, rfl, Kernel.over?_eq hh hw, hd,
          h.symm⟩
  · cases h

theorem slidDims?_channels_eq_some {t : TensorType α} {w : Window} {dims : List Nat}
    (h : t.slidDims? w t.channels = some dims) :
    ∃ s : Sliding, s.window = w ∧
      Sliding.over? s.batch s.height s.width s.channels s.window = some s ∧
      t.dims = s.inputDims ∧ dims = s.outputDims s.channels := by
  obtain ⟨s, window, hs, ht, hd⟩ := slidDims?_eq_some h
  exact ⟨s, window, hs, ht, TensorType.channels_of_dims ht ▸ hd⟩

/-- Operands that suit a convolution have the dimensions of its geometry. -/
theorem convolution_eq_ok {input filter output : TensorType α} {w : Window}
    (h : convolution input filter output w = .ok ()) :
    ∃ (s : Sliding) (depth : Nat), s.window = w ∧
      Sliding.over? s.batch s.height s.width s.channels s.window = some s ∧
      input.dims = s.inputDims ∧ filter.dims = Kernel.filterDims s depth ∧
      output.dims = s.outputDims depth := by
  simp only [convolution, bind_eq_ok_iff, require_eq_ok_iff, Bool.and_eq_true, beq_iff_eq] at h
  obtain ⟨⟨-, rank⟩, tail, slid⟩ := h
  obtain ⟨s, rfl, hs, hi, ho⟩ := slidDims?_eq_some slid
  refine ⟨s, filter.rows, rfl, hs, hi, ?_, ho⟩
  rw [TensorType.channels_of_dims hi] at tail
  cases hf : filter.dims with
  | nil => simp [TensorType.rank, hf] at rank
  | cons d ds =>
    rw [hf, List.tail_cons] at tail
    rw [tail, TensorType.rows_of_dims hf]
    rfl

theorem shuffledDims?_eq_some {t : TensorType α} {shuffle dims : List Nat}
    (h : t.shuffledDims? shuffle = some dims) :
    shuffle.map (fun (axis : Nat) => t.dims.getD axis 0) = dims := by
  simp only [TensorType.shuffledDims?] at h
  induction shuffle generalizing dims with
  | nil =>
    cases h
    rfl
  | cons axis shuffle ih =>
    simp only [List.mapM_cons, Option.bind_eq_bind, Option.bind_eq_some_iff, Option.pure_def,
      Option.some.injEq] at h
    obtain ⟨d, hd, ds, hds, rfl⟩ := h
    rw [List.map_cons, ih hds, List.getD_eq_getElem?_getD, hd, Option.getD_some]

theorem softmax_eq_ok {result scores labels : TensorType α}
    (h : softmax result scores labels = .ok ()) :
    ∃ n c, result.dims = [n, c] ∧ scores.dims = [n, c] ∧ labels.dims = [n, 1] := by
  simp only [softmax, bind_eq_ok_iff, sameDims_eq_ok_iff, require_eq_ok_iff, Bool.and_eq_true,
    beq_iff_eq, TensorType.labelsFor] at h
  obtain ⟨same, rank, -, labels⟩ := h
  obtain ⟨n, c, hd⟩ := List.length_eq_two.mp rank
  exact ⟨n, c, hd, (same scores List.mem_cons_self).trans hd,
    labels.trans (by rw [TensorType.rows_of_dims hd])⟩

/-! ## Matrices and batches -/

theorem matMul_eq_ok {d a b : TensorType α} (h : operator .matMul [d, a, b] = .ok ()) :
    ∃ n k m, a.dims = [n, k] ∧ b.dims = [k, m] ∧ d.dims = [n, m] := by
  simp only [operator, require_eq_ok_iff] at h
  split at h
  · next n k k' m ha hb =>
    simp only [Bool.and_eq_true, beq_iff_eq] at h
    obtain ⟨rfl, hd⟩ := h
    exact ⟨n, k, m, ha, hb, hd⟩
  · cases h

theorem dense_eq_ok {d x w b : TensorType α} (h : operator .dense [d, x, w, b] = .ok ()) :
    ∃ n slice m, x.dims = n :: slice ∧ slice ≠ [] ∧ w.dims = [volume slice, m] ∧ b.dims = [m] ∧
      d.dims = [n, m] := by
  simp only [operator, require_eq_ok_iff] at h
  split at h
  · next k m m' hw hb =>
    simp only [Bool.and_eq_true, beq_iff_eq, Nat.ble_eq] at h
    obtain ⟨⟨⟨rank, rfl⟩, rfl⟩, hd⟩ := h
    cases hx : x.dims with
    | nil => simp [TensorType.rank, hx] at rank
    | cons n slice =>
      rw [TensorType.rows_of_dims hx] at hd
      rw [TensorType.rowSize_of_dims hx] at hw
      refine ⟨n, slice, m, rfl, ?_, hw, hb, hd⟩
      rintro rfl
      simp [TensorType.rank, hx] at rank
  · cases h

theorem addToRows_eq_ok {d x s : TensorType α} (h : operator .addToRows [d, x, s] = .ok ()) :
    ∃ n, x.dims = n :: s.dims ∧ d.dims = n :: s.dims := by
  simp only [operator, require_eq_ok_iff, Bool.and_eq_true, beq_iff_eq, Bool.not_eq_true',
    List.isEmpty_eq_false_iff] at h
  obtain ⟨⟨hd, hx⟩, hs⟩ := h
  obtain ⟨n, slice, hslice⟩ := List.exists_cons_of_ne_nil hx
  rw [hslice, List.tail_cons] at hs
  exact ⟨n, by rw [hslice, hs], by rw [hd, hslice, hs]⟩

theorem sumRows_eq_ok {d x : TensorType α} (h : operator .sumRows [d, x] = .ok ()) :
    ∃ n, x.dims = n :: d.dims := by
  simp only [operator, require_eq_ok_iff, Bool.and_eq_true, beq_iff_eq, Bool.not_eq_true',
    List.isEmpty_eq_false_iff] at h
  obtain ⟨hx, hd⟩ := h
  obtain ⟨n, slice, hslice⟩ := List.exists_cons_of_ne_nil hx
  rw [hslice, List.tail_cons] at hd
  exact ⟨n, by rw [hslice, hd]⟩

theorem transpose_eq_ok {shuffle : List Nat} {d x : TensorType α}
    (h : operator (.transpose shuffle) [d, x] = .ok ()) :
    shuffle.length = x.rank ∧ shuffle.map (fun (axis : Nat) => x.dims.getD axis 0) = d.dims := by
  simp only [operator, require_eq_ok_iff, Bool.and_eq_true, beq_iff_eq] at h
  exact ⟨h.1, shuffledDims?_eq_some h.2⟩

theorem gather_eq_ok {d x i : TensorType α} (h : operator .gather [d, x, i] = .ok ()) :
    ∃ n slice, x.dims = n :: slice ∧ d.dims = i.dims ++ slice := by
  simp only [operator, require_eq_ok_iff, Bool.and_eq_true, beq_iff_eq, Bool.not_eq_true',
    List.isEmpty_eq_false_iff] at h
  obtain ⟨⟨-, hx⟩, hd⟩ := h
  obtain ⟨n, slice, hslice⟩ := List.exists_cons_of_ne_nil hx
  exact ⟨n, slice, hslice, by rw [hd, hslice, List.tail_cons]⟩

theorem convert_eq_ok {c : Conversion} {d x : TensorType α}
    (h : operator (.convert c) [d, x] = .ok ()) : x.dims = d.dims := by
  simp only [operator, bind_eq_ok_iff, sameDims_eq_ok_iff, List.mem_singleton, forall_eq] at h
  exact h.1

/-! ## Images -/

theorem responseNormalization_eq_ok {p : ResponseParams α} {d x : TensorType α}
    (h : operator (.responseNormalization p) [d, x] = .ok ()) :
    x.dims = d.dims ∧ d.dims.length = 4 := by
  simpa only [operator, bind_eq_ok_iff, sameDims_eq_ok_iff, List.mem_singleton, forall_eq,
    require_eq_ok_iff, beq_iff_eq, TensorType.rank] using h

theorem convolutionLayer_eq_ok {w : Window} {d x f b : TensorType α}
    (h : operator (.convolution w) [d, x, f, b] = .ok ()) :
    convolution x f d w = .ok () ∧ b.dims = [f.rows] := by
  simpa only [operator, bind_eq_ok_iff, require_eq_ok_iff, beq_iff_eq] using h

theorem pool_eq_ok {f : Pooling} {w : Window} {d x : TensorType α}
    (h : operator (.pool f w) [d, x] = .ok ()) : x.slidDims? w x.channels = some d.dims := by
  simpa only [operator, require_eq_ok_iff, beq_iff_eq] using h

theorem maxPoolGradient_eq_ok {w : Window} {d x g : TensorType α}
    (h : operator (.maxPoolGradient w) [d, x, g] = .ok ()) :
    x.dims = d.dims ∧ x.slidDims? w x.channels = some g.dims := by
  simpa only [operator, bind_eq_ok_iff, sameDims_eq_ok_iff, List.mem_singleton, forall_eq,
    require_eq_ok_iff, beq_iff_eq] using h

theorem averagePoolGradient_eq_ok {w : Window} {d g : TensorType α}
    (h : operator (.averagePoolGradient w) [d, g] = .ok ()) :
    d.slidDims? w d.channels = some g.dims := by
  simpa only [operator, require_eq_ok_iff, beq_iff_eq] using h

/-! ## Types of the same shape -/

end Signature

/-- Equal in everything that signatures of operators look at. -/
def TensorType.SameShape (s t : TensorType α) : Prop := s.dims = t.dims ∧ s.element = t.element

namespace Signature

theorem sameDims_congr {ts us : List (TensorType α)} (h : List.Forall₂ TensorType.SameShape ts us)
    (suits : sameDims ts = .ok ()) : sameDims us = .ok () := by
  cases h with
  | nil => rfl
  | @cons t u ts us same rest =>
    rw [sameDims_eq_ok_iff] at suits ⊢
    induction rest with
    | nil => simp
    | cons same' _ ih =>
      obtain ⟨first, others⟩ := List.forall_mem_cons.mp suits
      exact List.forall_mem_cons.mpr ⟨same'.1.symm.trans (first.trans same.1), ih others⟩

theorem convolution_congr {x f y x' f' y' : TensorType α} {w : Window} (hx : x.SameShape x')
    (hf : f.SameShape f') (hy : y.SameShape y') (suits : convolution x f y w = .ok ()) :
    convolution x' f' y' w = .ok () := by
  simpa only [convolution, bind_eq_ok_iff, require_eq_ok_iff, TensorType.rank, TensorType.channels,
    TensorType.slidDims?, TensorType.rows, hx.1, hf.1, hy.1] using suits

theorem softmax_congr {d x l d' x' l' : TensorType α} (hd : d.SameShape d') (hx : x.SameShape x')
    (hl : l.SameShape l') (suits : softmax d x l = .ok ()) : softmax d' x' l' = .ok () := by
  simpa only [softmax, bind_eq_ok_iff, sameDims_eq_ok_iff, List.mem_singleton, forall_eq,
    require_eq_ok_iff, TensorType.rank, TensorType.labelsFor, TensorType.rows, hd.1, hx.1, hl.1,
    hl.2] using suits

theorem operator_congr (op : Operator α) {ts us : List (TensorType α)}
    (h : List.Forall₂ TensorType.SameShape ts us) (suits : operator op ts = .ok ()) :
    operator op us = .ok () := by
  cases op with
  | unary _ => exact sameDims_congr h suits
  | binary _ => exact sameDims_congr h suits
  | select => exact sameDims_congr h suits
  | reluGradient => exact sameDims_congr h suits
  | responseNormalizationGradient _ => exact sameDims_congr h suits
  | responseNormalization _ =>
    rcases h with _ | ⟨h₁, rest⟩
    · cases suits
    · simp only [operator, bind_eq_ok_iff, require_eq_ok_iff, TensorType.rank] at suits ⊢
      exact ⟨sameDims_congr (.cons h₁ rest) suits.1, h₁.1 ▸ suits.2⟩
  | matMul =>
    rcases h with _ | ⟨h₁, _ | ⟨h₂, _ | ⟨h₃, _ | _⟩⟩⟩
    all_goals try cases suits
    simpa only [operator, require_eq_ok_iff, h₁.1, h₂.1, h₃.1] using suits
  | dense =>
    rcases h with _ | ⟨h₁, _ | ⟨h₂, _ | ⟨h₃, _ | ⟨h₄, _ | _⟩⟩⟩⟩
    all_goals try cases suits
    simpa only [operator, require_eq_ok_iff, TensorType.rank, TensorType.rowSize, TensorType.rows,
      h₁.1, h₂.1, h₃.1, h₄.1] using suits
  | addToRows =>
    rcases h with _ | ⟨h₁, _ | ⟨h₂, _ | ⟨h₃, _ | _⟩⟩⟩
    all_goals try cases suits
    simpa only [operator, require_eq_ok_iff, h₁.1, h₂.1, h₃.1] using suits
  | sumRows =>
    rcases h with _ | ⟨h₁, _ | ⟨h₂, _ | _⟩⟩
    all_goals try cases suits
    simpa only [operator, require_eq_ok_iff, h₁.1, h₂.1] using suits
  | convolution w =>
    rcases h with _ | ⟨h₁, _ | ⟨h₂, _ | ⟨h₃, _ | ⟨h₄, _ | _⟩⟩⟩⟩
    all_goals try cases suits
    simp only [operator, bind_eq_ok_iff, require_eq_ok_iff, TensorType.rows] at suits ⊢
    exact ⟨convolution_congr h₂ h₃ h₁ suits.1, by rw [← h₃.1, ← h₄.1, suits.2]⟩
  | convolutionInputGradient w =>
    rcases h with _ | ⟨h₁, _ | ⟨h₂, _ | ⟨h₃, _ | _⟩⟩⟩
    all_goals try cases suits
    exact convolution_congr h₁ h₂ h₃ suits
  | convolutionFilterGradient w =>
    rcases h with _ | ⟨h₁, _ | ⟨h₂, _ | ⟨h₃, _ | _⟩⟩⟩
    all_goals try cases suits
    exact convolution_congr h₂ h₁ h₃ suits
  | pool _ w =>
    rcases h with _ | ⟨h₁, _ | ⟨h₂, _ | _⟩⟩
    all_goals try cases suits
    simpa only [operator, require_eq_ok_iff, TensorType.slidDims?, TensorType.channels, h₁.1, h₂.1]
      using suits
  | maxPoolGradient w =>
    rcases h with _ | ⟨h₁, _ | ⟨h₂, _ | ⟨h₃, _ | _⟩⟩⟩
    all_goals try cases suits
    simpa only [operator, bind_eq_ok_iff, sameDims_eq_ok_iff, List.mem_singleton, forall_eq,
      require_eq_ok_iff, TensorType.slidDims?, TensorType.channels, h₁.1, h₂.1, h₃.1] using suits
  | averagePoolGradient w =>
    rcases h with _ | ⟨h₁, _ | ⟨h₂, _ | _⟩⟩
    all_goals try cases suits
    simpa only [operator, require_eq_ok_iff, TensorType.slidDims?, TensorType.channels, h₁.1, h₂.1]
      using suits
  | softmax =>
    rcases h with _ | ⟨h₁, _ | ⟨h₂, _ | ⟨h₃, _ | _⟩⟩⟩
    all_goals try cases suits
    exact softmax_congr h₁ h₂ h₃ suits
  | softmaxGradient =>
    rcases h with _ | ⟨h₁, _ | ⟨h₂, _ | ⟨h₃, _ | _⟩⟩⟩
    all_goals try cases suits
    exact softmax_congr h₁ h₂ h₃ suits
  | gather =>
    rcases h with _ | ⟨h₁, _ | ⟨h₂, _ | ⟨h₃, _ | _⟩⟩⟩
    all_goals try cases suits
    simpa only [operator, require_eq_ok_iff, h₁.1, h₂.1, h₃.1, h₃.2] using suits
  | transpose shuffle =>
    rcases h with _ | ⟨h₁, _ | ⟨h₂, _ | _⟩⟩
    all_goals try cases suits
    simpa only [operator, require_eq_ok_iff, TensorType.rank, TensorType.shuffledDims?, h₁.1, h₂.1]
      using suits
  | convert c =>
    rcases h with _ | ⟨h₁, _ | ⟨h₂, _ | _⟩⟩
    all_goals try cases suits
    simpa only [operator, bind_eq_ok_iff, sameDims_eq_ok_iff, List.mem_singleton, forall_eq,
      require_eq_ok_iff, TensorType.isQuantized, h₁.1, h₁.2, h₂.1, h₂.2] using suits

variable [Scalar α]

/-! ## Instructions -/

theorem copy_eq_ok_iff {ts : List (TensorType α)} :
    instruction .copy ts = .ok () ↔ ∃ d s, ts = [d, s] ∧ (d == s) = true := by
  match ts with
  | [d, s] =>
    constructor
    · exact fun h => ⟨d, s, rfl, require_eq_ok_iff.mp h⟩
    · rintro ⟨_, _, h, hs⟩
      cases h
      exact require_eq_ok_iff.mpr hs
  | [] | [_] | _ :: _ :: _ :: _ => simp [instruction]

theorem update_eq_ok_iff {rule : UpdateRule α} {ts : List (TensorType α)} :
    instruction (.update rule) ts = .ok () ↔ ∃ w g v, ts = [w, g, v] ∧ g.dims = w.dims ∧
      v.dims = w.dims ∧ w.element = .float ∧ g.element = .float ∧ v.element = .float := by
  match ts with
  | [w, g, v] => simp [instruction, and_assoc]
  | [] | [_] | [_, _] | _ :: _ :: _ :: _ :: _ => simp [instruction]

theorem reshape_eq_ok_iff {ts : List (TensorType α)} :
    instruction .reshape ts = .ok () ↔ ∃ d s, ts = [d, s] ∧ volume d.dims = volume s.dims := by
  match ts with
  | [d, s] => simp [instruction, TensorType.size]
  | [] | [_] | _ :: _ :: _ :: _ => simp [instruction]

end Signature
end NeuralGraph
