import NeuralGraph.Proofs.Program.Signatures
import NeuralGraph.Proofs.Program.Stepping

/-!
# Accepted instructions run

An instruction that was accepted fails only for operands that `Opcode.Refuses` lists.  For all others
every result has the dimensions of its destination, so it can be stored.  The signatures and the
kernels are compared operator by operator in `Operator.compute_settles`.
-/

namespace NeuralGraph
set_option autoImplicit false
variable {α : Type}

@[simp] theorem Tensor.decoded_array_dims [Scalar α] (t : Tensor α) :
    t.decoded.array.dims = t.type.dims := t.fits

namespace Opcode

/-- The destination and the operands for which an instruction fails although their types suit it:
positions that name no row or no class, shuffles that leave an axis out, images that are none,
batches without rows, and products that would be stored by columns. -/
def Refuses [Scalar α] (kind : Opcode α) (tensors : List (Tensor α)) : Prop :=
  match kind, tensors with
  | .compute .gather, [_, x, positions] =>
    ∃ v ∈ positions.decoded.array.data.toList, ¬Kernel.IsIndex x.type.rows v
  | .compute .softmaxGradient, [_, y, labels] =>
    ∃ v ∈ labels.decoded.array.data.toList, ¬Kernel.IsIndex (y.type.dims.getD 1 0) v
  | .compute (.transpose shuffle), [_, x] => ¬shuffle.Perm (List.range x.type.rank)
  | .compute (.responseNormalizationGradient _), [_, x, _, _] => x.type.rank ≠ 4
  | .compute .dense, [_, x, _, _] => x.type.rows = 0 ∧ x.type.rowSize ≠ 0
  | .compute (.convolution w), [result, x, filters, _] =>
    w.kernel * w.kernel * x.type.channels = 1 ∧ 1 < filters.type.rows ∧
      1 < volume (result.type.dims.take 3)
  | _, _ => False

/-- Arrays can have the dimensions of all operands, and of the patch matrix if there is one. -/
def Addressable (kind : Opcode α) (types : List (TensorType α)) : Prop :=
  (∀ t ∈ types, addressable t.dims = true) ∧
  match kind, types with
  | .compute (.convolution _), [result, _, filters, _] =>
    addressable [volume (result.dims.take 3), volume filters.dims.tail] = true
  | .compute (.convolutionFilterGradient _), [result, _, gradient] =>
    addressable [volume (gradient.dims.take 3), volume result.dims.tail] = true
  | _, _ => True

end Opcode

/-! ## Operators -/

theorem Sliding.volume_outputDims (s : Sliding) (depth : Nat) :
    volume ((s.outputDims depth).take 3) = s.patches := by
  simp [outputDims, patches, Nat.mul_assoc]

theorem volume_filterDims_tail (s : Sliding) (depth : Nat) :
    volume (Kernel.filterDims s depth).tail = s.patchSize := by
  simp [Kernel.filterDims, Sliding.patchSize, Nat.mul_assoc]

/-- The patch matrix of a convolution can be an array. -/
theorem Sliding.addressable_patches {s : Sliding} {depth : Nat} {output filters : List Nat}
    (ho : output = s.outputDims depth) (hf : filters = Kernel.filterDims s depth)
    (h : addressable [volume (output.take 3), volume filters.tail] = true) :
    addressable [s.patches, s.patchSize] = true := by
  rwa [ho, hf, volume_outputDims, volume_filterDims_tail] at h

theorem Signature.decoded_dims_of_sameDims [Scalar α] {target : Tensor α} {sources : List (Tensor α)}
    (suits : sameDims ((target :: sources).map Tensor.type) = .ok ()) {x : Tensor α}
    (hx : x ∈ sources) : x.decoded.array.dims = target.type.dims :=
  x.decoded_array_dims.trans (sameDims_eq_ok_iff.mp suits _ (List.mem_map_of_mem hx))

open Kernel in
/-- Operands of suitable types have a result of the dimensions of the destination, except for those
that are refused. -/
theorem Operator.compute_settles [Scalar α] (op : Operator α) (target : Tensor α)
    (sources : List (Tensor α)) (count : sources.length = op.arity)
    (suits : Signature.operator op ((target :: sources).map Tensor.type) = .ok ())
    (small : Opcode.Addressable (.compute op) ((target :: sources).map Tensor.type)) :
    Settles (op.compute target.type.dims (sources.map Tensor.decoded)) target.type.dims
      (Opcode.Refuses (.compute op) (target :: sources)) := by
  cases op with
  | unary f =>
    obtain ⟨x, rfl⟩ := List.length_eq_one_iff.mp count
    exact .of_eq_ok rfl (Signature.decoded_dims_of_sameDims suits (by simp))
  | binary f =>
    obtain ⟨x, y, rfl⟩ := List.length_eq_two.mp count
    have hx := Signature.decoded_dims_of_sameDims suits (x := x) (by simp)
    have hy := Signature.decoded_dims_of_sameDims suits (x := y) (by simp)
    exact .of_eq_ok (zipWith_eq _ (hx.trans hy.symm)) hx
  | select =>
    obtain ⟨c, x, y, rfl⟩ := List.length_eq_three.mp count
    have hc := Signature.decoded_dims_of_sameDims suits (x := c) (by simp)
    have hx := Signature.decoded_dims_of_sameDims suits (x := x) (by simp)
    have hy := Signature.decoded_dims_of_sameDims suits (x := y) (by simp)
    exact .of_eq_ok (select_eq (hc.trans hx.symm) (hx.trans hy.symm)) hc
  | matMul =>
    obtain ⟨x, y, rfl⟩ := List.length_eq_two.mp count
    obtain ⟨n, k, m, hx, hy, hd⟩ := Signature.matMul_eq_ok suits
    exact .of_eq_ok (matMul_eq (x.fits.trans hx) (y.fits.trans hy)) hd.symm
  | dense =>
    obtain ⟨x, w, b, rfl⟩ := List.length_eq_three.mp count
    obtain ⟨n, slice, m, hx, -, hw, hb, hd⟩ := Signature.dense_eq_ok suits
    have dims : x.decoded.array.dims = n :: slice := x.fits.trans hx
    have rowSize : x.decoded.array.rowSize = volume slice := by rw [DenseArray.rowSize, dims]; rfl
    have settles := dense_settles (x := x.decoded.array) (w := w.decoded.array)
      (b := b.decoded.array) (dims ▸ List.cons_ne_nil n slice)
      (w.fits.trans (hw.trans (by rw [rowSize]))) (b.fits.trans hb)
    rw [DenseArray.rows, DenseArray.rowSize, dims, List.headD_cons, ← hd] at settles
    refine settles.congr ?_
    simp only [Opcode.Refuses, TensorType.rows_of_dims hx, TensorType.rowSize_of_dims hx]
    rfl
  | addToRows =>
    obtain ⟨x, s, rfl⟩ := List.length_eq_two.mp count
    obtain ⟨n, hx, hd⟩ := Signature.addToRows_eq_ok suits
    have dims : x.decoded.array.dims = n :: s.type.dims := x.fits.trans hx
    refine .of_eq_ok (addToRows_eq (dims ▸ List.cons_ne_nil n _) ?_) (dims.trans hd.symm)
    rw [dims, List.tail_cons, Tensor.decoded_array_dims]
  | sumRows =>
    obtain ⟨x, rfl⟩ := List.length_eq_one_iff.mp count
    obtain ⟨n, hx⟩ := Signature.sumRows_eq_ok suits
    exact .of_eq_ok (sumRows_eq _ (x.fits.trans hx)) rfl
  | convolution w =>
    obtain ⟨x, f, b, rfl⟩ := List.length_eq_three.mp count
    obtain ⟨window, bias⟩ := Signature.convolutionLayer_eq_ok suits
    obtain ⟨s, depth, rfl, hs, hx, hf, hd⟩ := Signature.convolution_eq_ok window
    have rows : f.type.rows = depth := TensorType.rows_of_dims hf
    have channels : x.type.channels = s.channels := TensorType.channels_of_dims hx
    have patches := Sliding.addressable_patches hd hf small.2
    have settles := convolution_settles (x := x.decoded.array) (f := f.decoded.array)
      (b := b.decoded.array) (x.fits.trans hx) (f.fits.trans hf)
      (b.fits.trans (bias.trans (by rw [rows]))) hs patches
    rw [← hd] at settles
    refine settles.congr ?_
    simp only [Opcode.Refuses, rows, channels, hd, Sliding.volume_outputDims, Sliding.patchSize]
  | pool f w =>
    obtain ⟨x, rfl⟩ := List.length_eq_one_iff.mp count
    obtain ⟨s, rfl, hs, hx, hd⟩ := Signature.slidDims?_channels_eq_some (Signature.pool_eq_ok suits)
    obtain ⟨a, ha, dims⟩ := pool_eq f (x := x.decoded.array) (x.fits.trans hx) hs
    exact .of_eq_ok ha (dims.trans hd.symm)
  | softmax =>
    obtain ⟨x, l, rfl⟩ := List.length_eq_two.mp count
    obtain ⟨n, c, hd, hx, -⟩ := Signature.softmax_eq_ok suits
    obtain ⟨a, ha, dims⟩ := softmax_eq x.decoded.layout.lastAxisOrder (x := x.decoded.array)
      (x.fits.trans hx)
    exact .of_eq_ok ha (dims.trans hd.symm)
  | gather =>
    obtain ⟨x, i, rfl⟩ := List.length_eq_two.mp count
    obtain ⟨n, slice, hx, hd⟩ := Signature.gather_eq_ok suits
    have settles := gather_settles (x := x.decoded.array) (i := i.decoded.array) (x.fits.trans hx)
    rw [Tensor.decoded_array_dims, ← hd] at settles
    refine settles.congr ?_
    simp only [Opcode.Refuses, TensorType.rows_of_dims hx]
  | transpose shuffle =>
    obtain ⟨x, rfl⟩ := List.length_eq_one_iff.mp count
    have dims : shuffle.map (fun (axis : Nat) => x.decoded.array.dims.getD axis 0) =
        target.type.dims := by
      rw [Tensor.decoded_array_dims]
      exact (Signature.transpose_eq_ok suits).2
    have settles := transpose_settles dims
    rw [Tensor.decoded_array_dims] at settles
    exact settles
  | convert c =>
    obtain ⟨x, rfl⟩ := List.length_eq_one_iff.mp count
    exact .of_eq_ok rfl (x.fits.trans (Signature.convert_eq_ok suits))
  | responseNormalization p =>
    obtain ⟨x, rfl⟩ := List.length_eq_one_iff.mp count
    obtain ⟨same, rank⟩ := Signature.responseNormalization_eq_ok suits
    have hx : x.decoded.array.dims = target.type.dims := x.fits.trans same
    obtain ⟨a, ha, dims⟩ := responseNormalization_eq p (hx ▸ rank)
    exact .of_eq_ok ha (dims.trans hx)
  | reluGradient =>
    obtain ⟨y, g, rfl⟩ := List.length_eq_two.mp count
    have hy := Signature.decoded_dims_of_sameDims suits (x := y) (by simp)
    have hg := Signature.decoded_dims_of_sameDims suits (x := g) (by simp)
    obtain ⟨a, ha, dims⟩ := reluGradient_eq (hy.trans hg.symm)
    exact .of_eq_ok ha (dims.trans hy)
  | softmaxGradient =>
    obtain ⟨y, l, rfl⟩ := List.length_eq_two.mp count
    obtain ⟨n, c, hd, hy, hl⟩ := Signature.softmax_eq_ok suits
    have settles := softmaxGradient_settles (y := y.decoded.array) (l := l.decoded.array)
      (y.fits.trans hy) (l.fits.trans hl)
    rw [← hd] at settles
    refine settles.congr ?_
    simp only [Opcode.Refuses, hy]
    rfl
  | convolutionInputGradient w =>
    obtain ⟨f, g, rfl⟩ := List.length_eq_two.mp count
    obtain ⟨s, depth, rfl, hs, hd, hf, hg⟩ := Signature.convolution_eq_ok suits
    obtain ⟨a, ha, dims⟩ := convolutionInputGradient_eq (f := f.decoded.array)
      (g := g.decoded.array) hd (f.fits.trans hf) (g.fits.trans hg) hs
    exact .of_eq_ok ha dims
  | convolutionFilterGradient w =>
    obtain ⟨x, g, rfl⟩ := List.length_eq_two.mp count
    obtain ⟨s, depth, rfl, hs, hx, hd, hg⟩ := Signature.convolution_eq_ok suits
    have patches := Sliding.addressable_patches hg hd small.2
    obtain ⟨a, ha, dims⟩ := convolutionFilterGradient_eq (x := x.decoded.array)
      (g := g.decoded.array) (x.fits.trans hx) hd (g.fits.trans hg) hs patches
    exact .of_eq_ok ha dims
  | maxPoolGradient w =>
    obtain ⟨x, g, rfl⟩ := List.length_eq_two.mp count
    obtain ⟨same, slid⟩ := Signature.maxPoolGradient_eq_ok suits
    obtain ⟨s, rfl, hs, hx, hg⟩ := Signature.slidDims?_channels_eq_some slid
    obtain ⟨a, ha, dims⟩ := maxPoolGradient_eq (x := x.decoded.array) (g := g.decoded.array)
      (x.fits.trans hx) (g.fits.trans hg) hs
    exact .of_eq_ok ha (dims.trans (x.fits.trans same))
  | averagePoolGradient w =>
    obtain ⟨g, rfl⟩ := List.length_eq_one_iff.mp count
    obtain ⟨s, rfl, hs, hd, hg⟩ :=
      Signature.slidDims?_channels_eq_some (Signature.averagePoolGradient_eq_ok suits)
    obtain ⟨a, ha, dims⟩ := averagePoolGradient_eq (g := g.decoded.array) hd (g.fits.trans hg) hs
    exact .of_eq_ok ha dims
  | responseNormalizationGradient p =>
    obtain ⟨x, y, g, rfl⟩ := List.length_eq_three.mp count
    have hx := Signature.decoded_dims_of_sameDims suits (x := x) (by simp)
    have hy := Signature.decoded_dims_of_sameDims suits (x := y) (by simp)
    have hg := Signature.decoded_dims_of_sameDims suits (x := g) (by simp)
    have settles := responseNormalizationGradient_settles p (hx.trans hy.symm) (hx.trans hg.symm)
    rw [hx] at settles
    refine settles.congr ?_
    rw [Tensor.decoded_array_dims] at hx
    simp only [Opcode.Refuses, TensorType.rank, hx]

/-- The result of an operator can be built, since its destination can have the dimensions. -/
theorem Operator.apply_of_compute [Scalar α] {op : Operator α} {dims : List Nat}
    {xs : List (PlacedArray α)} {a : DenseArray α} (h : op.compute dims xs = .ok a)
    (hd : a.dims = dims) (small : addressable dims = true) :
    op.apply dims xs = .ok ⟨a, op.layout a.dims xs⟩ := by
  rw [Operator.apply, h]
  simp only [bind, Except.bind, hd, small, if_true]
  cases op.built? <;> rfl

theorem Operator.apply_of_fault [Scalar α] {op : Operator α} {dims : List Nat}
    {xs : List (PlacedArray α)} {fault : KernelFault α} (h : op.compute dims xs = .error fault) :
    op.apply dims xs = .error fault := by
  rw [Operator.apply, h]
  rfl

/-! ## Instructions -/

namespace Instruction
variable [Scalar α]

/-- What an instruction that writes its first operand finds, in terms of the tensors that its
operands hold. -/
theorem results_settle {kind : Opcode α} {target : Tensor α} {sources : List (Tensor α)} {n : Nat}
    (first : kind.layout = .output :: List.replicate n .input) (count : sources.length = n)
    (suits : Signature.instruction kind ((target :: sources).map Tensor.type) = .ok ())
    (small : kind.Addressable ((target :: sources).map Tensor.type)) :
    (kind.Refuses (target :: sources) → ∃ fault, results kind (target :: sources) = .error fault) ∧
    (¬kind.Refuses (target :: sources) →
      ∃ a, results kind (target :: sources) = .ok [a] ∧ a.dims = target.type.dims) := by
  have smallTarget : addressable target.type.dims = true :=
    small.1 _ (List.mem_map_of_mem List.mem_cons_self)
  cases kind with
  | copy =>
    obtain ⟨d, s, types, same⟩ := Signature.copy_eq_ok_iff.mp suits
    refine ⟨False.elim, fun _ => ?_⟩
    obtain ⟨x, rfl⟩ := List.length_eq_one_iff.mp (by simpa using congrArg List.length types)
    cases types
    exact ⟨x.decoded, rfl, x.decoded_dims.trans (TensorType.dims_eq_of_beq same).symm⟩
  | splat value =>
    refine ⟨False.elim, fun _ => ?_⟩
    have none : n = 0 := by simpa [Opcode.layout, eq_comm] using congrArg List.length first
    rw [none] at count
    obtain rfl := List.length_eq_zero_iff.mp count
    exact ⟨_, rfl, rfl⟩
  | reshape =>
    obtain ⟨d, s, types, same⟩ := Signature.reshape_eq_ok_iff.mp suits
    refine ⟨False.elim, fun _ => ?_⟩
    obtain ⟨x, rfl⟩ := List.length_eq_one_iff.mp (by simpa using congrArg List.length types)
    cases types
    have volumes : volume x.decoded.array.dims = volume target.type.dims := by
      rw [Tensor.decoded_array_dims, same]
    refine ⟨.byRows (x.decoded.array.withDims _ volumes), ?_, rfl⟩
    simp only [results, Tensor.dims, Kernel.reshape_eq volumes smallTarget]
    rfl
  | update rule => cases first
  | compute op =>
    have arity : sources.length = op.arity := by
      have := congrArg List.length first
      simp only [Opcode.layout, List.length_cons, List.length_replicate, Nat.add_right_cancel_iff]
        at this
      rw [count, this]
    have settles := op.compute_settles target sources arity suits small
    constructor
    · intro h
      obtain ⟨fault, hf⟩ := settles.refuses h
      exact ⟨fault, by simp only [results, Tensor.dims, Operator.apply_of_fault hf]; rfl⟩
    · intro h
      obtain ⟨a, ha, dims⟩ := settles.succeeds h
      refine ⟨⟨a, op.layout a.dims (sources.map Tensor.decoded)⟩, ?_, dims⟩
      simp only [results, Tensor.dims, Operator.apply_of_compute ha dims smallTarget]
      rfl

/-- The step of an instruction that suits the memory: it fails in its kernel and changes nothing, if
the tensors it meets are refused, and otherwise succeeds with results of the dimensions of the
locations that it writes. -/
theorem Suits.step_settles {i : Instruction α} {m : Memory α} {ls : List (Location α)}
    (suits : i.Suits m) (located : i.LocatedIn m ls)
    (small : i.kind.Addressable (ls.map Location.type)) :
    (i.kind.Refuses (ls.map Location.payload) →
      ∃ fault, i.step m = (m, some (.kernel i.name fault))) ∧
    (¬i.kind.Refuses (ls.map Location.payload) → ∃ m' results, i.evaluate m = .ok results ∧
      i.step m = (m', none) ∧ List.Forall₂ (fun (v : Value) (a : PlacedArray α) =>
        ∃ l, m.locate? v = some l ∧ a.dims = l.type.dims) i.written results) := by
  obtain ⟨directions, signature⟩ := suits.signature located
  have count : i.operands.length = i.kind.layout.length := by
    rw [← directions, List.length_map]
  have evaluated := located.evaluate_eq count
  rcases i.writesFirst_or_update with first | ⟨rule, hk⟩
  · obtain ⟨defined, ks, accepted⟩ := suits
    obtain ⟨o, os, ho, hd, written⟩ := first.written directions
    obtain ⟨n, layout⟩ := first
    rw [LocatedIn, ho] at located
    cases located with
    | @cons _ l _ ls hl hls =>
      have sources : (ls.map Location.payload).length = n := by
        rw [List.length_map, ← hls.length_eq]
        rw [layout, ho] at count
        simpa using count
      have types : (l.payload :: ls.map Location.payload).map Tensor.type =
          (l :: ls).map Location.type := by
        simp [Location.type]
      rw [← types] at signature small
      obtain ⟨refuses, succeeds⟩ := results_settle layout sources signature small
      have may := accepted.mayWrite (by rw [ho]; exact List.mem_cons_self) (by rw [hd]; rfl) hl
      rw [List.map_cons] at evaluated
      constructor
      · intro h
        obtain ⟨fault, hf⟩ := refuses h
        exact ⟨fault, step_of_fault (by rw [evaluated, hf]; rfl)⟩
      · intro h
        obtain ⟨a, ha, dims⟩ := succeeds h
        have he : i.evaluate m = .ok [a] := by rw [evaluated, ha]; rfl
        have step := step_of_result written he hl may
        rw [dif_pos (show a.dims = l.type.dims from dims)] at step
        exact ⟨_, [a], he, step, written ▸ .cons ⟨l, hl, dims⟩ .nil⟩
  · rw [hk]
    refine ⟨False.elim, fun _ => ?_⟩
    rw [hk] at signature
    obtain ⟨_, _, _, types, -⟩ := Signature.update_eq_ok_iff.mp signature
    obtain ⟨p, q, o, rfl⟩ := List.length_eq_three.mp (by simpa using congrArg List.length types)
    obtain ⟨u, v, x, y, hx, hy, written, hp, ho, -, he, step⟩ := suits.step_update hk located
    exact ⟨_, [x, y], he, step, written ▸ .cons ⟨p, hp, hx⟩ (.cons ⟨o, ho, hy⟩ .nil)⟩

end Instruction
end NeuralGraph
