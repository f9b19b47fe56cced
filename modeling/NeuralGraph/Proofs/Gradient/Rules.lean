import NeuralGraph.Proofs.Gradient.Emission
import NeuralGraph.Proofs.Gradient.Inverses
import NeuralGraph.Proofs.Module.Layers

/-!
# Gradients have the dimensions of their inputs

One lemma for each gradient rule, then all of them: if the gradient of a node's value has the
dimensions of the value, the gradients of its inputs have the dimensions of the inputs.  A rule only
fails where there is none, where no gradient has come to the node, and for shuffles that cannot be
undone.
-/

namespace NeuralGraph
set_option autoImplicit false
variable {α : Type} [Scalar α]

/-- Every gradient is for an input that one is wanted for, and has its dimensions. -/
def Module.GradientsFit (m : Module α) (g : Graph α) (inputs : List Ref) (wants : Nat → Bool)
    (grads : List InputGradient) : Prop :=
  ∀ q ∈ grads, wants q.position = true ∧
    ∃ r dims, inputs[q.position]? = some r ∧ m.DimsOf g r dims ∧ m.DimsOf g q.gradient dims

/-- Whether there is a rule for the gradients of the operator. -/
def Operator.hasRule : Operator α → Bool
  | dense | matMul | addToRows | sumRows | binary .add | binary .sub | binary .mul | unary _ | softmax
  | transpose _ | convolution _ | pool _ _ | responseNormalization _ => true
  | _ => false

/-- Whether there is a rule for the gradients of such nodes. -/
def NodeKind.hasRule : NodeKind α → Bool
  | compute op => op.hasRule
  | reshape _ | regression => true
  | _ => false

variable {m : Module α} {g g' : Graph α}

section
variable {inputs : List Ref} {wants : Nat → Bool} {grads grads' : List InputGradient}

omit [Scalar α] in
theorem Module.GradientsFit.nil : m.GradientsFit g inputs wants [] := by
  intro q hq
  cases hq

omit [Scalar α] in
theorem Module.GradientsFit.single {position : Nat} {r gradient : Ref} {dims : List Nat}
    (hw : wants position = true) (hr : inputs[position]? = some r) (hd : m.DimsOf g r dims)
    (hg : m.DimsOf g gradient dims) : m.GradientsFit g inputs wants [⟨position, gradient⟩] := by
  intro q hq
  obtain rfl := List.mem_singleton.mp hq
  exact ⟨hw, r, dims, hr, hd, hg⟩

omit [Scalar α] in
theorem Module.GradientsFit.append (h : m.GradientsFit g inputs wants grads)
    (h' : m.GradientsFit g inputs wants grads') : m.GradientsFit g inputs wants (grads ++ grads') := by
  intro q hq
  rcases List.mem_append.mp hq with hq | hq
  · exact h q hq
  · exact h' q hq

theorem Graph.Grows.gradientsFit (grows : g.Grows m g') (h : m.GradientsFit g inputs wants grads) :
    m.GradientsFit g' inputs wants grads := by
  intro q hq
  obtain ⟨hw, r, dims, hr, hd, hg⟩ := h q hq
  exact ⟨hw, r, dims, hr, grows.dimsOf hd, grows.dimsOf hg⟩

end

/-! ## Shuffles -/

/-- The inverse shuffle takes the dimensions back. -/
theorem inverseShuffle_dims {shuffle inverse dims shuffled : List Nat}
    (h : inverseShuffle? shuffle = some inverse) (rank : shuffle.length = dims.length)
    (hs : shuffle.map (fun (axis : Nat) => dims.getD axis 0) = shuffled) :
    inverse.length = shuffled.length ∧ (∀ axis ∈ inverse, axis < shuffled.length) ∧
      inverse.map (fun (axis : Nat) => shuffled.getD axis 0) = dims := by
  obtain ⟨permutes, rfl⟩ := inverseShuffle?_eq_some_iff.mp h
  subst hs
  have complete : ∀ axis, axis < shuffle.length → axis ∈ shuffle := fun axis haxis =>
    permutes.mem_iff.mpr (List.mem_range.mpr haxis)
  refine ⟨by simp, ?_, ?_⟩
  · intro axis haxis
    obtain ⟨i, hi, rfl⟩ := List.mem_map.mp haxis
    rw [List.length_map]
    exact List.idxOf_lt_length_of_mem (complete i (List.mem_range.mp hi))
  · apply List.ext_getElem
    · simp [rank]
    · intro i hi hi'
      have hmem : i ∈ shuffle := complete i (by simpa using hi)
      have place := List.idxOf_lt_length_of_mem hmem
      simp [place, hi']

namespace Emit
variable {name : String} {inputs : List Ref} {wants : Nat → Bool} {E : Error α → Prop}

theorem settles_only {position : Nat} {r : Ref} {dims : List Nat} {emit : Emit α Ref}
    (ready : g.Ready m) (hr : inputs[position]? = some r) (hd : m.DimsOf g r dims)
    (h : Settles m emit g E fun gradient g' => m.DimsOf g' gradient dims) :
    Settles m (if wants position then (do let gradient ← emit; return [⟨position, gradient⟩])
      else return []) g E fun grads g' => m.GradientsFit g' inputs wants grads := by
  split
  · next wanted =>
    refine settles_bind h fun gradient g' grows hg => settles_pure grows.ready ?_
    exact .single wanted hr (grows.dimsOf hd) hg
  · exact settles_pure ready .nil

/-- The gradient of the value, handed on to an input of the same dimensions. -/
theorem settles_passed {position : Nat} {r gradient : Ref} {dims : List Nat} (ready : g.Ready m)
    (hr : inputs[position]? = some r) (hd : m.DimsOf g r dims) (hg : m.DimsOf g gradient dims) :
    Settles m (if wants position then (do let gradient ← pure gradient; return [⟨position, gradient⟩])
      else return []) g E fun grads g' => m.GradientsFit g' inputs wants grads :=
  settles_only ready hr hd (settles_pure ready hg)

theorem settles_two {x y : Emit α (List InputGradient)} (hx : Settles m x g E fun grads g' =>
      m.GradientsFit g' inputs wants grads)
    (hy : ∀ g', g.Grows m g' → Settles m y g' E fun grads g' => m.GradientsFit g' inputs wants grads) :
    Settles m (do let a ← x; let b ← y; return a ++ b) g E fun grads g' =>
      m.GradientsFit g' inputs wants grads := by
  refine settles_bind hx fun a g₁ grows₁ ha => settles_bind (hy g₁ grows₁) fun b g₂ grows₂ hb => ?_
  exact settles_pure grows₂.ready ((grows₂.gradientsFit ha).append hb)

theorem settles_three {x y z : Emit α (List InputGradient)} (hx : Settles m x g E fun grads g' =>
      m.GradientsFit g' inputs wants grads)
    (hy : ∀ g', g.Grows m g' → Settles m y g' E fun grads g' => m.GradientsFit g' inputs wants grads)
    (hz : ∀ g', g.Grows m g' → Settles m z g' E fun grads g' => m.GradientsFit g' inputs wants grads) :
    Settles m (do let a ← x; let b ← y; let c ← z; return a ++ b ++ c) g E fun grads g' =>
      m.GradientsFit g' inputs wants grads := by
  refine settles_bind hx fun a g₁ grows₁ ha => settles_bind (hy g₁ grows₁) fun b g₂ grows₂ hb => ?_
  refine settles_bind (hz g₂ (grows₁.trans grows₂)) fun c g₃ grows₃ hc => settles_pure grows₃.ready ?_
  exact ((grows₃.gradientsFit ((grows₂.gradientsFit ha).append hb))).append hc

end Emit

/-! ## Rules -/

namespace Operator
open Emit
variable {name : String} {this gradient : Ref} {wants : Nat → Bool}
  {refuse : Emit α (List InputGradient)} {E : Error α → Prop}

theorem settles_dense {x w b : Ref} {d tx tw tb : TensorType α} (ready : g.Ready m)
    (hx : m.typeOf g x = .ok tx) (hw : m.typeOf g w = .ok tw) (hb : m.typeOf g b = .ok tb)
    (suits : Signature.operator .dense [d, tx, tw, tb] = .ok ())
    (hg : m.DimsOf g gradient d.dims) :
    Settles m (gradients .dense m name [x, w, b] this gradient wants refuse) g E
      fun grads g' => m.GradientsFit g' [x, w, b] wants grads := by
  obtain ⟨n, slice, l, dimsX, wide, dimsW, dimsB, dimsD⟩ := Signature.dense_eq_ok suits
  rw [dimsD] at hg
  have fx : m.DimsOf g x (n :: slice) := ⟨tx, hx, dimsX⟩
  have fw : m.DimsOf g w [volume slice, l] := ⟨tw, hw, dimsW⟩
  have fb : m.DimsOf g b [l] := ⟨tb, hb, dimsB⟩
  refine settles_bind (settles_typeOfRank ready fx (Nat.succ_le_succ (List.length_pos_iff.mpr wide)))
    fun t g₀ grows₀ ht => ?_
  have dimsT := (grows₀.dimsOf fx).unique ht
  have rows : t.rows = n := TensorType.rows_of_dims dimsT
  have rowSize : t.rowSize = volume slice := TensorType.rowSize_of_dims dimsT
  refine settles_three (settles_only grows₀.ready rfl (grows₀.dimsOf fx) ?_)
    (fun g₁ grows₁ => settles_only grows₁.ready rfl ((grows₀.trans grows₁).dimsOf fw) ?_)
    (fun g₁ grows₁ => settles_only grows₁.ready rfl ((grows₀.trans grows₁).dimsOf fb) ?_)
  · refine settles_bind (settles_transposeMatrix grows₀.ready (grows₀.dimsOf fw)) fun wt g₁ h₁ hwt => ?_
    refine settles_bind (settles_matMul h₁.ready ((grows₀.trans h₁).dimsOf hg) hwt) fun gx g₂ h₂ hgx => ?_
    rw [dimsT]
    exact settles_reshape h₂.ready hgx (by simp)
  · have grows := grows₀.trans grows₁
    rw [rows, rowSize]
    refine settles_bind (settles_reshape grows₁.ready (grows.dimsOf fx) (by simp)) fun flat g₂ h₂ hf => ?_
    refine settles_bind (settles_transposeMatrix h₂.ready hf) fun xt g₃ h₃ hxt => ?_
    exact settles_matMul h₃.ready hxt ((grows.trans (h₂.trans h₃)).dimsOf hg)
  · exact settles_sumRows grows₁.ready ((grows₀.trans grows₁).dimsOf hg)

theorem settles_product {a b : Ref} {d ta tb : TensorType α} (ready : g.Ready m)
    (ha : m.typeOf g a = .ok ta) (hb : m.typeOf g b = .ok tb)
    (suits : Signature.operator .matMul [d, ta, tb] = .ok ()) (hg : m.DimsOf g gradient d.dims) :
    Settles m (gradients .matMul m name [a, b] this gradient wants refuse) g E
      fun grads g' => m.GradientsFit g' [a, b] wants grads := by
  obtain ⟨n, k, l, dimsA, dimsB, dimsD⟩ := Signature.matMul_eq_ok suits
  rw [dimsD] at hg
  have fa : m.DimsOf g a [n, k] := ⟨ta, ha, dimsA⟩
  have fb : m.DimsOf g b [k, l] := ⟨tb, hb, dimsB⟩
  refine settles_two (settles_only ready rfl fa ?_)
    (fun g₁ grows₁ => settles_only grows₁.ready rfl (grows₁.dimsOf fb) ?_)
  · refine settles_bind (settles_transposeMatrix ready fb) fun bt g₁ h₁ hbt => ?_
    exact settles_matMul h₁.ready (h₁.dimsOf hg) hbt
  · refine settles_bind (settles_transposeMatrix grows₁.ready (grows₁.dimsOf fa)) fun at_ g₂ h₂ hat => ?_
    exact settles_matMul h₂.ready hat ((grows₁.trans h₂).dimsOf hg)

theorem settles_addToRows {x s : Ref} {d tx ts : TensorType α} (ready : g.Ready m)
    (hx : m.typeOf g x = .ok tx) (hs : m.typeOf g s = .ok ts)
    (suits : Signature.operator .addToRows [d, tx, ts] = .ok ())
    (hg : m.DimsOf g gradient d.dims) :
    Settles m (gradients .addToRows m name [x, s] this gradient wants refuse) g E
      fun grads g' => m.GradientsFit g' [x, s] wants grads := by
  obtain ⟨n, dimsX, dimsD⟩ := Signature.addToRows_eq_ok suits
  rw [dimsD] at hg
  refine settles_two (settles_passed ready rfl ⟨tx, hx, dimsX⟩ hg) fun g₁ grows₁ => ?_
  refine settles_only grows₁.ready rfl (grows₁.dimsOf ⟨ts, hs, rfl⟩) ?_
  exact settles_sumRows grows₁.ready (grows₁.dimsOf hg)

theorem settles_rowSum {x : Ref} {d tx : TensorType α} (ready : g.Ready m)
    (hx : m.typeOf g x = .ok tx) (suits : Signature.operator .sumRows [d, tx] = .ok ())
    (hg : m.DimsOf g gradient d.dims) :
    Settles m (gradients .sumRows m name [x] this gradient wants refuse) g E
      fun grads g' => m.GradientsFit g' [x] wants grads := by
  obtain ⟨n, dimsX⟩ := Signature.sumRows_eq_ok suits
  refine settles_only ready rfl ⟨tx, hx, rfl⟩ ?_
  refine settles_bind (settles_typeOf ready ⟨tx, hx, rfl⟩) fun t g₁ grows₁ ht => ?_
  have same : m.DimsOf g₁ x tx.dims := ⟨tx, grows₁.typeOf hx, rfl⟩
  have dimsT := same.unique ht
  refine settles_bind (settles_splat grows₁.ready (.of_typeOf ht)) fun zero g₂ h₂ hz => ?_
  obtain ⟨u, hu, dimsU⟩ := (grows₁.trans h₂).dimsOf hg
  rw [← dimsT]
  refine settles_operator h₂.ready rfl (.cons hz (.cons hu .nil)) (by simp) ?_ (.of_typeOf hz)
  simp [Signature.operator, dimsT, dimsX, dimsU]

/-! ## Elementwise rules -/

theorem settles_sum {a b : Ref} {d ta tb : TensorType α} (ready : g.Ready m)
    (ha : m.typeOf g a = .ok ta) (hb : m.typeOf g b = .ok tb)
    (suits : Signature.operator (.binary .add) [d, ta, tb] = .ok ())
    (hg : m.DimsOf g gradient d.dims) :
    Settles m (gradients (.binary .add) m name [a, b] this gradient wants refuse) g E
      fun grads g' => m.GradientsFit g' [a, b] wants grads := by
  simp only [Signature.operator, Signature.sameDims_eq_ok_iff, List.forall_mem_cons] at suits
  refine settles_two (settles_passed ready rfl ⟨ta, ha, suits.1⟩ hg) fun g₁ grows₁ => ?_
  exact settles_passed grows₁.ready rfl (grows₁.dimsOf ⟨tb, hb, suits.2.1⟩) (grows₁.dimsOf hg)

theorem settles_difference {a b : Ref} {d ta tb : TensorType α} (ready : g.Ready m)
    (ha : m.typeOf g a = .ok ta) (hb : m.typeOf g b = .ok tb)
    (suits : Signature.operator (.binary .sub) [d, ta, tb] = .ok ())
    (hg : m.DimsOf g gradient d.dims) :
    Settles m (gradients (.binary .sub) m name [a, b] this gradient wants refuse) g E
      fun grads g' => m.GradientsFit g' [a, b] wants grads := by
  simp only [Signature.operator, Signature.sameDims_eq_ok_iff, List.forall_mem_cons] at suits
  refine settles_two (settles_passed ready rfl ⟨ta, ha, suits.1⟩ hg) fun g₁ grows₁ => ?_
  refine settles_only grows₁.ready rfl (grows₁.dimsOf ⟨tb, hb, suits.2.1⟩) ?_
  refine settles_bind (settles_typeOf grows₁.ready (grows₁.dimsOf hg)) fun t g₂ grows₂ ht => ?_
  have grows := grows₁.trans grows₂
  have dims := (grows.dimsOf hg).unique ht
  refine settles_bind (settles_splat grows.ready (.of_typeOf ht)) fun zero g₃ h₃ hz => ?_
  exact settles_binary h₃.ready ⟨t, hz, dims⟩ ((grows.trans h₃).dimsOf hg)

theorem settles_pointwise {a b : Ref} {d ta tb : TensorType α} (ready : g.Ready m)
    (ha : m.typeOf g a = .ok ta) (hb : m.typeOf g b = .ok tb)
    (suits : Signature.operator (.binary .mul) [d, ta, tb] = .ok ())
    (hg : m.DimsOf g gradient d.dims) :
    Settles m (gradients (.binary .mul) m name [a, b] this gradient wants refuse) g E
      fun grads g' => m.GradientsFit g' [a, b] wants grads := by
  simp only [Signature.operator, Signature.sameDims_eq_ok_iff, List.forall_mem_cons] at suits
  have fa : m.DimsOf g a d.dims := ⟨ta, ha, suits.1⟩
  have fb : m.DimsOf g b d.dims := ⟨tb, hb, suits.2.1⟩
  refine settles_two (settles_only ready rfl fa (settles_binary ready hg fb)) fun g₁ grows₁ => ?_
  exact settles_only grows₁.ready rfl (grows₁.dimsOf fb)
    (settles_binary grows₁.ready (grows₁.dimsOf hg) (grows₁.dimsOf fa))

theorem settles_relu {x : Ref} {d : TensorType α} (ready : g.Ready m) (hx : m.typeOf g x = .ok d)
    (hd : m.DimsOf g this d.dims) (hg : m.DimsOf g gradient d.dims) :
    Settles m (gradients (.unary .relu) m name [x] this gradient wants refuse) g E
      fun grads g' => m.GradientsFit g' [x] wants grads := by
  obtain ⟨u, hu, dimsU⟩ := hd
  obtain ⟨v, hv, dimsV⟩ := hg
  refine settles_only ready rfl ⟨d, hx, rfl⟩
    (settles_like ready rfl hx (.cons hu (.cons hv .nil)) (by simp) ?_)
  simp [Signature.operator, dimsU, dimsV]

theorem settles_sigmoid {x : Ref} {d : TensorType α} (ready : g.Ready m) (hx : m.typeOf g x = .ok d)
    (hd : m.DimsOf g this d.dims) (hg : m.DimsOf g gradient d.dims) :
    Settles m (gradients (.unary .sigmoid) m name [x] this gradient wants refuse) g E
      fun grads g' => m.GradientsFit g' [x] wants grads := by
  refine settles_only ready rfl ⟨d, hx, rfl⟩ ?_
  refine settles_bind (settles_typeOf ready hd) fun t g₁ h₁ ht => ?_
  have dims := (h₁.dimsOf hd).unique ht
  refine settles_bind (settles_splat h₁.ready (.of_typeOf ht)) fun one g₂ h₂ hone => ?_
  have grows₂ := h₁.trans h₂
  refine settles_bind (settles_binary h₂.ready ⟨t, hone, dims⟩ (grows₂.dimsOf hd)) fun rest g₃ h₃ hr => ?_
  have grows₃ := grows₂.trans h₃
  refine settles_bind (settles_binary h₃.ready (grows₃.dimsOf hd) hr) fun slope g₄ h₄ hs => ?_
  exact settles_binary h₄.ready ((grows₃.trans h₄).dimsOf hg) hs

theorem settles_tanh {x : Ref} {d : TensorType α} (ready : g.Ready m) (hx : m.typeOf g x = .ok d)
    (hd : m.DimsOf g this d.dims) (hg : m.DimsOf g gradient d.dims) :
    Settles m (gradients (.unary .tanh) m name [x] this gradient wants refuse) g E
      fun grads g' => m.GradientsFit g' [x] wants grads := by
  refine settles_only ready rfl ⟨d, hx, rfl⟩ ?_
  refine settles_bind (settles_typeOf ready hd) fun t g₁ h₁ ht => ?_
  have dims := (h₁.dimsOf hd).unique ht
  refine settles_bind (settles_splat h₁.ready (.of_typeOf ht)) fun one g₂ h₂ hone => ?_
  have here := (h₁.trans h₂).dimsOf hd
  refine settles_bind (settles_binary h₂.ready here here) fun square g₃ h₃ hs => ?_
  have one' : m.DimsOf g₃ one d.dims := h₃.dimsOf ⟨t, hone, dims⟩
  refine settles_bind (settles_binary h₃.ready one' hs) fun slope g₄ h₄ hslope => ?_
  exact settles_binary h₄.ready ((h₁.trans (h₂.trans (h₃.trans h₄))).dimsOf hg) hslope

/-! ## Rules of axes and images -/

theorem settles_transpose {shuffle : List Nat} {x : Ref} {d tx : TensorType α} (ready : g.Ready m)
    (hx : m.typeOf g x = .ok tx) (suits : Signature.operator (.transpose shuffle) [d, tx] = .ok ())
    (irreversible : inverseShuffle? shuffle = none → E (.invalidNode name (.inversePermutation shuffle)))
    (hg : m.DimsOf g gradient d.dims) :
    Settles m (gradients (.transpose shuffle) m name [x] this gradient wants refuse) g E
      fun grads g' => m.GradientsFit g' [x] wants grads := by
  obtain ⟨rank, shuffled⟩ := Signature.transpose_eq_ok suits
  refine settles_only ready rfl ⟨tx, hx, rfl⟩ ?_
  refine settles_bind (settles_typeOfRank ready ⟨tx, hx, rfl⟩ rank.symm) fun t g₁ grows₁ ht => ?_
  rw [grows₁.typeOf hx] at ht
  cases ht
  obtain ⟨u, hu, dimsU⟩ := grows₁.dimsOf hg
  split
  · next inverse hi =>
    obtain ⟨length, bound, back⟩ := inverseShuffle_dims hi rank shuffled
    refine settles_operator grows₁.ready rfl (.cons hu .nil) (by simp) ?_
      (.of_typeOf (grows₁.typeOf hx))
    rw [← dimsU] at length bound back
    rw [Signature.operator, u.shuffledDims?_eq bound, back]
    simp [length, TensorType.rank]
  · next none => exact settles_throw (irreversible none)

/-- The sums over the images and the positions in them, channel by channel. -/
theorem settles_channelSums {s : Sliding} {depth : Nat} {flatName sumName : String} (ready : g.Ready m)
    (hg : m.DimsOf g gradient (s.outputDims depth)) :
    Settles m (do
      let t ← Emit.typeOfRank m name gradient (.exactly 4)
      let depth : Nat := t.dims.getD 3 0
      let flat ← Emit.reshape m flatName gradient [t.size / max depth 1, depth]
      Emit.sumRows m sumName flat) g E fun r g' => m.DimsOf g' r [depth] := by
  refine settles_bind (settles_typeOfRank ready hg rfl) fun t g₁ h₁ ht => ?_
  have dims := (h₁.dimsOf hg).unique ht
  have deep : t.dims.getD 3 0 = depth := by rw [dims]; rfl
  have matrix : volume [t.size / max depth 1, depth] = volume t.dims := by
    have size : volume t.dims = s.batch * (s.outHeight * s.outWidth) * depth := by
      rw [dims]
      simp [Sliding.outputDims, Nat.mul_assoc]
    rw [TensorType.size, size, volume_cons, volume_cons, volume_nil, Nat.mul_one]
    rcases Nat.eq_zero_or_pos depth with zero | pos
    · rw [zero, Nat.mul_zero, Nat.mul_zero]
    · rw [Nat.max_eq_left pos, Nat.mul_div_cancel _ pos]
  rw [deep]
  refine settles_bind (settles_reshape h₁.ready ⟨t, ht, rfl⟩ matrix) fun flat g₂ h₂ hflat => ?_
  exact settles_sumRows h₂.ready hflat

theorem settles_convolution {w : Window} {x f b : Ref} {d tx tf tb : TensorType α} (ready : g.Ready m)
    (hx : m.typeOf g x = .ok tx) (hf : m.typeOf g f = .ok tf) (hb : m.typeOf g b = .ok tb)
    (suits : Signature.operator (.convolution w) [d, tx, tf, tb] = .ok ())
    (hg : m.DimsOf g gradient d.dims) :
    Settles m (gradients (.convolution w) m name [x, f, b] this gradient wants refuse) g E
      fun grads g' => m.GradientsFit g' [x, f, b] wants grads := by
  obtain ⟨window, bias⟩ := Signature.convolutionLayer_eq_ok suits
  obtain ⟨s, depth, -, -, -, dimsF, dimsD⟩ := Signature.convolution_eq_ok window
  obtain ⟨u, hu, dimsU⟩ := hg
  -- The signature of a convolution reads the dimensions of its output only.
  have outside : Signature.convolution tx tf u w = .ok () := by
    simpa only [Signature.convolution, Signature.bind_eq_ok_iff, Signature.require_eq_ok_iff, dimsU]
      using window
  refine settles_three (settles_only ready rfl ⟨tx, hx, rfl⟩ ?_)
    (fun g₁ h₁ => settles_only h₁.ready rfl (h₁.dimsOf ⟨tf, hf, rfl⟩) ?_)
    (fun g₁ h₁ => settles_only h₁.ready rfl (h₁.dimsOf ⟨tb, hb, rfl⟩) ?_)
  · exact settles_like ready rfl hx (.cons hf (.cons hu .nil)) (by simp) outside
  · exact settles_like h₁.ready rfl (h₁.typeOf hf)
      (.cons (h₁.typeOf hx) (.cons (h₁.typeOf hu) .nil)) (by simp) outside
  · rw [bias, TensorType.rows_of_dims dimsF]
    exact settles_channelSums h₁.ready (h₁.dimsOf ⟨u, hu, dimsU.trans dimsD⟩)

theorem settles_maxPool {w : Window} {x : Ref} {d tx : TensorType α} (ready : g.Ready m)
    (hx : m.typeOf g x = .ok tx) (suits : Signature.operator (.pool .max w) [d, tx] = .ok ())
    (hg : m.DimsOf g gradient d.dims) :
    Settles m (gradients (.pool .max w) m name [x] this gradient wants refuse) g E
      fun grads g' => m.GradientsFit g' [x] wants grads := by
  obtain ⟨u, hu, dimsU⟩ := hg
  refine settles_only ready rfl ⟨tx, hx, rfl⟩
    (settles_like ready rfl hx (.cons hx (.cons hu .nil)) (by simp) ?_)
  simp [Signature.operator, dimsU, Signature.pool_eq_ok suits]

theorem settles_averagePool {w : Window} {x : Ref} {d tx : TensorType α} (ready : g.Ready m)
    (hx : m.typeOf g x = .ok tx) (suits : Signature.operator (.pool .average w) [d, tx] = .ok ())
    (hg : m.DimsOf g gradient d.dims) :
    Settles m (gradients (.pool .average w) m name [x] this gradient wants refuse) g E
      fun grads g' => m.GradientsFit g' [x] wants grads := by
  obtain ⟨u, hu, dimsU⟩ := hg
  refine settles_only ready rfl ⟨tx, hx, rfl⟩
    (settles_like ready rfl hx (.cons hu .nil) (by simp) ?_)
  simp [Signature.operator, dimsU, Signature.pool_eq_ok suits]

theorem settles_responseNormalization {p : ResponseParams α} {x : Ref} {d tx : TensorType α}
    (ready : g.Ready m) (hx : m.typeOf g x = .ok tx)
    (suits : Signature.operator (.responseNormalization p) [d, tx] = .ok ())
    (hd : m.DimsOf g this d.dims) (hg : m.DimsOf g gradient d.dims) :
    Settles m (gradients (.responseNormalization p) m name [x] this gradient wants refuse) g E
      fun grads g' => m.GradientsFit g' [x] wants grads := by
  obtain ⟨u, hu, dimsU⟩ := hd
  obtain ⟨v, hv, dimsV⟩ := hg
  refine settles_only ready rfl ⟨tx, hx, rfl⟩
    (settles_like ready rfl hx (.cons hx (.cons hu (.cons hv .nil))) (by simp) ?_)
  simp [Signature.operator, dimsU, dimsV, Signature.responseNormalization_eq_ok suits]

/-- The rules of all operators; the others have none and refuse, as do losses, whose gradients are not
computed from the gradient of the value. -/
theorem settles_gradients (op : Operator α) {inputs : List Ref} {ts : List (TensorType α)}
    {d : TensorType α} {e : Error α} (ready : g.Ready m) (count : inputs.length = op.arity)
    (types : m.TypesOf g inputs ts) (accepts : NodeKind.Accepts (.compute op) ts (some d))
    (refused : op.hasRule = false ∨ op = .softmax → E e)
    (irreversible : ∀ shuffle, op = .transpose shuffle → inverseShuffle? shuffle = none →
      E (.invalidNode name (.inversePermutation shuffle)))
    (hd : m.DimsOf g this d.dims) (hg : m.DimsOf g gradient d.dims) :
    Settles m (gradients op m name inputs this gradient wants (throw e)) g E
      fun grads g' => m.GradientsFit g' inputs wants grads := by
  cases accepts with
  | @unary u =>
    obtain ⟨x, rfl⟩ := List.length_eq_one_iff.mp count
    obtain ⟨_, h, hx⟩ := types.one
    cases h
    cases u with
    | relu => exact settles_relu ready hx hd hg
    | sigmoid => exact settles_sigmoid ready hx hd hg
    | tanh => exact settles_tanh ready hx hd hg
  | compute other suits =>
    cases op with
    | unary u => exact absurd rfl (other u)
    | dense =>
      obtain ⟨x, w, b, rfl⟩ := List.length_eq_three.mp count
      obtain ⟨_, _, _, rfl, hx, hw, hb⟩ := types.three
      exact settles_dense ready hx hw hb suits hg
    | matMul =>
      obtain ⟨a, b, rfl⟩ := List.length_eq_two.mp count
      obtain ⟨_, _, rfl, ha, hb⟩ := types.two
      exact settles_product ready ha hb suits hg
    | addToRows =>
      obtain ⟨x, s, rfl⟩ := List.length_eq_two.mp count
      obtain ⟨_, _, rfl, hx, hs⟩ := types.two
      exact settles_addToRows ready hx hs suits hg
    | sumRows =>
      obtain ⟨x, rfl⟩ := List.length_eq_one_iff.mp count
      obtain ⟨_, rfl, hx⟩ := types.one
      exact settles_rowSum ready hx suits hg
    | binary op =>
      obtain ⟨a, b, rfl⟩ := List.length_eq_two.mp count
      obtain ⟨_, _, rfl, ha, hb⟩ := types.two
      cases op with
      | add => exact settles_sum ready ha hb suits hg
      | sub => exact settles_difference ready ha hb suits hg
      | mul => exact settles_pointwise ready ha hb suits hg
      | _ => exact settles_throw (refused (.inl rfl))
    | transpose shuffle =>
      obtain ⟨x, rfl⟩ := List.length_eq_one_iff.mp count
      obtain ⟨_, rfl, hx⟩ := types.one
      exact settles_transpose ready hx suits (irreversible shuffle rfl) hg
    | convolution w =>
      obtain ⟨x, f, b, rfl⟩ := List.length_eq_three.mp count
      obtain ⟨_, _, _, rfl, hx, hf, hb⟩ := types.three
      exact settles_convolution ready hx hf hb suits hg
    | pool op w =>
      obtain ⟨x, rfl⟩ := List.length_eq_one_iff.mp count
      obtain ⟨_, rfl, hx⟩ := types.one
      cases op with
      | max => exact settles_maxPool ready hx suits hg
      | average => exact settles_averagePool ready hx suits hg
    | responseNormalization p =>
      obtain ⟨x, rfl⟩ := List.length_eq_one_iff.mp count
      obtain ⟨_, rfl, hx⟩ := types.one
      exact settles_responseNormalization ready hx suits hd hg
    | softmax => exact settles_throw (refused (.inr rfl))
    | _ => exact settles_throw (refused (.inl rfl))

end Operator

/-! ## Nodes -/

namespace Node
open Emit

/-- How the rule of a node fails that is handed `total`. -/
inductive RuleError (n : Node α) (total : Option Ref) : Error α → Prop
  | noRule : n.kind.hasRule = false → RuleError n total (.noGradient n.kind n.name)
  | unreached : n.kind.isLoss = false → total = none →
    RuleError n total (.noGradient n.kind n.name)
  | irreversible {shuffle : List Nat} : n.kind = .compute (.transpose shuffle) →
    inverseShuffle? shuffle = none →
    RuleError n total (.invalidNode n.name (.inversePermutation shuffle))

variable {n : Node α} {id : NodeId} {total : Option Ref} {wants : Nat → Bool} {E : Error α → Prop}

theorem settles_softmaxLoss {x labels : Ref} {d tx tl : TensorType α} (ready : g.Ready m)
    (kind : n.kind = .compute .softmax) (inputs : n.inputs = [x, labels])
    (hx : m.typeOf g x = .ok tx) (hl : m.typeOf g labels = .ok tl)
    (suits : Signature.operator .softmax [d, tx, tl] = .ok ())
    (hd : m.DimsOf g (.node id) d.dims) (wanted : wants 0 = true) :
    Settles m (n.gradients m id total wants) g E fun grads g' =>
      m.GradientsFit g' n.inputs wants grads := by
  simp only [Signature.operator, Signature.softmax, Signature.bind_eq_ok_iff,
    Signature.sameDims_eq_ok_iff, List.mem_singleton, forall_eq, Signature.require_eq_ok_iff] at suits
  obtain ⟨u, hu, dimsU⟩ := hd
  simp only [gradients, kind, inputs]
  rw [← bind_assoc]
  refine settles_bind (settles_like ready rfl hx (.cons hu (.cons hl .nil)) (by simp) ?_)
    fun gradient g₁ h₁ hg => settles_pure h₁.ready (.single wanted rfl (h₁.dimsOf ⟨tx, hx, rfl⟩) hg)
  simpa [Signature.operator, Signature.softmax, dimsU, suits.1, TensorType.rank,
    TensorType.rows] using suits.2

theorem settles_regression {x expected : Ref} {d e : TensorType α} (ready : g.Ready m)
    (kind : n.kind = .regression) (inputs : n.inputs = [x, expected])
    (hx : m.typeOf g x = .ok d) (he : m.typeOf g expected = .ok e) (same : d.dims = e.dims)
    (wanted : wants 0 = true) :
    Settles m (n.gradients m id total wants) g E fun grads g' =>
      m.GradientsFit g' n.inputs wants grads := by
  simp only [gradients, kind, inputs]
  have fx : m.DimsOf g x d.dims := ⟨d, hx, rfl⟩
  refine settles_bind (settles_binary ready fx ⟨e, he, same.symm⟩) fun gradient g₁ h₁ hg => ?_
  exact settles_pure h₁.ready (.single wanted rfl (h₁.dimsOf fx) hg)

theorem settles_reshape {dims : List Nat} {x gradient : Ref} {d tx : TensorType α} (ready : g.Ready m)
    (kind : n.kind = .reshape dims) (inputs : n.inputs = [x]) (hx : m.typeOf g x = .ok tx)
    (same : volume d.dims = volume tx.dims) (hg : m.DimsOf g gradient d.dims) :
    Settles m (n.gradients m id (some gradient) wants) g E
      fun grads g' => m.GradientsFit g' n.inputs wants grads := by
  simp only [gradients, kind, inputs]
  have fx : m.DimsOf g x tx.dims := ⟨tx, hx, rfl⟩
  split
  · next wanted =>
    refine settles_bind (settles_typeOf ready ⟨tx, hx, rfl⟩) fun t g₁ h₁ ht => ?_
    have dimsT := (h₁.dimsOf fx).unique ht
    refine settles_bind (Emit.settles_reshape h₁.ready (h₁.dimsOf hg) (by rw [dimsT, same])) ?_
    intro gx g₂ h₂ hgx
    rw [dimsT] at hgx
    exact settles_pure h₂.ready (.single wanted rfl ((h₁.trans h₂).dimsOf fx) hgx)
  · exact settles_pure ready .nil

theorem gradients_operator {op : Operator α} (kind : n.kind = .compute op) (other : op ≠ .softmax) :
    n.gradients m id total wants =
      match total with
      | none => throw (.noGradient n.kind n.name)
      | some gradient => op.gradients m n.name n.inputs (.node id) gradient wants
          (throw (.noGradient n.kind n.name)) := by
  rw [gradients, kind]
  cases op with
  | softmax => exact absurd rfl other
  | _ => cases total <;> rfl

/-- Whatever the kind of a node, the gradients of its inputs fit. -/
theorem settles_gradients (ready : g.Ready m) (loss : n.kind.isLoss = true → wants 0 = true)
    (count : ∀ k, n.kind.arity = some k → n.inputs.length = k)
    {ts : List (TensorType α)} (types : m.TypesOf g n.inputs ts)
    (accepts : n.kind.Accepts ts n.type)
    (value : ∀ d, n.type = some d → m.DimsOf g (.node id) d.dims)
    (sum : ∀ d gradient, n.type = some d → total = some gradient → m.DimsOf g gradient d.dims) :
    Settles m (n.gradients m id total wants) g (n.RuleError total) fun grads g' =>
      m.GradientsFit g' n.inputs wants grads := by
  cases kind : n.kind with
  | compute op =>
    rw [kind] at accepts count
    have count := count op.arity rfl
    by_cases loss : op = .softmax
    · subst loss
      obtain ⟨x, labels, inputs⟩ := List.length_eq_two.mp count
      rw [inputs] at types
      obtain ⟨_, _, rfl, hx, hl⟩ := types.two
      generalize htype : n.type = type at accepts
      cases accepts with
      | compute _ suits =>
        exact settles_softmaxLoss ready kind inputs hx hl suits (value _ htype)
          (loss (by rw [kind]; rfl))
    · rw [gradients_operator kind loss]
      have other : n.kind.isLoss = false := by
        rw [kind]
        cases op with
        | softmax => exact absurd rfl loss
        | _ => rfl
      cases total with
      | none => exact settles_throw (.unreached other rfl)
      | some gradient =>
        cases htype : n.type with
        | none =>
          rw [htype] at accepts
          cases accepts
        | some d =>
          rw [htype] at accepts
          refine Operator.settles_gradients op ready count types accepts (fun refused => ?_)
            (fun shuffle same => .irreversible (same ▸ kind)) (value d htype)
            (sum d gradient htype rfl)
          exact .noRule (by rw [kind]; exact refused.resolve_right loss)
  | reshape dims =>
    rw [kind] at accepts count
    obtain ⟨x, inputs⟩ := List.length_eq_one_iff.mp (count 1 rfl)
    rw [inputs] at types
    obtain ⟨_, rfl, hx⟩ := types.one
    generalize htype : n.type = type at accepts
    cases accepts with
    | reshape same =>
      cases total with
      | none =>
        simp only [gradients, kind, inputs]
        exact settles_throw (kind ▸ .unreached (by rw [kind]; rfl) rfl)
      | some gradient =>
        exact settles_reshape ready kind inputs hx same (sum _ gradient htype rfl)
  | regression =>
    rw [kind] at accepts count
    obtain ⟨x, expected, inputs⟩ := List.length_eq_two.mp (count 2 rfl)
    rw [inputs] at types
    obtain ⟨_, _, rfl, hx, he⟩ := types.two
    generalize htype : n.type = type at accepts
    cases accepts with
    | regression same =>
        exact settles_regression ready kind inputs hx he same (loss (by rw [kind]; rfl))
  | _ =>
    simp only [gradients, kind]
    cases total <;> exact settles_throw (kind ▸ .noRule (by rw [kind]; rfl))

end Node
end NeuralGraph
