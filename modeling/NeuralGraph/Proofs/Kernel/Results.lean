import NeuralGraph.Kernel.Operator
import NeuralGraph.Proofs.Kernel.Permutations

/-!
# Results of kernels

For operands of suitable dimensions each kernel has a result, but for a few that also refuse some of
these operands.  `Settles` says when a kernel refuses and which dimensions its result has otherwise.
-/

namespace NeuralGraph
set_option autoImplicit false
variable {α : Type}

namespace Kernel

/-- The computation ends in a fault exactly if `refused`, and in an array of dimensions `dims`
otherwise. -/
structure Settles (r : Kernel α (DenseArray α)) (dims : List Nat) (refused : Prop) : Prop where
  refuses : refused → ∃ fault, r = .error fault
  succeeds : ¬refused → ∃ a, r = .ok a ∧ a.dims = dims

theorem Settles.of_eq_ok {r : Kernel α (DenseArray α)} {dims : List Nat} {a : DenseArray α}
    (h : r = .ok a) (hd : a.dims = dims) : Settles r dims False :=
  ⟨False.elim, fun _ => ⟨a, h, hd⟩⟩

theorem Settles.congr {r : Kernel α (DenseArray α)} {dims : List Nat} {p q : Prop}
    (h : Settles r dims p) (hpq : q ↔ p) : Settles r dims q :=
  ⟨fun hq => h.refuses (hpq.mp hq), fun hq => h.succeeds fun hp => hq (hpq.mpr hp)⟩

theorem foldl_dims {β : Type} (step : DenseArray α → β → DenseArray α)
    (h : ∀ a b, (step a b).dims = a.dims) (bs : List β) (a : DenseArray α) :
    (bs.foldl step a).dims = a.dims := by
  induction bs generalizing a with
  | nil => rfl
  | cons b bs ih => rw [List.foldl_cons, ih, h]

theorem size_eq_rows_mul (a : DenseArray α) (h : a.dims ≠ []) : a.size = a.rows * a.rowSize := by
  rw [DenseArray.size, a.size_eq, DenseArray.rows, DenseArray.rowSize]
  cases hd : a.dims with
  | nil => exact absurd hd h
  | cons d ds => rfl

theorem reshape_eq {x : DenseArray α} {dims : List Nat} (h : volume x.dims = volume dims)
    (small : addressable dims = true) : reshape x dims = .ok (x.withDims dims h) := by
  simp only [reshape, DenseArray.reshape?, dif_pos h, small, if_true]

/-! ## Windows over images -/

/-- The geometry of a window over an image, which has these output sides. -/
theorem over?_eq {batch height width channels outHeight outWidth : Nat} {w : Window}
    (hh : w.positions? height = some outHeight) (hw : w.positions? width = some outWidth) :
    Sliding.over? batch height width channels w =
      some ⟨batch, height, width, channels, outHeight, outWidth, w⟩ := by
  simp only [Sliding.over?, hh, hw, Option.bind_eq_bind, Option.bind_some]

theorem poolingGeometry_eq {dims : List Nat} {s : Sliding} (hd : dims = s.inputDims)
    (hs : Sliding.over? s.batch s.height s.width s.channels s.window = some s) :
    (poolingGeometry dims s.window : Kernel α Sliding) = .ok s := by
  simp only [poolingGeometry, hd, Sliding.inputDims, imageDims, bind, Except.bind, hs]

/-- The dimensions of the filters of a convolution. -/
def filterDims (s : Sliding) (depth : Nat) : List Nat :=
  [depth, s.window.kernel, s.window.kernel, s.channels]

theorem convolutionGeometry_eq {input filter : List Nat} {depth : Nat} {s : Sliding}
    (hi : input = s.inputDims) (hf : filter = filterDims s depth)
    (hs : Sliding.over? s.batch s.height s.width s.channels s.window = some s) :
    (convolutionGeometry input filter s.window : Kernel α (Nat × Sliding)) = .ok (depth, s) := by
  simp only [convolutionGeometry, hi, hf, Sliding.inputDims, filterDims, imageDims, bind,
    Except.bind, ne_eq, not_true_eq_false, or_self, if_false, hs]

variable [Scalar α]

/-! ## Element by element -/

theorem zipWith_eq (f : α → α → α) {a b : DenseArray α} (h : a.dims = b.dims) :
    zipWith f a b = .ok (.ofFn a.dims fun (i : Nat) => f (a.get i) (b.get i)) := if_pos h

theorem reluGradient_eq {y g : DenseArray α} (h : y.dims = g.dims) :
    ∃ a, reluGradient y g = .ok a ∧ a.dims = y.dims := ⟨_, zipWith_eq _ h, rfl⟩

theorem select_eq {c a b : DenseArray α} (ha : c.dims = a.dims) (hb : a.dims = b.dims) :
    select c a b =
      .ok (.ofFn c.dims fun (i : Nat) => if c.get i == 0 then b.get i else a.get i) := by
  rw [select, if_neg (not_not.mpr ha), if_neg (not_not.mpr hb)]

/-! ## Products -/

theorem matMul_eq {a b : DenseArray α} {n k m : Nat} (ha : a.dims = [n, k]) (hb : b.dims = [k, m]) :
    matMul a b = .ok (product n k m a b) := by
  simp [matMul, matrixDims, ha, hb, bind, Except.bind]

/-- A layer whose batch has rows, or has rows without elements. -/
theorem dense_eq {x w b : DenseArray α} {m : Nat} (hx : x.dims ≠ [])
    (hw : w.dims = [x.rowSize, m]) (hb : b.dims = [m]) (h : x.rows = 0 → x.rowSize = 0) :
    dense x w b = .ok (.ofFn [x.rows, m] fun (i : Nat) =>
      (product x.rows x.rowSize m x w).get i + b.get (i % m)) := by
  have size := size_eq_rows_mul x hx
  have columns : (if x.rows = 0 then 0 else x.rows * x.rowSize / x.rows) = x.rowSize := by
    by_cases hn : x.rows = 0
    · rw [if_pos hn, h hn]
    · rw [if_neg hn, Nat.mul_div_cancel_left _ (Nat.pos_of_ne_zero hn)]
  have bias : b.size = m := by
    rw [DenseArray.size, b.size_eq, hb, volume_cons, volume_nil, Nat.mul_one]
  simp only [dense, size, columns, matrixDims, hw, bind, Except.bind, bias, ne_eq,
    not_true_eq_false, if_false, or_self]

/-- A batch without rows is flattened to rows without elements. -/
theorem dense_refuses {x w b : DenseArray α} {m : Nat} (hx : x.dims ≠ [])
    (hw : w.dims = [x.rowSize, m]) (hn : x.rows = 0) (h : x.rowSize ≠ 0) :
    dense x w b = .error (.layer x.dims w.dims b.dims) := by
  have size : x.size = 0 := by rw [size_eq_rows_mul x hx, hn, Nat.zero_mul]
  have differ : (0 : Nat) ≠ x.rowSize ∨ b.size ≠ m := .inl h.symm
  simp only [dense, hn, size, matrixDims, hw, bind, Except.bind, if_true, Nat.mul_zero, ne_eq,
    not_true_eq_false, if_false]
  rw [if_pos differ]

theorem dense_settles {x w b : DenseArray α} {m : Nat} (hx : x.dims ≠ [])
    (hw : w.dims = [x.rowSize, m]) (hb : b.dims = [m]) :
    Settles (dense x w b) [x.rows, m] (x.rows = 0 ∧ x.rowSize ≠ 0) := by
  constructor
  · rintro ⟨hn, h⟩
    exact ⟨_, dense_refuses hx hw hn h⟩
  · intro h
    exact ⟨_, dense_eq hx hw hb fun hn => not_not.mp fun hr => h ⟨hn, hr⟩, rfl⟩

/-! ## Rows -/

theorem addToRows_eq {x s : DenseArray α} (hx : x.dims ≠ []) (hs : x.dims.tail = s.dims) :
    addToRows x s = .ok (.ofFn x.dims fun (i : Nat) => x.get i + s.get (i % s.size)) := by
  have h : (x.dims.isEmpty || x.dims.tail != s.dims) = false := by simp [hx, hs]
  rw [addToRows, h, if_neg Bool.false_ne_true]

theorem sumRows_eq (order : SumOrder) {x : DenseArray α} {n : Nat} {slice : List Nat}
    (hx : x.dims = n :: slice) :
    sumRows order x = .ok (.ofFn slice fun (j : Nat) =>
      Scalar.sumIn order n fun (r : Nat) => x.get (r * volume slice + j)) := by
  simp only [sumRows, hx]

/-- A scalar that stands for a position below `bound`. -/
def IsIndex (bound : Nat) (value : α) : Prop := ∃ n, Scalar.toNat? value = some n ∧ n < bound

theorem readIndex_eq {bound : Nat} {value : α} (h : IsIndex bound value) :
    ∃ n, readIndex value bound = .ok n := by
  obtain ⟨n, hn, hlt⟩ := h
  exact ⟨n, by simp only [readIndex, hn, if_pos hlt]⟩

theorem readIndex_refuses {bound : Nat} {value : α} (h : ¬IsIndex bound value) :
    readIndex value bound = .error (.index value bound) := by
  simp only [readIndex]
  cases hn : Scalar.toNat? value with
  | none => rfl
  | some n => exact if_neg fun hlt => h ⟨n, hn, hlt⟩

theorem readIndices_eq {bound : Nat} {values : List α} (h : ∀ v ∈ values, IsIndex bound v) :
    ∃ ns, values.mapM (fun (value : α) => readIndex value bound) = .ok ns := by
  induction values with
  | nil => exact ⟨[], rfl⟩
  | cons v vs ih =>
    obtain ⟨n, hn⟩ := readIndex_eq (h v List.mem_cons_self)
    obtain ⟨ns, hns⟩ := ih fun w hw => h w (List.mem_cons_of_mem _ hw)
    refine ⟨n :: ns, ?_⟩
    rw [List.mapM_cons, hn, hns]
    rfl

theorem readIndices_refuses {bound : Nat} {values : List α} (h : ∃ v ∈ values, ¬IsIndex bound v) :
    ∃ fault, values.mapM (fun (value : α) => readIndex value bound) = .error fault := by
  induction values with
  | nil =>
    obtain ⟨v, hv, -⟩ := h
    cases hv
  | cons v vs ih =>
    rw [List.mapM_cons]
    by_cases hv : IsIndex bound v
    · obtain ⟨n, hn⟩ := readIndex_eq hv
      obtain ⟨w, hw, hbad⟩ := h
      rcases List.mem_cons.mp hw with rfl | hw
      · exact absurd hv hbad
      · obtain ⟨fault, hf⟩ := ih ⟨w, hw, hbad⟩
        exact ⟨fault, by rw [hn, hf]; rfl⟩
    · exact ⟨_, by rw [readIndex_refuses hv]; rfl⟩

theorem gather_settles {x i : DenseArray α} {rows : Nat} {slice : List Nat}
    (hx : x.dims = rows :: slice) :
    Settles (gather x i) (i.dims ++ slice) (∃ v ∈ i.data.toList, ¬IsIndex rows v) := by
  constructor
  · intro h
    obtain ⟨fault, hf⟩ := readIndices_refuses h
    exact ⟨fault, by simp only [gather, hx, hf]; rfl⟩
  · intro h
    obtain ⟨ns, hns⟩ := readIndices_eq fun v hv => not_not.mp fun hbad => h ⟨v, hv, hbad⟩
    exact ⟨_, by simp only [gather, hx, hns]; rfl, rfl⟩

/-! ## Axes -/

theorem transpose_settles {x : DenseArray α} {shuffle dims : List Nat}
    (hd : shuffle.map (fun (axis : Nat) => x.dims.getD axis 0) = dims) :
    Settles (transpose x shuffle) dims ¬shuffle.Perm (List.range x.dims.length) :=
  ⟨fun h => ⟨_, transpose_refuses h⟩, fun h => ⟨_, transpose_of_perm (not_not.mp h), hd⟩⟩

/-! ## Images -/

theorem pool_eq (op : Pooling) {x : DenseArray α} {s : Sliding} (hx : x.dims = s.inputDims)
    (hs : Sliding.over? s.batch s.height s.width s.channels s.window = some s) :
    ∃ a, pool op x s.window = .ok a ∧ a.dims = s.pooledDims := by
  simp only [pool, poolingGeometry_eq hx hs, bind, Except.bind]
  exact ⟨_, rfl, rfl⟩

theorem maxPoolGradient_eq {x g : DenseArray α} {s : Sliding} (hx : x.dims = s.inputDims)
    (hg : g.dims = s.pooledDims)
    (hs : Sliding.over? s.batch s.height s.width s.channels s.window = some s) :
    ∃ a, maxPoolGradient x g s.window = .ok a ∧ a.dims = x.dims := by
  simp only [maxPoolGradient, poolingGeometry_eq hx hs, checkPoolingGradient, if_pos hg, bind,
    Except.bind]
  refine ⟨_, rfl, ?_⟩
  rw [foldl_dims, DenseArray.zeros_dims]
  intro image i
  split <;> rfl

theorem averagePoolGradient_eq {dims : List Nat} {g : DenseArray α} {s : Sliding}
    (hd : dims = s.inputDims) (hg : g.dims = s.pooledDims)
    (hs : Sliding.over? s.batch s.height s.width s.channels s.window = some s) :
    ∃ a, averagePoolGradient dims g s.window = .ok a ∧ a.dims = dims := by
  simp only [averagePoolGradient, poolingGeometry_eq hd hs, checkPoolingGradient, if_pos hg, bind,
    Except.bind]
  refine ⟨_, rfl, ?_⟩
  rw [foldl_dims, DenseArray.zeros_dims]
  intro image i
  rw [foldl_dims]
  exact fun _ _ => rfl

theorem addPatches_dims (s : Sliding) (patches : DenseArray α) :
    (addPatches s patches).dims = s.inputDims :=
  foldl_dims _ (fun _ _ => DenseArray.addAt_dims _ _ _) _ _

/-- Only products that are stored by columns are refused. -/
theorem convolution_settles {x f b : DenseArray α} {depth : Nat} {s : Sliding}
    (hx : x.dims = s.inputDims) (hf : f.dims = filterDims s depth) (hb : b.dims = [depth])
    (hs : Sliding.over? s.batch s.height s.width s.channels s.window = some s)
    (small : addressable [s.patches, s.patchSize] = true) :
    Settles (convolution x f b s.window) (s.outputDims depth)
      (s.patchSize = 1 ∧ 1 < depth ∧ 1 < s.patches) := by
  have bias : b.size = depth := by
    rw [DenseArray.size, b.size_eq, hb, volume_cons, volume_nil, Nat.mul_one]
  have stored : storedByColumns s depth = true ↔ s.patchSize = 1 ∧ 1 < depth ∧ 1 < s.patches := by
    simp only [storedByColumns, Bool.and_eq_true, beq_iff_eq, Nat.blt_eq, and_assoc]
  rw [← stored]
  constructor
  · intro h
    refine ⟨.columnMajor, ?_⟩
    simp only [convolution, convolutionGeometry_eq hx hf hs, bind, Except.bind, bias, h, ne_eq,
      not_true_eq_false, if_false, if_true]
  · intro h
    simp only [convolution, convolutionGeometry_eq hx hf hs, bind, Except.bind, bias, h, ne_eq,
      not_true_eq_false, if_false, checkPatches, small, if_true]
    exact ⟨_, rfl, rfl⟩

theorem convolutionInputGradient_eq {dims : List Nat} {f g : DenseArray α} {depth : Nat}
    {s : Sliding} (hd : dims = s.inputDims) (hf : f.dims = filterDims s depth)
    (hg : g.dims = s.outputDims depth)
    (hs : Sliding.over? s.batch s.height s.width s.channels s.window = some s) :
    ∃ a, convolutionInputGradient dims f g s.window = .ok a ∧ a.dims = dims := by
  simp only [convolutionInputGradient, convolutionGeometry_eq hd hf hs, checkConvolutionGradient,
    if_pos hg, bind, Except.bind]
  exact ⟨_, rfl, (addPatches_dims s _).trans hd.symm⟩

theorem convolutionFilterGradient_eq {dims : List Nat} {x g : DenseArray α} {depth : Nat}
    {s : Sliding} (hx : x.dims = s.inputDims) (hd : dims = filterDims s depth)
    (hg : g.dims = s.outputDims depth)
    (hs : Sliding.over? s.batch s.height s.width s.channels s.window = some s)
    (small : addressable [s.patches, s.patchSize] = true) :
    ∃ a, convolutionFilterGradient x dims g s.window = .ok a ∧ a.dims = dims := by
  simp only [convolutionFilterGradient, convolutionGeometry_eq hx hd hs, checkConvolutionGradient,
    if_pos hg, checkPatches, small, if_true, bind, Except.bind]
  exact ⟨_, rfl, rfl⟩

/-! ## Softmax and normalization -/

theorem softmax_eq (order : SumOrder) {x : DenseArray α} {n c : Nat} (hx : x.dims = [n, c]) :
    ∃ a, softmax order x = .ok a ∧ a.dims = [n, c] := by
  simp only [softmax, hx]
  exact ⟨_, rfl, rfl⟩

theorem softmaxGradient_settles {y l : DenseArray α} {n c : Nat} (hy : y.dims = [n, c])
    (hl : l.dims = [n, 1]) :
    Settles (softmaxGradient y l) [n, c] (∃ v ∈ l.data.toList, ¬IsIndex c v) := by
  have count : l.size = n := by
    rw [DenseArray.size, l.size_eq, hl]
    simp
  constructor
  · intro h
    obtain ⟨fault, hf⟩ := readIndices_refuses h
    refine ⟨fault, ?_⟩
    simp only [softmaxGradient, hy, count, ne_eq, not_true_eq_false, if_false, hf]
    rfl
  · intro h
    obtain ⟨ns, hns⟩ := readIndices_eq fun v hv => not_not.mp fun hbad => h ⟨v, hv, hbad⟩
    simp only [softmaxGradient, hy, count, ne_eq, not_true_eq_false, if_false, hns]
    exact ⟨_, rfl, (foldl_dims _ (fun _ _ => DenseArray.addAt_dims _ _ _) _ _).trans hy⟩

theorem responseNormalization_eq (p : ResponseParams α) {x : DenseArray α}
    (hx : x.dims.length = 4) : ∃ a, responseNormalization p x = .ok a ∧ a.dims = x.dims := by
  match hd : x.dims, hx with
  | [_, _, _, _], _ =>
    simp only [responseNormalization, hd, imageDims, bind, Except.bind]
    exact ⟨_, rfl, rfl⟩

theorem responseNormalizationGradient_settles (p : ResponseParams α) {x y g : DenseArray α}
    (hy : x.dims = y.dims) (hg : x.dims = g.dims) :
    Settles (responseNormalizationGradient p x y g) x.dims (x.dims.length ≠ 4) := by
  have same : ¬(x.dims ≠ y.dims ∨ x.dims ≠ g.dims) := by
    rintro (h | h)
    · exact h hy
    · exact h hg
  constructor
  · intro h
    have notImage : (imageDims .normalizationInput x.dims : Kernel α (Nat × Nat × Nat × Nat)) =
        .error (.notImage .normalizationInput x.dims) := by
      match hd : x.dims with
      | [] | [_] | [_, _] | [_, _, _] | _ :: _ :: _ :: _ :: _ :: _ => rfl
      | [_, _, _, _] => exact absurd (by rw [hd]; rfl) h
    exact ⟨_, by rw [responseNormalizationGradient, if_neg same, notImage]; rfl⟩
  · intro h
    match hd : x.dims, not_not.mp h with
    | [_, _, _, _], _ =>
      simp only [responseNormalizationGradient, if_neg same]
      simp only [hd, imageDims, bind, Except.bind]
      exact ⟨_, rfl, rfl⟩

end Kernel

/-- An update of operands of equal dimensions has two results of these dimensions. -/
theorem UpdateRule.apply_of_dims [Scalar α] (u : UpdateRule α)
    (weight gradient velocity : PlacedArray α)
    (hg : gradient.dims = weight.dims) (hv : velocity.dims = weight.dims) :
    ∃ a b, u.apply weight gradient velocity = .ok [a, b] ∧ a.dims = weight.dims ∧
      b.dims = weight.dims := by
  have h : ¬(weight.array.dims ≠ gradient.array.dims ∨ weight.array.dims ≠ velocity.array.dims) := by
    rintro (h | h)
    · exact h hg.symm
    · exact h hv.symm
  simp only [UpdateRule.apply, Kernel.update, if_neg h]
  exact ⟨_, _, rfl, rfl, rfl⟩

end NeuralGraph
