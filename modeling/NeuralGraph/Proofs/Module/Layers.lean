import NeuralGraph.Proofs.Module.Building

/-!
# Layers build proper graphs

One lemma for each layer, then all modules in which one graph is made by layers: `Module.Built.proper`.
-/

namespace NeuralGraph
set_option autoImplicit false
variable {α : Type} [Scalar α]

/-! ## Dimensions that layers infer -/

omit [Scalar α] in
theorem TensorType.shuffledDims?_eq (t : TensorType α) {shuffle : List Nat}
    (h : ∀ axis ∈ shuffle, axis < t.rank) :
    t.shuffledDims? shuffle = some (shuffle.map fun (axis : Nat) => t.dims.getD axis 0) := by
  rw [shuffledDims?]
  induction shuffle with
  | nil => rfl
  | cons axis shuffle ih =>
    have bound : axis < t.dims.length := h axis List.mem_cons_self
    have rest := ih fun a ha => h a (List.mem_cons_of_mem axis ha)
    rw [List.mapM_cons, rest, List.map_cons, List.getD_eq_getElem?_getD,
      List.getElem?_eq_getElem bound]
    rfl

omit [Scalar α] in
theorem TensorType.shuffledDims?_of_permutation (t : TensorType α) {shuffle : List Nat}
    (h : Kernel.isPermutation t.rank shuffle = true) :
    shuffle.length = t.rank ∧
      t.shuffledDims? shuffle = some (shuffle.map fun (axis : Nat) => t.dims.getD axis 0) := by
  have permutes := Kernel.isPermutation_iff.mp h
  refine ⟨by simpa using permutes.length_eq, t.shuffledDims?_eq fun axis haxis => ?_⟩
  exact List.mem_range.mp (permutes.mem_iff.mp haxis)

namespace Build
variable {f : GraphId} {m : Module α} {name : String}

theorem leaves_windowPositions {γ : Type} {x : TensorType α} {w : Window}
    {k : Nat × Nat → Build α γ} (hm : m.Proper f)
    (h : ∀ u v, w.positions? (x.dims.getD 1 0) = some u → w.positions? (x.dims.getD 2 0) = some v →
      (k (u, v)).Leaves m (Module.Proper · f)) :
    (windowPositions name x w >>= k).Leaves m (Module.Proper · f) := by
  rw [windowPositions]
  split
  · next u v hu hv => exact h u v hu hv
  · exact hm

theorem leaves_productDims {γ : Type} {a b : TensorType α} {k : List Nat → Build α γ}
    (hm : m.Proper f)
    (h : ∀ n i l, a.dims = [n, i] → b.dims = [i, l] → (k [n, l]).Leaves m (Module.Proper · f)) :
    (productDims name a b >>= k).Leaves m (Module.Proper · f) := by
  rw [productDims]
  split
  · next n i i' l ha hb =>
    split
    · next e =>
      subst e
      exact h n i l ha hb
    · exact hm
  · exact hm

/-! ## Layers with parameters -/

theorem leaves_denseWith (hm : m.Proper f) (input weights bias : Ref) :
    (denseWith f name input weights bias).Leaves m (Module.Proper · f) := by
  refine leaves_typeOf hm fun x hx => leaves_typeOf hm fun w hw => leaves_typeOf hm fun b hb => ?_
  split
  · next k d d' hwd hbd =>
    refine leaves_require hm fun rank => leaves_require hm fun same => ?_
    refine leaves_compute hm (.cons hx (.cons hw (.cons hb .nil))) (by simp) ?_
    simp only [Bool.and_eq_true, beq_iff_eq] at same
    simp [Signature.operator, hwd, hbd, rank, same]
  · exact leaves_invalid hm

theorem leaves_dense (hm : m.Proper f) (input : Ref) (depth : Nat) :
    (dense f name input depth).Leaves m (Module.Proper · f) := by
  refine leaves_typeOf hm fun x _ => leaves_require hm fun _ => ?_
  refine leaves_newVariable hm fun weights m₁ h₁ => leaves_newVariable h₁ fun bias m₂ h₂ => ?_
  exact leaves_denseWith h₂ input (.var weights) (.var bias)

theorem leaves_convolutionWith (hm : m.Proper f) (input filter bias : Ref) (w : Window) :
    (convolutionWith f name input filter bias w).Leaves m (Module.Proper · f) := by
  refine leaves_typeOf hm fun x hx => leaves_typeOf hm fun t ht => leaves_typeOf hm fun b hb => ?_
  split
  · next n height width channels depth rows columns channels' depth' hxd htd hbd =>
    refine leaves_require hm fun same => leaves_windowPositions hm fun u v hu hv => ?_
    refine leaves_compute hm (.cons hx (.cons ht (.cons hb .nil))) (by simp) ?_
    simp only [Bool.and_eq_true, beq_iff_eq] at same
    simp only [hxd, List.getD_cons_succ, List.getD_cons_zero] at hu hv
    simp [Signature.operator, Signature.convolution, TensorType.slidDims?, TensorType.rank,
      TensorType.channels, TensorType.rows, hxd, htd, hbd, hu, hv, same]
  · exact leaves_invalid hm

theorem leaves_convolution (hm : m.Proper f) (input : Ref) (depth : Nat) (w : Window) :
    (convolution f name input depth w).Leaves m (Module.Proper · f) := by
  refine leaves_typeOf hm fun x _ => ?_
  split
  · refine leaves_newVariable hm fun filter m₁ h₁ => leaves_newVariable h₁ fun bias m₂ h₂ => ?_
    exact leaves_convolutionWith h₂ input (.var filter) (.var bias) w
  · exact leaves_invalid hm

/-! ## Matrices and batches -/

theorem leaves_matMul (hm : m.Proper f) (lhs rhs : Ref) :
    (matMul f name lhs rhs).Leaves m (Module.Proper · f) := by
  refine leaves_typeOf hm fun a ha => leaves_typeOf hm fun b hb => ?_
  refine leaves_productDims hm fun n i l hda hdb => ?_
  refine leaves_compute hm (.cons ha (.cons hb .nil)) (by simp) ?_
  simp [Signature.operator, hda, hdb]

theorem leaves_matMulAs (hm : m.Proper f) (out : TensorType α) (lhs rhs : Ref) :
    (matMulAs f name out lhs rhs).Leaves m (Module.Proper · f) := by
  refine leaves_typeOf hm fun a ha => leaves_typeOf hm fun b hb => ?_
  refine leaves_productDims hm fun n i l hda hdb => leaves_require hm fun same => ?_
  refine leaves_compute hm (.cons ha (.cons hb .nil)) (by simp) ?_
  simp [Signature.operator, hda, hdb, eq_of_beq same]

theorem leaves_addToRowsAs (hm : m.Proper f) (out : TensorType α) (batch slice : Ref) :
    (addToRowsAs f name out batch slice).Leaves m (Module.Proper · f) := by
  refine leaves_typeOf hm fun x hx => leaves_typeOf hm fun s hs => leaves_require hm fun same => ?_
  refine leaves_compute hm (.cons hx (.cons hs .nil)) (by simp) ?_
  simp only [Bool.and_eq_true, beq_iff_eq] at same
  simp [Signature.operator, same]

theorem leaves_addToRows (hm : m.Proper f) (batch slice : Ref) :
    (addToRows f name batch slice).Leaves m (Module.Proper · f) :=
  leaves_typeOf hm fun out _ => leaves_addToRowsAs hm out batch slice

theorem leaves_sumRows (hm : m.Proper f) (batch : Ref) :
    (sumRows f name batch).Leaves m (Module.Proper · f) := by
  refine leaves_typeOf hm fun x hx => leaves_require hm fun axis => ?_
  refine leaves_compute hm (.cons hx .nil) (by simp) ?_
  simpa [Signature.operator] using axis

/-! ## Pooling and normalization -/

theorem leaves_pool (hm : m.Proper f) (op : Pooling) (input : Ref) (w : Window) :
    (pool f name op input w).Leaves m (Module.Proper · f) := by
  refine leaves_typeOf hm fun x hx => ?_
  split
  · next n height width channels hxd =>
    refine leaves_windowPositions hm fun u v hu hv => ?_
    refine leaves_compute hm (.cons hx .nil) (by simp) ?_
    simp only [hxd, List.getD_cons_succ, List.getD_cons_zero] at hu hv
    simp [Signature.operator, TensorType.slidDims?, TensorType.channels, hxd, hu, hv]
  · exact leaves_invalid hm

theorem leaves_responseNormalization (hm : m.Proper f) (input : Ref) (params : ResponseParams α) :
    (responseNormalization f name input params).Leaves m (Module.Proper · f) := by
  refine leaves_typeOf hm fun x hx => leaves_require hm fun rank => ?_
  refine leaves_compute hm (.cons hx .nil) (by simp) ?_
  simpa [Signature.operator] using rank

/-! ## Activations and losses -/

theorem leaves_unary (hm : m.Proper f) (op : UnaryOp) (input : Ref) :
    (unary f name op input).Leaves m (Module.Proper · f) :=
  leaves_typeOf hm fun _ hx => leaves_value hm rfl (.cons hx .nil) .unary trivial

theorem leaves_softmax (hm : m.Proper f) (input labels : Ref) :
    (softmax f name input labels).Leaves m (Module.Proper · f) := by
  refine leaves_typeOf hm fun x hx => leaves_typeOf hm fun l hl => ?_
  refine leaves_require hm fun rank => leaves_require hm fun suits => ?_
  refine leaves_compute hm (.cons hx (.cons hl .nil)) (by simp) ?_
  simp only [Bool.and_eq_true] at suits
  simp [Signature.operator, Signature.softmax, TensorType.labelsFor, rank, suits]

theorem leaves_regression (hm : m.Proper f) (input expected : Ref) :
    (regression f name input expected).Leaves m (Module.Proper · f) := by
  refine leaves_typeOf hm fun x hx => leaves_typeOf hm fun e he => leaves_require hm fun same => ?_
  exact leaves_value hm rfl (.cons hx (.cons he .nil)) (.regression (eq_of_beq same)) trivial

/-! ## Elementwise operations -/

theorem leaves_binary (hm : m.Proper f) (op : BinaryOp) (lhs rhs : Ref) :
    (binary f name op lhs rhs).Leaves m (Module.Proper · f) := by
  refine leaves_typeOf hm fun a ha => leaves_typeOf hm fun b hb => leaves_require hm fun same => ?_
  refine leaves_compute hm (.cons ha (.cons hb .nil)) (by simp) ?_
  simp [Signature.operator, (eq_of_beq same).symm]

theorem leaves_select (hm : m.Proper f) (condition lhs rhs : Ref) :
    (select f name condition lhs rhs).Leaves m (Module.Proper · f) := by
  refine leaves_typeOf hm fun c hc => leaves_typeOf hm fun a ha => leaves_typeOf hm fun b hb => ?_
  refine leaves_require hm fun same => ?_
  refine leaves_compute hm (.cons hc (.cons ha (.cons hb .nil))) (by simp) ?_
  simp only [Bool.and_eq_true, beq_iff_eq] at same
  simp [Signature.operator, same.1, same.2.symm]

/-! ## Rearrangements -/

theorem leaves_reshape (hm : m.Proper f) (input : Ref) (dims : List Nat) :
    (reshape f name input dims).Leaves m (Module.Proper · f) := by
  refine leaves_typeOf hm fun x hx => leaves_require hm fun same => ?_
  exact leaves_value hm rfl (.cons hx .nil) (.reshape (eq_of_beq same).symm) trivial

theorem leaves_transpose (hm : m.Proper f) (input : Ref) (shuffle : List Nat) :
    (transpose f name input shuffle).Leaves m (Module.Proper · f) := by
  refine leaves_typeOf hm fun x hx => leaves_require hm fun permutes => ?_
  refine leaves_compute hm (.cons hx .nil) (by simp) ?_
  obtain ⟨length, dims⟩ := x.shuffledDims?_of_permutation permutes
  simp [Signature.operator, length, dims]

theorem leaves_gather (hm : m.Proper f) (data positions : Ref) :
    (gather f name data positions).Leaves m (Module.Proper · f) := by
  refine leaves_typeOf hm fun x hx => leaves_typeOf hm fun i hi => leaves_require hm fun suits => ?_
  refine leaves_compute hm (.cons hx (.cons hi .nil)) (by simp) ?_
  simp only [Bool.and_eq_true] at suits
  simp [Signature.operator, suits]

/-! ## Quantization -/

theorem leaves_quantize (hm : m.Proper f) (input : Ref) (out : TensorType α) :
    (quantize f name input out).Leaves m (Module.Proper · f) := by
  refine leaves_typeOf hm fun x hx => leaves_require hm fun suits => ?_
  refine leaves_compute hm (.cons hx .nil) (by simp) ?_
  simp only [Bool.and_eq_true, beq_iff_eq] at suits
  simp [Signature.operator, suits]

theorem leaves_dequantize (hm : m.Proper f) (input : Ref) :
    (dequantize f name input).Leaves m (Module.Proper · f) := by
  refine leaves_typeOf hm fun x hx => leaves_require hm fun quantized => ?_
  refine leaves_compute hm (.cons hx .nil) (by simp) ?_
  simp [Signature.operator, TensorType.float, TensorType.plain, quantized]

theorem leaves_rescale (hm : m.Proper f) (input : Ref) (out : TensorType α) :
    (rescale f name input out).Leaves m (Module.Proper · f) := by
  refine leaves_typeOf hm fun x hx => leaves_require hm fun suits => ?_
  refine leaves_compute hm (.cons hx .nil) (by simp) ?_
  simp only [Bool.and_eq_true, beq_iff_eq] at suits
  simp [Signature.operator, suits]

/-! ## Constants and outputs -/

theorem leaves_splat (hm : m.Proper f) (type : TensorType α) (x : α) :
    (splat f name type x).Leaves m (Module.Proper · f) :=
  leaves_value hm rfl .nil .splat trivial

theorem leaves_saveTo (hm : m.Proper f) (source : Ref) (destination : VarId) :
    (saveTo f name source destination).Leaves m (Module.Proper · f) := by
  refine leaves_typeOf hm fun x hx => leaves_ask hm fun v hv => leaves_require hm fun same => ?_
  obtain ⟨g, hg, -⟩ := id hx
  have known : m.typeOf g (.var destination) = .ok v.type :=
    Module.typeOf_var_iff.mpr ⟨v, Module.var_eq_ok_iff.mp hv, rfl⟩
  exact leaves_node hm rfl (.cons hx (.cons ⟨g, hg, known⟩ .nil)) (.save same) ⟨destination, rfl⟩

theorem leaves_save (hm : m.Proper f) (source : Ref) :
    (save f name source).Leaves m (Module.Proper · f) := by
  refine leaves_typeOf hm fun x _ => leaves_newVariable hm fun destination m₁ h₁ => ?_
  exact leaves_then (leaves_saveTo h₁ source destination) fun _ _ h₂ => leaves_pure h₂

/-! ## Whole modules -/

/-- The layers of a graph. -/
inductive Creates (f : GraphId) : {β : Type} → Build α β → Prop
  | dense (name : String) (input : Ref) (depth : Nat) : Creates f (dense f name input depth)
  | denseWith (name : String) (input weights bias : Ref) :
      Creates f (denseWith f name input weights bias)
  | convolution (name : String) (input : Ref) (depth : Nat) (w : Window) :
      Creates f (convolution f name input depth w)
  | convolutionWith (name : String) (input filter bias : Ref) (w : Window) :
      Creates f (convolutionWith f name input filter bias w)
  | matMul (name : String) (lhs rhs : Ref) : Creates f (matMul f name lhs rhs)
  | matMulAs (name : String) (out : TensorType α) (lhs rhs : Ref) :
      Creates f (matMulAs f name out lhs rhs)
  | addToRows (name : String) (batch slice : Ref) : Creates f (addToRows f name batch slice)
  | addToRowsAs (name : String) (out : TensorType α) (batch slice : Ref) :
      Creates f (addToRowsAs f name out batch slice)
  | sumRows (name : String) (batch : Ref) : Creates f (sumRows f name batch)
  | pool (name : String) (op : Pooling) (input : Ref) (w : Window) :
      Creates f (pool f name op input w)
  | responseNormalization (name : String) (input : Ref) (params : ResponseParams α) :
      Creates f (responseNormalization f name input params)
  | unary (name : String) (op : UnaryOp) (input : Ref) : Creates f (unary f name op input)
  | softmax (name : String) (input labels : Ref) : Creates f (softmax f name input labels)
  | regression (name : String) (input expected : Ref) :
      Creates f (regression f name input expected)
  | binary (name : String) (op : BinaryOp) (lhs rhs : Ref) : Creates f (binary f name op lhs rhs)
  | select (name : String) (condition lhs rhs : Ref) : Creates f (select f name condition lhs rhs)
  | reshape (name : String) (input : Ref) (dims : List Nat) :
      Creates f (reshape f name input dims)
  | transpose (name : String) (input : Ref) (shuffle : List Nat) :
      Creates f (transpose f name input shuffle)
  | gather (name : String) (data positions : Ref) : Creates f (gather f name data positions)
  | quantize (name : String) (input : Ref) (out : TensorType α) :
      Creates f (quantize f name input out)
  | dequantize (name : String) (input : Ref) : Creates f (dequantize f name input)
  | rescale (name : String) (input : Ref) (out : TensorType α) :
      Creates f (rescale f name input out)
  | splat (name : String) (type : TensorType α) (x : α) : Creates f (splat f name type x)
  | saveTo (name : String) (source : Ref) (destination : VarId) :
      Creates f (saveTo f name source destination)
  | save (name : String) (source : Ref) : Creates f (save f name source)

/-- A layer leaves a proper module, also if it is refused. -/
theorem Creates.leaves {β : Type} {x : Build α β} (creates : Creates f x) (hm : m.Proper f) :
    x.Leaves m (Module.Proper · f) := by
  cases creates with
  | dense name input depth => exact leaves_dense hm input depth
  | denseWith name input weights bias => exact leaves_denseWith hm input weights bias
  | convolution name input depth w => exact leaves_convolution hm input depth w
  | convolutionWith name input filter bias w => exact leaves_convolutionWith hm input filter bias w
  | matMul name lhs rhs => exact leaves_matMul hm lhs rhs
  | matMulAs name out lhs rhs => exact leaves_matMulAs hm out lhs rhs
  | addToRows name batch slice => exact leaves_addToRows hm batch slice
  | addToRowsAs name out batch slice => exact leaves_addToRowsAs hm out batch slice
  | sumRows name batch => exact leaves_sumRows hm batch
  | pool name op input w => exact leaves_pool hm op input w
  | responseNormalization name input params => exact leaves_responseNormalization hm input params
  | unary name op input => exact leaves_unary hm op input
  | softmax name input labels => exact leaves_softmax hm input labels
  | regression name input expected => exact leaves_regression hm input expected
  | binary name op lhs rhs => exact leaves_binary hm op lhs rhs
  | select name condition lhs rhs => exact leaves_select hm condition lhs rhs
  | reshape name input dims => exact leaves_reshape hm input dims
  | transpose name input shuffle => exact leaves_transpose hm input shuffle
  | gather name data positions => exact leaves_gather hm data positions
  | quantize name input out => exact leaves_quantize hm input out
  | dequantize name input => exact leaves_dequantize hm input
  | rescale name input out => exact leaves_rescale hm input out
  | splat name type x => exact leaves_splat hm type x
  | saveTo name source destination => exact leaves_saveTo hm source destination
  | save name source => exact leaves_save hm source

end Build

/-- Modules in which graph `f` is made by layers only.  Variables can be declared and given other
initial values at any time, and the other graphs are whatever they are. -/
inductive Module.Built (f : GraphId) : Module α → Prop
  | ofSeed (seed : UInt64) : Built f (.ofSeed seed)
  | declare {m m' : Module α} {name : String} {type : TensorType α} {visibility : Visibility}
      {training : Training α} {id : VarId} : Built f m →
      m.declare name type visibility training = .ok (m', id) → Built f m'
  | setInitial {m m' : Module α} {id : VarId} {t : Tensor α} : Built f m →
      m.setInitial id t = .ok m' → Built f m'
  | fillInitial {m m' : Module α} {id : VarId} {value : α} : Built f m →
      m.fillInitial id value = .ok m' → Built f m'
  | addGraph {m m' : Module α} {name : String} {id : GraphId} : Built f m →
      m.addGraph name = .ok (m', id) → Built f m'
  | create {m : Module α} {β : Type} {x : Build α β} : Built f m → Build.Creates f x →
      Built f (x.run.run m).2
  | mark {m : Module α} {g : Graph α} (inPlace : Bool) : Built f m → m.graph? f = some g →
      Built f (m.putGraph f { g with inPlace := inPlace })
  | insertOther {m m' : Module α} {g : Graph α} {id : GraphId} : Built f m → id ≠ f →
      m.insertGraph g = .ok (m', id) → Built f m'
  | putOther {m : Module α} {id : GraphId} (g : Graph α) : Built f m → id ≠ f →
      Built f (m.putGraph id g)

namespace Module
variable {f : GraphId}

omit [Scalar α] in
theorem insertGraph_eq_ok {m m' : Module α} {g : Graph α} {id : GraphId}
    (h : m.insertGraph g = .ok (m', id)) :
    m' = { m with graphs := m.graphs.push g } ∧ id = ⟨m.graphs.size⟩ := by
  rw [insertGraph] at h
  split at h
  · cases h
  · cases h
    exact ⟨rfl, rfl⟩

omit [Scalar α] in
theorem insertGraph_graph? {m m' : Module α} {g k : Graph α} {id : GraphId}
    (h : m.insertGraph g = .ok (m', id)) (hk : m'.graph? f = some k) :
    m.graph? f = some k ∨ (id = f ∧ g = k) := by
  obtain ⟨rfl, rfl⟩ := insertGraph_eq_ok h
  rw [graph?, Array.getElem?_push] at hk
  split at hk
  · next e => exact .inr ⟨congrArg GraphId.mk e.symm, Option.some.inj hk⟩
  · exact .inl hk

theorem Proper.insertGraph {m m' : Module α} {g : Graph α} {id : GraphId} (proper : m.Proper f)
    (h : m.insertGraph g = .ok (m', id)) (own : id = f → g.nodes = #[]) : m'.Proper f := by
  have known : ∀ k, m'.graph? f = some k → m.graph? f = some k ∨ k.nodes = #[] := by
    intro k hk
    rcases insertGraph_graph? h hk with old | ⟨new, rfl⟩
    · exact .inl old
    · exact .inr (own new)
  obtain ⟨rfl, rfl⟩ := insertGraph_eq_ok h
  refine ⟨⟨proper.sound.distinct, proper.sound.initial⟩, fun h hh => ?_, fun h hh n hn => ?_⟩
  · rcases known h hh with old | empty
    · exact (proper.graph h old).mono (.refl m)
    · exact (Graph.Proper.empty _ h.name).congr empty
  · rcases known h hh with old | empty
    · exact proper.layers h old n hn
    · simp [empty] at hn

/-- Making a graph by layers makes a proper graph, whatever else is done to the module. -/
theorem Built.proper {m : Module α} (built : m.Built f) : m.Proper f := by
  induction built with
  | ofSeed seed =>
    have noGraph : (Module.ofSeed seed : Module α).graph? f = none := rfl
    exact ⟨.ofSeed seed, by simp [noGraph], by simp [noGraph]⟩
  | declare _ h proper => exact proper.declare h
  | setInitial _ h proper => exact proper.setInitial h
  | fillInitial _ h proper => exact proper.fillInitial h
  | addGraph _ h proper => exact proper.insertGraph h fun _ => rfl
  | create _ creates proper => exact creates.leaves proper
  | @mark m g inPlace _ hg proper =>
    exact proper.putGraph hg ((proper.graph g hg).congr rfl) (proper.layers g hg)
  | insertOther _ other h proper => exact proper.insertGraph h fun e => absurd e other
  | putOther g _ other proper => exact proper.putOther other

theorem Built.attempt {m : Module α} {β : Type} {x : Module α → Except (Error α) (Module α × β)}
    (built : m.Built f) (h : ∀ m' b, x m = .ok (m', b) → m'.Built f) :
    ((Build.attempt x).run.run m).2.Built f := by
  simp only [Build.attempt, ExceptT.run_mk, StateT.run]
  cases done : x m with
  | error _ => exact built
  | ok r => exact h r.1 r.2 done

theorem Built.newVariable {m : Module α} (built : m.Built f) (name : String) (type : TensorType α)
    (visibility : Visibility) (training : Training α) :
    ((Build.newVariable name type visibility training).run.run m).2.Built f :=
  built.attempt fun _ _ h => .declare built h

theorem Built.newGraph {m : Module α} (built : m.Built f) (name : String) :
    ((Build.attempt fun (m : Module α) => m.addGraph name).run.run m).2.Built f :=
  built.attempt fun _ _ h => .addGraph built h

end Module
end NeuralGraph
