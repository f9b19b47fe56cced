import NeuralGraph.Proofs.Exact.Images
import NeuralGraph.Proofs.Gradient.Emission
import NeuralGraph.Proofs.Module.Atomicity

/-!
# Transposition

The kernel, the layer and the gradient rule look for permutations in three ways, and all of them
take exactly the permutations of the axes.  The kernel only renames elements, and under the shuffle
of the gradient rule they get their names back.
-/

namespace NeuralGraph
set_option autoImplicit false
variable {α : Type} [Scalar α]

/-- Along axis `i` the array has the dimension and the coordinates that the other has along axis
`shuffle[i]`. -/
structure DenseArray.Rearranges (y x : DenseArray α) (shuffle : List Nat) : Prop where
  rank : y.rank = x.rank
  dims : ∀ i, i < x.rank → y.dims.getD i 0 = x.dims.getD (shuffle.getD i 0) 0
  elements : ∀ coords, DenseArray.Within coords y.dims →
    ∃ coords', DenseArray.Within coords' x.dims ∧
      (∀ i, i < x.rank → coords'.getD (shuffle.getD i 0) 0 = coords.getD i 0) ∧
      y.at? coords = x.at? coords'

/-! ## Permuted arrays -/

section
variable {x : DenseArray α} {shuffle inverse : List Nat}

omit [Scalar α] in
theorem undoes_of_perm (perm : shuffle.Perm (List.range x.rank)) :
    ∃ inverse, inverseShuffle? shuffle = some inverse ∧ Undoes x.dims.length shuffle inverse := by
  have length : shuffle.length = x.rank := by rw [perm.length_eq, List.length_range]
  rw [← length] at perm
  have found := inverseShuffle?_of_perm perm
  have undoes := undoes_of_inverseShuffle? found
  have rank : shuffle.length = x.dims.length := length
  exact ⟨_, found, rank ▸ undoes⟩

variable (undoes : Undoes x.dims.length shuffle inverse)
include undoes

theorem permuteAxes_rearranges : (Kernel.permuteAxes x shuffle).Rearranges x shuffle where
  rank := (shuffled_length shuffle x.dims).trans undoes.length
  dims i hi := shuffled_getD x.dims (undoes.length ▸ hi)
  elements coords within := by
    have inside : DenseArray.Within coords (shuffled shuffle x.dims) := within
    have length : coords.length = x.dims.length :=
      inside.length_eq.trans ((shuffled_length shuffle x.dims).trans undoes.length)
    have within' := within_shuffled undoes inside
    refine ⟨shuffled inverse coords, within', fun i hi => ?_, ?_⟩
    · have bound : shuffle.getD i 0 < inverse.length := undoes.length' ▸ undoes.bound i hi
      rw [shuffled_getD coords bound, undoes.back i hi]
    · rw [DenseArray.at?_eq within, DenseArray.at?_eq within', ← position_shuffled undoes length]
      refine congrArg some ((permuteAxes_get x shuffle (DenseArray.position_lt inside)).trans ?_)
      rw [shuffledPosition, DenseArray.coordinates_position inside]

theorem permuteAxes_permuteAxes :
    Kernel.permuteAxes (Kernel.permuteAxes x shuffle) inverse = x := by
  have dims : shuffled inverse (shuffled shuffle x.dims) = x.dims := undoes.shuffled_shuffled
  refine DenseArray.ext_get dims fun i hi => ?_
  have bound : i < volume (shuffled inverse (shuffled shuffle x.dims)) := hi
  rw [permuteAxes_get _ _ bound]
  have back := shuffledPosition_shuffledPosition undoes.swap bound
  rw [dims] at back
  have bound' := shuffledPosition_lt undoes.swap bound
  exact (permuteAxes_get x shuffle bound').trans (congrArg x.get back)

end

/-! ## The layer -/

section
variable {m : Module α} {f : GraphId} {input : Ref} {t : TensorType α} {shuffle : List Nat}

omit [Scalar α] in
theorem Build.exists_yields_transpose_iff (name : String) (sees : m.Sees f input t) :
    (∃ r m', Yields (transpose f name input shuffle) m r m') ↔
      shuffle.Perm (List.range t.rank) := by
  rw [← Kernel.isPermutation_iff]
  constructor
  · rintro ⟨r, m', made⟩
    rw [transpose, yields_bind] at made
    obtain ⟨u, m₁, seen, made⟩ := made
    cases (yields_typeOf.mpr ⟨sees, rfl⟩).symm.trans seen
    obtain ⟨⟨⟩, m₂, checked, -⟩ := yields_bind.mp made
    exact (yields_require.mp checked).1
  · intro permutes
    have seen : ∀ r ∈ [input], ∃ t, m.Sees f r t := by
      intro r hr
      obtain rfl := List.mem_singleton.mp hr
      exact ⟨t, sees⟩
    have count : ∀ k, (NodeKind.compute (.transpose shuffle) : NodeKind α).arity = some k →
        [input].length = k := by
      rintro k ⟨⟩
      rfl
    obtain ⟨r, m', made⟩ := exists_yields_value name (.compute (.transpose shuffle))
      (t.withDims (shuffle.map fun (axis : Nat) => t.dims.getD axis 0)) seen
      (List.cons_ne_nil input []) count
    refine ⟨r, m', yields_bind.mpr ⟨t, m, yields_typeOf.mpr ⟨sees, rfl⟩, ?_⟩⟩
    exact yields_bind.mpr ⟨(), m, yields_require.mpr ⟨permutes, rfl⟩, made⟩

end

/-! ## The gradient rule -/

section
variable {m : Module α} {G : Graph α} {input this gradient : Ref} {t d : TensorType α}
  {shuffle : List Nat} {wants : Nat → Bool} (name : String) (refuse : Emit α (List InputGradient))

omit [Scalar α] in
theorem Emit.run_typeOfRank_exactly {rank : Nat} (known : m.typeOf G input = .ok t) :
    (typeOfRank m name input (.exactly rank)).run G =
      if t.rank = rank then .ok (t, G)
      else .error (.invalidNode name (.rank t (.exactly rank))) := by
  rw [typeOfRank, run_bind_of_ok (run_typeOf_of_ok known)]
  by_cases fits : t.rank = rank
  · rw [if_pos fits]
    simp only [beq_iff_eq, fits, if_true]
    rfl
  · rw [if_neg fits]
    simp only [beq_iff_eq, fits, if_false]
    rfl

theorem Operator.run_transpose_gradients (this : Ref) (typed : m.typeOf G input = .ok t)
    (known : m.typeOf G gradient = .ok d) (wanted : wants 0 = true)
    (rank : t.rank = shuffle.length) {inverse : List Nat}
    (invertible : inverseShuffle? shuffle = some inverse) : ∃ G' id,
      (gradients (.transpose shuffle) m name [input] this gradient wants refuse).run G =
        .ok ([⟨0, .node id⟩], G') ∧
      G'.node? id = some ⟨G.freshName (name ++ ".grad"), .compute (.transpose inverse), [gradient],
        some t⟩ := by
  have count : ∀ k, (NodeKind.compute (.transpose inverse) : NodeKind α).arity = some k →
      [gradient].length = k := by
    rintro k ⟨⟩
    rfl
  have types : m.TypesOf G [gradient] [d] := .cons known .nil
  obtain ⟨G', id, pushed⟩ := Graph.exists_push count (fun _ => types.early)
    (name ++ ".grad") (some t)
  have ranked : (Emit.typeOfRank m name input (.exactly shuffle.length)).run G = .ok (t, G) := by
    rw [Emit.run_typeOfRank_exactly name typed, if_pos rank]
  have added : (Emit.node (name ++ ".grad") (.compute (.transpose inverse)) [gradient] t).run G =
      .ok (.node id, G') := Emit.run_push_of_ok Ref.node pushed
  refine ⟨G', id, ?_, Graph.push_node pushed⟩
  simp only [gradients, wanted, if_true, bind_assoc]
  rw [Emit.run_bind_of_ok ranked, invertible]
  dsimp only
  rw [Emit.run_bind_of_ok added]
  rfl

theorem Operator.invertible_of_run_transpose_gradients (typed : m.typeOf G input = .ok t)
    (wanted : wants 0 = true) {grads : List InputGradient} {G' : Graph α}
    (ran : (gradients (.transpose shuffle) m name [input] this gradient wants refuse).run G =
      .ok (grads, G')) :
    t.rank = shuffle.length ∧ ∃ inverse, inverseShuffle? shuffle = some inverse := by
  simp only [gradients, wanted, if_true, bind_assoc] at ran
  obtain ⟨u, G₁, ranked, ran⟩ := Emit.run_bind_eq_ok ran
  rw [Emit.run_typeOfRank_exactly name typed] at ranked
  split at ranked
  · next rank =>
    refine ⟨rank, ?_⟩
    cases found : inverseShuffle? shuffle with
    | some inverse => exact ⟨inverse, rfl⟩
    | none =>
      rw [found] at ran
      cases ran
  · cases ranked

end

/-! ## Agreement -/

/-- The kernel, the layer and the gradient rule take the same shuffles of the axes, and what the
kernel makes of the array it takes back under the shuffle that the rule builds. -/
theorem transpositions_agree {x : DenseArray α} {shuffle : List Nat} {m : Module α} {f : GraphId}
    {G : Graph α} {input source gradient : Ref} {t u d : TensorType α} (name name' : String)
    (this : Ref) (wants : Nat → Bool) (refuse : Emit α (List InputGradient))
    (sees : m.Sees f input t) (rank : t.rank = x.rank) (typed : m.typeOf G source = .ok u)
    (rank' : u.rank = x.rank) (known : m.typeOf G gradient = .ok d) (wanted : wants 0 = true) :
    ((∃ y, Kernel.transpose x shuffle = .ok y) ↔ shuffle.Perm (List.range x.rank)) ∧
    ((∃ r m', Yields (Build.transpose f name input shuffle) m r m') ↔
      shuffle.Perm (List.range x.rank)) ∧
    ((∃ grads G', (Operator.gradients (.transpose shuffle) m name' [source] this gradient wants
        refuse).run G = .ok (grads, G')) ↔ shuffle.Perm (List.range x.rank)) ∧
    (shuffle.Perm (List.range x.rank) → ∃ y inverse G' id,
      Kernel.transpose x shuffle = .ok y ∧ y.Rearranges x shuffle ∧
      (Operator.gradients (.transpose shuffle) m name' [source] this gradient wants refuse).run G =
        .ok ([⟨0, .node id⟩], G') ∧
      G'.node? id = some ⟨G.freshName (name' ++ ".grad"), .compute (.transpose inverse), [gradient],
        some u⟩ ∧
      Kernel.transpose y inverse = .ok x) := by
  have length : shuffle.Perm (List.range x.rank) → u.rank = shuffle.length := fun perm => by
    rw [perm.length_eq, List.length_range, rank']
  refine ⟨⟨?_, fun perm => ⟨_, Kernel.transpose_of_perm perm⟩⟩, ?_, ⟨?_, fun perm => ?_⟩,
    fun perm => ?_⟩
  · rintro ⟨y, computed⟩
    exact (Kernel.transpose_eq_ok_iff.mp computed).1
  · rw [← rank]
    exact Build.exists_yields_transpose_iff name sees
  · rintro ⟨grads, G', ran⟩
    obtain ⟨axes, inverse, found⟩ :=
      Operator.invertible_of_run_transpose_gradients name' refuse typed wanted ran
    rw [← rank', axes]
    exact (inverseShuffle?_eq_some_iff.mp found).1
  · obtain ⟨inverse, found, -⟩ := undoes_of_perm perm
    obtain ⟨G', id, ran, -⟩ := Operator.run_transpose_gradients name' refuse this typed known wanted
      (length perm) found
    exact ⟨_, G', ran⟩
  · obtain ⟨inverse, found, undoes⟩ := undoes_of_perm perm
    obtain ⟨G', id, ran, added⟩ := Operator.run_transpose_gradients name' refuse this typed known
      wanted (length perm) found
    have perm' : inverse.Perm (List.range (Kernel.permuteAxes x shuffle).rank) := by
      rw [(permuteAxes_rearranges undoes).rank, ← rank', length perm]
      exact inverseShuffle?_perm found
    refine ⟨_, inverse, G', id, Kernel.transpose_of_perm perm, permuteAxes_rearranges undoes, ran,
      added, ?_⟩
    rw [Kernel.transpose_of_perm perm', permuteAxes_permuteAxes undoes]

/-- Three axes, one of them of dimension one. -/
def box : DenseArray Int := ⟨[2, 1, 3], #[1, 2, 3, 4, 5, 6], rfl⟩

/-- Variables for the box and for a gradient of the box with its last axis first. -/
def boxModule : Module Int where
  vars := #[⟨"x", .float [2, 1, 3], .exposed, .untrained, .zeros (.float [2, 1, 3])⟩,
    ⟨"g", .float [3, 2, 1], .exposed, .untrained, .zeros (.float [3, 2, 1])⟩]
  graphs := #[.empty "box"]
  generator := .ofSeed 7

theorem box_transpositions_agree : boxModule.Sees ⟨0⟩ (.var ⟨0⟩) (.float [2, 1, 3]) ∧
    [2, 0, 1].Perm (List.range box.rank) ∧
    (∃ r m', Yields (Build.transpose ⟨0⟩ "t" (.var ⟨0⟩) [2, 0, 1]) boxModule r m') ∧
    ∃ y inverse G' id, Kernel.transpose box [2, 0, 1] = .ok y ∧ y.Rearranges box [2, 0, 1] ∧
      (Operator.gradients (.transpose [2, 0, 1]) boxModule "t" [.var ⟨0⟩] (.node ⟨0⟩) (.var ⟨1⟩)
        (fun _ => true) (return [])).run (.empty "train") = .ok ([⟨0, .node id⟩], G') ∧
      G'.node? id = some ⟨(Graph.empty "train" : Graph Int).freshName ("t" ++ ".grad"),
        .compute (.transpose inverse), [.var ⟨1⟩], some (.float [2, 1, 3])⟩ ∧
      Kernel.transpose y inverse = .ok box := by
  have sees : boxModule.Sees ⟨0⟩ (.var ⟨0⟩) (.float [2, 1, 3]) := ⟨_, rfl, rfl⟩
  have perm : [2, 0, 1].Perm (List.range box.rank) := by decide
  have typed : boxModule.typeOf (.empty "train") (.var ⟨0⟩) = .ok (.float [2, 1, 3]) := rfl
  have known : boxModule.typeOf (.empty "train") (.var ⟨1⟩) = .ok (.float [3, 2, 1]) := rfl
  obtain ⟨-, made, -, back⟩ := transpositions_agree (x := box) "t" "t" (.node ⟨0⟩) (fun _ => true)
    (return []) sees rfl typed rfl known rfl
  exact ⟨sees, perm, made.mpr perm, back perm⟩

end NeuralGraph
