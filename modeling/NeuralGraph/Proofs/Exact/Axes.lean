import Mathlib.Algebra.BigOperators.Intervals
import NeuralGraph.Proofs.Exact.Sums
import NeuralGraph.Proofs.Gradient.Inverses
import NeuralGraph.Proofs.Kernel.Results

/-!
# Positions and axes

Coordinates and positions are two names of one element, and shuffling the axes renames the elements
of an array.  A shuffle and its inverse rename them back and forth, so a sum over a shuffled array is
a sum over the array.
-/

namespace NeuralGraph
set_option autoImplicit false

/-! ## Coordinates -/

namespace DenseArray

/-- Coordinates that are in range. -/
def Within (coords dims : List Nat) : Prop := List.Forall₂ (fun (c d : Nat) => c < d) coords dims

theorem within_iff {coords dims : List Nat} : Within coords dims ↔
    coords.length = dims.length ∧ ∀ i, i < dims.length → coords.getD i 0 < dims.getD i 0 := by
  rw [Within, List.forall₂_iff_get]
  refine and_congr_right fun length => ?_
  constructor
  · intro h i hi
    have hi' : i < coords.length := length ▸ hi
    simpa [hi, hi'] using h i hi' hi
  · intro h i hi' hi
    simpa [hi, hi'] using h i hi

theorem coordinates_within {dims : List Nat} {i : Nat} (h : i < volume dims) :
    Within (coordinates dims i) dims := by
  induction dims generalizing i with
  | nil => exact .nil
  | cons d dims ih =>
    rw [volume_cons] at h
    have positive : 0 < volume dims := Nat.pos_of_lt_mul_left h
    exact .cons (Nat.div_lt_of_lt_mul (Nat.mul_comm d _ ▸ h)) (ih (Nat.mod_lt i positive))

theorem position_coordinates {dims : List Nat} {i : Nat} (h : i < volume dims) :
    position (coordinates dims i) (strides dims) = i := by
  induction dims generalizing i with
  | nil =>
    rw [volume_nil, Nat.lt_one_iff] at h
    rw [h]
    rfl
  | cons d dims ih =>
    rw [volume_cons] at h
    have positive : 0 < volume dims := Nat.pos_of_lt_mul_left h
    rw [coordinates, strides, position, ih (Nat.mod_lt i positive)]
    exact Nat.div_add_mod' i (volume dims)

theorem position_lt {coords dims : List Nat} (h : Within coords dims) :
    position coords (strides dims) < volume dims := by
  induction h with
  | nil => exact Nat.one_pos
  | @cons c d coords dims hc _ ih =>
    rw [strides, position, volume_cons]
    calc c * volume dims + position coords (strides dims)
        < c * volume dims + volume dims := Nat.add_lt_add_left ih _
      _ = (c + 1) * volume dims := (Nat.succ_mul c _).symm
      _ ≤ d * volume dims := Nat.mul_le_mul_right _ hc

theorem coordinates_position {coords dims : List Nat} (h : Within coords dims) :
    coordinates dims (position coords (strides dims)) = coords := by
  induction h with
  | nil => rfl
  | @cons c d coords dims hc hcoords ih =>
    have bound := position_lt hcoords
    have positive : 0 < volume dims := Nat.lt_of_le_of_lt (Nat.zero_le _) bound
    rw [strides, position, coordinates, Nat.mul_comm c, Nat.mul_add_div positive,
      Nat.div_eq_of_lt bound, Nat.mul_add_mod, Nat.mod_eq_of_lt bound, ih, Nat.add_zero]

theorem strides_length (dims : List Nat) : (strides dims).length = dims.length := by
  induction dims with
  | nil => rfl
  | cons d dims ih => rw [strides, List.length_cons, ih, List.length_cons]

/-- A position is a sum over the axes. -/
theorem position_eq_sum {coords steps : List Nat} (h : coords.length = steps.length) :
    position coords steps =
      ∑ axis ∈ Finset.range coords.length, coords.getD axis 0 * steps.getD axis 0 := by
  induction coords generalizing steps with
  | nil => rfl
  | cons c coords ih =>
    match steps, h with
    | step :: steps, h =>
      rw [position, ih (Nat.succ.inj h), List.length_cons, Finset.sum_range_succ']
      simp [Nat.add_comm]

end DenseArray

/-! ## Shuffles -/

open DenseArray

/-- The entries of a list in the order that a shuffle names. -/
def shuffled (shuffle dims : List Nat) : List Nat :=
  shuffle.map fun (axis : Nat) => dims.getD axis 0

theorem shuffled_length (shuffle dims : List Nat) :
    (shuffled shuffle dims).length = shuffle.length := by
  rw [shuffled, List.length_map]

theorem shuffled_getD {shuffle : List Nat} (dims : List Nat) {i : Nat} (h : i < shuffle.length) :
    (shuffled shuffle dims).getD i 0 = dims.getD (shuffle.getD i 0) 0 := by
  simp [shuffled, h]

/-- Two shuffles of `rank` axes that undo each other. -/
structure Undoes (rank : Nat) (shuffle inverse : List Nat) : Prop where
  length : shuffle.length = rank
  length' : inverse.length = rank
  bound : ∀ i, i < rank → shuffle.getD i 0 < rank
  bound' : ∀ i, i < rank → inverse.getD i 0 < rank
  back : ∀ i, i < rank → inverse.getD (shuffle.getD i 0) 0 = i
  forth : ∀ i, i < rank → shuffle.getD (inverse.getD i 0) 0 = i

theorem Undoes.symm {rank : Nat} {shuffle inverse : List Nat} (h : Undoes rank shuffle inverse) :
    Undoes rank inverse shuffle := ⟨h.length', h.length, h.bound', h.bound, h.forth, h.back⟩

theorem Undoes.shuffled_shuffled {shuffle inverse dims : List Nat}
    (h : Undoes dims.length shuffle inverse) : shuffled inverse (shuffled shuffle dims) = dims := by
  apply List.ext_getElem
  · rw [shuffled_length, h.length']
  · intro i hi hi'
    have bound : i < inverse.length := h.length' ▸ hi'
    have inside : inverse.getD i 0 < shuffle.length := h.length ▸ h.bound' i hi'
    have key : (shuffled inverse (shuffled shuffle dims)).getD i 0 = dims.getD i 0 := by
      rw [shuffled_getD _ bound, shuffled_getD _ inside, h.forth i hi']
    simpa [hi, hi'] using key

/-- The inverse of a shuffle undoes it. -/
theorem undoes_of_inverseShuffle? {shuffle inverse : List Nat}
    (h : inverseShuffle? shuffle = some inverse) : Undoes shuffle.length shuffle inverse := by
  obtain ⟨perm, rfl⟩ := inverseShuffle?_eq_some_iff.mp h
  have inside : ∀ i, i < shuffle.length → shuffle.idxOf i < shuffle.length := fun i hi =>
    List.idxOf_lt_length_of_mem (perm.mem_iff.mpr (List.mem_range.mpr hi))
  have entry : ∀ i, i < shuffle.length → shuffle.getD i 0 < shuffle.length := fun i hi => by
    have := perm.mem_iff.mp (List.getElem_mem hi)
    simpa [hi] using List.mem_range.mp this
  have listed : ∀ i, i < shuffle.length → ((List.range shuffle.length).map fun (axis : Nat) =>
      shuffle.idxOf axis).getD i 0 = shuffle.idxOf i := fun i hi => by simp [hi]
  refine ⟨rfl, by simp, entry, fun i hi => ?_, fun i hi => ?_, fun i hi => ?_⟩
  · rw [listed i hi]
    exact inside i hi
  · have nodup : shuffle.Nodup := perm.nodup_iff.mpr List.nodup_range
    rw [listed _ (entry i hi)]
    have : shuffle.getD i 0 = shuffle[i] := by simp [hi]
    rw [this, nodup.idxOf_getElem i hi]
  · rw [listed i hi]
    simp [inside i hi]

/-- Where the element at position `i` of a shuffled array stands in the array. -/
def shuffledPosition (dims shuffle : List Nat) (i : Nat) : Nat :=
  position (coordinates (shuffled shuffle dims) i) (shuffled shuffle (strides dims))

theorem permuteAxes_get {α : Type} [Scalar α] (a : DenseArray α) (shuffle : List Nat) {i : Nat}
    (h : i < volume (shuffled shuffle a.dims)) :
    (Kernel.permuteAxes a shuffle).get i = a.get (shuffledPosition a.dims shuffle i) :=
  get_ofFn _ _ h

section
variable {dims shuffle inverse : List Nat} (undoes : Undoes dims.length shuffle inverse)
include undoes

/-- The coordinates in the array of an element with the coordinates `coords` in the shuffled one. -/
theorem position_shuffled {coords : List Nat} (h : coords.length = dims.length) :
    position coords (shuffled shuffle (strides dims)) =
      position (shuffled inverse coords) (strides dims) := by
  have outer : coords.length = (shuffled shuffle (strides dims)).length := by
    rw [h, shuffled_length, undoes.length]
  have inner : (shuffled inverse coords).length = (strides dims).length := by
    rw [shuffled_length, undoes.length', strides_length]
  rw [position_eq_sum outer, position_eq_sum inner, shuffled_length, undoes.length', h]
  refine Finset.sum_nbij' (fun (i : Nat) => shuffle.getD i 0) (fun (i : Nat) => inverse.getD i 0)
    ?_ ?_ ?_ ?_ ?_
  · intro i hi
    exact Finset.mem_range.mpr (undoes.bound i (Finset.mem_range.mp hi))
  · intro i hi
    exact Finset.mem_range.mpr (undoes.bound' i (Finset.mem_range.mp hi))
  · intro i hi
    exact undoes.back i (Finset.mem_range.mp hi)
  · intro i hi
    exact undoes.forth i (Finset.mem_range.mp hi)
  · intro i hi
    have bound := Finset.mem_range.mp hi
    have first : i < shuffle.length := undoes.length ▸ bound
    have second : shuffle.getD i 0 < inverse.length := undoes.length' ▸ undoes.bound i bound
    rw [shuffled_getD _ first, shuffled_getD _ second, undoes.back i bound]

theorem within_shuffled {coords : List Nat} (h : Within coords (shuffled shuffle dims)) :
    Within (shuffled inverse coords) dims := by
  obtain ⟨-, bound⟩ := within_iff.mp h
  refine within_iff.mpr ⟨by rw [shuffled_length, undoes.length'], fun i hi => ?_⟩
  have first : i < inverse.length := undoes.length' ▸ hi
  have second : inverse.getD i 0 < shuffle.length := undoes.length ▸ undoes.bound' i hi
  have small := bound (inverse.getD i 0) (by rw [shuffled_length]; exact second)
  rwa [shuffled_getD _ second, undoes.forth i hi, ← shuffled_getD _ first] at small

theorem shuffledPosition_lt {i : Nat} (h : i < volume (shuffled shuffle dims)) :
    shuffledPosition dims shuffle i < volume dims := by
  have within := coordinates_within h
  have length : (coordinates (shuffled shuffle dims) i).length = dims.length := by
    rw [within.length_eq, shuffled_length, undoes.length]
  rw [shuffledPosition, position_shuffled undoes length]
  exact position_lt (within_shuffled undoes within)

theorem Undoes.swap : Undoes (shuffled shuffle dims).length inverse shuffle := by
  rw [shuffled_length, undoes.length]
  exact undoes.symm

theorem shuffledPosition_shuffledPosition {i : Nat} (h : i < volume (shuffled shuffle dims)) :
    shuffledPosition (shuffled shuffle dims) inverse (shuffledPosition dims shuffle i) = i := by
  have within := coordinates_within h
  have length : (coordinates (shuffled shuffle dims) i).length = dims.length := by
    rw [within.length_eq, shuffled_length, undoes.length]
  have back : shuffled shuffle (shuffled inverse
      (coordinates (shuffled shuffle dims) i)) =
        coordinates (shuffled shuffle dims) i := by
    apply Undoes.shuffled_shuffled
    rw [length]
    exact undoes.symm
  have length' : (shuffled inverse
      (coordinates (shuffled shuffle dims) i)).length =
        (shuffled shuffle dims).length := by
    rw [shuffled_length, shuffled_length, undoes.length, undoes.length']
  have here : shuffledPosition dims shuffle i =
      position (shuffled inverse (coordinates (shuffled shuffle dims) i))
        (strides dims) := by
    rw [shuffledPosition, position_shuffled undoes length]
  rw [here, shuffledPosition, undoes.shuffled_shuffled,
    coordinates_position (within_shuffled undoes within),
    position_shuffled undoes.swap length', back, position_coordinates h]

end

theorem sum_shuffled {α : Type} [RingScalar α] {dims shuffle inverse : List Nat}
    (undoes : Undoes dims.length shuffle inverse) (f h : Nat → α) :
    ∑ i ∈ Finset.range (volume (shuffled shuffle dims)),
        f i * h (shuffledPosition dims shuffle i) =
      ∑ i ∈ Finset.range (volume dims),
        f (shuffledPosition (shuffled shuffle dims) inverse i) * h i := by
  have back : volume (shuffled inverse (shuffled shuffle dims)) = volume dims := by
    rw [undoes.shuffled_shuffled]
  refine Finset.sum_nbij' (shuffledPosition dims shuffle)
    (shuffledPosition (shuffled shuffle dims) inverse) ?_ ?_ ?_ ?_ ?_
  · intro i hi
    exact Finset.mem_range.mpr (shuffledPosition_lt undoes (Finset.mem_range.mp hi))
  · intro i hi
    refine Finset.mem_range.mpr (shuffledPosition_lt undoes.swap ?_)
    rw [back]
    exact Finset.mem_range.mp hi
  · intro i hi
    exact shuffledPosition_shuffledPosition undoes (Finset.mem_range.mp hi)
  · intro i hi
    have other := shuffledPosition_shuffledPosition (i := i) undoes.swap
      (by rw [back]; exact Finset.mem_range.mp hi)
    rwa [undoes.shuffled_shuffled] at other
  · intro i hi
    rw [shuffledPosition_shuffledPosition undoes (Finset.mem_range.mp hi)]

end NeuralGraph
