import Mathlib.Data.List.GetD
import Mathlib.Data.List.Perm.Subperm
import NeuralGraph.Kernel.Axes

/-!
# Permutations of the axes

Whoever takes a shuffle walks along it with one slot for each axis, and refuses an axis that has no
slot or whose slot is used.  A shuffle as long as there are slots that passes lists each axis once.
-/

namespace NeuralGraph
set_option autoImplicit false

/-- No axis is listed twice, and the slots of all that are listed are blank. -/
structure Fresh {β : Type} (blank : β) (slots : List β) (shuffle : List Nat) : Prop where
  nodup : shuffle.Nodup
  blank : ∀ axis ∈ shuffle, slots[axis]? = some blank

section
variable {β : Type} {blank used : β} {slots : List β} {shuffle : List Nat} {axis rank : Nat}

theorem Fresh.nil : Fresh blank slots [] := ⟨List.nodup_nil, by simp⟩

/-- One step of the walk: the slot of the first axis is blank, and is used from then on. -/
theorem fresh_cons (differ : used ≠ blank) : Fresh blank slots (axis :: shuffle) ↔
    slots[axis]? = some blank ∧ Fresh blank (slots.set axis used) shuffle := by
  have inRange : ∀ {i : Nat}, slots[i]? = some blank → i < slots.length :=
    fun h => (List.getElem?_eq_some_iff.mp h).1
  constructor
  · rintro ⟨nodup, blanks⟩
    obtain ⟨fresh, nodup⟩ := List.nodup_cons.mp nodup
    refine ⟨blanks axis List.mem_cons_self, nodup, fun other listed => ?_⟩
    rw [List.getElem?_set_ne fun (same : axis = other) => fresh (same ▸ listed)]
    exact blanks other (List.mem_cons_of_mem axis listed)
  · rintro ⟨first, nodup, blanks⟩
    have fresh : axis ∉ shuffle := fun listed => by
      have marked := blanks axis listed
      rw [List.getElem?_set_self (inRange first), Option.some.injEq] at marked
      exact differ marked
    refine ⟨List.nodup_cons.mpr ⟨fresh, nodup⟩, fun other listed => ?_⟩
    rcases List.mem_cons.mp listed with rfl | listed
    · exact first
    · rw [← blanks other listed,
        List.getElem?_set_ne fun (same : axis = other) => fresh (same ▸ listed)]

/-- A shuffle that the slots suffice for. -/
theorem perm_range_iff : shuffle.length = rank ∧ Fresh blank (List.replicate rank blank) shuffle ↔
    shuffle.Perm (List.range rank) := by
  constructor
  · rintro ⟨length, nodup, blanks⟩
    have sub : shuffle.Subperm (List.range rank) := nodup.subperm fun axis listed => by
      obtain ⟨bound, -⟩ := List.getElem?_eq_some_iff.mp (blanks axis listed)
      rw [List.length_replicate] at bound
      exact List.mem_range.mpr bound
    exact sub.perm_of_length_le (Nat.le_of_eq (List.length_range.trans length.symm))
  · intro perm
    refine ⟨by rw [perm.length_eq, List.length_range], perm.nodup_iff.mpr List.nodup_range,
      fun axis listed => ?_⟩
    rw [List.getElem?_replicate, if_pos (List.mem_range.mp (perm.mem_iff.mp listed))]

end

namespace Kernel
variable {shuffle : List Nat} {seen : List Bool} {rank : Nat}

theorem eachFresh_iff : eachFresh seen shuffle = true ↔ Fresh false seen shuffle := by
  induction shuffle generalizing seen with
  | nil => exact iff_of_true rfl .nil
  | cons axis shuffle ih =>
    rw [eachFresh, fresh_cons (show true ≠ false by decide), ← ih, Bool.and_eq_true,
      Bool.and_eq_true, decide_eq_true_iff, Bool.not_eq_true', List.getElem?_eq_some_iff]
    refine and_congr_left fun _ => ⟨fun ⟨bound, unseen⟩ => ⟨bound, ?_⟩, fun ⟨bound, unseen⟩ =>
      ⟨bound, ?_⟩⟩
    · rwa [List.getD_eq_getElem _ _ bound] at unseen
    · rwa [List.getD_eq_getElem _ _ bound]

theorem markAxis_eq_some_iff {axis : Nat} {seen' : List Bool} :
    markAxis seen axis = some seen' ↔ seen[axis]? = some false ∧ seen.set axis true = seen' := by
  rw [markAxis]
  by_cases bound : axis < seen.length
  · rw [List.getD_eq_getElem _ _ bound, List.getElem?_eq_getElem bound, Option.some.injEq]
    cases seen[axis] <;> simp [bound]
  · have beyond : seen.length ≤ axis := Nat.le_of_not_lt bound
    simp [beyond]

theorem foldlM_markAxis_isSome :
    (shuffle.foldlM markAxis seen).isSome = true ↔ Fresh false seen shuffle := by
  induction shuffle generalizing seen with
  | nil => exact iff_of_true rfl .nil
  | cons axis shuffle ih =>
    rw [fresh_cons (show true ≠ false by decide), ← ih, List.foldlM_cons, Option.bind_eq_bind]
    cases marked : markAxis seen axis with
    | none =>
      refine iff_of_false (by simp) fun ⟨fresh, _⟩ => ?_
      rw [markAxis_eq_some_iff.mpr ⟨fresh, rfl⟩] at marked
      cases marked
    | some seen' =>
      obtain ⟨fresh, rfl⟩ := markAxis_eq_some_iff.mp marked
      rw [Option.bind_some, and_iff_right fresh]

/-- A permutation of the axes lists each of them once. -/
theorem isPermutation_iff : isPermutation rank shuffle = true ↔ shuffle.Perm (List.range rank) := by
  rw [isPermutation, Bool.and_eq_true, beq_iff_eq, eachFresh_iff, perm_range_iff]

section
variable {α : Type} [Scalar α] {a : DenseArray α}

theorem transpose_of_perm (perm : shuffle.Perm (List.range a.rank)) :
    transpose a shuffle = .ok (permuteAxes a shuffle) := by
  obtain ⟨length, fresh⟩ := perm_range_iff.mpr perm
  obtain ⟨seen, marked⟩ := Option.isSome_iff_exists.mp (foldlM_markAxis_isSome.mpr fresh)
  simp only [transpose, marked, length, ne_eq, not_true_eq_false, if_false]

theorem transpose_refuses (notPerm : ¬shuffle.Perm (List.range a.rank)) :
    transpose a shuffle = .error (.permutation shuffle a.dims) := by
  rw [transpose]
  split
  · rfl
  · next seen marked =>
    have fresh := foldlM_markAxis_isSome.mp (Option.isSome_iff_exists.mpr ⟨seen, marked⟩)
    exact if_pos fun length => notPerm (perm_range_iff.mp ⟨length, fresh⟩)

theorem transpose_eq_ok_iff {b : DenseArray α} : transpose a shuffle = .ok b ↔
    shuffle.Perm (List.range a.rank) ∧ permuteAxes a shuffle = b := by
  by_cases perm : shuffle.Perm (List.range a.rank)
  · rw [transpose_of_perm perm, Except.ok.injEq, and_iff_right perm]
  · rw [transpose_refuses perm]
    exact iff_of_false (by simp) fun h => perm h.1

end
end Kernel
end NeuralGraph
