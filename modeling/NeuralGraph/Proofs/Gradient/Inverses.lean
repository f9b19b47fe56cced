import NeuralGraph.Gradient.Rules
import NeuralGraph.Proofs.Kernel.Permutations

/-!
# Inverse shuffles

The slots of the inverse are filled with the places where the axes are listed.  They suffice for
exactly the permutations.
-/

namespace NeuralGraph
set_option autoImplicit false
variable {slots : List (Option Nat)} {shuffle : List Nat}

theorem fillSlot_eq_some_iff {axis i : Nat} {slots' : List (Option Nat)} :
    fillSlot slots (axis, i) = some slots' ↔
      slots[axis]? = some none ∧ slots.set axis (some i) = slots' := by
  rw [fillSlot]
  split
  · next blank => rw [Option.some.injEq, and_iff_right blank]
  · next used => exact iff_of_false (by simp) fun h => used h.1

/-- Where the walk ends, the slots of the axes that are listed have their places. -/
theorem foldlM_fillSlot (fresh : Fresh none slots shuffle) (k : Nat) :
    ∃ filled, (shuffle.zipIdx k).foldlM fillSlot slots = some filled ∧
      filled.length = slots.length ∧ ∀ axis : Nat, filled[axis]? =
        if axis ∈ shuffle then some (some (k + shuffle.idxOf axis)) else slots[axis]? := by
  induction shuffle generalizing slots k with
  | nil => exact ⟨slots, rfl, rfl, fun axis => (if_neg List.not_mem_nil).symm⟩
  | cons first shuffle ih =>
    have once : first ∉ shuffle := (List.nodup_cons.mp fresh.nodup).1
    obtain ⟨blank, rest⟩ := (fresh_cons (Option.some_ne_none k)).mp fresh
    obtain ⟨filled, walk, length, places⟩ := ih rest (k + 1)
    refine ⟨filled, ?_, length.trans List.length_set, fun axis => ?_⟩
    · rw [List.zipIdx_cons, List.foldlM_cons, fillSlot_eq_some_iff.mpr ⟨blank, rfl⟩]
      exact walk
    · rw [places axis]
      by_cases same : axis = first
      · subst same
        have bound := (List.getElem?_eq_some_iff.mp blank).1
        rw [if_neg once, if_pos List.mem_cons_self, List.idxOf_cons_self,
          List.getElem?_set_self bound]
        rfl
      · rw [List.idxOf_cons_ne shuffle (Ne.symm same), List.getElem?_set_ne (Ne.symm same),
          Nat.succ_eq_add_one, ← Nat.add_assoc, Nat.add_right_comm k]
        simp only [List.mem_cons, same, false_or]

theorem fresh_of_foldlM_fillSlot {k : Nat} {filled : List (Option Nat)}
    (h : (shuffle.zipIdx k).foldlM fillSlot slots = some filled) : Fresh none slots shuffle := by
  induction shuffle generalizing slots k with
  | nil => exact .nil
  | cons axis shuffle ih =>
    rw [List.zipIdx_cons, List.foldlM_cons, Option.bind_eq_bind, Option.bind_eq_some_iff] at h
    obtain ⟨slots', first, rest⟩ := h
    obtain ⟨blank, rfl⟩ := fillSlot_eq_some_iff.mp first
    exact (fresh_cons (Option.some_ne_none k)).mpr ⟨blank, ih rest⟩

theorem inverseShuffle?_of_perm (perm : shuffle.Perm (List.range shuffle.length)) :
    inverseShuffle? shuffle =
      some ((List.range shuffle.length).map fun (axis : Nat) => shuffle.idxOf axis) := by
  obtain ⟨filled, walk, length, places⟩ := foldlM_fillSlot (perm_range_iff.mpr perm).2 0
  rw [List.length_replicate] at length
  rw [inverseShuffle?, walk, Option.bind_eq_bind, Option.bind_some, Option.some.injEq]
  apply List.ext_getElem
  · rw [List.length_map, List.length_map, List.length_range, length]
  · intro axis hi hi'
    have listed : axis ∈ shuffle :=
      perm.mem_iff.mpr (by simpa using hi')
    have place := places axis
    rw [if_pos listed, List.getElem?_eq_getElem (by simpa using hi), Option.some.injEq] at place
    rw [List.getElem_map, List.getElem_map, List.getElem_range, place, Nat.zero_add]
    rfl

/-- Exactly the permutations have an inverse. -/
theorem inverseShuffle?_eq_some_iff {inverse : List Nat} : inverseShuffle? shuffle = some inverse ↔
    shuffle.Perm (List.range shuffle.length) ∧
      (List.range shuffle.length).map (fun (axis : Nat) => shuffle.idxOf axis) = inverse := by
  constructor
  · intro h
    obtain ⟨filled, walk, -⟩ := Option.bind_eq_some_iff.mp h
    have perm := perm_range_iff.mp ⟨rfl, fresh_of_foldlM_fillSlot walk⟩
    rw [inverseShuffle?_of_perm perm, Option.some.injEq] at h
    exact ⟨perm, h⟩
  · rintro ⟨perm, rfl⟩
    exact inverseShuffle?_of_perm perm

theorem inverseShuffle?_perm {inverse : List Nat} (h : inverseShuffle? shuffle = some inverse) :
    inverse.Perm (List.range shuffle.length) := by
  obtain ⟨perm, rfl⟩ := inverseShuffle?_eq_some_iff.mp h
  have nodup : shuffle.Nodup := perm.nodup_iff.mpr List.nodup_range
  have places : shuffle.map (fun (axis : Nat) => shuffle.idxOf axis) =
      List.range shuffle.length := by
    apply List.ext_getElem
    · rw [List.length_map, List.length_range]
    · intro i hi hi'
      rw [List.getElem_map, List.getElem_range, nodup.idxOf_getElem]
  have renamed := perm.symm.map fun (axis : Nat) => shuffle.idxOf axis
  rwa [places] at renamed

end NeuralGraph
