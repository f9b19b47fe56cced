import Mathlib
import NeuralGraph.Binary32.Scalar

/-!
# Equality of binary32

A number that is not a number equals nothing, itself included, and both zeros are equal; apart from
that only equal numbers are.  So equality is symmetric and transitive.
-/

namespace NeuralGraph.Binary32
set_option autoImplicit false

open Float.Model (UnpackedFloat)

theorem sign_compare_eq_iff (s t : UnpackedFloat.Sign) : compare s t = .eq ↔ s = t := by
  cases s <;> cases t <;> simp [compare]

theorem compare_eq_iff (a b : UnpackedFloat) : a.compare b = some .eq ↔
    a ≠ .notANumber ∧ (a = b ∨ (∃ s, a = .zero s) ∧ ∃ s, b = .zero s) := by
  cases a with
  | notANumber => simp [UnpackedFloat.compare]
  | infinity s =>
    cases b with
    | infinity t => simp [UnpackedFloat.compare, sign_compare_eq_iff]
    | _ => cases s <;> simp [UnpackedFloat.compare]
  | zero s =>
    cases b with
    | zero t => simp [UnpackedFloat.compare]
    | infinity t | finite t m e h => cases t <;> simp [UnpackedFloat.compare]
    | notANumber => simp [UnpackedFloat.compare]
  | finite s m e h =>
    cases b with
    | finite t k f h' =>
      cases s <;> cases t <;> simp [UnpackedFloat.compare, and_comm]
    | infinity t => cases s <;> cases t <;> simp [UnpackedFloat.compare]
    | zero t => cases s <;> simp [UnpackedFloat.compare]
    | notANumber => cases s <;> simp [UnpackedFloat.compare]

theorem beq_iff {a b : Float32} : (a == b) = true ↔
    a.toModel.unpack.compare b.toModel.unpack = some .eq := by
  show (a.toModel.unpack.compare b.toModel.unpack == some .eq) = true ↔ _
  rw [beq_iff_eq]

instance instPartialEquivBEq : PartialEquivBEq Float32 where
  symm h := by
    rw [beq_iff, compare_eq_iff] at h ⊢
    obtain ⟨number, same | ⟨⟨s, hs⟩, t, ht⟩⟩ := h
    · exact ⟨same ▸ number, .inl same.symm⟩
    · exact ⟨by rw [ht]; nofun, .inr ⟨⟨t, ht⟩, s, hs⟩⟩
  trans h h' := by
    rw [beq_iff, compare_eq_iff] at h h' ⊢
    obtain ⟨number, same | ⟨zero, zero'⟩⟩ := h
    · rw [same]
      exact h'
    · obtain ⟨-, same | ⟨-, zero''⟩⟩ := h'
      · exact ⟨number, .inr ⟨zero, same ▸ zero'⟩⟩
      · exact ⟨number, .inr ⟨zero, zero''⟩⟩

end NeuralGraph.Binary32
