import Mathlib.Algebra.CharZero.Infinite
import Mathlib.Algebra.Polynomial.Derivative
import Mathlib.Algebra.Polynomial.Roots
import Mathlib.Tactic.FieldSimp
import Mathlib.Tactic.LinearCombination

/-!
# Formal derivatives

Without limits, over any field: a function that a quotient of polynomials agrees with wherever the
denominator is not zero has there the derivative that the quotient rule gives.  In characteristic
zero it does not depend on the quotient.
-/

namespace NeuralGraph
set_option autoImplicit false

open Polynomial (eval derivative)
variable {α : Type} [Field α] {f g : α → α} {t d e : α}

/-- At `t` the function is a quotient of polynomials, and `d` is its derivative by the quotient
rule. -/
def HasFormalDerivative (f : α → α) (t d : α) : Prop :=
  ∃ num den : Polynomial α, eval t den ≠ 0 ∧ (∀ s, eval s den ≠ 0 → f s = eval s num / eval s den) ∧
    d = (eval t (derivative num) * eval t den - eval t num * eval t (derivative den)) /
      eval t den ^ 2

theorem eval_mul_ne_zero {p q : Polynomial α} :
    eval t (p * q) ≠ 0 ↔ eval t p ≠ 0 ∧ eval t q ≠ 0 := by
  rw [Polynomial.eval_mul, mul_ne_zero_iff]

namespace HasFormalDerivative

theorem of_eq (h : HasFormalDerivative f t d) (same : d = e) : HasFormalDerivative f t e := same ▸ h

theorem congr (h : HasFormalDerivative f t d) (same : ∀ s, g s = f s) :
    HasFormalDerivative g t d := by
  obtain ⟨num, den, nonzero, quotient, slope⟩ := h
  exact ⟨num, den, nonzero, fun s hs => (same s).trans (quotient s hs), slope⟩

theorem const (a : α) : HasFormalDerivative (fun _ => a) t 0 := by
  refine ⟨.C a, 1, ?_, fun s _ => ?_, ?_⟩
  · rw [Polynomial.eval_one]
    exact one_ne_zero
  · rw [Polynomial.eval_C, Polynomial.eval_one, div_one]
  · simp

theorem self : HasFormalDerivative (fun s => s) t 1 := by
  refine ⟨.X, 1, ?_, fun s _ => ?_, ?_⟩
  · rw [Polynomial.eval_one]
    exact one_ne_zero
  · rw [Polynomial.eval_X, Polynomial.eval_one, div_one]
  · simp

theorem add (hf : HasFormalDerivative f t d) (hg : HasFormalDerivative g t e) :
    HasFormalDerivative (fun s => f s + g s) t (d + e) := by
  obtain ⟨n, m, hm, hf, rfl⟩ := hf
  obtain ⟨p, q, hq, hg, rfl⟩ := hg
  refine ⟨n * q + p * m, m * q, eval_mul_ne_zero.mpr ⟨hm, hq⟩, fun s nonzero => ?_, ?_⟩
  · obtain ⟨hm, hq⟩ := eval_mul_ne_zero.mp nonzero
    simp only [hf s hm, hg s hq, Polynomial.eval_add, Polynomial.eval_mul]
    field_simp
  · simp only [Polynomial.derivative_add, Polynomial.derivative_mul, Polynomial.eval_add,
      Polynomial.eval_mul]
    field_simp
    ring

theorem mul (hf : HasFormalDerivative f t d) (hg : HasFormalDerivative g t e) :
    HasFormalDerivative (fun s => f s * g s) t (d * g t + f t * e) := by
  obtain ⟨n, m, hm, hf, rfl⟩ := hf
  obtain ⟨p, q, hq, hg, rfl⟩ := hg
  refine ⟨n * p, m * q, eval_mul_ne_zero.mpr ⟨hm, hq⟩, fun s nonzero => ?_, ?_⟩
  · obtain ⟨hm, hq⟩ := eval_mul_ne_zero.mp nonzero
    simp only [hf s hm, hg s hq, Polynomial.eval_mul]
    field_simp
  · rw [hf t hm, hg t hq]
    simp only [Polynomial.derivative_mul, Polynomial.eval_add, Polynomial.eval_mul]
    field_simp
    ring

theorem sum {ι : Type} {s : Finset ι} {fs : ι → α → α} {ds : ι → α}
    (h : ∀ i ∈ s, HasFormalDerivative (fs i) t (ds i)) :
    HasFormalDerivative (fun v => ∑ i ∈ s, fs i v) t (∑ i ∈ s, ds i) := by
  induction s using Finset.cons_induction with
  | empty =>
    simp only [Finset.sum_empty]
    exact const 0
  | cons i s fresh ih =>
    simp only [Finset.sum_cons]
    exact (h i (Finset.mem_cons_self i s)).add
      (ih fun j hj => h j (Finset.mem_cons_of_mem hj))

/-- It does not matter what the reciprocal of zero is. -/
theorem reciprocal_pow {r : α → α} (b : Nat) (hf : HasFormalDerivative f t d) (nonzero : f t ≠ 0)
    (hr : ∀ s, f s ≠ 0 → r s = 1 / f s ^ b) :
    HasFormalDerivative r t (-(b * d / f t ^ (b + 1))) := by
  obtain ⟨n, m, hm, hf, rfl⟩ := hf
  have hn : eval t n ≠ 0 := fun zero => nonzero (by rw [hf t hm, zero, zero_div])
  -- The factor `n * m` leaves out the zeros of `f`, also if `b` is zero.
  refine ⟨m ^ b * (n * m), n ^ b * (n * m), ?_, fun s nonzero => ?_, ?_⟩
  · refine eval_mul_ne_zero.mpr ⟨?_, eval_mul_ne_zero.mpr ⟨hn, hm⟩⟩
    rw [Polynomial.eval_pow]
    exact pow_ne_zero b hn
  · obtain ⟨hn, hm⟩ := eval_mul_ne_zero.mp (eval_mul_ne_zero.mp nonzero).2
    have value := hf s hm
    rw [hr s (by rw [value]; exact div_ne_zero hn hm), value]
    simp only [Polynomial.eval_mul, Polynomial.eval_pow, div_pow]
    field_simp
  · rw [hf t hm]
    cases b with
    | zero =>
      simp only [pow_zero, one_mul, Nat.cast_zero, zero_mul, zero_div, neg_zero]
      ring
    | succ b =>
      simp only [Polynomial.derivative_mul, Polynomial.derivative_pow_succ, Polynomial.eval_mul,
        Polynomial.eval_add, Polynomial.eval_pow, Polynomial.eval_C, div_pow]
      field_simp
      push_cast
      ring

variable [CharZero α]

/-- Two quotients that agree wherever both can be formed are the same fraction, since there are
infinitely many such places. -/
theorem unique (hd : HasFormalDerivative f t d) (he : HasFormalDerivative f t e) : d = e := by
  obtain ⟨n, m, hm, hf, rfl⟩ := hd
  obtain ⟨p, q, hq, hf', rfl⟩ := he
  have everywhere : (n * q - p * m) * (m * q) = 0 := by
    refine Polynomial.funext fun s => ?_
    simp only [Polynomial.eval_mul, Polynomial.eval_sub, Polynomial.eval_zero]
    by_cases hm : eval s m = 0
    · rw [hm, zero_mul, mul_zero]
    · by_cases hq : eval s q = 0
      · rw [hq, mul_zero (eval s m), mul_zero]
      · rw [(div_eq_div_iff hm hq).mp ((hf s hm).symm.trans (hf' s hq)), sub_self, zero_mul]
  have nonzero : m * q ≠ 0 := fun zero => mul_ne_zero hm hq (by
    rw [← Polynomial.eval_mul, zero, Polynomial.eval_zero])
  have same : n * q = p * m := sub_eq_zero.mp ((mul_eq_zero.mp everywhere).resolve_right nonzero)
  have value := congrArg (eval t) same
  have slope := congrArg (fun (r : Polynomial α) => eval t (derivative r)) same
  simp only [Polynomial.derivative_mul, Polynomial.eval_add, Polynomial.eval_mul] at value slope
  rw [div_eq_div_iff (pow_ne_zero 2 hm) (pow_ne_zero 2 hq)]
  linear_combination (eval t m * eval t q) * slope -
    (eval t (derivative m) * eval t q + eval t (derivative q) * eval t m) * value

theorem iff_eq (hd : HasFormalDerivative f t d) : HasFormalDerivative f t e ↔ e = d :=
  ⟨fun he => he.unique hd, fun same => same ▸ hd⟩

end HasFormalDerivative
end NeuralGraph
