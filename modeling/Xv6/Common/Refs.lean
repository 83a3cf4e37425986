import Mathlib.Algebra.Order.BigOperators.Group.Finset
import Mathlib.Tactic.Abel

/-!
# Refs — counting references

The number of references to an object is a sum over those who may hold one.  An action of one holder changes one
summand.
-/

namespace Xv6.Common

universe u v w

variable {P : Type u} [Fintype P] {f g : P → ℕ} {p : P}

theorem sum_update_add {X : Type v} {M : Type w} [DecidableEq P] [AddCommMonoid M] (c : P → X → M) (t : P → X) (p : P)
    (x : X) : ∑ q, c q (Function.update t p x q) + c p (t p) = ∑ q, c q (t q) + c p x := by
  have hrest : ∑ q ∈ Finset.univ.erase p, c q (Function.update t p x q) = ∑ q ∈ Finset.univ.erase p, c q (t q) :=
    Finset.sum_congr rfl fun q hq => by rw [Function.update_of_ne (Finset.ne_of_mem_erase hq)]
  rw [← Finset.add_sum_erase _ _ (Finset.mem_univ p), ← Finset.add_sum_erase _ (fun q => c q (t q)) (Finset.mem_univ p),
    hrest, Function.update_self]
  abel

theorem sum_add_eq (h : ∀ q, q ≠ p → f q = g q) : ∑ q, f q + g p = ∑ q, g q + f p := by
  classical
  have hrest : ∑ q ∈ Finset.univ.erase p, f q = ∑ q ∈ Finset.univ.erase p, g q :=
    Finset.sum_congr rfl fun q hq => h q (Finset.ne_of_mem_erase hq)
  calc
    ∑ q, f q + g p = f p + ∑ q ∈ Finset.univ.erase p, f q + g p := by
      rw [Finset.add_sum_erase _ _ (Finset.mem_univ p)]
    _ = g p + ∑ q ∈ Finset.univ.erase p, g q + f p := by
      rw [hrest]
      omega
    _ = ∑ q, g q + f p := by
      rw [Finset.add_sum_erase _ _ (Finset.mem_univ p)]

theorem sum_eq_of_transfer [DecidableEq P] {q : P} (hpq : p ≠ q) (h : ∀ x, x ≠ p → x ≠ q → f x = g x)
    (hsum : f p + f q = g p + g q) : ∑ x, f x = ∑ x, g x := by
  have hfirst : ∑ x, f x + g p = ∑ x, Function.update f p (g p) x + f p := by
    simpa using sum_add_eq (f := f) (g := Function.update f p (g p)) (p := p)
      fun x hx => by rw [Function.update_of_ne hx]
  have hsecond : ∑ x, Function.update f p (g p) x + g q = ∑ x, g x + f q := by
    have hother : ∀ x, x ≠ q → Function.update f p (g p) x = g x := by
      intro x hx
      by_cases hxp : x = p
      · rw [hxp, Function.update_self]
      · rw [Function.update_of_ne hxp, h x hxp hx]
    simpa [Function.update_of_ne (Ne.symm hpq)] using sum_add_eq hother
  omega

theorem add_le_sum (f : P → ℕ) {p q : P} (hpq : p ≠ q) : f p + f q ≤ ∑ x, f x := by
  classical
  have hpair : ∑ x ∈ {p, q}, f x = f p + f q := Finset.sum_pair hpq
  rw [← hpair]
  exact Finset.sum_le_sum_of_subset (Finset.subset_univ _)

theorem le_sum (f : P → ℕ) (p : P) : f p ≤ ∑ q, f q :=
  Finset.single_le_sum (fun _ _ => Nat.zero_le _) (Finset.mem_univ p)

end Xv6.Common
