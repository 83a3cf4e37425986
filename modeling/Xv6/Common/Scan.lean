import Mathlib.Data.Nat.Notation
import Mathlib.Tactic.Basic

/-!
# Scan — the loop that stops at its first hit

`scan f i n` tries `f` at `i`, `i + 1`, …, `i + n - 1` and returns the first answer.
-/

namespace Xv6.Common

universe u

variable {α : Type u}

def scan (f : ℕ → Option α) : ℕ → ℕ → Option α
  | _, 0 => none
  | i, n + 1 =>
    match f i with
    | some a => some a
    | none => scan f (i + 1) n

variable {f : ℕ → Option α} {i n : ℕ}

theorem scan_eq_none_iff : scan f i n = none ↔ ∀ j, i ≤ j → j < i + n → f j = none := by
  induction n generalizing i with
  | zero =>
    refine ⟨fun _ j hij hj => ?_, fun _ => rfl⟩
    omega
  | succ n ih =>
    cases hf : f i with
    | some a =>
      have hne : scan f i (n + 1) ≠ none := by simp [scan, hf]
      refine ⟨fun h => absurd h hne, fun h => ?_⟩
      simp [h i (Nat.le_refl i) (by omega)] at hf
    | none =>
      have hscan : scan f i (n + 1) = scan f (i + 1) n := by simp [scan, hf]
      rw [hscan, ih]
      constructor
      · intro h j hij hj
        rcases Nat.eq_or_lt_of_le hij with rfl | hlt
        · exact hf
        · exact h j hlt (by omega)
      · intro h j hij hj
        exact h j (by omega) (by omega)

theorem scan_eq_some {a : α} (h : scan f i n = some a) :
    ∃ j, i ≤ j ∧ j < i + n ∧ f j = some a ∧ ∀ k, i ≤ k → k < j → f k = none := by
  induction n generalizing i with
  | zero => simp [scan] at h
  | succ n ih =>
    cases hf : f i with
    | some b =>
      have hab : b = a := by simpa [scan, hf] using h
      refine ⟨i, Nat.le_refl i, by omega, hab ▸ hf, fun k hik hk => ?_⟩
      omega
    | none =>
      have hrest : scan f (i + 1) n = some a := by simpa [scan, hf] using h
      rcases ih hrest with ⟨j, hij, hj, hfj, hbefore⟩
      refine ⟨j, by omega, by omega, hfj, fun k hik hk => ?_⟩
      rcases Nat.eq_or_lt_of_le hik with rfl | hlt
      · exact hf
      · exact hbefore k hlt hk

theorem scan_congr {g : ℕ → Option α} (h : ∀ j, i ≤ j → j < i + n → f j = g j) : scan f i n = scan g i n := by
  induction n generalizing i with
  | zero => rfl
  | succ n ih => rw [scan, scan, h i (Nat.le_refl i) (by omega), ih fun j hij hj => h j (by omega) (by omega)]

theorem scan_isSome {j : ℕ} {a : α} (hij : i ≤ j) (hj : j < i + n) (hf : f j = some a) :
    ∃ b, scan f i n = some b := by
  cases h : scan f i n with
  | some b => exact ⟨b, rfl⟩
  | none =>
    have hnone := scan_eq_none_iff.1 h j hij hj
    simp [hf] at hnone

end Xv6.Common
