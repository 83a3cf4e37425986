import Mathlib.Logic.Function.Basic
import Xv6.Common.Scan

/-!
# SlotMap — a finite map kept in an array of slots

A table has `n` slots, each free or holding a key and a value; slots are filled and emptied in any
order.  As long as no key is held twice the table is a finite map, filling a free slot with a new key
adds it to the map, and emptying a slot removes its key.
-/

namespace Xv6.Common

universe u v

variable {κ : Type u} {α : Type v} {t t' : ℕ → Option (κ × α)} {n j k : ℕ} {x : κ} {a : α}

/-- What slot `k` of the table says about the key `x`. -/
def slotValue [DecidableEq κ] (t : ℕ → Option (κ × α)) (x : κ) (k : ℕ) : Option α :=
  match t k with
  | some (y, a) => if y = x then some a else none
  | none => none

/-- The value of the first slot that holds the key. -/
def lookup [DecidableEq κ] (t : ℕ → Option (κ × α)) (n : ℕ) (x : κ) : Option α :=
  scan (slotValue t x) 0 n

def Distinct (t : ℕ → Option (κ × α)) (n : ℕ) : Prop :=
  ∀ j k x a b, j < n → k < n → t j = some (x, a) → t k = some (x, b) → j = k

theorem slotValue_eq_some [DecidableEq κ] : slotValue t x k = some a ↔ t k = some (x, a) := by
  unfold slotValue
  cases h : t k with
  | none => simp
  | some p =>
    rcases p with ⟨y, b⟩
    by_cases hy : y = x
    · simp [hy]
    · simp [hy]

theorem lookup_eq_some_iff [DecidableEq κ] (hd : Distinct t n) :
    lookup t n x = some a ↔ ∃ k, k < n ∧ t k = some (x, a) := by
  constructor
  · intro h
    rcases scan_eq_some h with ⟨k, _, hk, hval, _⟩
    exact ⟨k, by omega, slotValue_eq_some.1 hval⟩
  rintro ⟨k, hk, ht⟩
  rcases scan_isSome (i := 0) (n := n) (Nat.zero_le k) (by omega) (slotValue_eq_some.2 ht) with ⟨b, hb⟩
  rcases scan_eq_some hb with ⟨j, _, hj, hval, _⟩
  have htj := slotValue_eq_some.1 hval
  -- The slot found is the only one that holds the key.
  have hjk : j = k := hd j k x b a (by omega) hk htj ht
  subst hjk
  have hab : b = a := by
    rw [ht] at htj
    simpa using htj.symm
  rw [← hab]
  exact hb

theorem lookup_eq_none_iff [DecidableEq κ] : lookup t n x = none ↔ ∀ k a, k < n → t k ≠ some (x, a) := by
  rw [lookup, scan_eq_none_iff]
  constructor
  · intro h k a hk ht
    have hnone := h k (Nat.zero_le k) (by omega)
    rw [slotValue_eq_some.2 ht] at hnone
    cases hnone
  · intro h k _ hk
    cases hval : slotValue t x k with
    | none => rfl
    | some a => exact absurd (slotValue_eq_some.1 hval) (h k a (by omega))

theorem lookup_congr [DecidableEq κ] (h : ∀ k, k < n → t' k = t k) : lookup t' n = lookup t n := by
  funext x
  refine scan_congr fun k _ hk => ?_
  rw [slotValue, slotValue, h k (by omega)]

section Put

variable (hd : Distinct t n) (hk : k ≤ n) (hfree : k < n → t k = none) (hself : t' k = some (x, a))
  (hother : ∀ j, j < n → j ≠ k → t' j = t j)

include hk hfree hself hother

include hd

omit hfree in
theorem put_distinct (hnew : ∀ j b, j < n → t j ≠ some (x, b)) : Distinct t' (max n (k + 1)) := by
  intro i j y b c hi hj hti htj
  by_cases hik : i = k <;> by_cases hjk : j = k
  · exact hik.trans hjk.symm
  · have hjn : j < n := by omega
    have hxy : x = y := by
      rw [hik, hself] at hti
      exact congrArg Prod.fst (Option.some.inj hti)
    rw [hother j hjn hjk] at htj
    exact absurd (hxy ▸ htj) (hnew j c hjn)
  · have hin : i < n := by omega
    have hxy : x = y := by
      rw [hjk, hself] at htj
      exact congrArg Prod.fst (Option.some.inj htj)
    rw [hother i hin hik] at hti
    exact absurd (hxy ▸ hti) (hnew i b hin)
  · have hin : i < n := by omega
    have hjn : j < n := by omega
    rw [hother i hin hik] at hti
    rw [hother j hjn hjk] at htj
    exact hd i j y b c hin hjn hti htj

end Put

section Erase

variable (hd : Distinct t n) (hk : k < n) (hfull : t k = some (x, a)) (hself : t' k = none)
  (hother : ∀ j, j < n → j ≠ k → t' j = t j)

include hd hself hother

theorem erase_distinct : Distinct t' n := by
  intro i j y b c hi hj hti htj
  have hik : i ≠ k := by
    rintro rfl
    rw [hself] at hti
    cases hti
  have hjk : j ≠ k := by
    rintro rfl
    rw [hself] at htj
    cases htj
  rw [hother i hi hik] at hti
  rw [hother j hj hjk] at htj
  exact hd i j y b c hi hj hti htj

include hk hfull

end Erase

end Xv6.Common
