import Mathlib.Data.Nat.Notation
import Mathlib.Logic.Function.Basic

/-!
# Memmove — the two copies of `memmove`

The kernel's `memmove` of `string.c` copies downwards when the destination begins inside the source.  The one of
`ulib.c` always copies upwards; when its destination begins inside the source, it reads back what it has written,
and the first `dst - src` bytes of the source come again and again.
-/

namespace Xv6.Memmove

abbrev Memory := ℕ → UInt8

/-- The loop `*d++ = *s++`, with the number of its turns. -/
def copyUp (m : Memory) (dst src : ℕ) : ℕ → Memory
  | 0 => m
  | n + 1 => copyUp (Function.update m dst (m src)) (dst + 1) (src + 1) n

/-- The loop `*--d = *--s`, from the ends of the two ranges. -/
def copyDown (m : Memory) (dst src : ℕ) : ℕ → Memory
  | 0 => m
  | n + 1 => copyDown (Function.update m (dst + n) (m (src + n))) dst src n

def kernelMemmove (m : Memory) (dst src n : ℕ) : Memory :=
  if src < dst ∧ dst < src + n then copyDown m dst src n else copyUp m dst src n

def userMemmove (m : Memory) (dst src n : ℕ) : Memory :=
  copyUp m dst src n

/-- The memory after all bytes are moved at once, the `k`-th byte coming from `source k`. -/
def gathered (m : Memory) (dst n : ℕ) (source : ℕ → ℕ) : Memory := fun a =>
  if dst ≤ a ∧ a < dst + n then m (source (a - dst)) else m a

/-- What a `memmove` is to do. -/
def moved (m : Memory) (dst src n : ℕ) : Memory :=
  gathered m dst n (src + ·)

variable {m : Memory} {dst src : ℕ}

/-- The bytes below the ones already written are still those of the source. -/
theorem copyDown_eq (h : src ≤ dst) (n : ℕ) : copyDown m dst src n = moved m dst src n := by
  induction n generalizing m with
  | zero => exact funext fun a => (if_neg (by omega)).symm
  | succ n ih =>
    rw [copyDown, ih]
    funext a
    simp only [moved, gathered, Function.update_apply]
    grind

theorem copyUp_of_le (h : dst ≤ src) (n : ℕ) : copyUp m dst src n = moved m dst src n := by
  induction n generalizing m dst src with
  | zero => exact funext fun a => (if_neg (by omega)).symm
  | succ n ih =>
    rw [copyUp, ih (by omega)]
    funext a
    simp only [moved, gathered, Function.update_apply]
    grind

theorem copyUp_of_lt {d : ℕ} (hd : 0 < d) (n : ℕ) :
    copyUp m (src + d) src n = gathered m (src + d) n (src + · % d) := by
  induction n generalizing m src with
  | zero => exact funext fun a => (if_neg (by omega)).symm
  | succ n ih =>
    rw [copyUp, Nat.add_right_comm, ih]
    funext a
    simp only [gathered, Function.update_apply]
    by_cases ha : src + d ≤ a ∧ a < src + d + (n + 1)
    · obtain ⟨k, rfl⟩ := Nat.exists_eq_add_of_le ha.1
      rw [if_pos ha, Nat.add_sub_cancel_left]
      cases k with
      | zero => rw [if_neg (by omega), if_pos (by omega), Nat.zero_mod, Nat.add_zero]
      | succ k =>
        -- the byte behind the last one between the two is the first one again
        have hlt := Nat.mod_lt k hd
        rw [if_pos (by omega), show src + d + (k + 1) - (src + 1 + d) = k by omega, ← Nat.mod_add_mod k,
          Nat.add_assoc, Nat.add_comm 1]
        by_cases hk : k % d + 1 = d
        · rw [if_pos (by omega), hk, Nat.mod_self, Nat.add_zero]
        · rw [if_neg (by omega), Nat.mod_eq_of_lt (show k % d + 1 < d by omega)]
    · rw [if_neg ha, if_neg (by omega), if_neg (by omega)]

theorem kernelMemmove_eq (n : ℕ) : kernelMemmove m dst src n = moved m dst src n := by
  rw [kernelMemmove]
  split
  case isTrue h => exact copyDown_eq (by omega) n
  case isFalse h =>
    rcases Nat.lt_or_ge src dst with hlt | hle
    · obtain ⟨d, rfl⟩ := Nat.exists_eq_add_of_lt hlt
      rw [Nat.add_assoc, copyUp_of_lt d.succ_pos]
      funext a
      simp only [moved, gathered]
      split
      case isTrue ha => rw [Nat.mod_eq_of_lt (by omega)]
      case isFalse => rfl
    · exact copyUp_of_le hle n

theorem gathered_eq_iff {n : ℕ} {f g : ℕ → ℕ} :
    gathered m dst n f = gathered m dst n g ↔ ∀ k < n, m (f k) = m (g k) := by
  constructor
  · intro h k hk
    simpa [gathered, hk] using congrFun h (dst + k)
  intro h
  funext a
  simp only [gathered]
  split
  case isTrue ha => exact h _ (by omega)
  case isFalse => rfl

/-- The kernel's `memmove` is right for all ranges.  The user library's is right for a destination above the source
just if the source repeats its first `dst - src` bytes, as it trivially does when the ranges are disjoint. -/
theorem memmove_iff (m : Memory) (dst src n : ℕ) : kernelMemmove m dst src n = moved m dst src n ∧
      (userMemmove m dst src n = moved m dst src n ↔
        (src < dst → ∀ k < n, m (src + k % (dst - src)) = m (src + k))) := by
  refine ⟨kernelMemmove_eq n, ?_⟩
  rcases Nat.lt_or_ge src dst with hlt | hle
  · obtain ⟨d, rfl⟩ := Nat.exists_eq_add_of_lt hlt
    rw [userMemmove, Nat.add_assoc, copyUp_of_lt d.succ_pos, moved, gathered_eq_iff, Nat.add_sub_cancel_left,
      forall_prop_of_true (by omega)]
  · exact iff_of_true (copyUp_of_le hle n) fun h => absurd h (by omega)

/-- The bytes 1, 2, 3 moved up by one: the kernel leaves 1, 1, 2, the user library 1, 1, 1. -/
theorem userMemmove_overlap : ∃ m : Memory, kernelMemmove m 1 0 2 2 = 2 ∧ userMemmove m 1 0 2 2 = 1 :=
  ⟨fun a => UInt8.ofNat (a + 1), by decide, by decide⟩

end Xv6.Memmove
