import Mathlib.Algebra.Group.Nat.Defs
import Mathlib.Data.List.Basic
import Mathlib.Logic.Function.Basic
import Mathlib.Tactic.Basic

/-!
# Ring — a queue in an array, between two counters that wrap around

Elements are stored at `w % size` and taken from `r % size`, where `r` and `w` are 32-bit counters that are
only ever counted on, past `2 ^ 32` if need be.  As `size` divides `2 ^ 32`, the wrap-around does not show:
`contents` is a queue.
-/

namespace Xv6.Common

universe u

variable {α : Type u}

def between (r w : UInt32) : ℕ :=
  (w - r).toNat

/-- The elements between the two counters, oldest first. -/
def contents (size : ℕ) (data : ℕ → α) (r w : UInt32) : List α :=
  (List.range (between r w)).map fun k => data ((r.toNat + k) % size)

@[simp] theorem length_contents (size : ℕ) (data : ℕ → α) (r w : UInt32) :
    (contents size data r w).length = between r w := by
  simp [contents]

/-! ## Counters -/

theorem between_eq (r w : UInt32) : between r w = (2 ^ 32 - r.toNat + w.toNat) % 2 ^ 32 := UInt32.toNat_sub ..

@[simp] theorem between_self (r : UInt32) : between r r = 0 := by
  simp [between]

theorem between_eq_zero {r w : UInt32} : between r w = 0 ↔ r = w := by
  rw [← UInt32.toNat_inj, between_eq]
  have hr := r.toNat_lt
  have hw := w.toNat_lt
  omega

theorem between_eq_iff {r w n : UInt32} : w = r + n ↔ between r w = n.toNat := by
  unfold between
  rw [UInt32.toNat_inj]
  constructor
  · rintro rfl
    rw [UInt32.add_comm, UInt32.add_sub_cancel]
  · rintro rfl
    rw [UInt32.add_comm, UInt32.sub_add_cancel]

theorem between_succ_right {r w : UInt32} (h : between r w + 1 < 2 ^ 32) : between r (w + 1) = between r w + 1 := by
  rw [between_eq] at h
  rw [between_eq, between_eq, UInt32.toNat_add]
  have hone : (1 : UInt32).toNat = 1 := rfl
  have hr := r.toNat_lt
  have hw := w.toNat_lt
  omega

theorem between_succ_left {r w : UInt32} (h : r ≠ w) : between (r + 1) w + 1 = between r w := by
  have hne : between r w ≠ 0 := fun hzero => h (between_eq_zero.1 hzero)
  rw [between_eq] at hne
  rw [between_eq, between_eq, UInt32.toNat_add]
  have hone : (1 : UInt32).toNat = 1 := rfl
  have hr := r.toNat_lt
  have hw := w.toNat_lt
  omega

theorem between_pred_right {r w : UInt32} (h : r ≠ w) : between r (w - 1) + 1 = between r w := by
  have hne : between r w ≠ 0 := fun hzero => h (between_eq_zero.1 hzero)
  rw [between_eq] at hne
  rw [between_eq, between_eq, UInt32.toNat_sub]
  have hone : (1 : UInt32).toNat = 1 := rfl
  have hr := r.toNat_lt
  have hw := w.toNat_lt
  omega

theorem between_add {r m w : UInt32} (h : between r m ≤ between r w) : between r m + between m w = between r w := by
  rw [between_eq, between_eq] at h
  rw [between_eq, between_eq, between_eq]
  have hr := r.toNat_lt
  have hm := m.toNat_lt
  have hw := w.toNat_lt
  omega

/-! ## Contents -/

section Contents

variable {size : ℕ} {data : ℕ → α} {r w : UInt32} {a : α}

@[simp] theorem contents_self : contents size data r r = [] := by
  simp [contents]

variable (hdvd : size ∣ 2 ^ 32)

include hdvd

/-- Places do not notice that a counter has wrapped around. -/
theorem place_add (r n : UInt32) : (r + n).toNat % size = (r.toNat + n.toNat) % size := by
  rw [UInt32.toNat_add, Nat.mod_mod_of_dvd _ hdvd]

theorem place_between (r w : UInt32) : (r.toNat + between r w) % size = w.toNat % size := by
  have hsum : r + (w - r) = w := by
    rw [UInt32.add_comm, UInt32.sub_add_cancel]
  have hplace := place_add hdvd r (w - r)
  rw [hsum] at hplace
  exact hplace.symm

theorem contents_update {m : UInt32} (hm : between r m ≤ between r w) (hspace : between r w < size) :
    contents size (Function.update data (w.toNat % size) a) r m = contents size data r m := by
  refine List.map_congr_left fun k hk => ?_
  -- The other places are different, as there are fewer of them than `size`.
  have hk' : k < between r m := List.mem_range.1 hk
  refine Function.update_of_ne (fun heq => ?_) _ _
  rw [← place_between hdvd r w] at heq
  have hdiff := Nat.sub_mod_eq_zero_of_mod_eq heq.symm
  rw [Nat.add_sub_add_left, Nat.mod_eq_of_lt (by omega)] at hdiff
  omega

theorem contents_push (hspace : between r w < size) (hsize : size < 2 ^ 32) :
    contents size (Function.update data (w.toNat % size) a) r (w + 1) = contents size data r w ++ [a] := by
  have hlen : between r (w + 1) = between r w + 1 := between_succ_right (by omega)
  have hsame : contents size (Function.update data (w.toNat % size) a) r w = contents size data r w :=
    contents_update hdvd (Nat.le_refl _) hspace
  unfold contents at hsame ⊢
  rw [hlen, List.range_succ, List.map_append, hsame, List.map_singleton, place_between hdvd, Function.update_self]

theorem contents_pop (h : r ≠ w) :
    contents size data r w = data (r.toNat % size) :: contents size data (r + 1) w := by
  have hlen := between_succ_left h
  unfold contents
  rw [← hlen, List.range_succ_eq_map, List.map_cons, List.map_map, Nat.add_zero]
  refine congrArg (data (r.toNat % size) :: ·) (List.map_congr_left fun k _ => ?_)
  have hone : (1 : UInt32).toNat = 1 := rfl
  have hplace : ((r + 1).toNat + k) % size = (r.toNat + (k + 1)) % size := by
    rw [Nat.add_mod, place_add hdvd, hone, ← Nat.add_mod]
    congr 1
    omega
  rw [hplace]
  rfl

omit hdvd in
theorem contents_unpush (h : r ≠ w) : contents size data r (w - 1) = (contents size data r w).dropLast := by
  have hlen := between_pred_right h
  unfold contents
  rw [← hlen, List.range_succ, List.map_append, List.map_singleton, List.dropLast_concat]

theorem getLast_contents (h : r ≠ w) : (contents size data r w).getLast? = some (data ((w - 1).toNat % size)) := by
  have hlen := between_pred_right h
  unfold contents
  rw [← hlen, List.range_succ, List.map_append, List.map_singleton, List.getLast?_concat, place_between hdvd]

theorem contents_append {m : UInt32} (h : between r m ≤ between r w) :
    contents size data r w = contents size data r m ++ contents size data m w := by
  have hlen := between_add h
  unfold contents
  rw [← hlen, List.range_add, List.map_append, List.map_map]
  refine congrArg ((List.range (between r m)).map _ ++ ·) (List.map_congr_left fun k _ => ?_)
  have hplace : (r.toNat + (between r m + k)) % size = (m.toNat + k) % size := by
    rw [← Nat.add_assoc, Nat.add_mod, place_between hdvd, ← Nat.add_mod]
  simp only [Function.comp_apply, hplace]

end Contents

end Xv6.Common
