import Mathlib.Data.List.Basic

/-!
# EditScript — commands that turn one list into another

The commands of `diff`: each names a place in the first list and the place in the second that it leads to, counted
from one, and carries the items that it takes away or puts in.  A script is replayed from left to right: the items
before the place of a command are copied, and a command whose places do not fit what has been read and written so
far fails.
-/

namespace Xv6.Common

/-- The commands `NaM`, `NdM` and `NcM` for single items. -/
inductive Edit (α : Type*)
  /-- Item `m` of the second list comes after item `n` of the first. -/
  | add (n m : ℕ) (x : α)
  /-- Item `n` of the first list is left out, and would have come after item `m` of the second. -/
  | delete (n m : ℕ) (x : α)
  /-- Item `n` of the first list becomes item `m` of the second. -/
  | change (n m : ℕ) (x y : α)
  deriving DecidableEq

/-- How many items of the first list have been used, and what has been put out. -/
structure Cursor (α : Type*) where
  used : ℕ
  out : List α

variable {α : Type*}

def Cursor.copyTo (l : List α) (c : Cursor α) (n : ℕ) : Option (Cursor α) :=
  if c.used ≤ n ∧ n ≤ l.length then some ⟨n, c.out ++ (l.take n).drop c.used⟩ else none

namespace Edit

variable [DecidableEq α]

def apply (l : List α) (c : Cursor α) : Edit α → Option (Cursor α)
  | .add n m x => do
      let c ← c.copyTo l n
      if c.out.length + 1 = m then some ⟨n, c.out ++ [x]⟩ else none
  | .delete n m x => do
      let c ← c.copyTo l (n - 1)
      if 0 < n ∧ l[n - 1]? = some x ∧ c.out.length = m then some ⟨n, c.out⟩ else none
  | .change n m x y => do
      let c ← c.copyTo l (n - 1)
      if 0 < n ∧ l[n - 1]? = some x ∧ c.out.length + 1 = m then some ⟨n, c.out ++ [y]⟩ else none

def replayFrom (l : List α) : Cursor α → List (Edit α) → Option (List α)
  | c, [] => (c.copyTo l l.length).map Cursor.out
  | c, e :: es => do
      let c ← e.apply l c
      replayFrom l c es

/-- The list that the script makes of `l`. -/
def replay (l : List α) (es : List (Edit α)) : Option (List α) :=
  replayFrom l ⟨0, []⟩ es

end Edit

/-! ## Rules -/

/-- Once everything before item `i` is copied, `out` has been put out. -/
structure Cursor.At (l : List α) (c : Cursor α) (i : ℕ) (out : List α) : Prop where
  used_le : c.used ≤ i
  le_length : i ≤ l.length
  out_eq : c.out ++ (l.take i).drop c.used = out

namespace Cursor.At

variable {l out : List α} {c : Cursor α} {i : ℕ} {x : α}

theorem self (hi : i ≤ l.length) : Cursor.At l ⟨i, out⟩ i out where
  used_le := Nat.le_refl i
  le_length := hi
  out_eq := by
    have hnil : (l.take i).drop i = [] := List.drop_eq_nil_of_le (List.length_take_le i l)
    rw [hnil, List.append_nil]

theorem copyTo (h : c.At l i out) : c.copyTo l i = some ⟨i, out⟩ := by
  rw [Cursor.copyTo, if_pos ⟨h.used_le, h.le_length⟩, h.out_eq]

theorem keep (h : c.At l i out) (hx : l[i]? = some x) : c.At l (i + 1) (out ++ [x]) where
  used_le := Nat.le_succ_of_le h.used_le
  le_length := (List.getElem?_eq_some_iff.1 hx).1
  out_eq := by
    have hlen : c.used ≤ (l.take i).length := by
      rw [List.length_take, Nat.min_eq_left h.le_length]
      exact h.used_le
    rw [List.take_add_one, hx, Option.toList_some, List.drop_append_of_le_length hlen, ← List.append_assoc, h.out_eq]

end Cursor.At

namespace Edit

variable [DecidableEq α] {l out : List α} {c : Cursor α} {i m : ℕ} {x y : α} {es : List (Edit α)}

theorem replayFrom_nil (h : c.At l l.length out) : replayFrom l c [] = some out := by
  rw [replayFrom, h.copyTo, Option.map_some]

theorem replayFrom_add (h : c.At l i out) (hm : m = out.length + 1) :
    replayFrom l c (.add i m x :: es) = replayFrom l ⟨i, out ++ [x]⟩ es := by
  rw [replayFrom, apply, h.copyTo]
  simp [hm]

theorem replayFrom_delete (h : c.At l i out) (hx : l[i]? = some x) (hm : m = out.length) :
    replayFrom l c (.delete (i + 1) m x :: es) = replayFrom l ⟨i + 1, out⟩ es := by
  rw [replayFrom, apply, Nat.add_sub_cancel, h.copyTo]
  simp [hm, hx]

theorem replayFrom_change (h : c.At l i out) (hx : l[i]? = some x) (hm : m = out.length + 1) :
    replayFrom l c (.change (i + 1) m x y :: es) = replayFrom l ⟨i + 1, out ++ [y]⟩ es := by
  rw [replayFrom, apply, Nat.add_sub_cancel, h.copyTo]
  simp [hm, hx]

end Edit

end Xv6.Common
