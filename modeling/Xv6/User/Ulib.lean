import Mathlib.Data.Int.Notation
import Mathlib.Data.List.Basic

/-!
# Ulib — the string functions of `ulib.c`

A `char*` that only moves forward is the list of the bytes from it to the end of the object it points into, and a
read at the end of the list is a read outside the object.  A string `s` in an object is `s ++ 0 :: r` with no NUL in
`s`; what is behind the terminator, `r`, is never looked at.
-/

namespace Xv6.Ulib

/-- Why the run of a program stops to have a meaning. -/
inductive Fault
  /-- Memory outside an object is read or written. -/
  | outside
  deriving DecidableEq

def strlen : List UInt8 → Except Fault ℕ
  | [] => .error .outside
  | c :: s =>
    if c = 0 then .ok 0
    else do
      let n ← strlen s
      return n + 1

/-- The offset of the character, nothing for the null pointer. -/
def strchr : List UInt8 → UInt8 → Except Fault (Option ℕ)
  | [], _ => .error .outside
  | a :: s, c =>
    if a = 0 then .ok none
    else if a = c then .ok (some 0)
    else do
      let r ← strchr s c
      return r.map (· + 1)

def strcmp : List UInt8 → List UInt8 → Except Fault ℤ
  | a :: p, b :: q =>
    if a ≠ 0 ∧ a = b then strcmp p q
    else .ok (a.toNat - b.toNat)
  | _, _ => .error .outside

/-- What the object of `s` holds from `s` on after the copy. -/
def strcpy : List UInt8 → List UInt8 → Except Fault (List UInt8)
  | _ :: s, c :: t =>
    if c = 0 then .ok (c :: s)
    else do
      let s ← strcpy s t
      return c :: s
  | _, _ => .error .outside

@[simp] theorem ok_bind {α β : Type} (x : α) (f : α → Except Fault β) : (Except.ok x >>= f) = f x :=
  rfl

@[simp] theorem pure_eq_ok {α : Type} (x : α) : (pure x : Except Fault α) = .ok x := rfl

@[simp] theorem error_bind {α β : Type} (e : Fault) (f : α → Except Fault β) : (Except.error e >>= f) = .error e :=
  rfl

/-! ## What they do with strings -/

def cstr (s : List UInt8) : List UInt8 :=
  s ++ [0]

variable {s t r u : List UInt8}

theorem strlen_eq (hs : 0 ∉ s) : strlen (s ++ 0 :: r) = .ok s.length := by
  induction s with
  | nil => rfl
  | cons c s ih =>
    rw [List.mem_cons, not_or] at hs
    rw [List.cons_append, strlen, if_neg (Ne.symm hs.1), ih hs.2]
    rfl

theorem strlen_cstr (hs : 0 ∉ s) : strlen (cstr s) = .ok s.length := strlen_eq hs

theorem strchr_of_notMem {c : UInt8} (hs : 0 ∉ s) (hc : c ∉ s) : strchr (s ++ 0 :: r) c = .ok none := by
  induction s with
  | nil => rfl
  | cons a s ih =>
    rw [List.mem_cons, not_or] at hs hc
    rw [List.cons_append, strchr, if_neg (Ne.symm hs.1), if_neg (Ne.symm hc.1), ih hs.2 hc.2]
    rfl

theorem strchr_append {c : UInt8} (hc0 : c ≠ 0) (hs : 0 ∉ s) (hc : c ∉ s) :
    strchr (s ++ c :: r) c = .ok (some s.length) := by
  induction s with
  | nil => rw [List.nil_append, strchr, if_neg hc0, if_pos rfl, List.length_nil]
  | cons a s ih =>
    rw [List.mem_cons, not_or] at hs hc
    rw [List.cons_append, strchr, if_neg (Ne.symm hs.1), if_neg (Ne.symm hc.1), ih hs.2 hc.2]
    rfl

theorem toNat_sub_eq_zero_iff {a b : UInt8} : (a.toNat : ℤ) - b.toNat = 0 ↔ a = b := by
  constructor
  · intro h
    exact UInt8.toNat_inj.1 (by omega)
  · rintro rfl
    exact Int.sub_self _

/-- `strcmp` reads up to the first difference, which is at a terminator at the latest. -/
theorem strcmp_eq (hs : 0 ∉ s) (ht : 0 ∉ t) : ∃ v, strcmp (s ++ 0 :: r) (t ++ 0 :: u) = .ok v ∧ (v = 0 ↔ s = t) := by
  induction s generalizing t with
  | nil =>
    cases t with
    | nil => exact ⟨0, rfl, by simp⟩
    | cons b t =>
      rw [List.mem_cons, not_or] at ht
      refine ⟨_, rfl, ?_⟩
      rw [toNat_sub_eq_zero_iff]
      simp [ht.1]
  | cons a s ih =>
    rw [List.mem_cons, not_or] at hs
    cases t with
    | nil =>
      refine ⟨_, ?_, toNat_sub_eq_zero_iff.trans (b := a = 0) ?_⟩
      · rw [List.cons_append, List.nil_append, strcmp, if_neg fun h => hs.1 h.2.symm]
      · simp [Ne.symm hs.1]
    | cons b t =>
      rw [List.mem_cons, not_or] at ht
      by_cases hab : a = b
      · subst hab
        rcases ih hs.2 ht.2 with ⟨v, hv, hiff⟩
        refine ⟨v, ?_, by simp [hiff]⟩
        rw [List.cons_append, List.cons_append, strcmp, if_pos ⟨Ne.symm hs.1, rfl⟩, hv]
      · refine ⟨_, ?_, toNat_sub_eq_zero_iff.trans (b := a = b) ?_⟩
        · rw [List.cons_append, List.cons_append, strcmp, if_neg fun h => hab h.2]
        · simp [hab]

end Xv6.Ulib
