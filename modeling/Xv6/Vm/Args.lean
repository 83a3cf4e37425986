import Xv6.Vm.Clone

/-!
# Args — pointers and strings as system call arguments

`argptr`, `fetchstr` and `argstr` of `syscall.c`, over the `fetchint` and `argint` of `sys_clone`.  Their sums are taken
modulo `2^32`; below `KERNBASE` that makes no difference, because a size is not negative as an `int`.
-/

namespace Xv6.Vm
namespace Kernel

open Process (Slot)

/-- The pointer that `argptr` stores. -/
def argptr (k : Kernel) (cur : Slot) (n : UInt32) (size : Int32) : Option UInt32 :=
  match k.argint cur n with
  | none => none
  | some i =>
    if size < 0 ∨ (k.proc cur).sz ≤ i.toNat ∨ (k.proc cur).sz < (i + size.toUInt32).toNat then none else some i

/-- The loop of `fetchstr` from `s` on, with the number of bytes up to `ep`: where it finds the NUL. -/
def strLoop (byte : ℕ → UInt8) : ℕ → ℕ → Option ℕ
  | _, 0 => none
  | s, n + 1 => if byte s = 0 then some s else strLoop byte (s + 1) n

/-- The pointer that `fetchstr` stores and the length that it returns. -/
def fetchstr (k : Kernel) (cur : Slot) (addr : UInt32) : Option (UInt32 × ℕ) :=
  if (k.proc cur).sz ≤ addr.toNat then none
  else (strLoop (k.userByte cur) addr.toNat ((k.proc cur).sz - addr.toNat)).map fun s => (addr, s - addr.toNat)

def argstr (k : Kernel) (cur : Slot) (n : UInt32) : Option (UInt32 × ℕ) :=
  match k.argint cur n with
  | none => none
  | some addr => k.fetchstr cur addr

/-- The string of `len` bytes at `p`, with its NUL, is in the memory of the process. -/
structure IsString (k : Kernel) (cur : Slot) (p len : ℕ) : Prop where
  inside : p + len < (k.proc cur).sz
  nul : k.userByte cur (p + len) = 0
  other : ∀ i < len, k.userByte cur (p + i) ≠ 0

variable {k : Kernel} {cur : Slot}

theorem fetchint_inside (hsz : (k.proc cur).sz < kernbase) {addr w : UInt32} (h : k.fetchint cur addr = some w) :
    addr.toNat + 4 ≤ (k.proc cur).sz := by
  rw [fetchint] at h
  split at h
  case isTrue => cases h
  case isFalse hin =>
    rw [UInt32.toNat_add, show (4 : UInt32).toNat = 4 from rfl] at hin
    simp only [kernbase] at hsz
    omega

theorem argptr_inside (hsz : (k.proc cur).sz < kernbase) {n p : UInt32} {size : Int32}
    (h : k.argptr cur n size = some p) : 0 ≤ size.toInt ∧ p.toNat + size.toInt ≤ (k.proc cur).sz := by
  rw [argptr] at h
  split at h
  · cases h
  split at h
  case isTrue => cases h
  case isFalse i _ hin =>
    obtain rfl : i = p := by simpa using h
    have hint : size.toInt = if 2 * size.toUInt32.toNat < 2 ^ 32 then (size.toUInt32.toNat : ℤ)
        else (size.toUInt32.toNat : ℤ) - 2 ^ 32 := BitVec.toInt_eq_toNat_cond size.toBitVec
    rw [not_or, not_or, Int32.lt_iff_toInt_lt, UInt32.toNat_add, show (0 : Int32).toInt = 0 from rfl] at hin
    simp only [kernbase] at hsz
    have hlt := size.toUInt32.toNat_lt
    split at hint <;> omega

theorem strLoop_some {byte : ℕ → UInt8} {s n r : ℕ} (h : strLoop byte s n = some r) :
    s ≤ r ∧ r < s + n ∧ byte r = 0 ∧ ∀ i, s ≤ i → i < r → byte i ≠ 0 := by
  induction n generalizing s with
  | zero => cases h
  | succ n ih =>
    rw [strLoop] at h
    split at h
    case isTrue hs =>
      obtain rfl : s = r := by simpa using h
      exact ⟨Nat.le_refl s, by omega, hs, fun i hle hlt => absurd hlt (Nat.not_lt.mpr hle)⟩
    case isFalse hs =>
      obtain ⟨hle, hlt, hr, hother⟩ := ih h
      refine ⟨by omega, by omega, hr, fun i hi hir => ?_⟩
      rcases Nat.eq_or_lt_of_le hi with rfl | hi
      · exact hs
      · exact hother i hi hir

theorem fetchstr_isString {addr p : UInt32} {len : ℕ} (h : k.fetchstr cur addr = some (p, len)) :
    p = addr ∧ k.IsString cur p.toNat len := by
  rw [fetchstr] at h
  split at h
  · cases h
  · obtain ⟨r, hr, hp⟩ := Option.map_eq_some_iff.mp h
    obtain ⟨rfl, rfl⟩ := Prod.mk.inj hp
    obtain ⟨hle, hlt, hnul, hother⟩ := strLoop_some hr
    refine ⟨rfl, by omega, by rwa [Nat.add_sub_cancel' hle], fun i hi => hother _ (by omega) (by omega)⟩

/-- What the argument functions accept lies in the memory of the process, computed without wrap-around. -/
theorem args_inside (k : Kernel) (cur : Slot) (hsz : (k.proc cur).sz < kernbase) :
    (∀ addr w, k.fetchint cur addr = some w → addr.toNat + 4 ≤ (k.proc cur).sz) ∧
    (∀ n size p, k.argptr cur n size = some p → 0 ≤ size.toInt ∧ p.toNat + size.toInt ≤ (k.proc cur).sz) ∧
    (∀ addr p len, k.fetchstr cur addr = some (p, len) → p = addr ∧ k.IsString cur p.toNat len) ∧
    ∀ n p len, k.argstr cur n = some (p, len) → k.argint cur n = some p ∧ k.IsString cur p.toNat len := by
  refine ⟨fun _ _ => fetchint_inside hsz, fun _ _ _ => argptr_inside hsz, fun addr p len => fetchstr_isString, ?_⟩
  intro n p len h
  rw [argstr] at h
  split at h
  case h_1 => cases h
  case h_2 addr harg =>
    obtain ⟨rfl, hstr⟩ := fetchstr_isString h
    exact ⟨harg, hstr⟩

theorem args_inside_onePage : ∃ (k : Kernel) (cur : Slot), (k.proc cur).sz = pgsize ∧
    ∀ n p len, k.argstr cur n = some (p, len) → p.toNat + len < pgsize := by
  have hturns : turns 0 pgsize = 1 := by decide
  have hframes := nframes_eq
  obtain ⟨s, pd, -⟩ := exists_space .small pgsize 1 (by decide) (by rw [hturns, hframes]; decide)
  have hsz : pgsize < kernbase := by decide
  have hinside := args_inside (single s pd pgsize) ⟨0, nproc_pos⟩ hsz
  exact ⟨single s pd pgsize, ⟨0, nproc_pos⟩, rfl, fun n p len h => (hinside.2.2.2 n p len h).2.inside⟩

end Kernel
end Xv6.Vm
