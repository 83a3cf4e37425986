import Mathlib.Algebra.Group.Nat.Defs
import Mathlib.Data.List.Basic
import Mathlib.Logic.Function.Basic
import Xv6.Param

/-!
# Name — C strings of bounded length and directory entries

Names are compared with `strncmp` and stored with `strncpy`, both for `DIRSIZ` bytes; a stored name of
`DIRSIZ` bytes has no terminator.  `cstring` is the string that such an array stands for.  A `char*` is
the function that gives the byte at each offset from it.
-/

namespace Xv6.Fs

/-! ## `strncmp` and `strncpy` -/

/-- The string at `p`, of which at most `n` bytes are looked at. -/
def cstring : ℕ → (ℕ → UInt8) → List UInt8
  | 0, _ => []
  | n + 1, p => if p 0 = 0 then [] else p 0 :: cstring n (fun k => p (k + 1))

def strncmp : ℕ → (ℕ → UInt8) → (ℕ → UInt8) → ℤ
  | 0, _, _ => 0
  | n + 1, p, q =>
    if p 0 ≠ 0 ∧ p 0 = q 0 then strncmp n (fun k => p (k + 1)) (fun k => q (k + 1))
    else (p 0).toNat - (q 0).toNat

/-- The `n` bytes that `strncpy(s, t, n)` stores. -/
def strncpy : ℕ → (ℕ → UInt8) → List UInt8
  | 0, _ => []
  | n + 1, t => if t 0 = 0 then 0 :: List.replicate n 0 else t 0 :: strncpy n (fun k => t (k + 1))

def chars (l : List UInt8) (k : ℕ) : UInt8 :=
  l.getD k 0

theorem chars_cons_succ (a : UInt8) (l : List UInt8) : (fun k => chars (a :: l) (k + 1)) = chars l := by
  funext k
  simp [chars]

theorem strncmp_eq_zero_iff (n : ℕ) (p q : ℕ → UInt8) : strncmp n p q = 0 ↔ cstring n p = cstring n q := by
  induction n generalizing p q with
  | zero => simp [strncmp, cstring]
  | succ n ih =>
    by_cases hp : p 0 = 0
    · by_cases hq : q 0 = 0
      · simp [strncmp, cstring, hp, hq]
      have hpos : (q 0).toNat ≠ 0 := fun h => hq (UInt8.toNat_inj.1 h)
      have hne : strncmp (n + 1) p q ≠ 0 := by
        simp only [strncmp, hp, ne_eq, not_true_eq_false, false_and, if_false]
        simp only [UInt8.toNat_zero]
        omega
      simp [hne, cstring, hp, hq]
    by_cases hpq : p 0 = q 0
    · have hq : q 0 ≠ 0 := hpq ▸ hp
      have hstep : strncmp (n + 1) p q = strncmp n (fun k => p (k + 1)) (fun k => q (k + 1)) := by
        simp [strncmp, hpq, hq]
      rw [hstep, ih]
      simp [cstring, hpq, hq]
    have hne : (p 0).toNat ≠ (q 0).toNat := fun h => hpq (UInt8.toNat_inj.1 h)
    have hcmp : strncmp (n + 1) p q ≠ 0 := by
      simp only [strncmp, hp, hpq, ne_eq, not_false_eq_true, and_false, if_false]
      omega
    have hstr : cstring (n + 1) p ≠ cstring (n + 1) q := by
      by_cases hq : q 0 = 0
      · simp [cstring, hp, hq]
      · simp [cstring, hp, hq, hpq]
    simp [hcmp, hstr]

theorem cstring_strncpy (n : ℕ) (t : ℕ → UInt8) : cstring n (chars (strncpy n t)) = cstring n t := by
  induction n generalizing t with
  | zero => rfl
  | succ n ih =>
    by_cases ht : t 0 = 0
    · simp [strncpy, cstring, chars, ht]
    · have hcopy : strncpy (n + 1) t = t 0 :: strncpy n (fun k => t (k + 1)) := by simp [strncpy, ht]
      have hhead : chars (t 0 :: strncpy n (fun k => t (k + 1))) 0 = t 0 := by simp [chars]
      rw [hcopy]
      simp only [cstring, hhead, ht, if_false, chars_cons_succ, ih]

/-- The string of a name without NUL bytes is the name, cut off after `n` bytes. -/
theorem cstring_chars (n : ℕ) (l : List UInt8) (h : ∀ a ∈ l, a ≠ 0) : cstring n (chars l) = l.take n := by
  induction n generalizing l with
  | zero => rfl
  | succ n ih =>
    cases l with
    | nil => simp [cstring, chars]
    | cons a l =>
      have hhead : chars (a :: l) 0 = a := by simp [chars]
      have ha : a ≠ 0 := h a List.mem_cons_self
      have hrest := ih l fun c hc => h c (List.mem_cons_of_mem a hc)
      simp [cstring, hhead, ha, chars_cons_succ, hrest]

theorem cstring_congr {n : ℕ} {p q : ℕ → UInt8} (h : ∀ k, k < n → p k = q k) : cstring n p = cstring n q := by
  induction n generalizing p q with
  | zero => rfl
  | succ n ih =>
    have h0 := h 0 (Nat.succ_pos n)
    have hrest := ih (p := fun k => p (k + 1)) (q := fun k => q (k + 1)) fun k hk => h (k + 1) (by omega)
    simp [cstring, h0, hrest]

/-! ## `struct dirent` -/

@[ext]
structure Dirent where
  inum : UInt16
  name : Fin dirsiz → UInt8

namespace Dirent

def chars (de : Dirent) (k : ℕ) : UInt8 :=
  if h : k < dirsiz then de.name ⟨k, h⟩ else 0

def str (de : Dirent) : List UInt8 :=
  cstring dirsiz de.chars

/-- The entry that the bytes at `p` make up. -/
def ofBytes (p : ℕ → UInt8) : Dirent :=
  { inum := UInt16.ofNat ((p 0).toNat + 256 * (p 1).toNat)
    name := fun k => p (2 + k.val) }

def byte (de : Dirent) (k : ℕ) : UInt8 :=
  if k = 0 then UInt8.ofNat de.inum.toNat
  else if k = 1 then UInt8.ofNat (de.inum.toNat / 256)
  else de.chars (k - 2)

theorem ofBytes_congr {p q : ℕ → UInt8} (h : ∀ k, k < direntSize → p k = q k) : ofBytes p = ofBytes q := by
  have hlt : ∀ k : Fin dirsiz, 2 + k.val < direntSize := by
    intro k
    have := k.isLt
    unfold dirsiz direntSize at *
    omega
  ext1
  · simp only [ofBytes]
    rw [h 0 (by decide), h 1 (by decide)]
  · funext k
    exact h _ (hlt k)

theorem ofBytes_byte (de : Dirent) : ofBytes de.byte = de := by
  ext1
  · have hlt := de.inum.toNat_lt
    have hsum : de.inum.toNat % 256 + 256 * (de.inum.toNat / 256 % 256) = de.inum.toNat := by omega
    have h0 : (de.byte 0).toNat = de.inum.toNat % 256 := by
      simp only [byte, if_true]
      exact UInt8.toNat_ofNat'
    have h1 : (de.byte 1).toNat = de.inum.toNat / 256 % 256 := by
      simp only [byte, if_true]
      exact UInt8.toNat_ofNat'
    simp only [ofBytes]
    rw [h0, h1, hsum, UInt16.ofNat_toNat]
  · funext k
    have hk : 2 + k.val - 2 = k.val := by omega
    have h1 : 2 + k.val ≠ 1 := by omega
    simp [ofBytes, byte, h1, chars]

def zero : Dirent :=
  { inum := 0
    name := fun _ => 0 }

def make (inum : ℕ) (name : List UInt8) : Dirent :=
  { inum := UInt16.ofNat inum
    name := fun k => (strncpy dirsiz (Fs.chars name)).getD k 0 }

theorem str_make (inum : ℕ) (name : List UInt8) :
    (make inum name).str = cstring dirsiz (Fs.chars name) := by
  have hcopy := cstring_strncpy dirsiz (Fs.chars name)
  have hchars : (make inum name).str = cstring dirsiz (Fs.chars (strncpy dirsiz (Fs.chars name))) :=
    cstring_congr fun k hk => by simp [chars, make, hk, Fs.chars]
  rw [hchars, hcopy]

theorem inum_make {inum : ℕ} (name : List UInt8) (h : inum < 2 ^ 16) : (make inum name).inum.toNat = inum := by
  simp only [make]
  rw [UInt16.toNat_ofNat', Nat.mod_eq_of_lt h]

end Dirent

def namecmp (s t : ℕ → UInt8) : ℤ :=
  strncmp dirsiz s t

/-- The name a directory knows a path element by. -/
def key (name : List UInt8) : List UInt8 :=
  cstring dirsiz (chars name)

theorem key_eq_take (name : List UInt8) (h : ∀ a ∈ name, a ≠ 0) : key name = name.take dirsiz :=
  cstring_chars dirsiz name h

theorem namecmp_eq_zero_iff (name : List UInt8) (de : Dirent) :
    namecmp (chars name) de.chars = 0 ↔ de.str = key name := by
  rw [namecmp, strncmp_eq_zero_iff]
  exact eq_comm

end Xv6.Fs
