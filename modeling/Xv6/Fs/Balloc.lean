import Xv6.Common.Allocation
import Xv6.Common.Outcome
import Xv6.Common.Scan
import Xv6.Fs.Layout

/-!
# Balloc — allocating and freeing disk blocks

Functions of `fs.c` that may fail to return are in `Except Panic`.  A block that is written through the log
is simply written: what the log makes of it is the business of `Xv6.Log`.
-/

namespace Xv6.Fs

open Common

/-- Why a function does not return: the panics of `fs.c`, `file.c` and `sysfile.c` that the functions modelled here
can reach, and the wait for a lock that the waiting process holds itself. -/
inductive Panic
  /-- "balloc: out of blocks" -/
  | ballocOutOfBlocks
  /-- "freeing free block" -/
  | freeingFreeBlock
  /-- "ialloc: no inodes" -/
  | iallocNoInodes
  /-- "ilock: no type" -/
  | ilockNoType
  /-- "bmap: out of range" -/
  | bmapOutOfRange
  /-- "dirlookup not DIR" -/
  | dirlookupNotDir
  /-- "dirlookup read" -/
  | dirlookupRead
  /-- "dirlink read" -/
  | dirlinkRead
  /-- "dirlink" -/
  | dirlink
  /-- "isdirempty: readi" -/
  | isdiremptyReadi
  /-- "unlink: nlink < 1" -/
  | unlinkNlink
  /-- "unlink: writei" -/
  | unlinkWritei
  /-- "create dots" -/
  | createDots
  /-- "create: dirlink" -/
  | createDirlink
  /-- "short filewrite" -/
  | shortFilewrite
  /-- `acquiresleep` on an inode lock that the caller holds. -/
  | selfDeadlock
  deriving DecidableEq, Repr

/-- A computation that succeeds has succeeded in each of its parts. -/
theorem bind_eq_ok {α β : Type} {m : Except Panic α} {f : α → Except Panic β} {y : β} :
    (m >>= f) = .ok y ↔ ∃ x, m = .ok x ∧ f x = .ok y := by
  cases m with
  | error e => simp [bind, Except.bind]
  | ok x => simp [bind, Except.bind]

@[simp] theorem ok_bind {α β : Type} (x : α) (f : α → Except Panic β) :
    ((Except.ok x : Except Panic α) >>= f) = f x :=
  rfl

@[simp] theorem pure_eq_ok {α : Type} (x : α) : (pure x : Except Panic α) = .ok x := rfl

/-- What a function returns, if it does not panic; it never panics with "freeing free block". -/
abbrev Returns {α : Type} (m : Except Panic α) (Q : α → Prop) : Prop :=
  Ensures (· = Panic.freeingFreeBlock) m Q

variable {sb : Superblock} {d d' : Disk} {b : ℕ}

/-! ## `balloc` -/

def bzero (d : Disk) (b : ℕ) : Disk :=
  Function.update d b Block.zero

/-- The inner loop of `balloc`: the first free block whose bit is in the bitmap block of `b`. -/
def ballocIn (sb : Superblock) (d : Disk) (b : ℕ) : Option ℕ :=
  scan (fun bi => if (d (sb.bblock b)).bit bi = false then some (b + bi) else none) 0
    (min bpb (sb.size - b))

def balloc (sb : Superblock) (d : Disk) : Except Panic (ℕ × Disk) :=
  match scan (fun k => ballocIn sb d (k * bpb)) 0 ((sb.size + bpb - 1) / bpb) with
  | some b => .ok (b, bzero (markUsed sb d b) b)
  | none => .error .ballocOutOfBlocks

/-- Where the bit of a block is: its bitmap block belongs to the last multiple of `bpb`. -/
theorem bitAt_mul_add (k : ℕ) {bi : ℕ} (hbi : bi < bpb) :
    bitAt sb d (k * bpb + bi) = (d (sb.bblock (k * bpb))).bit bi := by
  have hpos : 0 < bpb := by decide
  have hdiv : (k * bpb + bi) / bpb = k := by
    rw [Nat.mul_comm, Nat.mul_add_div hpos, Nat.div_eq_of_lt hbi, Nat.add_zero]
  have hmod : (k * bpb + bi) % bpb = bi := by
    rw [Nat.mul_comm, Nat.mul_add_mod, Nat.mod_eq_of_lt hbi]
  have hblock : sb.bblock (k * bpb + bi) = sb.bblock (k * bpb) := by
    simp only [Superblock.bblock]
    rw [hdiv, Nat.mul_div_cancel _ hpos]
  simp only [bitAt]
  rw [hblock, hmod]

theorem ballocIn_eq_some {k : ℕ} (h : ballocIn sb d (k * bpb) = some b) : b < sb.size ∧ bitAt sb d b = false := by
  rcases scan_eq_some h with ⟨bi, _, hbi, hf, _⟩
  have hlt : bi < bpb := by omega
  split_ifs at hf with hbit
  have hb : k * bpb + bi = b := by simpa using hf
  exact ⟨by omega, by rw [← hb, bitAt_mul_add k hlt, hbit]⟩

theorem balloc_ok (h : balloc sb d = .ok (b, d')) :
    b < sb.size ∧ bitAt sb d b = false ∧ d' = bzero (markUsed sb d b) b := by
  unfold balloc at h
  split at h
  next b' hscan =>
      have hb : b' = b ∧ bzero (markUsed sb d b') b' = d' := by simpa using h
      rcases hb with ⟨rfl, rfl⟩
      rcases scan_eq_some hscan with ⟨k, _, _, hk, _⟩
      rcases ballocIn_eq_some hk with ⟨hsize, hbit⟩
      exact ⟨hsize, hbit, rfl⟩
  next => cases h

theorem balloc_returns : Returns (balloc sb d) fun _ => True := by
  unfold balloc
  split
  next => exact .ok trivial
  next => exact .error (by simp)

theorem balloc_first (h : balloc sb d = .ok (b, d')) {c : ℕ} (hc : c < b) : bitAt sb d c = true := by
  unfold balloc at h
  split at h
  next b' hscan =>
      obtain ⟨rfl, -⟩ : b' = b ∧ _ := by simpa using h
      rcases scan_eq_some hscan with ⟨k, _, _, hk, hbefore⟩
      rcases scan_eq_some hk with ⟨bi, _, hbi, hf, hbefore'⟩
      split_ifs at hf with hbit
      obtain rfl : k * bpb + bi = b' := by simpa using hf
      have hsplit : c = c / bpb * bpb + c % bpb := by
        rw [Nat.mul_comm]
        exact (Nat.div_add_mod c bpb).symm
      have hmod : c % bpb < bpb := Nat.mod_lt _ (by decide)
      have hle : c / bpb ≤ k := by
        rw [← Nat.lt_succ_iff, Nat.div_lt_iff_lt_mul (by decide), Nat.succ_mul]
        omega
      rw [hsplit, bitAt_mul_add _ hmod]
      by_contra hfree
      rw [Bool.not_eq_true] at hfree
      rcases Nat.eq_or_lt_of_le hle with heq | hlt
      · -- In the same bitmap block, before it.
        have hnone := hbefore' (c % bpb) (Nat.zero_le _) (by rw [heq] at hsplit; omega)
        rw [heq] at hfree
        simp [hfree] at hnone
      · have hnone := hbefore (c / bpb) (Nat.zero_le _) hlt
        have hin := scan_eq_none_iff.1 hnone (c % bpb) (Nat.zero_le _) (by omega)
        simp [hfree] at hin
  next => cases h

theorem balloc_isOk (hb : b < sb.size) (hbit : bitAt sb d b = false) : ∃ r, balloc sb d = .ok r := by
  have hpos : 0 < bpb := by decide
  have hsplit : b = b / bpb * bpb + b % bpb := by
    rw [Nat.mul_comm]
    exact (Nat.div_add_mod b bpb).symm
  have hmod : b % bpb < bpb := Nat.mod_lt _ hpos
  -- The inner loop finds something in the bitmap block of `b`, so the outer one does.
  have hin : ∃ c, ballocIn sb d (b / bpb * bpb) = some c := by
    refine scan_isSome (j := b % bpb) (a := b) (Nat.zero_le _) (by omega) ?_
    rw [hsplit, bitAt_mul_add _ hmod] at hbit
    rw [if_pos hbit, ← hsplit]
  rcases hin with ⟨c, hc⟩
  have hout : b / bpb < (sb.size + bpb - 1) / bpb := by
    rw [Nat.div_lt_iff_lt_mul hpos]
    have hlt := Nat.lt_div_mul_add (a := sb.size + bpb - 1) hpos
    omega
  rcases scan_isSome (f := fun k => ballocIn sb d (k * bpb)) (i := 0)
    (n := (sb.size + bpb - 1) / bpb) (j := b / bpb) (Nat.zero_le _) (by omega) hc with ⟨c', hc'⟩
  refine ⟨(c', bzero (markUsed sb d c') c'), ?_⟩
  simp only [balloc, hc']

/-! What the caller of `balloc` sees of the three areas, for a new block among the data blocks. -/

theorem bitAt_balloc (hb : sb.datastart ≤ b) {c : ℕ} (hc : c < sb.size) :
    bitAt sb (bzero (markUsed sb d b) b) c = Function.update (bitAt sb d) b true c := by
  rw [bzero, bitAt_write_data hc hb, bitAt_markUsed]

theorem din_balloc (hb : sb.datastart ≤ b) {j : ℕ} (hj : j < sb.ninodes) :
    din sb (bzero (markUsed sb d b) b) j = din sb d j := by
  rw [bzero, din_write_data hj hb, markUsed, din_write_bmap hj]

theorem balloc_data (hs : b < sb.size) {c : ℕ} (hc : sb.datastart ≤ c) :
    bzero (markUsed sb d b) b c = if c = b then Block.zero else d c := by
  by_cases hcb : c = b
  · subst hcb
    simp [bzero]
  · simp only [bzero, markUsed, hcb, if_false]
    rw [Function.update_of_ne hcb, write_bmap_data hs hc]

/-! ## `bfree` -/

def bfree (sb : Superblock) (d : Disk) (b : ℕ) : Except Panic Disk :=
  if bitAt sb d b = false then .error .freeingFreeBlock else .ok (markFree sb d b)

theorem bfree_eq_ok (h : bitAt sb d b = true) : bfree sb d b = .ok (markFree sb d b) := by
  simp [bfree, h]

end Xv6.Fs
