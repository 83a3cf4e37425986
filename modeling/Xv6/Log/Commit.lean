import Xv6.Common.WriteTrace
import Xv6.Disk.Block

/-!
# Commit — the redo log of `log.c`

The write path of the log: `write_log`, `write_head`, `install_trans`, `commit`, and the boot path
`read_head`, `recover_from_log`.  Each function is run on a `LogState`, which records

* the in-memory header `log.lh`,
* what `bread` returns for each block (the buffer cache in front of the disk), and
* the disk writes issued so far by `bwrite`, oldest first.

The disk itself is not part of the state: it is whatever some prefix of `issued` makes of the disk
the machine started from, which is exactly the freedom a crash has.
-/

namespace Xv6.Log

open Common

/-! ## The header -/

/-- `struct logheader`: the block numbers of the current transaction.  `n` is the length of the
list, which fits the array `block[LOGSIZE]`, and block numbers are 32-bit words. -/
structure LogHeader where
  block : List ℕ
  length_le : block.length ≤ logSize
  word : ∀ b ∈ block, b < 2 ^ 32

namespace LogHeader

@[ext] theorem ext {lh lh' : LogHeader} (h : lh.block = lh'.block) : lh = lh' := by
  cases lh
  cases lh'
  simpa using h

def empty : LogHeader :=
  { block := []
    length_le := by simp
    word := by simp }

def n (lh : LogHeader) : ℕ := lh.block.length

end LogHeader

/-- The loop of `write_head` that stores `block[i]`, `block[i+1]`, ... into the header block. -/
def storeBlocks (hb : Block) : ℕ → List ℕ → Block
  | _, [] => hb
  | i, b :: bs => storeBlocks (hb.setInt (4 + 4 * i) b) (i + 1) bs

/-- The header block `write_head` produces from the one it read: `n` and `block[0..n)` are stored,
every other byte stays. -/
def encodeHead (lh : LogHeader) (hb : Block) : Block :=
  storeBlocks (hb.setInt 0 lh.n) 0 lh.block

/-- The loop of `read_head`: the first `n` block numbers of a header block. -/
def loadBlocks (hb : Block) (n : ℕ) : List ℕ :=
  (List.range n).map (fun i => hb.getInt (4 + 4 * i))

theorem loadBlocks_word (hb : Block) (n : ℕ) : ∀ b ∈ loadBlocks hb n, b < 2 ^ 32 := by
  intro b hb'
  rcases List.mem_map.1 hb' with ⟨i, _, rfl⟩
  exact hb.getInt_lt _

/-- `read_head`.  A count above `LOGSIZE` would overrun `log.lh.block`, so it has no result; the
loop does not run for a count that is negative as an `int`. -/
def readHead (hb : Block) : Option LogHeader :=
  if h : (Block.toInt (hb.getInt 0)).toNat ≤ logSize then
    some
      { block := loadBlocks hb (Block.toInt (hb.getInt 0)).toNat
        length_le := by simpa [loadBlocks] using h
        word := loadBlocks_word hb _ }
  else
    none

/-! ## State and primitive accesses -/

structure LogState where
  start : ℕ
  lh : LogHeader
  cache : Disk
  issued : List (ℕ × Block)

namespace LogState

def bread (s : LogState) (b : ℕ) : Block := s.cache b

def bwrite (s : LogState) (b : ℕ) (data : Block) : LogState :=
  { s with
    cache := Function.update s.cache b data
    issued := s.issued ++ [(b, data)] }

/-! ## `log.c` -/

/-- The loop of `write_log` from index `tail` on: cached block to log block. -/
def writeLogFrom (s : LogState) : ℕ → List ℕ → LogState
  | _, [] => s
  | tail, b :: bs => writeLogFrom (s.bwrite (s.start + tail + 1) (s.bread b)) (tail + 1) bs

def writeLog (s : LogState) : LogState := s.writeLogFrom 0 s.lh.block

/-- The loop of `install_trans` from index `tail` on: log block to home block. -/
def installTransFrom (s : LogState) : ℕ → List ℕ → LogState
  | _, [] => s
  | tail, b :: bs => installTransFrom (s.bwrite b (s.bread (s.start + tail + 1))) (tail + 1) bs

def installTrans (s : LogState) : LogState := s.installTransFrom 0 s.lh.block

def writeHead (s : LogState) : LogState :=
  s.bwrite s.start (encodeHead s.lh (s.bread s.start))

def commit (s : LogState) : LogState :=
  if 0 < s.lh.n then
    let s₁ := s.writeLog
    let s₂ := s₁.writeHead
    let s₃ := s₂.installTrans
    ({ s₃ with lh := LogHeader.empty } : LogState).writeHead
  else
    s

end LogState

/-- The state in which `recover_from_log` starts on a disk: nothing is cached. -/
def boot (start : ℕ) (disk : Disk) : LogState :=
  { start := start
    lh := LogHeader.empty
    cache := disk
    issued := [] }

def recoverFromLog (start : ℕ) (disk : Disk) : Option LogState :=
  match readHead ((boot start disk).bread start) with
  | none => none
  | some lh =>
    let s₁ : LogState := { boot start disk with lh := lh }
    let s₂ := s₁.installTrans
    some ({ s₂ with lh := LogHeader.empty } : LogState).writeHead

/-! ## The header codec -/

theorem storeBlocks_getInt_of_lt (hb : Block) {i off : ℕ} {bs : List ℕ} (h : off + 4 ≤ 4 + 4 * i) :
    (storeBlocks hb i bs).getInt off = hb.getInt off := by
  induction bs generalizing hb i with
  | nil => rfl
  | cons b bs ih =>
    rw [storeBlocks, ih _ (by omega)]
    exact hb.getInt_setInt_of_disjoint (Or.inl h)

theorem storeBlocks_getInt (hb : Block) {i j b : ℕ} {bs : List ℕ}
    (hlen : i + bs.length ≤ logSize) (hword : ∀ b ∈ bs, b < 2 ^ 32) (hj : bs[j]? = some b) :
    (storeBlocks hb i bs).getInt (4 + 4 * (i + j)) = b := by
  induction bs generalizing hb i j with
  | nil => simp at hj
  | cons c bs ih =>
    have hlen' : i + 1 + bs.length ≤ logSize := by
      simp only [List.length_cons] at hlen
      omega
    cases j with
    | zero =>
      have hcb : c = b := by simpa using hj
      subst hcb
      have hoff : 4 + 4 * (i + 0) + 4 ≤ bsize := by
        simp only [logSize, maxOpBlocks] at hlen'
        simp only [bsize]
        omega
      rw [storeBlocks, storeBlocks_getInt_of_lt _ (by omega)]
      exact hb.getInt_setInt_self hoff (hword c (by simp))
    | succ j =>
      have hrest : bs[j]? = some b := by simpa using hj
      have hidx : i + (j + 1) = i + 1 + j := by omega
      rw [storeBlocks, hidx]
      exact ih _ hlen' (fun b' hb' => hword b' (List.mem_cons_of_mem _ hb')) hrest

theorem encodeHead_getInt_zero (lh : LogHeader) (hb : Block) : (encodeHead lh hb).getInt 0 = lh.n := by
  have hn : lh.n ≤ 30 := lh.length_le
  rw [encodeHead, storeBlocks_getInt_of_lt _ (by omega)]
  exact hb.getInt_setInt_self (by simp [bsize]) (by omega)

theorem readHead_encodeHead (lh : LogHeader) (hb : Block) : readHead (encodeHead lh hb) = some lh := by
  have hn : lh.n ≤ logSize := lh.length_le
  have hn' : lh.n ≤ 30 := hn
  have hcount : (Block.toInt ((encodeHead lh hb).getInt 0)).toNat = lh.n := by
    rw [encodeHead_getInt_zero, Block.toInt_of_lt (by omega)]
    simp
  have hblocks : loadBlocks (encodeHead lh hb) lh.n = lh.block := by
    refine List.ext_getElem? ?_
    intro j
    by_cases hj : j < lh.n
    · obtain ⟨b, hget⟩ : ∃ b, lh.block[j]? = some b := ⟨_, List.getElem?_eq_getElem hj⟩
      have hlen : 0 + lh.block.length ≤ logSize := by simpa using lh.length_le
      have hload := storeBlocks_getInt (hb.setInt 0 lh.n) hlen lh.word hget
      rw [hget]
      simpa [loadBlocks, encodeHead, hj] using hload
    · have hlen : lh.block.length ≤ j := by
        simpa [LogHeader.n] using hj
      rw [List.getElem?_eq_none hlen, List.getElem?_eq_none (by simp [loadBlocks]; omega)]
  unfold readHead
  rw [dif_pos (by rw [hcount]; exact hn)]
  refine congrArg some (LogHeader.ext ?_)
  simp only [hcount]
  exact hblocks

end Xv6.Log
