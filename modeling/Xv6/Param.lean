import Mathlib.Algebra.GroupWithZero.Nat
import Mathlib.Data.Int.Notation
import Mathlib.Data.Nat.Notation

/-!
# Param — the constants of `param.h`, `fs.h`, `proc.c` and `mkfs.c` that the models read

Each constant keeps the name the headers give it, in lower camel case.
-/

namespace Xv6

/-! ## Processors and processes by number -/

instance neZero_one : NeZero 1 :=
  ⟨Nat.one_ne_zero⟩

instance neZero_two : NeZero 2 :=
  ⟨Nat.succ_ne_zero 1⟩

/-! ## `param.h` -/

/-- Maximum number of processes. -/
def nproc : ℕ := 64

theorem nproc_pos : 0 < nproc := by
  decide

def nofile : ℕ := 16

def nfile : ℕ := 100

def ninode : ℕ := 50

theorem ninode_pos : 0 < ninode := by
  decide

/-- Max number of blocks any file system operation writes. -/
def maxOpBlocks : ℕ := 10

/-- Max data blocks in the on-disk log. -/
def logSize : ℕ := maxOpBlocks * 3

def nbuf : ℕ := maxOpBlocks * 3

def fssize : ℕ := 5000

/-! ## `proc.c` and `trap.c` -/

def nprio : ℕ := 4

def maxTimeSlice : ℤ := 4

def boostInterval : UInt32 := 100

/-! ## `mmu.h` -/

def pgsize : ℕ := 4096

/-! ## `fs.h` -/

def bsize : ℕ := 512

def rootino : ℕ := 1

/-- Block addresses in the inode itself. -/
def ndirect : ℕ := 12

/-- Block addresses in an indirect block. -/
def nindirect : ℕ := bsize / 4

def maxfile : ℕ := ndirect + nindirect

def dinodeSize : ℕ := 64

def ipb : ℕ := bsize / dinodeSize

def bpb : ℕ := bsize * 8

def dirsiz : ℕ := 14

def direntSize : ℕ := 16

/-! ## `mkfs.c` -/

/-- Number of log blocks `mkfs` reserves, the header block included. -/
def nlog : ℕ := logSize

/-- Number of inodes in the file system `mkfs` makes. -/
def ninodes : ℕ := 200

end Xv6
