import Xv6.Fs.Layout
import Xv6.Fs.Name

/-!
# Image — `mkfs.c`

`mkfs` builds a file system image from a list of host files, with its own code for inodes, block addresses
and the free map.  A function returns `none` where the program stops with a failed assertion or after a
failed system call.
-/

namespace Xv6.Mkfs

open Fs

/-! ## Disk layout -/

def nbitmap : ℕ := fssize / (bsize * 8) + 1

def ninodeblocks : ℕ := ninodes / ipb + 1

def nmeta : ℕ := 2 + nlog + ninodeblocks + nbitmap

def nblocks : ℕ := fssize - nmeta

def sb : Superblock :=
  { size := fssize
    nblocks := nblocks
    ninodes := ninodes
    nlog := nlog
    logstart := 2
    inodestart := 2 + nlog
    bmapstart := 2 + nlog + ninodeblocks
    log_le := by decide
    inode_le := by decide
    bmap_le := by decide
    data_le := by decide
    ninodes_le := by decide
    size_lt := by decide }

/-- The bytes of the super block, behind them zeroes. -/
def sbBlock : Block :=
  ((((((Block.zero.setInt 0 sb.size).setInt 4 sb.nblocks).setInt 8 sb.ninodes).setInt 12 sb.nlog).setInt 16
    sb.logstart).setInt 20 sb.inodestart).setInt 24 sb.bmapstart

/-! ## Sectors and inodes -/

/-- The image file and the two counters. -/
structure Image where
  disk : Disk
  freeinode : ℕ
  freeblock : ℕ

namespace Image

/-- The sector that a seek to the 32-bit number `sec * BSIZE` leads to. -/
def seek (sec : ℕ) : ℕ :=
  sec % 2 ^ 23

/-- Fails behind the end of the file. -/
def rsect (m : Image) (sec : ℕ) : Option Block :=
  if seek sec < fssize then some (m.disk (seek sec)) else none

def wsect (m : Image) (sec : ℕ) (buf : Block) : Image :=
  { m with disk := Function.update m.disk (seek sec) buf }

def winode (m : Image) (inum : ℕ) (ip : Dinode) : Option Image := do
  let buf ← m.rsect (sb.iblock inum)
  return m.wsect (sb.iblock inum) (buf.putDinode (inum % ipb) ip)

def rinode (m : Image) (inum : ℕ) : Option Dinode := do
  let buf ← m.rsect (sb.iblock inum)
  return buf.getDinode (inum % ipb)

/-- The next inode number is taken without a look at `NINODES`. -/
def ialloc (m : Image) (type : UInt16) : Option (ℕ × Image) := do
  let inum := m.freeinode
  let m ← { m with freeinode := m.freeinode + 1 }.winode inum { Dinode.zero with type := type, nlink := 1 }
  return (inum, m)

/-! ## Blocks -/

def bitmap (used : ℕ) : Block :=
  (List.range used).foldl Block.setBit Block.zero

def balloc (m : Image) (used : ℕ) : Option Image :=
  if used < bsize * 8 then some (m.wsect sb.bmapstart (bitmap used)) else none

/-- `freeblock++` into an address that is zero. -/
def allocAddr (m : Image) (ip : Dinode) (k : ℕ) : Dinode × Image :=
  if ip.addr k = 0 then (ip.setAddr k m.freeblock, { m with freeblock := m.freeblock + 1 }) else (ip, m)

/-- The sector `x` of block `fbn` of the file, in a turn of the loop of `iappend`. -/
def blockFor (m : Image) (ip : Dinode) (fbn : ℕ) : Option (ℕ × Dinode × Image) :=
  if fbn < ndirect then
    let (ip, m) := m.allocAddr ip fbn
    some (ip.addr fbn, ip, m)
  else do
    let (ip, m) := m.allocAddr ip ndirect
    let indirect ← m.rsect (ip.addr ndirect)
    if indirect.getInt (4 * (fbn - ndirect)) = 0 then
      let indirect := indirect.setInt (4 * (fbn - ndirect)) m.freeblock
      return (indirect.getInt (4 * (fbn - ndirect)), ip,
        { m with freeblock := m.freeblock + 1 }.wsect (ip.addr ndirect) indirect)
    else return (indirect.getInt (4 * (fbn - ndirect)), ip, m)

/-- The loop of `iappend`, with `n` bytes at `p` still to append; each turn appends at least one. -/
def iappendLoop : ℕ → Image → Dinode → ℕ → ℕ → (ℕ → UInt8) → Option (ℕ × Dinode × Image)
  | 0, m, ip, off, _, _ => some (off, ip, m)
  | turns + 1, m, ip, off, n, p =>
    if 0 < n then
      let fbn := off / bsize
      if fbn < maxfile then do
        let (x, ip, m) ← m.blockFor ip fbn
        let n₁ := min n ((fbn + 1) * bsize - off)
        let buf ← m.rsect x
        let m := m.wsect x (buf.copyIn (off - fbn * bsize) n₁ p)
        iappendLoop turns m ip (off + n₁) (n - n₁) (fun k => p (n₁ + k))
      else none
    else some (off, ip, m)

def iappend (m : Image) (inum : ℕ) (bytes : List UInt8) : Option Image := do
  let ip ← m.rinode inum
  let (off, ip, m) ← iappendLoop bytes.length m ip ip.size.toNat bytes.length (chars bytes)
  m.winode inum { ip with size := UInt32.ofNat off }

def addEntry (m : Image) (de : Dirent) : Option Image :=
  m.iappend rootino ((List.range direntSize).map de.byte)

end Image

/-! ## `main` -/

/-- A file on the command line, with what the calls of `read` return, one after the other. -/
structure HostFile where
  name : List UInt8
  chunks : List (List UInt8)
  /-- The name is a C string. -/
  name_ne : ∀ a ∈ name, a ≠ 0

namespace HostFile

def data (f : HostFile) : List UInt8 :=
  f.chunks.flatten

/-- "Skip leading _ in name when writing to file system." -/
def target (f : HostFile) : List UInt8 :=
  match f.name with
  | [] => []
  | c :: rest => if c = 95 then rest else c :: rest

end HostFile

namespace Image

def addFile (m : Image) (f : HostFile) : Option Image :=
  if 47 ∈ f.name then none
  else do
    let (inum, m) ← m.ialloc tFile
    let m ← m.addEntry (Dirent.make inum f.target)
    f.chunks.foldlM (fun m chunk => m.iappend inum chunk) m

def fixRoot (m : Image) : Option Image := do
  let ip ← m.rinode rootino
  m.winode rootino { ip with size := UInt32.ofNat ((ip.size.toNat / bsize + 1) * bsize) }

/-- All sectors are written with zeroes, then the super block. -/
def blank : Image :=
  { disk := Function.update (fun _ => Block.zero) 1 sbBlock
    freeinode := 1
    freeblock := nmeta }

/-- The root directory with its first two entries. -/
def root : Option Image := do
  let (inum, m) ← blank.ialloc tDir
  if inum = rootino then
    let m ← m.addEntry (Dirent.make inum [46])
    m.addEntry (Dirent.make inum [46, 46])
  else none

end Image

/-- The image that `mkfs fs.img files…` makes. -/
def main (files : List HostFile) : Option Disk := do
  let m ← Image.root
  let m ← files.foldlM Image.addFile m
  let m ← m.fixRoot
  let m ← m.balloc m.freeblock
  return m.disk

end Xv6.Mkfs
