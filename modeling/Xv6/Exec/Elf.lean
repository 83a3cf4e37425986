import Xv6.Fs.Consistent
import Xv6.Vm.Access
import Xv6.Vm.Kernel

/-!
# Elf — the code of `exec`

`exec` reads an ELF file into a new address space, builds the stack of the new program there and only then gives up the
old one.  The file is the array of its bytes; `readi_contents` says that this is what `readi` of the file system gives.

Of the calling process this has what `exec` replaces.  Of the inode there is the reference count and the lock, and of the
log how often `begin_op` and `end_op` have been called.
-/

namespace Xv6.Exec

open Vm

/-! ## The file -/

abbrev Contents := { l : List UInt8 // l.length < addrSpace }

/-- `readi(ip, dst, off, n)`: the bytes it copies, `none` for -1. -/
def readi (file : Contents) (off n : ℕ) : Option (List UInt8) :=
  if file.1.length < off ∨ (off + n) % addrSpace < off then none else some ((file.1.drop off).take n)

def number (bytes : List UInt8) (off n : ℕ) : ℕ :=
  ((bytes.drop off).take n).foldr (fun b x => b.toNat + 256 * x) 0

structure Elfhdr where
  magic : ℕ
  entry : ℕ
  phoff : ℕ
  phnum : ℕ

def elfhdrSize : ℕ := 52

def Elfhdr.read (bytes : List UInt8) : Elfhdr :=
  { magic := number bytes 0 4
    entry := number bytes 24 4
    phoff := number bytes 28 4
    phnum := number bytes 44 2 }

def elfMagic : ℕ := 0x464C457F

structure Proghdr where
  type : ℕ
  off : ℕ
  vaddr : ℕ
  filesz : ℕ
  memsz : ℕ

def proghdrSize : ℕ := 32

def Proghdr.read (bytes : List UInt8) : Proghdr :=
  { type := number bytes 0 4
    off := number bytes 4 4
    vaddr := number bytes 8 4
    filesz := number bytes 16 4
    memsz := number bytes 20 4 }

def elfProgLoad : ℕ := 1

/-- `readi` into a structure of `n` bytes; nothing unless it returns `n`. -/
def readStruct (file : Contents) (off n : ℕ) : Option (List UInt8) :=
  (readi file off n).filter fun bytes => bytes.length = n

def checkHeader (file : Contents) : Option Elfhdr :=
  ((readStruct file 0 elfhdrSize).map Elfhdr.read).filter fun elf => elf.magic = elfMagic

/-! ## Loading -/

/-- The last turns of the loop of `loaduvm`, from `i` on. -/
def loadLoop (pd : PageDir) (addr : ℕ) (file : Contents) (offset sz : ℕ) : ℕ → Mem → ℕ → Except Panic (ℤ × Mem)
  | 0, s, _ => return (0, s)
  | turns + 1, s, i =>
    match pd.walkpgdir (addr + i) with
    | none => .error .loaduvm
    | some pte =>
      let n := if sz - i < pgsize then sz - i else pgsize
      match readi file ((offset + i) % addrSpace) n with
      | none => return (-1, s)
      | some bytes =>
        let s := s.modifyAt ((pte.map Pte.pa).getD 0) (blit 0 bytes)
        if bytes.length = n then loadLoop pd addr file offset sz turns s (i + pgsize) else return (-1, s)

/-- `loaduvm`, with its return value. -/
def loaduvm (s : Mem) (pd : PageDir) (addr : ℕ) (file : Contents) (offset sz : ℕ) : Except Panic (ℤ × Mem) :=
  if addr % pgsize ≠ 0 then .error .loaduvmAligned
  else loadLoop pd addr file offset sz (turns 0 sz) s 0

/-- What `exec` does for a program header with `ELF_PROG_LOAD`: the new size, or `none` for `goto bad`. -/
def loadSegment (file : Contents) (s : Mem) (pd : PageDir) (sz : ℕ) (ph : Proghdr) :
    Except Panic (Option ℕ × PageDir × Mem) :=
  if ph.memsz < ph.filesz then return (none, pd, s)
  else if (ph.vaddr + ph.memsz) % addrSpace < ph.vaddr then return (none, pd, s)
  else do
    let (sz, pd, s) ← allocuvm s pd sz ((ph.vaddr + ph.memsz) % addrSpace)
    if sz = 0 then return (none, pd, s)
    else if ph.vaddr % pgsize ≠ 0 then return (none, pd, s)
    else
      let (r, s) ← loaduvm s pd ph.vaddr file ph.off ph.filesz
      return (if r < 0 then none else some sz, pd, s)

/-- The loop over the program headers, with `n` of them left. -/
def loadSegments (file : Contents) : ℕ → ℕ → Mem → PageDir → ℕ → Except Panic (Option ℕ × PageDir × Mem)
  | 0, _, s, pd, sz => return (some sz, pd, s)
  | n + 1, off, s, pd, sz =>
    match (readStruct file off proghdrSize).map Proghdr.read with
    | none => return (none, pd, s)
    | some ph =>
      if ph.type ≠ elfProgLoad then loadSegments file n ((off + proghdrSize) % addrSpace) s pd sz
      else do
        match ← loadSegment file s pd sz ph with
        | (none, pd, s) => return (none, pd, s)
        | (some sz, pd, s) => loadSegments file n ((off + proghdrSize) % addrSpace) s pd sz

/-! ## The stack -/

abbrev CString := { l : List UInt8 // 0 ∉ l }

def maxarg : ℕ := 32

def subU (a b : ℕ) : ℕ := (a + addrSpace - b % addrSpace) % addrSpace

def wordBytes (w : ℕ) : List UInt8 :=
  [UInt8.ofNat w, UInt8.ofNat (w / 2 ^ 8), UInt8.ofNat (w / 2 ^ 16), UInt8.ofNat (w / 2 ^ 24)]

/-- The loop that pushes the argument strings, with `ptrs` the entries of `ustack` from 3 on. -/
def pushStrings (pd : PageDir) : List CString → Mem → ℕ → List ℕ → Except Panic (Option (ℕ × List ℕ) × Mem)
  | [], s, sp, ptrs => return (some (sp, ptrs), s)
  | arg :: argv, s, sp, ptrs =>
    if maxarg ≤ ptrs.length then return (none, s)
    else do
      let sp := subU sp (arg.1.length + 1) / 4 * 4
      let (r, s) ← copyout pd s sp (arg.1 ++ [0])
      if r < 0 then return (none, s) else pushStrings pd argv s sp (ptrs ++ [sp])

/-- `ustack` for `argc` strings at `ptrs`, the last of them at `sp`. -/
def ustack (sp : ℕ) (ptrs : List ℕ) : List ℕ :=
  [0xffffffff, ptrs.length, subU sp ((ptrs.length + 1) * 4)] ++ ptrs ++ [0]

/-- From `sz = PGROUNDUP(sz)` on, up to the last `copyout`: the size and the stack pointer, or `none` for `goto bad`. -/
def buildStack (s : Mem) (pd : PageDir) (sz : ℕ) (argv : List CString) :
    Except Panic (Option (ℕ × ℕ) × PageDir × Mem) := do
  let (sz, pd, s) ← allocuvm s pd (pgroundup sz) (pgroundup sz + 2 * pgsize)
  if sz = 0 then return (none, pd, s)
  else
    let pd ← clearpteu pd (sz - 2 * pgsize)
    match ← pushStrings pd argv s sz [] with
    | (none, s) => return (none, pd, s)
    | (some (sp, ptrs), s) =>
      let sp' := subU sp ((3 + ptrs.length + 1) * 4)
      let (r, s) ← copyout pd s sp' ((ustack sp ptrs).flatMap wordBytes)
      return (if r < 0 then none else some (sz, sp'), pd, s)

/-! ## `exec` -/

/-- The fields of `struct proc` that `exec` replaces. -/
structure Caller where
  sz : ℕ
  pgdir : PageDir
  tf : Trapframe
  name : List UInt8

structure State where
  mem : Mem
  proc : Caller
  /-- `ip->ref` of the executable -/
  ref : ℕ
  /-- The caller holds the lock of the inode. -/
  locked : Bool
  /-- Calls of `begin_op` -/
  begun : ℕ
  /-- Calls of `end_op` -/
  ended : ℕ

namespace State

def beginOp (st : State) : State := { st with begun := st.begun + 1 }

def endOp (st : State) : State := { st with ended := st.ended + 1 }

/-- `ip = namei(path)`, where there is such a file, and `ilock(ip)`. -/
def openFile (st : State) : State := { st with ref := st.ref + 1, locked := true }

def iunlockput (st : State) : State := { st with ref := st.ref - 1, locked := false }

end State

def lastElement (path : List UInt8) : List UInt8 := (path.reverse.takeWhile (· ≠ 0x2f)).reverse

def badOpen (st : State) (mem : Mem) : ℤ × State := (-1, { st with mem := mem }.iunlockput.endOp)

/-- From `setupkvm` on. -/
def execImage (data : DataSymbol) (st : State) (path : List UInt8) (file : Contents) (elf : Elfhdr)
    (argv : List CString) : Except Panic (ℤ × State) := do
  match ← setupkvm data st.mem with
  | (none, s) => return badOpen st s
  | (some pd, s) =>
    match ← loadSegments file elf.phnum elf.phoff s pd 0 with
    | (none, pd, s) =>
      let s ← freevm s pd
      return badOpen st s
    | (some sz, pd, s) =>
      let st := st.iunlockput.endOp
      match ← buildStack s pd sz argv with
      | (none, pd, s) =>
        let s ← freevm s pd
        return (-1, { st with mem := s })
      | (some (sz, sp), pd, s) =>
        let s ← freevm s st.proc.pgdir
        return (0, { st with
          mem := s
          proc :=
            { sz := sz
              pgdir := pd
              tf := { st.proc.tf with eip := UInt32.ofNat elf.entry, esp := UInt32.ofNat sp }
              name := (lastElement path).take 15 } })

/-- `exec(path, argv)`, with its return value; `file` is what `path` names, if anything. -/
def exec (data : DataSymbol) (st : State) (path : List UInt8) (file : Option Contents) (argv : List CString) :
    Except Panic (ℤ × State) :=
  let st := st.beginOp
  match file with
  | none => return (-1, st.endOp)
  | some file =>
    let st := st.openFile
    match checkHeader file with
    | none => return badOpen st st.mem
    | some elf => execImage data st path file elf argv

/-! ## The file system -/

theorem length_content_lt (ip : Fs.Dinode) (d : Disk) : (ip.content d).length < addrSpace := by
  rw [Fs.length_content]
  exact ip.size.toNat_lt

def contentsOf (d : Disk) (ip : Fs.Dinode) : Contents := ⟨ip.content d, length_content_lt ip d⟩

/-- On the file system `readi` reads the bytes of the inode. -/
theorem readi_contents {sb : Fs.Superblock} {d : Disk} {i off n : ℕ} (hc : Fs.Consistent sb d) (hi : i < sb.ninodes)
    (halloc : (Fs.din sb d i).type ≠ 0) (hdev : (Fs.din sb d i).type ≠ Fs.tDev) (hoff : off < addrSpace)
    (hn : n < addrSpace) :
    Fs.readi sb d (Fs.din sb d i) off n =
      .ok (((readi (contentsOf d (Fs.din sb d i)) off n).map Fs.Io.done).getD .fail, Fs.din sb d i, d) := by
  have hspace : addrSpace = 2 ^ 32 := by decide
  rw [hspace] at hoff hn
  have hread : readi (contentsOf d (Fs.din sb d i)) off n =
      if (Fs.din sb d i).size.toNat < off ∨ (off + n) % addrSpace < off then none
      else some ((((Fs.din sb d i).content d).drop off).take n) := by
    simp only [readi, contentsOf, Fs.length_content]
  rw [hread, hspace]
  by_cases hfail : (Fs.din sb d i).size.toNat < off ∨ (off + n) % 2 ^ 32 < off
  · rw [if_pos hfail]
    simp only [Fs.readi, hdev, if_false, hfail, if_true]
    rfl
  · rw [if_neg hfail]
    exact Fs.readi_eq sb hdev (hc.sized i hi halloc hdev) (by omega) (by omega)

end Xv6.Exec
