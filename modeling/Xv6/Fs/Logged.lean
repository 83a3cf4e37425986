import Xv6.Common.Traced
import Xv6.Fs.Calls

/-!
# Logged — the file system with its calls of `log_write`

The functions of `fs.c`, `file.c` and `sysfile.c` once more, with the numbers of the blocks that they pass to
`log_write`.  Without these they are the functions of the modules before (`erase_…`), so that everything that is known
about those can be used here.
-/

namespace Xv6.Fs

open Common

/-- A computation with the blocks that it logs. -/
abbrev Logged (α : Type) : Type := Traced Panic ℕ α

namespace Logged

/-! ## `fs.c` -/

def logWrite (b : ℕ) : Logged Unit := Traced.emit b

def balloc (sb : Superblock) (d : Disk) : Logged (ℕ × Disk) := do
  let (b, d) ← Traced.lift (Fs.balloc sb d)
  logWrite (sb.bblock b)
  logWrite b
  return (b, d)

def bfree (sb : Superblock) (d : Disk) (b : ℕ) : Logged Disk := do
  let d ← Traced.lift (Fs.bfree sb d b)
  logWrite (sb.bblock b)
  return d

def iupdate (sb : Superblock) (d : Disk) (i : ℕ) (x : Dinode) : Logged Disk := do
  logWrite (sb.iblock i)
  return Fs.iupdate sb d i x

def loadIndirect (sb : Superblock) (d : Disk) (ip : Dinode) : Logged (Dinode × Disk) :=
  if ip.addr ndirect = 0 then do
    let (b, d) ← balloc sb d
    return (ip.setAddr ndirect b, d)
  else return (ip, d)

def bmapEntry (sb : Superblock) (d : Disk) (ip : Dinode) (k : ℕ) : Logged (ℕ × Dinode × Disk) :=
  let a := d (ip.addr ndirect)
  if a.getInt (4 * k) = 0 then do
    let (b, d) ← balloc sb d
    logWrite (ip.addr ndirect)
    return (b, ip, Function.update d (ip.addr ndirect) (a.setInt (4 * k) b))
  else return (a.getInt (4 * k), ip, d)

def bmap (sb : Superblock) (d : Disk) (ip : Dinode) (bn : ℕ) : Logged (ℕ × Dinode × Disk) :=
  if bn < ndirect then
    if ip.addr bn = 0 then do
      let (b, d) ← balloc sb d
      return (b, ip.setAddr bn b, d)
    else return (ip.addr bn, ip, d)
  else if bn - ndirect < nindirect then do
    let (ip, d) ← loadIndirect sb d ip
    bmapEntry sb d ip (bn - ndirect)
  else Traced.lift (.error .bmapOutOfRange)

def freeAddr (sb : Superblock) (d : Disk) (ip : Dinode) (k : ℕ) : Logged (Disk × Dinode) :=
  if ip.addr k ≠ 0 then do
    let d ← bfree sb d (ip.addr k)
    return (d, ip.setAddr k 0)
  else return (d, ip)

def itruncDirect (sb : Superblock) : ℕ → ℕ → Disk → Dinode → Logged (Disk × Dinode)
  | 0, _, d, ip => return (d, ip)
  | n + 1, k, d, ip => do
      let (d, ip) ← freeAddr sb d ip k
      itruncDirect sb n (k + 1) d ip

def itruncEntries (sb : Superblock) (a : Block) : ℕ → ℕ → Disk → Logged Disk
  | 0, _, d => return d
  | n + 1, j, d => do
      let d ← if a.getInt (4 * j) ≠ 0 then bfree sb d (a.getInt (4 * j)) else pure d
      itruncEntries sb a n (j + 1) d

def itruncIndirect (sb : Superblock) (d : Disk) (ip : Dinode) : Logged (Disk × Dinode) :=
  if ip.addr ndirect ≠ 0 then do
    let d ← itruncEntries sb (d (ip.addr ndirect)) nindirect 0 d
    let d ← bfree sb d (ip.addr ndirect)
    return (d, ip.setAddr ndirect 0)
  else return (d, ip)

def itrunc (sb : Superblock) (d : Disk) (i : ℕ) (ip : Dinode) : Logged (Disk × Dinode) := do
  let (d, ip) ← itruncDirect sb ndirect 0 d ip
  let (d, ip) ← itruncIndirect sb d ip
  let d ← iupdate sb d i { ip with size := 0 }
  return (d, { ip with size := 0 })

def readLoop (sb : Superblock) : ℕ → Disk → Dinode → ℕ → ℕ → Logged (List UInt8 × Dinode × Disk)
  | 0, d, ip, _, _ => return ([], ip, d)
  | turns + 1, d, ip, off, n =>
    if 0 < n then do
      let (b, ip, d) ← bmap sb d ip (off / bsize)
      let m := min n (bsize - off % bsize)
      let (rest, ip, d') ← readLoop sb turns d ip (off + m) (n - m)
      return ((List.range m).map (fun k => (d b).get (off % bsize + k)) ++ rest, ip, d')
    else return ([], ip, d)

def readi (sb : Superblock) (d : Disk) (ip : Dinode) (off n : ℕ) : Logged (Io (List UInt8) × Dinode × Disk) :=
  if ip.type = tDev then return (.device, ip, d)
  else if ip.size.toNat < off ∨ (off + n) % 2 ^ 32 < off then return (.fail, ip, d)
  else do
    let n := if ip.size.toNat < (off + n) % 2 ^ 32 then ip.size.toNat - off else n
    let (bytes, ip, d) ← readLoop sb n d ip off n
    return (.done bytes, ip, d)

def writeLoop (sb : Superblock) : ℕ → Disk → Dinode → ℕ → ℕ → (ℕ → UInt8) → Logged (Dinode × Disk)
  | 0, d, ip, _, _, _ => return (ip, d)
  | turns + 1, d, ip, off, n, src =>
    if 0 < n then do
      let (b, ip, d) ← bmap sb d ip (off / bsize)
      let m := min n (bsize - off % bsize)
      let d := Function.update d b ((d b).copyIn (off % bsize) m src)
      logWrite b
      writeLoop sb turns d ip (off + m) (n - m) (fun k => src (m + k))
    else return (ip, d)

def writeSize (sb : Superblock) (i off n : ℕ) (ip : Dinode) (d : Disk) : Logged (Dinode × Disk) :=
  if 0 < n ∧ ip.size.toNat < off then do
    let d ← iupdate sb d i { ip with size := UInt32.ofNat off }
    return ({ ip with size := UInt32.ofNat off }, d)
  else return (ip, d)

def writei (sb : Superblock) (d : Disk) (i : ℕ) (ip : Dinode) (off n : ℕ) (src : ℕ → UInt8) :
    Logged (Io ℕ × Dinode × Disk) :=
  if ip.type = tDev then return (.device, ip, d)
  else if ip.size.toNat < off ∨ (off + n) % 2 ^ 32 < off then return (.fail, ip, d)
  else if maxfile * bsize < (off + n) % 2 ^ 32 then return (.fail, ip, d)
  else do
    let (ip, d) ← writeLoop sb n d ip off n src
    let (ip, d) ← writeSize sb i (off + n) n ip d
    return (.done n, ip, d)

/-! ## The inode cache -/

def setInode (sb : Superblock) (s : State) (i : ℕ) (x : Dinode) : Logged State := do
  let d ← iupdate sb s.disk i x
  return s.store i x d

def addLinks (sb : Superblock) (s : State) (i : ℕ) (delta : UInt16) : Logged State :=
  setInode sb s i { s.inode i with nlink := (s.inode i).nlink + delta }

def iput (sb : Superblock) (s : State) (i : ℕ) : Logged State := do
  let s ←
    match s.mem i with
    | none => pure s
    | some x =>
      if x.nlink = 0 ∧ s.ref i = 1 then do
        let (d, x) ← itrunc sb s.disk i x
        let d ← iupdate sb d i { x with type := 0 }
        pure
          { s with
            disk := d
            mem := Function.update s.mem i none }
      else pure s
  return { s with ref := Function.update s.ref i (s.ref i - 1) }

def ialloc (sb : Superblock) (s : State) (type : UInt16) : Logged (ℕ × State) := do
  let (i, s) ← Traced.lift (Fs.ialloc sb s type)
  logWrite (sb.iblock i)
  return (i, s)

def stateReadi (sb : Superblock) (s : State) (i off n : ℕ) : Logged (Io (List UInt8) × State) := do
  let (r, x, d) ← readi sb s.disk (s.inode i) off n
  return (r, s.store i x d)

def stateWritei (sb : Superblock) (s : State) (i off n : ℕ) (src : ℕ → UInt8) : Logged (Io ℕ × State) := do
  let (r, x, d) ← writei sb s.disk i (s.inode i) off n src
  return (r, s.store i x d)

/-! ## Directories -/

def readDirent (sb : Superblock) (s : State) (dp off : ℕ) : Logged (Option Dirent × State) := do
  let (r, s) ← stateReadi sb s dp off direntSize
  match r with
  | .done bytes =>
    if bytes.length = direntSize then return (some (Dirent.ofBytes (chars bytes)), s) else return (none, s)
  | _ => return (none, s)

def scanDir (sb : Superblock) (failed : Panic) (stop : Dirent → Bool) :
    ℕ → State → ℕ → ℕ → Logged (Option Dirent × ℕ × State)
  | 0, s, _, off => return (none, off, s)
  | turns + 1, s, dp, off =>
    if off < (s.inode dp).size.toNat then do
      let (r, s) ← readDirent sb s dp off
      match r with
      | none => Traced.lift (.error failed)
      | some de =>
        if stop de then return (some de, off, s)
        else scanDir sb failed stop turns s dp (off + direntSize)
    else return (none, off, s)

def dirlookup (sb : Superblock) (s : State) (dp : ℕ) (name : List UInt8) : Logged (Option (ℕ × ℕ) × State) :=
  if (s.inode dp).type ≠ tDir then Traced.lift (.error .dirlookupNotDir)
  else do
    let (r, off, s) ← scanDir sb .dirlookupRead (matchesName name) (s.inode dp).size.toNat s dp 0
    match r with
    | some de => return (some (de.inum.toNat, off), s.iget de.inum.toNat)
    | none => return (none, s)

def dirlink (sb : Superblock) (s : State) (dp : ℕ) (name : List UInt8) (inum : ℕ) : Logged (Bool × State) := do
  let (r, s) ← dirlookup sb s dp name
  match r with
  | some (i, _) =>
    if i = dp then Traced.lift (.error .selfDeadlock)
    else do
      let s ← iput sb s i
      return (false, s)
  | none => do
      let (_, off, s) ← scanDir sb .dirlinkRead (fun de => decide (de.inum = 0)) (s.inode dp).size.toNat s dp 0
      let (r, s) ← stateWritei sb s dp off direntSize (Dirent.make inum name).byte
      if r = .done direntSize then return (true, s) else Traced.lift (.error .dirlink)

def isdirempty (sb : Superblock) (s : State) (dp : ℕ) : Logged (Bool × State) := do
  let (r, _, s) ← scanDir sb .isdiremptyReadi (fun de => decide (de.inum ≠ 0)) (s.inode dp).size.toNat s dp
    (2 * direntSize)
  return (r.isNone, s)

def namexLoop (sb : Superblock) (nameiparent : Bool) (s : State) (ip : ℕ) (path : List UInt8) :
    Logged (Option (ℕ × List UInt8) × State) :=
  match _hskip : skipelem path with
  | none =>
    if nameiparent then do
      let s ← iput sb s ip
      return (none, s)
    else return (some (ip, []), s)
  | some (name, path') => do
      let s ← Traced.lift (ilock sb s ip)
      if (s.inode ip).type ≠ tDir then
        let s ← iput sb s ip
        return (none, s)
      else if nameiparent ∧ path' = [] then
        return (some (ip, name), s)
      else
        let (r, s) ← dirlookup sb s ip name
        let s ← iput sb s ip
        match r with
        | none => return (none, s)
        | some (next, _) => namexLoop sb nameiparent s next path'
termination_by path.length
decreasing_by exact length_skipelem _hskip

def namex (sb : Superblock) (s : State) (cwd : ℕ) (path : List UInt8) (nameiparent : Bool) :
    Logged (Option (ℕ × List UInt8) × State) :=
  if path.head? = some slash then namexLoop sb nameiparent (s.iget rootino) rootino path
  else namexLoop sb nameiparent (s.idup cwd) cwd path

/-! ## `sysfile.c`, between `begin_op` and `end_op` -/

def createDots (sb : Superblock) (s : State) (type : UInt16) (dp ip : ℕ) : Logged State :=
  if type = tDir then do
    let s ← addLinks sb s dp 1
    let (ok, s) ← dirlink sb s ip dot ip
    if ok then
      let (ok, s) ← dirlink sb s ip dotdot dp
      if ok then return s else Traced.lift (.error .createDots)
    else Traced.lift (.error .createDots)
  else return s

def create (sb : Superblock) (s : State) (cwd : ℕ) (path : List UInt8) (type major minor : UInt16) :
    Logged (Option ℕ × State) := do
  let (r, s) ← namex sb s cwd path true
  match r with
  | none => return (none, s)
  | some (dp, name) =>
    let s ← Traced.lift (ilock sb s dp)
    let (r, s) ← dirlookup sb s dp name
    match r with
    | some (ip, _) =>
      let s ← iput sb s dp
      let s ← Traced.lift (ilock sb s ip)
      if type = tFile ∧ (s.inode ip).type = tFile then return (some ip, s)
      else
        let s ← iput sb s ip
        return (none, s)
    | none =>
      let (ip, s) ← ialloc sb s type
      let s ← Traced.lift (ilock sb s ip)
      let s ← setInode sb s ip { s.inode ip with major := major, minor := minor, nlink := 1 }
      let s ← createDots sb s type dp ip
      let (ok, s) ← dirlink sb s dp name ip
      if ok then
        let s ← iput sb s dp
        return (some ip, s)
      else Traced.lift (.error .createDirlink)

def linkBad (sb : Superblock) (s : State) (ip : ℕ) : Logged State := do
  let s ← Traced.lift (ilock sb s ip)
  let s ← addLinks sb s ip (-1)
  iput sb s ip

def sysLink (sb : Superblock) (s : State) (cwd : ℕ) (old new : List UInt8) : Logged State := do
  let (r, s) ← namex sb s cwd old false
  match r with
  | none => return s
  | some (ip, _) =>
    let s ← Traced.lift (ilock sb s ip)
    if (s.inode ip).type = tDir then iput sb s ip
    else
      let s ← addLinks sb s ip 1
      let (r, s) ← namex sb s cwd new true
      match r with
      | none => linkBad sb s ip
      | some (dp, name) =>
        let s ← Traced.lift (ilock sb s dp)
        let (ok, s) ← dirlink sb s dp name ip
        let s ← iput sb s dp
        if ok then iput sb s ip else linkBad sb s ip

def unlinkEntry (sb : Superblock) (s : State) (dp ip off : ℕ) : Logged State := do
  let dir := (s.inode ip).type = tDir
  let (r, s) ← stateWritei sb s dp off direntSize Dirent.zero.byte
  if r = .done direntSize then
    let s ← if dir then addLinks sb s dp (-1) else pure s
    let s ← iput sb s dp
    let s ← addLinks sb s ip (-1)
    iput sb s ip
  else Traced.lift (.error .unlinkWritei)

def sysUnlink (sb : Superblock) (s : State) (cwd : ℕ) (path : List UInt8) : Logged State := do
  let (r, s) ← namex sb s cwd path true
  match r with
  | none => return s
  | some (dp, name) =>
    let s ← Traced.lift (ilock sb s dp)
    if namecmp (chars name) (chars dot) = 0 ∨ namecmp (chars name) (chars dotdot) = 0 then iput sb s dp
    else
      let (r, s) ← dirlookup sb s dp name
      match r with
      | none => iput sb s dp
      | some (ip, off) =>
        if ip = dp then Traced.lift (.error .selfDeadlock)
        else
          let s ← Traced.lift (ilock sb s ip)
          if (s.inode ip).nlink.toInt16 < 1 then Traced.lift (.error .unlinkNlink)
          else if (s.inode ip).type = tDir then
            let (empty, s) ← isdirempty sb s ip
            if empty then unlinkEntry sb s dp ip off
            else
              let s ← iput sb s ip
              iput sb s dp
          else unlinkEntry sb s dp ip off

def openInode (sb : Superblock) (s : State) (cwd : ℕ) (path : List UInt8) (omode : ℕ) : Logged (Option ℕ × State) :=
  if omode / oCreate % 2 = 1 then create sb s cwd path tFile 0 0
  else do
    let (r, s) ← namex sb s cwd path false
    match r with
    | none => return (none, s)
    | some (ip, _) =>
      let s ← Traced.lift (ilock sb s ip)
      if (s.inode ip).type = tDir ∧ omode ≠ oRdonly then
        let s ← iput sb s ip
        return (none, s)
      else return (some ip, s)

def sysOpen (sb : Superblock) (s : State) (cwd : ℕ) (path : List UInt8) (omode : ℕ) (full : Bool) :
    Logged (Option ℕ × State) := do
  let (r, s) ← openInode sb s cwd path omode
  match r with
  | none => return (none, s)
  | some ip =>
    if full then
      let s ← iput sb s ip
      return (none, s)
    else return (some ip, s)

def sysMake (sb : Superblock) (s : State) (cwd : ℕ) (path : List UInt8) (type major minor : UInt16) : Logged State := do
  let (r, s) ← create sb s cwd path type major minor
  match r with
  | none => return s
  | some ip => iput sb s ip

def sysChdir (sb : Superblock) (s : State) (cwd : ℕ) (path : List UInt8) : Logged (ℕ × State) := do
  let (r, s) ← namex sb s cwd path false
  match r with
  | none => return (cwd, s)
  | some (ip, _) =>
    let s ← Traced.lift (ilock sb s ip)
    if (s.inode ip).type ≠ tDir then
      let s ← iput sb s ip
      return (cwd, s)
    else
      let s ← iput sb s cwd
      return (ip, s)

/-! ## `filewrite` -/

def writeChunk (sb : Superblock) (s : State) (ip off n : ℕ) (src : ℕ → UInt8) : Logged (Io ℕ × State) := do
  let s ← Traced.lift (ilock sb s ip)
  stateWritei sb s ip off n src

/-- The loop of `filewrite`, with the blocks that each turn logs: each one is a transaction. -/
def filewrite (sb : Superblock) :
    ℕ → State → ℕ → ℕ → ℕ → (ℕ → UInt8) → Except Panic ((Io Unit × State) × List (List ℕ))
  | 0, s, _, _, _, _ => return ((.done (), s), [])
  | turns + 1, s, ip, off, n, src =>
    if 0 < n then do
      let n₁ := min n filewriteMax
      let ((r, s), w) ← (writeChunk sb s ip off n₁ src).run
      match r with
      | .device => return ((.device, s), [w])
      | .fail => return ((.fail, s), [w])
      | .done m =>
        if m ≠ n₁ then .error .shortFilewrite
        else do
          let (r, ws) ← filewrite sb turns s ip (off + m) (n - m) (fun k => src (m + k))
          return (r, w :: ws)
    else return ((.done (), s), [])

/-! ## Without the log -/

open Common.Traced

variable {sb : Superblock} {s : State} {d : Disk} {x : Dinode} {i ip dp off n k : ℕ}

@[simp] theorem erase_logWrite (b : ℕ) : (logWrite b).erase = .ok () := rfl

@[simp] theorem erase_balloc : (balloc sb d).erase = Fs.balloc sb d := by
  simp only [balloc, erase_bind, erase_lift]
  cases Fs.balloc sb d with
  | error e => rfl
  | ok r => rfl

@[simp] theorem erase_bfree (b : ℕ) : (bfree sb d b).erase = Fs.bfree sb d b := by
  simp only [bfree, erase_bind, erase_lift]
  cases Fs.bfree sb d b with
  | error e => rfl
  | ok r => rfl

@[simp] theorem erase_iupdate : (iupdate sb d i x).erase = .ok (Fs.iupdate sb d i x) := rfl

@[simp] theorem erase_loadIndirect : (loadIndirect sb d x).erase = Fs.loadIndirect sb d x := by
  simp only [loadIndirect, Fs.loadIndirect, erase_ite, erase_bind, erase_balloc]
  rfl

@[simp] theorem erase_bmapEntry : (bmapEntry sb d x k).erase = Fs.bmapEntry sb d x k := by
  simp only [bmapEntry, Fs.bmapEntry, erase_ite, erase_bind, erase_balloc]
  rfl

@[simp] theorem erase_bmap : (bmap sb d x n).erase = Fs.bmap sb d x n := by
  simp only [bmap, Fs.bmap, erase_ite, erase_bind, erase_balloc, erase_loadIndirect, erase_lift]
  split_ifs
  · rfl
  · rfl
  · exact bind_congr fun r => erase_bmapEntry
  · rfl

@[simp] theorem erase_freeAddr : (freeAddr sb d x k).erase = Fs.freeAddr sb d x k := by
  simp only [freeAddr, Fs.freeAddr, erase_ite, erase_bind, erase_bfree]
  rfl

@[simp] theorem erase_itruncDirect : (itruncDirect sb n k d x).erase = Fs.itruncDirect sb n k d x := by
  induction n generalizing k d x with
  | zero => rfl
  | succ n ih =>
    simp only [itruncDirect, Fs.itruncDirect, erase_bind, erase_freeAddr]
    exact bind_congr fun r => ih

@[simp] theorem erase_itruncEntries (a : Block) : (itruncEntries sb a n k d).erase = Fs.itruncEntries sb a n k d := by
  induction n generalizing k d with
  | zero => rfl
  | succ n ih =>
    simp only [itruncEntries, Fs.itruncEntries, erase_ite, erase_bind, erase_bfree, ih]
    rfl

@[simp] theorem erase_itruncIndirect : (itruncIndirect sb d x).erase = Fs.itruncIndirect sb d x := by
  simp only [itruncIndirect, Fs.itruncIndirect, erase_ite, erase_bind, erase_itruncEntries, erase_bfree]
  rfl

@[simp] theorem erase_itrunc : (itrunc sb d i x).erase = Fs.itrunc sb d i x := by
  simp only [itrunc, Fs.itrunc, erase_bind, erase_itruncDirect]
  refine bind_congr fun r => ?_
  simp only [erase_itruncIndirect]
  rfl

@[simp] theorem erase_readLoop : (readLoop sb k d x off n).erase = Fs.readLoop sb k d x off n := by
  induction k generalizing d x off n with
  | zero => rfl
  | succ k ih =>
    simp only [readLoop, Fs.readLoop, erase_ite, erase_bind, erase_bmap]
    congr 1
    refine bind_congr fun r => ?_
    simp only [ih]
    rfl

@[simp] theorem erase_readi : (readi sb d x off n).erase = Fs.readi sb d x off n := by
  simp only [readi, Fs.readi, erase_ite, erase_bind, erase_readLoop]
  rfl

@[simp] theorem erase_writeLoop (src : ℕ → UInt8) :
    (writeLoop sb k d x off n src).erase = Fs.writeLoop sb k d x off n src := by
  induction k generalizing d x off n src with
  | zero => rfl
  | succ k ih =>
    simp only [writeLoop, Fs.writeLoop, erase_ite, erase_bind, erase_bmap]
    congr 1
    refine bind_congr fun r => ?_
    simp only [ih]
    rfl

@[simp] theorem erase_writeSize : (writeSize sb i off n x d).erase = .ok (Fs.writeSize sb i off n x d) := by
  simp only [writeSize, Fs.writeSize, erase_ite, erase_bind, erase_iupdate]
  split_ifs
  · rfl
  · rfl

@[simp] theorem erase_writei (src : ℕ → UInt8) : (writei sb d i x off n src).erase = Fs.writei sb d i x off n src := by
  simp only [writei, Fs.writei, erase_ite, erase_bind, erase_writeLoop]
  split_ifs
  · rfl
  · rfl
  · rfl
  · refine bind_congr fun r => ?_
    simp only [erase_writeSize]
    rfl

@[simp] theorem erase_setInode : (setInode sb s i x).erase = .ok (s.setInode sb i x) := rfl

@[simp] theorem erase_addLinks (delta : UInt16) : (addLinks sb s i delta).erase = .ok (s.addLinks sb i delta) := rfl

@[simp] theorem erase_iput : (iput sb s i).erase = Fs.iput sb s i := by
  simp only [iput, Fs.iput]
  cases s.mem i with
  | none => rfl
  | some x =>
    simp only [erase_ite, erase_bind, erase_itrunc]
    rfl

@[simp] theorem erase_ialloc (type : UInt16) : (ialloc sb s type).erase = Fs.ialloc sb s type := by
  simp only [ialloc, erase_bind, erase_lift]
  cases Fs.ialloc sb s type with
  | error e => rfl
  | ok r => rfl

@[simp] theorem erase_stateReadi : (stateReadi sb s i off n).erase = s.readi sb i off n := by
  simp only [stateReadi, State.readi, erase_bind, erase_readi]
  rfl

@[simp] theorem erase_stateWritei (src : ℕ → UInt8) :
    (stateWritei sb s i off n src).erase = s.writei sb i off n src := by
  simp only [stateWritei, State.writei, erase_bind, erase_writei]
  rfl

@[simp] theorem erase_readDirent : (readDirent sb s dp off).erase = Fs.readDirent sb s dp off := by
  simp only [readDirent, Fs.readDirent, erase_bind, erase_stateReadi]
  refine bind_congr ?_
  rintro ⟨r, s'⟩
  cases r with
  | done bytes => exact erase_ite ..
  | fail => rfl
  | device => rfl

@[simp] theorem erase_scanDir (failed : Panic) (stop : Dirent → Bool) :
    (scanDir sb failed stop n s dp off).erase = Fs.scanDir sb failed stop n s dp off := by
  induction n generalizing s off with
  | zero => rfl
  | succ n ih =>
    simp only [scanDir, Fs.scanDir, erase_ite, erase_bind, erase_readDirent]
    congr 1
    refine bind_congr ?_
    rintro ⟨r, s'⟩
    cases r with
    | none => rfl
    | some de =>
      simp only [erase_ite, ih]
      rfl

@[simp] theorem erase_dirlookup (name : List UInt8) : (dirlookup sb s dp name).erase = Fs.dirlookup sb s dp name := by
  simp only [dirlookup, Fs.dirlookup, erase_ite, erase_bind, erase_scanDir, erase_lift]
  congr 1
  refine bind_congr ?_
  rintro ⟨r, off, s'⟩
  cases r with
  | none => rfl
  | some de => rfl

@[simp] theorem erase_dirlink (name : List UInt8) (inum : ℕ) :
    (dirlink sb s dp name inum).erase = Fs.dirlink sb s dp name inum := by
  simp only [dirlink, Fs.dirlink, erase_bind, erase_dirlookup]
  refine bind_congr ?_
  rintro ⟨r, s'⟩
  cases r with
  | some p =>
    simp only [erase_ite, erase_bind, erase_iput, erase_lift]
    rfl
  | none =>
    simp only [erase_bind, erase_scanDir]
    refine bind_congr fun r => ?_
    simp only [erase_stateWritei]
    refine bind_congr fun r => ?_
    simp only [erase_ite, erase_lift]
    rfl

@[simp] theorem erase_isdirempty : (isdirempty sb s dp).erase = Fs.isdirempty sb s dp := by
  simp only [isdirempty, Fs.isdirempty, erase_bind, erase_scanDir]
  rfl

@[simp] theorem erase_namexLoop (nameiparent : Bool) (path : List UInt8) :
    (namexLoop sb nameiparent s ip path).erase = Fs.namexLoop sb nameiparent s ip path := by
  induction hn : path.length using Nat.strong_induction_on generalizing s ip path with
  | _ n ih =>
    -- the plain loop is unfolded only after the split, so that the split is on the logged one alone
    rw [namexLoop]
    split
    next hskip =>
        rw [Fs.namexLoop, hskip]
        simp only [erase_ite, erase_bind, erase_iput]
        rfl
    next name path' hskip =>
        rw [Fs.namexLoop, hskip]
        simp only [erase_bind, erase_lift]
        refine bind_congr fun s1 => ?_
        simp only [erase_ite, erase_bind, erase_iput, erase_dirlookup]
        congr 2
        refine bind_congr ?_
        rintro ⟨r, s2⟩
        refine bind_congr fun s3 => ?_
        cases r with
        | none => rfl
        | some p => exact ih _ (hn ▸ length_skipelem hskip) path' rfl

@[simp] theorem erase_namex (cwd : ℕ) (path : List UInt8) (nameiparent : Bool) :
    (namex sb s cwd path nameiparent).erase = Fs.namex sb s cwd path nameiparent := by
  simp only [namex, Fs.namex, erase_ite, erase_namexLoop]

@[simp] theorem erase_createDots (type : UInt16) : (createDots sb s type dp ip).erase = Fs.createDots sb s type dp ip := by
  simp only [createDots, Fs.createDots, erase_ite, erase_bind, erase_addLinks, erase_dirlink, erase_lift, ok_bind]
  rfl

@[simp] theorem erase_create (cwd : ℕ) (path : List UInt8) (type major minor : UInt16) :
    (create sb s cwd path type major minor).erase = Fs.create sb s cwd path type major minor := by
  simp only [create, Fs.create, erase_bind, erase_namex]
  refine bind_congr ?_
  rintro ⟨r, s1⟩
  cases r with
  | none => rfl
  | some p =>
    simp only [erase_bind, erase_lift, erase_dirlookup]
    refine bind_congr fun s2 => bind_congr ?_
    rintro ⟨r, s3⟩
    cases r with
    | some q =>
      simp only [erase_bind, erase_iput, erase_lift, erase_ite]
      rfl
    | none =>
      simp only [erase_bind, erase_ialloc]
      refine bind_congr ?_
      rintro ⟨ip, s4⟩
      simp only [erase_lift, erase_setInode, erase_createDots, erase_dirlink, ok_bind]
      refine bind_congr fun s5 => bind_congr fun s6 => bind_congr ?_
      rintro ⟨ok, s7⟩
      simp only [erase_ite, erase_bind, erase_iput, erase_lift]
      rfl

@[simp] theorem erase_linkBad : (linkBad sb s ip).erase = Fs.linkBad sb s ip := by
  simp only [linkBad, Fs.linkBad, erase_bind, erase_lift, erase_addLinks, erase_iput, ok_bind]

@[simp] theorem erase_sysLink (cwd : ℕ) (old new : List UInt8) :
    (sysLink sb s cwd old new).erase = Fs.sysLink sb s cwd old new := by
  simp only [sysLink, Fs.sysLink, erase_bind, erase_namex]
  refine bind_congr ?_
  rintro ⟨r, s1⟩
  cases r with
  | none => rfl
  | some p =>
    simp only [erase_bind, erase_lift, erase_ite, erase_iput, erase_addLinks, erase_namex, ok_bind]
    refine bind_congr fun s2 => ?_
    congr 1
    refine bind_congr ?_
    rintro ⟨r, s3⟩
    cases r with
    | none => exact erase_linkBad
    | some q =>
      simp only [erase_bind, erase_lift, erase_dirlink]
      refine bind_congr fun s4 => bind_congr ?_
      rintro ⟨ok, s5⟩
      simp only [erase_iput, erase_ite, erase_linkBad]

@[simp] theorem erase_unlinkEntry : (unlinkEntry sb s dp ip off).erase = Fs.unlinkEntry sb s dp ip off := by
  simp only [unlinkEntry, Fs.unlinkEntry, erase_bind, erase_stateWritei]
  refine bind_congr ?_
  rintro ⟨r, s1⟩
  simp only [erase_ite, erase_bind, erase_addLinks, erase_iput, erase_lift, erase_pure, ok_bind]
  split_ifs
  · rfl
  · rfl
  · rfl

@[simp] theorem erase_sysUnlink (cwd : ℕ) (path : List UInt8) :
    (sysUnlink sb s cwd path).erase = Fs.sysUnlink sb s cwd path := by
  simp only [sysUnlink, Fs.sysUnlink, erase_bind, erase_namex]
  refine bind_congr ?_
  rintro ⟨r, s1⟩
  cases r with
  | none => rfl
  | some p =>
    simp only [erase_bind, erase_lift, erase_ite, erase_iput, erase_dirlookup]
    refine bind_congr fun s2 => ?_
    congr 1
    refine bind_congr ?_
    rintro ⟨r, s3⟩
    cases r with
    | none => exact erase_iput
    | some q =>
      simp only [erase_ite, erase_bind, erase_lift, erase_isdirempty, erase_unlinkEntry]
      congr 1
      refine bind_congr fun s4 => ?_
      congr 2
      refine bind_congr ?_
      rintro ⟨empty, s5⟩
      simp only [erase_iput]

@[simp] theorem erase_openInode (cwd : ℕ) (path : List UInt8) (omode : ℕ) :
    (openInode sb s cwd path omode).erase = Fs.openInode sb s cwd path omode := by
  simp only [openInode, Fs.openInode, erase_ite, erase_create, erase_bind, erase_namex]
  congr 1
  refine bind_congr ?_
  rintro ⟨r, s1⟩
  cases r with
  | none => rfl
  | some p =>
    simp only [erase_bind, erase_lift, erase_ite, erase_iput]
    rfl

@[simp] theorem erase_sysOpen (cwd : ℕ) (path : List UInt8) (omode : ℕ) (full : Bool) :
    (sysOpen sb s cwd path omode full).erase = Fs.sysOpen sb s cwd path omode full := by
  simp only [sysOpen, Fs.sysOpen, erase_bind, erase_openInode]
  refine bind_congr ?_
  rintro ⟨r, s1⟩
  cases r with
  | none => rfl
  | some ip =>
    simp only [erase_ite, erase_bind, erase_iput]
    rfl

@[simp] theorem erase_sysMake (cwd : ℕ) (path : List UInt8) (type major minor : UInt16) :
    (sysMake sb s cwd path type major minor).erase = Fs.sysMake sb s cwd path type major minor := by
  simp only [sysMake, Fs.sysMake, erase_bind, erase_create]
  refine bind_congr ?_
  rintro ⟨r, s1⟩
  cases r with
  | none => rfl
  | some ip => exact erase_iput

@[simp] theorem erase_sysChdir (cwd : ℕ) (path : List UInt8) :
    (sysChdir sb s cwd path).erase = Fs.sysChdir sb s cwd path := by
  simp only [sysChdir, Fs.sysChdir, erase_bind, erase_namex]
  refine bind_congr ?_
  rintro ⟨r, s1⟩
  cases r with
  | none => rfl
  | some p =>
    simp only [erase_bind, erase_lift, erase_ite, erase_iput]
    rfl

@[simp] theorem erase_writeChunk (src : ℕ → UInt8) :
    (writeChunk sb s ip off n src).erase = ilock sb s ip >>= fun s => s.writei sb ip off n src := by
  simp only [writeChunk, erase_bind, erase_lift, erase_stateWritei]

theorem map_filewrite (src : ℕ → UInt8) :
    (filewrite sb k s ip off n src).map Prod.fst = Fs.filewrite sb k s ip off n src := by
  induction k generalizing s off n src with
  | zero => rfl
  | succ k ih =>
    have hchunk : (ilock sb s ip >>= fun s => s.writei sb ip off (min n filewriteMax) src) =
        (writeChunk sb s ip off (min n filewriteMax) src).run.map Prod.fst := by
      rw [← erase_writeChunk, erase]
      rcases (writeChunk sb s ip off (min n filewriteMax) src).run with _ | ⟨r, w⟩
      · rfl
      · rfl
    simp only [filewrite, Fs.filewrite]
    split_ifs
    · rw [← bind_assoc, hchunk]
      rcases (writeChunk sb s ip off (min n filewriteMax) src).run with _ | ⟨⟨r, s1⟩, w⟩
      · rfl
      cases r with
      | device => rfl
      | fail => rfl
      | done m =>
        simp only [Except.map, ok_bind]
        split_ifs
        · rfl
        · rw [← ih]
          rcases filewrite sb k s1 ip (off + m) (n - m) fun k => src (m + k) with _ | ⟨r, ws⟩
          · rfl
          · rfl
    · rfl

end Logged

/-- The state after a call, and the blocks that each of its transactions logs: all calls but `write` are one
transaction. -/
def Call.logs (sb : Superblock) (s : State) : Call → Except Panic (State × List (List ℕ))
  | .openFile cwd path omode full => do
      let ((_, s), w) ← (Logged.sysOpen sb s cwd path omode full).run
      return (s, [w])
  | .mkdir cwd path => do
      let (s, w) ← (Logged.sysMake sb s cwd path tDir 0 0).run
      return (s, [w])
  | .mknod cwd path major minor => do
      let (s, w) ← (Logged.sysMake sb s cwd path tDev major minor).run
      return (s, [w])
  | .link cwd old new => do
      let (s, w) ← (Logged.sysLink sb s cwd old new).run
      return (s, [w])
  | .unlink cwd path => do
      let (s, w) ← (Logged.sysUnlink sb s cwd path).run
      return (s, [w])
  | .chdir cwd path => do
      let ((_, s), w) ← (Logged.sysChdir sb s cwd path).run
      return (s, [w])
  | .write ip off n src => do
      let ((_, s), ws) ← Logged.filewrite sb n s ip off n src
      return (s, ws)
  | .close ip => do
      let (s, w) ← (Logged.iput sb s ip).run
      return (s, [w])

/-- A call that is one transaction, with the part of its result that is the state. -/
theorem Logged.map_run {α : Type} (m : Logged α) (f : α → State) :
    (do let p ← m.run; return (f p.1, [p.2]) : Except Panic (State × List (List ℕ))).map Prod.fst = f <$> m.erase := by
  simp only [Traced.erase]
  rcases m.run with _ | ⟨a, w⟩
  · rfl
  · rfl

theorem Call.map_logs (sb : Superblock) (s : State) (c : Call) : (c.logs sb s).map Prod.fst = c.run sb s := by
  cases c with
  | openFile cwd path omode full =>
    exact (Logged.map_run _ Prod.snd).trans (congrArg _ (Logged.erase_sysOpen ..))
  | mkdir cwd path => exact (Logged.map_run _ id).trans ((id_map _).trans (Logged.erase_sysMake ..))
  | mknod cwd path major minor => exact (Logged.map_run _ id).trans ((id_map _).trans (Logged.erase_sysMake ..))
  | link cwd old new => exact (Logged.map_run _ id).trans ((id_map _).trans (Logged.erase_sysLink ..))
  | unlink cwd path => exact (Logged.map_run _ id).trans ((id_map _).trans (Logged.erase_sysUnlink ..))
  | chdir cwd path => exact (Logged.map_run _ Prod.snd).trans (congrArg _ (Logged.erase_sysChdir ..))
  | write ip off n src =>
    simp only [Call.logs, Call.run, ← Logged.map_filewrite]
    rcases Logged.filewrite sb n s ip off n src with _ | ⟨⟨r, s1⟩, ws⟩
    · rfl
    · rfl
  | close ip => exact (Logged.map_run _ id).trans ((id_map _).trans (Logged.erase_iput ..))

end Xv6.Fs
