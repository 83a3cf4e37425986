import Xv6.Fs.Dirlink

/-!
# Syscall — path names and the system calls of `sysfile.c`

Each call is one function on `State`, run from beginning to end; `cwd` is the current directory of the
process that makes it.  `iunlock` leaves no trace in the state, so that `iunlockput` is `iput`.  All of them
keep `Good`, whatever is required of directories.
-/

namespace Xv6.Fs

/-! ## Path names -/

def slash : UInt8 := 47

def dot : List UInt8 := [46]

def dotdot : List UInt8 := [46, 46]

/-- The next path element, as far as it fits into `name`, and the path behind it without leading
slashes. -/
def skipelem (path : List UInt8) : Option (List UInt8 × List UInt8) :=
  match path.dropWhile (· == slash) with
  | [] => none
  | c :: rest =>
    some (((c :: rest).takeWhile (· != slash)).take dirsiz,
      ((c :: rest).dropWhile (· != slash)).dropWhile (· == slash))

theorem length_skipelem {path path' name : List UInt8} (h : skipelem path = some (name, path')) :
    path'.length < path.length := by
  have hle := (List.dropWhile_suffix (l := path) (· == slash)).length_le
  have hhead := List.head?_dropWhile_not (· == slash) path
  unfold skipelem at h
  split at h
  next => cases h
  next c rest hdrop =>
      rw [hdrop] at hle hhead
      have hc : (c != slash) = true := by simpa using hhead
      obtain ⟨-, rfl⟩ : _ ∧ _ = path' := by simpa using h
      rw [List.dropWhile_cons_of_pos (p := (· != slash)) hc]
      have h1 := (List.dropWhile_suffix (l := rest) (· != slash)).length_le
      have h2 := (List.dropWhile_suffix (l := rest.dropWhile (· != slash)) (· == slash)).length_le
      simp only [List.length_cons] at hle
      omega

/-- The loop of `namex`: the inode of the path, or that of its parent directory and the last element. -/
def namexLoop (sb : Superblock) (nameiparent : Bool) (s : State) (ip : ℕ) (path : List UInt8) :
    Except Panic (Option (ℕ × List UInt8) × State) :=
  match _hskip : skipelem path with
  | none =>
    if nameiparent then do
      let s ← iput sb s ip
      return (none, s)
    else return (some (ip, []), s)
  | some (name, path') => do
      let s ← ilock sb s ip
      if (s.inode ip).type ≠ tDir then
        let s ← iput sb s ip
        return (none, s)
      else if nameiparent ∧ path' = [] then
        -- Stop one level early.
        return (some (ip, name), s)
      else
        let (r, s) ← dirlookup sb s ip name
        let s ← iput sb s ip
        match r with
        | none => return (none, s)
        | some (next, _) => namexLoop sb nameiparent s next path'
termination_by path.length
decreasing_by exact length_skipelem _hskip

def State.idup (s : State) (i : ℕ) : State :=
  { s with ref := Function.update s.ref i (s.ref i + 1) }

def namex (sb : Superblock) (s : State) (cwd : ℕ) (path : List UInt8) (nameiparent : Bool) :
    Except Panic (Option (ℕ × List UInt8) × State) :=
  if path.head? = some slash then namexLoop sb nameiparent (s.iget rootino) rootino path
  else namexLoop sb nameiparent (s.idup cwd) cwd path

/-! ## System calls -/

def oRdonly : ℕ := 0x000

def oCreate : ℕ := 0x200

def State.addLinks (sb : Superblock) (s : State) (i : ℕ) (delta : UInt16) : State :=
  s.setInode sb i { s.inode i with nlink := (s.inode i).nlink + delta }

/-- "Create . and .. entries", in a directory. -/
def createDots (sb : Superblock) (s : State) (type : UInt16) (dp ip : ℕ) : Except Panic State :=
  if type = tDir then do
    let s := s.addLinks sb dp 1
    let (ok, s) ← dirlink sb s ip dot ip
    if ok then
      let (ok, s) ← dirlink sb s ip dotdot dp
      if ok then return s else .error .createDots
    else .error .createDots
  else return s

def create (sb : Superblock) (s : State) (cwd : ℕ) (path : List UInt8) (type major minor : UInt16) :
    Except Panic (Option ℕ × State) := do
  let (r, s) ← namex sb s cwd path true
  match r with
  | none => return (none, s)
  | some (dp, name) =>
    let s ← ilock sb s dp
    let (r, s) ← dirlookup sb s dp name
    match r with
    | some (ip, _) =>
      let s ← iput sb s dp
      let s ← ilock sb s ip
      if type = tFile ∧ (s.inode ip).type = tFile then return (some ip, s)
      else
        let s ← iput sb s ip
        return (none, s)
    | none =>
      let (ip, s) ← ialloc sb s type
      let s ← ilock sb s ip
      let s := s.setInode sb ip { s.inode ip with major := major, minor := minor, nlink := 1 }
      let s ← createDots sb s type dp ip
      let (ok, s) ← dirlink sb s dp name ip
      if ok then
        let s ← iput sb s dp
        return (some ip, s)
      else .error .createDirlink

/-- The end of `sys_link` when no entry was made. -/
def linkBad (sb : Superblock) (s : State) (ip : ℕ) : Except Panic State := do
  let s ← ilock sb s ip
  iput sb (s.addLinks sb ip (-1)) ip

def sysLink (sb : Superblock) (s : State) (cwd : ℕ) (old new : List UInt8) : Except Panic State := do
  let (r, s) ← namex sb s cwd old false
  match r with
  | none => return s
  | some (ip, _) =>
    let s ← ilock sb s ip
    if (s.inode ip).type = tDir then iput sb s ip
    else
      let (r, s) ← namex sb (s.addLinks sb ip 1) cwd new true
      match r with
      | none => linkBad sb s ip
      | some (dp, name) =>
        let s ← ilock sb s dp
        let (ok, s) ← dirlink sb s dp name ip
        let s ← iput sb s dp
        if ok then iput sb s ip else linkBad sb s ip

/-- `sys_unlink` with both inodes locked and the entry of `ip` at `off`. -/
def unlinkEntry (sb : Superblock) (s : State) (dp ip off : ℕ) : Except Panic State := do
  let dir := (s.inode ip).type = tDir
  let (r, s) ← s.writei sb dp off direntSize Dirent.zero.byte
  if r = .done direntSize then
    let s := if dir then s.addLinks sb dp (-1) else s
    let s ← iput sb s dp
    iput sb (s.addLinks sb ip (-1)) ip
  else .error .unlinkWritei

def sysUnlink (sb : Superblock) (s : State) (cwd : ℕ) (path : List UInt8) : Except Panic State := do
  let (r, s) ← namex sb s cwd path true
  match r with
  | none => return s
  | some (dp, name) =>
    let s ← ilock sb s dp
    -- Cannot unlink "." or "..".
    if namecmp (chars name) (chars dot) = 0 ∨ namecmp (chars name) (chars dotdot) = 0 then iput sb s dp
    else
      let (r, s) ← dirlookup sb s dp name
      match r with
      | none => iput sb s dp
      | some (ip, off) =>
        if ip = dp then .error .selfDeadlock
        else
          let s ← ilock sb s ip
          if (s.inode ip).nlink.toInt16 < 1 then .error .unlinkNlink
          else if (s.inode ip).type = tDir then
            let (empty, s) ← isdirempty sb s ip
            if empty then unlinkEntry sb s dp ip off
            else
              let s ← iput sb s ip
              iput sb s dp
          else unlinkEntry sb s dp ip off

/-- The first half of `sys_open`: the inode, locked. -/
def openInode (sb : Superblock) (s : State) (cwd : ℕ) (path : List UInt8) (omode : ℕ) :
    Except Panic (Option ℕ × State) :=
  if omode / oCreate % 2 = 1 then create sb s cwd path tFile 0 0
  else do
    let (r, s) ← namex sb s cwd path false
    match r with
    | none => return (none, s)
    | some (ip, _) =>
      let s ← ilock sb s ip
      if (s.inode ip).type = tDir ∧ omode ≠ oRdonly then
        let s ← iput sb s ip
        return (none, s)
      else return (some ip, s)

/-- `sys_open`, with the inode of the open file; `full` if there is no free file or descriptor. -/
def sysOpen (sb : Superblock) (s : State) (cwd : ℕ) (path : List UInt8) (omode : ℕ) (full : Bool) :
    Except Panic (Option ℕ × State) := do
  let (r, s) ← openInode sb s cwd path omode
  match r with
  | none => return (none, s)
  | some ip =>
    if full then
      let s ← iput sb s ip
      return (none, s)
    else return (some ip, s)

def sysMake (sb : Superblock) (s : State) (cwd : ℕ) (path : List UInt8) (type major minor : UInt16) :
    Except Panic State := do
  let (r, s) ← create sb s cwd path type major minor
  match r with
  | none => return s
  | some ip => iput sb s ip

def sysMkdir (sb : Superblock) (s : State) (cwd : ℕ) (path : List UInt8) : Except Panic State :=
  sysMake sb s cwd path tDir 0 0

def sysMknod (sb : Superblock) (s : State) (cwd : ℕ) (path : List UInt8) (major minor : UInt16) :
    Except Panic State :=
  sysMake sb s cwd path tDev major minor

def sysChdir (sb : Superblock) (s : State) (cwd : ℕ) (path : List UInt8) : Except Panic (ℕ × State) := do
  let (r, s) ← namex sb s cwd path false
  match r with
  | none => return (cwd, s)
  | some (ip, _) =>
    let s ← ilock sb s ip
    if (s.inode ip).type ≠ tDir then
      let s ← iput sb s ip
      return (cwd, s)
    else
      let s ← iput sb s cwd
      return (ip, s)

/-- "The maximum log transaction size, including i-node, indirect block, allocation blocks, and 2 blocks of
slop for non-aligned writes." -/
def filewriteMax : ℕ :=
  (maxOpBlocks - 1 - 1 - 2) / 2 * 512

/-- The loop of `filewrite`, with `n` bytes still to write at `f->off`; each turn writes at least one. -/
def filewrite (sb : Superblock) : ℕ → State → ℕ → ℕ → ℕ → (ℕ → UInt8) → Except Panic (Io Unit × State)
  | 0, s, _, _, _, _ => return (.done (), s)
  | turns + 1, s, ip, off, n, src =>
    if 0 < n then do
      let n₁ := min n filewriteMax
      let s ← ilock sb s ip
      let (r, s) ← s.writei sb ip off n₁ src
      match r with
      | .device => return (.device, s)
      | .fail => return (.fail, s)
      | .done m =>
        if m ≠ n₁ then .error .shortFilewrite
        else filewrite sb turns s ip (off + m) (n - m) (fun k => src (m + k))
    else return (.done (), s)

/-! ## The invariant is kept -/

variable {K : Dinode → Disk → Prop} {sb : Superblock} {s : State} {cwd ip dp : ℕ}

section Kept

variable (hK : DirInvariant sb K) (hg : Good K sb s)

include hK hg

theorem Good.iput : Returns (Fs.iput sb s ip) fun s' => Good K sb s' := (iput_returns hK hg ip).mono fun _ h => h.1

theorem Good.addLinks (hl : Locked sb s ip) (delta : UInt16) :
    Good K sb (s.addLinks sb ip delta) ∧ ∀ j, Locked sb s j → Locked sb (s.addLinks sb ip delta) j := by
  unfold State.addLinks
  rw [hl.inode]
  exact hg.setInode hK hl rfl rfl rfl

omit hK in
theorem Good.idup (i : ℕ) : Good K sb (s.idup i) := hg.setRef _

/-- A number that a live entry holds is the number of an inode. -/
theorem entry_inode {x : Dinode} {name : List UInt8} {k : ℕ} (hx : din sb s.disk ip = x)
    (hi : ip < sb.ninodes) (hdir : x.type = tDir) (hk : x.Occurs s.disk name k) :
    0 < (x.entry s.disk k).inum.toNat ∧ (x.entry s.disk k).inum.toNat < sb.ninodes := by
  subst hx
  refine ⟨Nat.pos_of_ne_zero fun hzero => hk.live (UInt16.toNat_inj.1 hzero), ?_⟩
  exact hK.valid (hg.dirs ip hi hdir) k hk.lt

theorem dirlookup_good {name : List UInt8} (hl : Locked sb s dp) : Returns (dirlookup sb s dp name) fun (r, s') =>
      Good K sb s' ∧ (r = none → s' = s) ∧ ∀ i off, r = some (i, off) → (0 < i ∧ i < sb.ninodes) ∧
          (i ≠ dp → Locked sb s' dp) ∧ s'.disk = s.disk ∧ (din sb s.disk dp).type = tDir ∧
          ∃ k, (din sb s.disk dp).Occurs s.disk name k ∧ off = direntSize * k := by
  refine (dirlookup_returns hg hl).mono ?_
  rintro ⟨r, s'⟩ ⟨hdir, ⟨rfl, rfl, _⟩ | ⟨k, hk, rfl, rfl⟩⟩
  · exact ⟨hg, fun _ => rfl, nofun⟩
  · refine ⟨hg.iget _, nofun, fun i off h => ?_⟩
    obtain ⟨rfl, rfl⟩ : _ = i ∧ _ = off := by simpa using h
    refine ⟨entry_inode hK hg rfl (hg.of_locked hl).1 hdir hk, fun hne => hl.iget (.inl hne.symm), rfl, hdir, k, hk, rfl⟩

end Kept

theorem namexLoop_good (hK : DirInvariant sb K) (nameiparent : Bool) (path : List UInt8) (hg : Good K sb s)
    (hpos : 0 < ip) (hlt : ip < sb.ninodes) :
    Returns (namexLoop sb nameiparent s ip path) fun (r, s') =>
      Good K sb s' ∧ ∀ i name, r = some (i, name) → 0 < i ∧ i < sb.ninodes := by
  induction hn : path.length using Nat.strong_induction_on generalizing s ip path with
  | _ n ih =>
    unfold namexLoop
    split
    next =>
        split_ifs
        · exact (hg.iput hK).bind fun s' hs' => .ok ⟨hs', nofun⟩
        · refine .ok ⟨hg, fun i name h => ?_⟩
          obtain ⟨rfl, _⟩ : ip = i ∧ _ := by simpa using h
          exact ⟨hpos, hlt⟩
    next name path' hskip =>
        refine (ilock_spec hg hlt).bind fun s1 hs1 => ?_
        rcases hs1 with ⟨hg1, hl1, _, _, _⟩
        split_ifs
        · exact (hg1.iput hK).bind fun s' hs' => .ok ⟨hs', nofun⟩
        · refine .ok ⟨hg1, fun i name h => ?_⟩
          obtain ⟨rfl, _⟩ : ip = i ∧ _ := by simpa using h
          exact ⟨hpos, hlt⟩
        refine (dirlookup_good hK hg1 hl1).bind ?_
        rintro ⟨r, s2⟩ ⟨hg2, _, hfound⟩
        refine (hg2.iput hK).bind fun s3 hg3 => ?_
        cases r with
        | none => exact .ok ⟨hg3, nofun⟩
        | some p =>
          rcases p with ⟨next, off⟩
          rcases (hfound next off rfl).1 with ⟨hpos', hlt'⟩
          exact ih _ (hn ▸ length_skipelem hskip) path' hg3 hpos' hlt' rfl

section Calls

variable (hK : DirInvariant sb K) (hroot : rootino < sb.ninodes)

include hK hroot

theorem namex_good (path : List UInt8) (nameiparent : Bool) (hg : Good K sb s) (hpos : 0 < cwd)
    (hlt : cwd < sb.ninodes) :
    Returns (namex sb s cwd path nameiparent) fun (r, s') =>
      Good K sb s' ∧ ∀ i name, r = some (i, name) → 0 < i ∧ i < sb.ninodes := by
  unfold namex
  split_ifs
  · exact namexLoop_good hK nameiparent path (hg.iget _) (by decide) hroot
  · exact namexLoop_good hK nameiparent path (hg.idup _) hpos hlt

omit hroot in
theorem createDots_good (type : UInt16) (hg : Good K sb s) (hdp : Locked sb s dp) (hip : Locked sb s ip) (hdp0 : 0 < dp)
    (hip0 : 0 < ip) :
    Returns (createDots sb s type dp ip) fun s' => Good K sb s' ∧ ∀ j, Locked sb s j → Locked sb s' j := by
  unfold createDots
  split_ifs
  case neg => exact .ok ⟨hg, fun _ h => h⟩
  rcases hg.addLinks hK hdp 1 with ⟨hg1, hl1⟩
  refine (dirlink_good hg1 (hl1 ip hip) hK hip0.ne' (hg.of_locked hip).1).bind ?_
  rintro ⟨ok, s2⟩ ⟨hg2, hl2⟩
  cases ok with
  | false => exact .error (by simp)
  | true =>
    have hip2 := hl2 rfl ip (hl1 ip hip)
    refine (dirlink_good hg2 hip2 hK hdp0.ne' (hg.of_locked hdp).1).bind ?_
    rintro ⟨ok, s3⟩ ⟨hg3, hl3⟩
    cases ok with
    | false => exact .error (by simp)
    | true => exact .ok ⟨hg3, fun j hj => hl3 rfl j (hl2 rfl j (hl1 j hj))⟩

theorem create_good (path : List UInt8) (type major minor : UInt16) (hg : Good K sb s) (hpos : 0 < cwd)
    (hlt : cwd < sb.ninodes) :
    Returns (create sb s cwd path type major minor) fun (_, s') => Good K sb s' := by
  unfold create
  refine (namex_good hK hroot path true hg hpos hlt).bind ?_
  rintro ⟨r, s1⟩ ⟨hg1, hdp⟩
  cases r with
  | none => exact .ok hg1
  | some p =>
    rcases p with ⟨dp, name⟩
    rcases hdp dp name rfl with ⟨hdp0, hdp'⟩
    refine (ilock_spec hg1 hdp').bind ?_
    rintro s2 ⟨hg2, hl2, _, _, _⟩
    refine (dirlookup_good hK hg2 hl2).bind ?_
    rintro ⟨r, s3⟩ ⟨hg3, hnone, hfound⟩
    cases r with
    | some q =>
      -- There is an entry of that name.
      rcases q with ⟨ip, off⟩
      have hip := (hfound ip off rfl).1.2
      refine (hg3.iput hK).bind fun s4 hg4 => ?_
      refine (ilock_spec hg4 hip).bind ?_
      rintro s5 ⟨hg5, _⟩
      split_ifs
      · exact .ok hg5
      · exact (hg5.iput hK).bind fun s6 hg6 => .ok hg6
    | none =>
      obtain rfl : s3 = s2 := hnone rfl
      refine (ialloc_spec hK hg3 type).bind ?_
      rintro ⟨ip, s4⟩ ⟨hip', hip0, hg4, hl4⟩
      have hdp4 := (hl4 dp hl2).2
      refine (ilock_spec hg4 hip').bind ?_
      rintro s5 ⟨hg5, hip5, _, _, hl5⟩
      rw [hip5.inode]
      have hset := hg5.setInode hK hip5
        (x := { din sb s5.disk ip with major := major, minor := minor, nlink := 1 }) rfl rfl rfl
      generalize s5.setInode sb ip { din sb s5.disk ip with major := major, minor := minor, nlink := 1 } = s6
        at hset ⊢
      rcases hset with ⟨hg6, hl6⟩
      have hdp6 := hl6 dp (hl5 dp hdp4)
      refine (createDots_good hK type hg6 hdp6 (hl6 ip hip5) hdp0 hip0).bind ?_
      rintro s7 ⟨hg7, hl7⟩
      refine (dirlink_good hg7 (hl7 dp hdp6) hK hip0.ne' hip').bind ?_
      rintro ⟨ok, s8⟩ ⟨hg8, _⟩
      cases ok with
      | false => exact .error (by simp)
      | true => exact (hg8.iput hK).bind fun s9 hg9 => .ok hg9

theorem openInode_good (path : List UInt8) (omode : ℕ) (hg : Good K sb s) (hpos : 0 < cwd)
    (hlt : cwd < sb.ninodes) : Returns (openInode sb s cwd path omode) fun (_, s') => Good K sb s' := by
  unfold openInode
  split_ifs
  · exact create_good hK hroot path tFile 0 0 hg hpos hlt
  refine (namex_good hK hroot path false hg hpos hlt).bind ?_
  rintro ⟨r, s1⟩ ⟨hg1, hip⟩
  cases r with
  | none => exact .ok hg1
  | some p =>
    rcases p with ⟨ip, name⟩
    refine (ilock_spec hg1 (hip ip name rfl).2).bind ?_
    rintro s2 ⟨hg2, _⟩
    simp only
    split_ifs
    · exact (hg2.iput hK).bind fun s3 hg3 => .ok hg3
    · exact .ok hg2

omit hroot in
theorem writeChunk_good {off n : ℕ} (src : ℕ → UInt8) (hg : Good K sb s) (hip : ip < sb.ninodes)
    (hdir : (din sb s.disk ip).type ≠ tDir) (hoff : off < 2 ^ 32) (hn : n < 2 ^ 32) :
    Returns (ilock sb s ip >>= fun s => s.writei sb ip off n src) fun (r, s') =>
      Good K sb s' ∧ ∀ m, r = .done m → m = n ∧ (din sb s'.disk ip).type ≠ tDir ∧ off + m < 2 ^ 32 := by
  refine (ilock_spec hg hip).bind ?_
  rintro s1 ⟨hg1, hl1, hdisk, _, _⟩
  rw [← hdisk] at hdir
  by_cases hdev : (din sb s1.disk ip).type = tDev
  · have hwrite : s1.writei sb ip off n src = .ok (.device, s1) := by
      simp only [State.writei, hl1.inode, writei, hdev, if_true, ok_bind, pure_eq_ok, hl1.store_self]
    rw [hwrite]
    exact .ok ⟨hg1, fun _ h => by cases h⟩
  refine (State.writei_spec hg1 src hl1 hdev hoff hn).mono ?_
  rintro ⟨r, s2⟩ (⟨_, rfl, rfl⟩ | ⟨hfits, rfl, x, d, rfl, hwritten⟩)
  · exact ⟨hg1, fun _ h => by cases h⟩
  refine ⟨(hwritten.good hK hg1 hl1 fun h => absurd h hdir).1, fun m hm => ?_⟩
  obtain rfl : n = m := by simpa using hm
  refine ⟨rfl, ?_, Nat.lt_of_le_of_lt hfits.2 (by decide)⟩
  rw [State.store_disk, hwritten.inode, hwritten.kept]
  exact hdir

end Calls

end Xv6.Fs
