import Xv6.Fs.Icache

/-!
# Dirlink — `dirlookup`, `dirlink` and `isdirempty`

The three functions share one loop over the entries of a directory.  `scanDir_eq` gives it in closed form:
a search through the slots, which ends in a panic if the last entry is not complete.
-/

namespace Xv6.Fs

open Common

/-! ## The code -/

/-- `readi(dp, (char*)&de, off, sizeof(de))`; nothing unless it returns `sizeof(de)`. -/
def readDirent (sb : Superblock) (s : State) (dp off : ℕ) : Except Panic (Option Dirent × State) := do
  let (r, s) ← s.readi sb dp off direntSize
  match r with
  | .done bytes =>
    if bytes.length = direntSize then return (some (Dirent.ofBytes (chars bytes)), s) else return (none, s)
  | _ => return (none, s)

/-- The loop `for(; off < dp->size; off += sizeof(de))` that reads an entry in each turn and stops at the
first one with `stop`: the entry, if any, the offset reached, and the state.  A turn adds to `off`, so that
`dp->size` turns are enough. -/
def scanDir (sb : Superblock) (failed : Panic) (stop : Dirent → Bool) :
    ℕ → State → ℕ → ℕ → Except Panic (Option Dirent × ℕ × State)
  | 0, s, _, off => return (none, off, s)
  | turns + 1, s, dp, off =>
    if off < (s.inode dp).size.toNat then do
      let (r, s) ← readDirent sb s dp off
      match r with
      | none => .error failed
      | some de =>
        if stop de then return (some de, off, s)
        else scanDir sb failed stop turns s dp (off + direntSize)
    else return (none, off, s)

/-- "Entry matches path element." -/
def matchesName (name : List UInt8) (de : Dirent) : Bool :=
  decide (de.inum ≠ 0 ∧ namecmp (chars name) de.chars = 0)

/-- Look for a directory entry in a directory: its inode number, with a new reference to it, and its
offset. -/
def dirlookup (sb : Superblock) (s : State) (dp : ℕ) (name : List UInt8) :
    Except Panic (Option (ℕ × ℕ) × State) :=
  if (s.inode dp).type ≠ tDir then .error .dirlookupNotDir
  else do
    let (r, off, s) ← scanDir sb .dirlookupRead (matchesName name) (s.inode dp).size.toNat s dp 0
    match r with
    | some de => return (some (de.inum.toNat, off), s.iget de.inum.toNat)
    | none => return (none, s)

/-- Write a new directory entry (name, inum) into the directory dp.  The `iput` of an entry that is there
already acquires the lock of that inode, while the caller holds the lock of dp. -/
def dirlink (sb : Superblock) (s : State) (dp : ℕ) (name : List UInt8) (inum : ℕ) :
    Except Panic (Bool × State) := do
  let (r, s) ← dirlookup sb s dp name
  match r with
  | some (i, _) =>
    if i = dp then .error .selfDeadlock
    else do
      let s ← iput sb s i
      return (false, s)
  | none => do
      let (_, off, s) ← scanDir sb .dirlinkRead (fun de => decide (de.inum = 0)) (s.inode dp).size.toNat s dp 0
      let (r, s) ← s.writei sb dp off direntSize (Dirent.make inum name).byte
      if r = .done direntSize then return (true, s) else .error .dirlink

def isdirempty (sb : Superblock) (s : State) (dp : ℕ) : Except Panic (Bool × State) := do
  let (r, _, s) ← scanDir sb .isdiremptyReadi (fun de => decide (de.inum ≠ 0)) (s.inode dp).size.toNat s dp
    (2 * direntSize)
  return (r.isNone, s)

/-! ## The loop -/

variable {K : Dinode → Disk → Prop} {sb : Superblock} {s : State} {dp k : ℕ} {stop : Dirent → Bool}

section Loop

variable (hg : Good K sb s) (hl : Locked sb s dp) (hdir : (din sb s.disk dp).type = tDir)

include hg hl hdir

/-- An entry is read if all of it is there. -/
theorem readDirent_eq (hk : direntSize * k < (din sb s.disk dp).size.toNat) : readDirent sb s dp (direntSize * k) =
      .ok (if k < (din sb s.disk dp).slots then some ((din sb s.disk dp).entry s.disk k) else none, s) := by
  rcases hg.of_locked hl with ⟨hi, htype⟩
  have hdev : (din sb s.disk dp).type ≠ tDev := by
    rw [hdir]
    decide
  have hlt := (din sb s.disk dp).size.toNat_lt
  have hsize := (hg.cons.sized dp hi htype hdev).size_le
  have hmax : maxfile * bsize < 2 ^ 31 := by decide
  have hsum : direntSize * k + direntSize < 2 ^ 32 := by
    unfold direntSize at *
    omega
  have hread := State.readi_eq hg hl hdev hk.le hsum
  rw [take_drop_content] at hread
  simp only [readDirent, hread, ok_bind, List.length_map, List.length_range]
  by_cases hwhole : k < (din sb s.disk dp).slots
  · have hmin : min direntSize ((din sb s.disk dp).size.toNat - direntSize * k) = direntSize := by
      unfold Dinode.slots direntSize at *
      omega
    have hbytes : Dirent.ofBytes (chars ((List.range direntSize).map
        fun j => (din sb s.disk dp).byteAt s.disk (direntSize * k + j))) =
        (din sb s.disk dp).entry s.disk k := by
      refine Dirent.ofBytes_congr fun j hj => ?_
      simp [chars, hj]
    simp only [hmin, if_true, hwhole, hbytes, pure_eq_ok]
  · have hmin : min direntSize ((din sb s.disk dp).size.toNat - direntSize * k) ≠ direntSize := by
      unfold Dinode.slots direntSize at *
      omega
    simp only [hmin, if_false, hwhole, pure_eq_ok]

/-- The slot that the loop looks for. -/
def Dinode.find (x : Dinode) (d : Disk) (stop : Dirent → Bool) (k : ℕ) : Option ℕ :=
  scan (fun j => if stop (x.entry d j) then some j else none) k (x.slots - k)

omit hg hl hdir in
theorem find_step {x : Dinode} {d : Disk} (hk : k < x.slots) :
    x.find d stop k = if stop (x.entry d k) then some k else x.find d stop (k + 1) := by
  have hcount : x.slots - k = x.slots - (k + 1) + 1 := by omega
  unfold Dinode.find
  rw [hcount]
  by_cases hstop : stop (x.entry d k) = true
  · simp [scan, hstop]
  · simp [scan, hstop]

omit hg hl hdir in
theorem find_of_le {x : Dinode} {d : Disk} (hk : x.slots ≤ k) : x.find d stop k = none := by
  have hcount : x.slots - k = 0 := by omega
  unfold Dinode.find
  rw [hcount]
  rfl

/-- The loop in closed form. -/
theorem scanDir_eq (failed : Panic) (stop : Dirent → Bool) (turns : ℕ)
    (hturns : (din sb s.disk dp).size.toNat ≤ direntSize * (k + turns)) :
    scanDir sb failed stop turns s dp (direntSize * k) = match (din sb s.disk dp).find s.disk stop k with
      | some j => .ok (some ((din sb s.disk dp).entry s.disk j), direntSize * j, s)
      | none =>
        if (din sb s.disk dp).size.toNat ≤ direntSize * max k (din sb s.disk dp).slots then
          .ok (none, direntSize * max k (din sb s.disk dp).slots, s)
        else .error failed := by
  have hslots : direntSize * (din sb s.disk dp).slots ≤ (din sb s.disk dp).size.toNat := Nat.mul_div_le _ _
  -- Behind the last entry the loop ends.
  have hend : ∀ k, (din sb s.disk dp).size.toNat ≤ direntSize * k →
      (din sb s.disk dp).find s.disk stop k = none ∧ max k (din sb s.disk dp).slots = k := by
    intro k hk
    have hle : (din sb s.disk dp).slots ≤ k := by
      unfold direntSize at *
      omega
    exact ⟨find_of_le hle, by omega⟩
  induction turns generalizing k with
  | zero =>
    rcases hend k hturns with ⟨hfind, hmax⟩
    have hle : (din sb s.disk dp).size.toNat ≤ direntSize * k := hturns
    simp only [scanDir, hfind, hmax, hle, if_true, pure_eq_ok]
  | succ turns ih =>
    simp only [scanDir, hl.inode]
    by_cases hk : direntSize * k < (din sb s.disk dp).size.toNat
    · simp only [hk, if_true, readDirent_eq hg hl hdir hk, ok_bind]
      by_cases hlt : k < (din sb s.disk dp).slots
      · simp only [hlt, if_true, find_step hlt]
        by_cases hstop : stop ((din sb s.disk dp).entry s.disk k) = true
        · simp only [hstop, if_true, pure_eq_ok]
        have hmax : max (k + 1) (din sb s.disk dp).slots = max k (din sb s.disk dp).slots := by omega
        have hrest := ih (k := k + 1) (by rwa [Nat.add_right_comm, Nat.add_assoc])
        rw [hmax] at hrest
        simp only [hstop]
        exact hrest
      · -- The last entry is not complete.
        have hmax : max k (din sb s.disk dp).slots = k := by omega
        simp only [hlt, if_false, find_of_le (Nat.le_of_not_lt hlt), hmax, Nat.not_le.2 hk]
    · rcases hend k (Nat.le_of_not_lt hk) with ⟨hfind, hmax⟩
      simp only [hk, if_false, hfind, hmax, Nat.le_of_not_lt hk, if_true, pure_eq_ok]

end Loop

/-! ## Names in a directory -/

structure Dinode.Occurs (x : Dinode) (d : Disk) (name : List UInt8) (k : ℕ) : Prop where
  lt : k < x.slots
  live : (x.entry d k).inum ≠ 0
  str : (x.entry d k).str = key name

structure Dinode.Absent (x : Dinode) (d : Disk) (name : List UInt8) : Prop where
  whole : x.size.toNat = direntSize * x.slots
  free : ∀ k, ¬ x.Occurs d name k

theorem matchesName_iff {name : List UInt8} {de : Dirent} :
    matchesName name de = true ↔ de.inum ≠ 0 ∧ de.str = key name := by
  simp [matchesName, namecmp_eq_zero_iff]

theorem find_eq_some {x : Dinode} {d : Disk} {j : ℕ} (h : x.find d stop k = some j) :
    k ≤ j ∧ j < x.slots ∧ stop (x.entry d j) = true ∧ ∀ m, k ≤ m → m < j → ¬ stop (x.entry d m) = true := by
  rcases scan_eq_some h with ⟨j', hkj, hj, hf, hbefore⟩
  by_cases hstop : stop (x.entry d j') = true
  · obtain rfl : j' = j := by simpa [hstop] using hf
    refine ⟨hkj, by omega, hstop, fun m hkm hm hstopm => ?_⟩
    simpa [hstopm] using hbefore m hkm hm
  · simp [hstop] at hf

theorem find_eq_none {x : Dinode} {d : Disk} (h : x.find d stop k = none) {j : ℕ} (hkj : k ≤ j)
    (hj : j < x.slots) : ¬ stop (x.entry d j) = true := by
  intro hstop
  have hnone := scan_eq_none_iff.1 h j hkj (by omega)
  simp [hstop] at hnone

/-! ## `dirlookup` -/

section Lookup

variable {name : List UInt8} (hg : Good K sb s) (hl : Locked sb s dp)

include hg hl

theorem dirlookup_eq (name : List UInt8) (hdir : (din sb s.disk dp).type = tDir) : dirlookup sb s dp name =
      match (din sb s.disk dp).find s.disk (matchesName name) 0 with
      | some k => .ok (some (((din sb s.disk dp).entry s.disk k).inum.toNat, direntSize * k),
          s.iget ((din sb s.disk dp).entry s.disk k).inum.toNat)
      | none =>
        if (din sb s.disk dp).size.toNat ≤ direntSize * (din sb s.disk dp).slots then .ok (none, s)
        else .error .dirlookupRead := by
  have hloop := scanDir_eq hg hl hdir .dirlookupRead (matchesName name) (k := 0)
    (din sb s.disk dp).size.toNat (by unfold direntSize; omega)
  rw [Nat.mul_zero, Nat.zero_max] at hloop
  simp only [dirlookup, hl.inode, hdir, ne_eq, not_true_eq_false, if_false, hloop]
  cases hfind : (din sb s.disk dp).find s.disk (matchesName name) 0 with
  | some k => simp only [ok_bind, pure_eq_ok]
  | none =>
    by_cases hwhole : (din sb s.disk dp).size.toNat ≤ direntSize * (din sb s.disk dp).slots
    · simp only [hwhole, if_true, ok_bind, pure_eq_ok]
    · simp only [hwhole, if_false]
      rfl

theorem dirlookup_returns : Returns (dirlookup sb s dp name) fun (r, s') =>
      (din sb s.disk dp).type = tDir ∧ ((r = none ∧ s' = s ∧ (din sb s.disk dp).Absent s.disk name) ∨
          ∃ k, (din sb s.disk dp).Occurs s.disk name k ∧
            r = some (((din sb s.disk dp).entry s.disk k).inum.toNat, direntSize * k) ∧
            s' = s.iget ((din sb s.disk dp).entry s.disk k).inum.toNat) := by
  by_cases hdir : (din sb s.disk dp).type = tDir
  · rw [dirlookup_eq hg hl name hdir]
    cases hfind : (din sb s.disk dp).find s.disk (matchesName name) 0 with
    | some k =>
      rcases find_eq_some hfind with ⟨_, hk, hmatch, _⟩
      rcases matchesName_iff.1 hmatch with ⟨hlive, hstr⟩
      exact .ok ⟨hdir, .inr ⟨k, ⟨hk, hlive, hstr⟩, rfl, rfl⟩⟩
    | none =>
      by_cases hwhole : (din sb s.disk dp).size.toNat ≤ direntSize * (din sb s.disk dp).slots
      · simp only [hwhole, if_true]
        refine .ok ⟨hdir, .inl ⟨rfl, rfl, ?_, fun k hk => ?_⟩⟩
        · exact Nat.le_antisymm hwhole (Nat.mul_div_le _ _)
        · exact find_eq_none hfind (Nat.zero_le k) hk.lt (matchesName_iff.2 ⟨hk.live, hk.str⟩)
      · simp only [hwhole, if_false]
        exact .error (by simp)
  · simp only [dirlookup, hl.inode, ne_eq, hdir, not_false_eq_true, if_true]
    exact .error (by simp)

/-! ## `dirlink` -/

omit hg hl in
/-- Where `dirlink` writes, if the name is not there yet. -/
theorem Dinode.Absent.put {x : Dinode} {d : Disk} {inum m : ℕ} (h : x.Absent d name) (hm : m ≤ x.slots)
    (hfree : m < x.slots → (x.entry d m).inum = 0) (hpos : inum ≠ 0) (hlt : inum < 2 ^ 16) :
    x.Put d m (Dirent.make inum name) where
  whole := h.whole
  le := hm
  free := hfree
  live := by
    intro hzero
    have hnat := Dirent.inum_make name hlt
    rw [hzero] at hnat
    exact hpos hnat.symm
  new k hk hlive hstr := h.free k ⟨hk, hlive, by rw [hstr, Dirent.str_make]; rfl⟩

theorem dirlink_returns {inum : ℕ} (hK : DirInvariant sb K) (hpos : inum ≠ 0) (hlt : inum < 2 ^ 16) :
    Returns (dirlink sb s dp name inum) fun (r, s') =>
      (din sb s.disk dp).type = tDir ∧ ((r = false ∧ Good K sb s' ∧ ∃ k, (din sb s.disk dp).Occurs s.disk name k ∧
            ((din sb s.disk dp).entry s.disk k).inum.toNat ≠ dp ∧
            OthersSame sb ((din sb s.disk dp).entry s.disk k).inum.toNat s.disk s'.disk) ∨
          (r = true ∧ (din sb s.disk dp).Absent s.disk name ∧ ∃ m x d,
            (din sb s.disk dp).Put s.disk m (Dirent.make inum name) ∧
            Written sb dp (direntSize * m) direntSize (Dirent.make inum name).byte s.disk x d ∧
            s' = s.store dp x d)) := by
  unfold dirlink
  refine (dirlookup_returns hg hl).bind ?_
  rintro ⟨r, s'⟩ ⟨hdir, ⟨rfl, rfl, habsent⟩ | ⟨k, hk, rfl, rfl⟩⟩
  · -- Not there: the first free slot, or the end.
    have hdev : (din sb s'.disk dp).type ≠ tDev := by
      rw [hdir]
      decide
    have hloop := scanDir_eq hg hl hdir .dirlinkRead (fun de => decide (de.inum = 0)) (k := 0)
      (din sb s'.disk dp).size.toNat (by unfold direntSize; omega)
    rw [Nat.mul_zero, Nat.zero_max] at hloop
    have hslot : ∃ r m, scanDir sb .dirlinkRead (fun de => decide (de.inum = 0))
        (din sb s'.disk dp).size.toNat s' dp 0 = .ok (r, direntSize * m, s') ∧
        m ≤ (din sb s'.disk dp).slots ∧
        (m < (din sb s'.disk dp).slots → ((din sb s'.disk dp).entry s'.disk m).inum = 0) := by
      cases hfind : (din sb s'.disk dp).find s'.disk (fun de => decide (de.inum = 0)) 0 with
      | some m =>
        rcases find_eq_some hfind with ⟨_, hm, hstop, _⟩
        rw [hfind] at hloop
        exact ⟨_, m, hloop, hm.le, fun _ => by simpa using hstop⟩
      | none =>
        rw [hfind] at hloop
        simp only [habsent.whole, Nat.le_refl, if_true] at hloop
        refine ⟨none, (din sb s'.disk dp).slots, ?_, Nat.le_refl _, fun hlt => absurd hlt (Nat.lt_irrefl _)⟩
        rw [habsent.whole]
        exact hloop
    rcases hslot with ⟨r, m, hscan, hm, hfree⟩
    have hput := habsent.put hm hfree hpos hlt
    simp only [hl.inode, hscan, ok_bind]
    have hoff : direntSize * m < 2 ^ 32 := by
      have hlt := (din sb s'.disk dp).size.toNat_lt
      rw [habsent.whole] at hlt
      exact Nat.lt_of_le_of_lt (Nat.mul_le_mul_left _ hm) hlt
    refine (State.writei_spec hg (Dirent.make inum name).byte hl hdev hoff (by decide)).bind ?_
    rintro ⟨r', s''⟩ (⟨_, rfl, rfl⟩ | ⟨_, rfl, x, d, rfl, hwritten⟩)
    · exact .error (by simp)
    · simp only [if_true]
      exact .ok ⟨hdir, .inr ⟨rfl, habsent, m, x, d, hput, hwritten, rfl⟩⟩
  · -- There already: the reference that was taken is dropped.
    simp only
    split_ifs with hself
    · exact .error (by simp)
    · refine (iput_returns hK (hg.iget _) _).bind fun s' hs' => .ok ⟨hdir, .inl ⟨rfl, hs'.1, k, hk, hself, ?_⟩⟩
      exact hs'.2.1

theorem dirlink_good {inum : ℕ} (hK : DirInvariant sb K) (hpos : inum ≠ 0) (hlt : inum < sb.ninodes) :
    Returns (dirlink sb s dp name inum) fun (r, s') =>
      Good K sb s' ∧ (r = true → ∀ j, Locked sb s j → Locked sb s' j) := by
  have hlt' : inum < 2 ^ 16 := Nat.lt_of_lt_of_le hlt sb.ninodes_le
  refine (dirlink_returns hg hl hK hpos hlt').mono ?_
  rintro ⟨r, s'⟩ ⟨hdir, ⟨rfl, hgood, _⟩ | ⟨rfl, _, m, x, d, hput, hwritten, rfl⟩⟩
  · refine ⟨hgood, fun h => ?_⟩
    cases h
  · have hi := (hg.of_locked hl).1
    have hvalid : (Dirent.make inum name).inum.toNat < sb.ninodes := by rwa [Dirent.inum_make name hlt']
    have hstore := hwritten.good hK hg hl fun hd => hK.put hwritten hput (hg.dirs dp hi hd) hvalid
    exact ⟨hstore.1, fun _ => hstore.2⟩

theorem isdirempty_returns (hdir : (din sb s.disk dp).type = tDir) :
    Returns (isdirempty sb s dp) fun (_, s') => s' = s := by
  have hloop := scanDir_eq hg hl hdir .isdiremptyReadi (fun de => decide (de.inum ≠ 0)) (k := 2)
    (din sb s.disk dp).size.toNat (by unfold direntSize; omega)
  unfold isdirempty
  rw [hl.inode, Nat.mul_comm 2, hloop]
  split
  next => exact .ok rfl
  next =>
      split_ifs
      · exact .ok rfl
      · exact .error (by simp)

end Lookup

end Xv6.Fs
