import Xv6.Fs.Dir
import Xv6.Fs.Itrunc

/-!
# Icache — in-memory inodes

The inode cache, by inode number: how many pointers there are to an entry, and the copy of the inode if
it is valid.  The cache is write-through; between two calls a valid copy is what the disk has.  `Good` is
the invariant: a consistent file system, a cache that agrees with the disk, and what is required of
directories.  Every elementary step of the system calls keeps it.
-/

namespace Xv6.Fs

open Function (update update_apply update_eq_self update_idem update_of_ne)

/-! ## The code -/

structure State where
  disk : Disk
  /-- `ip->ref` -/
  ref : ℕ → ℕ
  /-- The fields copied from the disk inode, if `ip->valid`. -/
  mem : ℕ → Option Dinode

namespace State

def inode (s : State) (i : ℕ) : Dinode :=
  (s.mem i).getD Dinode.zero

/-- Both the in-memory inode and the disk change. -/
def store (s : State) (i : ℕ) (x : Dinode) (d : Disk) : State :=
  { s with
    disk := d
    mem := update s.mem i (some x) }

@[simp] theorem store_disk (s : State) (i : ℕ) (x : Dinode) (d : Disk) : (s.store i x d).disk = d :=
  rfl

/-- Find the inode with number inum and return the in-memory copy; a recycled cache entry is not valid. -/
def iget (s : State) (i : ℕ) : State :=
  { s with
    ref := update s.ref i (s.ref i + 1)
    mem := if s.ref i = 0 then update s.mem i none else s.mem }

/-- The fields of the inode in hand change, and `iupdate` copies them to disk. -/
def setInode (sb : Superblock) (s : State) (i : ℕ) (x : Dinode) : State :=
  s.store i x (Fs.iupdate sb s.disk i x)

end State

def ilock (sb : Superblock) (s : State) (i : ℕ) : Except Panic State :=
  match s.mem i with
  | some _ => return s
  | none =>
    if (din sb s.disk i).type = 0 then .error .ilockNoType
    else return { s with mem := update s.mem i (some (din sb s.disk i)) }

/-- Drop a reference to an in-memory inode.  If that was the last reference and the inode has no links to
it, free the inode (and its content) on disk. -/
def iput (sb : Superblock) (s : State) (i : ℕ) : Except Panic State := do
  let s ←
    match s.mem i with
    | none => pure s
    | some x =>
      if x.nlink = 0 ∧ s.ref i = 1 then do
        let (d, x) ← itrunc sb s.disk i x
        pure
          { s with
            disk := iupdate sb d i { x with type := 0 }
            mem := update s.mem i none }
      else pure s
  return { s with ref := update s.ref i (s.ref i - 1) }

def ialloc (sb : Superblock) (s : State) (type : UInt16) : Except Panic (ℕ × State) :=
  match Common.scan (fun i => if (din sb s.disk i).type = 0 then some i else none) 1 (sb.ninodes - 1) with
  | none => .error .iallocNoInodes
  | some i =>
    return (i, { s with disk := iupdate sb s.disk i { Dinode.zero with type := type } }.iget i)

def State.readi (sb : Superblock) (s : State) (i off n : ℕ) : Except Panic (Io (List UInt8) × State) := do
  let (r, x, d) ← Fs.readi sb s.disk (s.inode i) off n
  return (r, s.store i x d)

def State.writei (sb : Superblock) (s : State) (i off n : ℕ) (src : ℕ → UInt8) :
    Except Panic (Io ℕ × State) := do
  let (r, x, d) ← Fs.writei sb s.disk i (s.inode i) off n src
  return (r, s.store i x d)

/-! ## The invariant -/

structure Good (K : Dinode → Disk → Prop) (sb : Superblock) (s : State) : Prop where
  cons : Consistent sb s.disk
  /-- A valid copy is the inode on disk, and the inode is allocated. -/
  mem : ∀ i x, s.mem i = some x → i < sb.ninodes ∧ x = din sb s.disk i ∧ x.type ≠ 0
  dirs : ∀ i, i < sb.ninodes → (din sb s.disk i).type = tDir → K (din sb s.disk i) s.disk

def Locked (sb : Superblock) (s : State) (i : ℕ) : Prop :=
  s.mem i = some (din sb s.disk i)

variable {K : Dinode → Disk → Prop} {sb : Superblock} {s s' : State} {i j : ℕ} {x : Dinode}

theorem Locked.inode (h : Locked sb s i) : s.inode i = din sb s.disk i := by
  simp [State.inode, show s.mem i = some _ from h]

theorem Locked.store_self (h : Locked sb s i) : s.store i (din sb s.disk i) s.disk = s := by
  have hmem : s.mem i = some (din sb s.disk i) := h
  simp only [State.store, ← hmem, update_eq_self]

theorem Good.of_locked (hg : Good K sb s) (h : Locked sb s i) : i < sb.ninodes ∧ (din sb s.disk i).type ≠ 0 := by
  rcases hg.mem i _ h with ⟨hi, _, htype⟩
  exact ⟨hi, htype⟩

/-- A step that changes neither the disk nor what the cache says about it. -/
theorem Good.of_disk (hg : Good K sb s) (hdisk : s'.disk = s.disk)
    (hmem : ∀ j x, s'.mem j = some x → s.mem j = some x ∨
      (j < sb.ninodes ∧ x = din sb s.disk j ∧ x.type ≠ 0)) : Good K sb s' := by
  refine ⟨hdisk ▸ hg.cons, fun j x hx => ?_, fun j => hdisk ▸ hg.dirs j⟩
  rw [hdisk]
  rcases hmem j x hx with h | h
  · exact hg.mem j x h
  · exact h

/-! ### `iget` and `ilock` -/

theorem Good.iget (hg : Good K sb s) (i : ℕ) : Good K sb (s.iget i) := by
  refine hg.of_disk rfl fun j x hx => .inl ?_
  simp only [State.iget] at hx
  split_ifs at hx with h
  · by_cases hj : j = i
    · simp [hj] at hx
    · simpa [hj] using hx
  · exact hx

theorem Locked.iget (h : Locked sb s i) (hne : i ≠ j ∨ 0 < s.ref j) : Locked sb (s.iget j) i := by
  unfold Locked State.iget
  split_ifs with href
  · have hij : i ≠ j := by
      rcases hne with hne | hne
      · exact hne
      · omega
    have hmem : s.mem i = some (din sb s.disk i) := h
    simpa [hij] using hmem
  · exact h

theorem ilock_spec (hg : Good K sb s) (hi : i < sb.ninodes) : Returns (ilock sb s i) fun s' =>
      Good K sb s' ∧ Locked sb s' i ∧ s'.disk = s.disk ∧ s'.ref = s.ref ∧ ∀ j, Locked sb s j → Locked sb s' j := by
  unfold ilock
  cases hx : s.mem i with
  | some x =>
    have hlocked : Locked sb s i := by rw [Locked, hx, (hg.mem i x hx).2.1]
    exact .ok ⟨hg, hlocked, rfl, rfl, fun _ h => h⟩
  | none =>
    by_cases htype : (din sb s.disk i).type = 0
    · simp only [htype, if_true]
      exact .error (by simp)
    simp only [htype, if_false]
    refine .ok ⟨hg.of_disk rfl fun j x hj => ?_, by simp [Locked], rfl, rfl, fun j hj => ?_⟩
    · by_cases hji : j = i
      · subst hji
        obtain rfl : din sb s.disk j = x := by simpa using hj
        exact .inr ⟨hi, rfl, htype⟩
      · exact .inl (by simpa [hji] using hj)
    · by_cases hji : j = i
      · simp [Locked, hji]
      · simpa [Locked, hji] using hj

/-! ### Steps that leave the data blocks alone -/

/-- The disk after such a step. -/
structure Kept (K : Dinode → Disk → Prop) (sb : Superblock) (i : ℕ) (d d' : Disk) : Prop where
  cons : Consistent sb d'
  dirs : ∀ j, j < sb.ninodes → (din sb d' j).type = tDir → K (din sb d' j) d'
  others : OthersSame sb i d d'

theorem Good.of_data {d : Disk} (hK : DirInvariant sb K) (hg : Good K sb s)
    (hdata : ∀ c, sb.datastart ≤ c → d c = s.disk c)
    (hinodes : ∀ j, j < sb.ninodes → j ≠ i → din sb d j = din sb s.disk j) (hmaps : Maps sb (din sb d) d)
    (hi : Harmless (din sb s.disk i) (din sb d i)) : Kept K sb i s.disk d := by
  rcases hg.cons.of_data hdata hinodes hmaps hi with ⟨hcons, hothers⟩
  refine ⟨hcons, fun j hj hdir => ?_, hothers⟩
  have hcases : Harmless (din sb s.disk j) (din sb d j) := by
    by_cases hji : j = i
    · exact hji ▸ hi
    · exact .inr (.inr (by simp [hinodes j hj hji]))
  rcases hcases with hfree | hempty | ⟨htype, hsize, haddrs⟩
  · rw [hfree] at hdir
    cases hdir
  · exact hK.empty hempty
  rw [htype] at hdir
  have hne : (din sb s.disk j).type ≠ 0 ∧ (din sb s.disk j).type ≠ tDev := by
    rw [hdir]
    decide
  refine hK.congr (hg.dirs j hj hdir) hsize fun k hk => ?_
  exact hg.cons.byteAt_of_data hdata hj hne.1 hne.2 haddrs hk

/-- The cache still agrees with the disk if the inode in hand was stored in both. -/
theorem Good.store {d : Disk} (hg : Good K sb s) (hl : Locked sb s i) (hd : Kept K sb i s.disk d)
    (hself : din sb d i = x) (htype : x.type ≠ 0) :
    Good K sb (s.store i x d) ∧ ∀ j, Locked sb s j → Locked sb (s.store i x d) j := by
  have hi := (hg.of_locked hl).1
  have hmem : ∀ j, (s.store i x d).mem j = if j = i then some x else s.mem j := fun j => by
    simp [State.store, update_apply]
  refine ⟨⟨hd.cons, fun j y hy => ?_, hd.dirs⟩, fun j hj => ?_⟩
  · rw [hmem] at hy
    split_ifs at hy with hji
    · obtain rfl : x = y := by simpa using hy
      rw [hji]
      exact ⟨hi, hself.symm, htype⟩
    · rcases hg.mem j y hy with ⟨hj, rfl, hne⟩
      exact ⟨hj, (hd.others j hj hji).1.symm, hne⟩
  rw [Locked, hmem]
  split_ifs with hji
  · rw [hji, ← hself]
    rfl
  · have hj' := (hg.of_locked hj).1
    have hmemj : s.mem j = some (din sb s.disk j) := hj
    rw [hmemj, ← (hd.others j hj' hji).1]
    rfl

section Steps

variable (hK : DirInvariant sb K) (hg : Good K sb s)

include hK hg

theorem Good.kept_iupdate (hi : i < sb.ninodes) (htype : x.type = (din sb s.disk i).type)
    (hsize : x.size = (din sb s.disk i).size) (haddrs : x.addrs = (din sb s.disk i).addrs) :
    Kept K sb i s.disk (iupdate sb s.disk i x) := by
  have hmaps : Maps sb (din sb (iupdate sb s.disk i x)) (iupdate sb s.disk i x) := by
    have hstart : Maps sb (update (din sb s.disk) i (din sb s.disk i)) s.disk := by
      rw [update_eq_self]
      exact hg.cons.maps
    refine ((hstart.setMeta haddrs (by rw [htype])).iupdate hi).congr_inodes fun j _ => ?_
    rw [din_iupdate]
  exact hg.of_data hK (fun c hc => iupdate_data hi hc) (fun j _ hji => din_iupdate_cases hji)
    hmaps (.inr (.inr (by rw [din_iupdate_self]; exact ⟨htype, hsize, haddrs⟩)))

theorem Good.setInode (hl : Locked sb s i) (htype : x.type = (din sb s.disk i).type)
    (hsize : x.size = (din sb s.disk i).size) (haddrs : x.addrs = (din sb s.disk i).addrs) :
    Good K sb (s.setInode sb i x) ∧ ∀ j, Locked sb s j → Locked sb (s.setInode sb i x) j := by
  rcases hg.of_locked hl with ⟨hi, hx⟩
  exact hg.store hl (hg.kept_iupdate hK hi htype hsize haddrs) (din_iupdate_self s.disk) (htype ▸ hx)

/-! ### `ialloc` -/

theorem ialloc_spec (type : UInt16) : Returns (ialloc sb s type) fun (i, s') =>
      i < sb.ninodes ∧ 0 < i ∧ Good K sb s' ∧ ∀ j, Locked sb s j → j ≠ i ∧ Locked sb s' j := by
  unfold ialloc
  split
  next => exact .error (by simp)
  next k hscan =>
      rcases Common.scan_eq_some hscan with ⟨k', hk1, hk2, hf, _⟩
      split_ifs at hf with htype
      obtain rfl : k' = k := by simpa using hf
      have hi : k' < sb.ninodes := by omega
      have hfree : ∀ x, s.mem k' ≠ some x := by
        intro x hx
        rcases hg.mem k' x hx with ⟨_, rfl, hne⟩
        exact hne htype
      generalize hnew : ({ Dinode.zero with type := type } : Dinode) = x
      have hempty : x.size = 0 ∧ ∀ m, x.addr m = 0 := by
        rw [← hnew]
        exact ⟨rfl, Dinode.addr_zero⟩
      have hmaps := hg.cons.maps_alloc hi htype hempty.2
      have hkept := hg.of_data hK (i := k') (fun c hc => iupdate_data hi hc)
        (fun j _ hji => din_iupdate_cases hji) hmaps
        (.inr (.inl (by rw [din_iupdate_self]; exact hempty.1)))
      have hgood : Good K sb { s with disk := iupdate sb s.disk k' x } := by
        refine ⟨hkept.cons, fun j y hy => ?_, hkept.dirs⟩
        have hji : j ≠ k' := by
          rintro rfl
          exact hfree y hy
        rcases hg.mem j y hy with ⟨hj, rfl, hne⟩
        exact ⟨hj, (din_iupdate_cases hji).symm, hne⟩
      refine .ok ⟨hi, by omega, hgood.iget k', fun j hj => ?_⟩
      have hji : j ≠ k' := by
        rintro rfl
        exact hfree _ hj
      have hmem : s.mem j = some (din sb s.disk j) := hj
      refine ⟨hji, Locked.iget ?_ (.inl hji)⟩
      simp [Locked, hmem, din_iupdate_cases hji]

/-! ### `iput` -/

omit hK in
theorem Good.setRef (r : ℕ → ℕ) : Good K sb { s with ref := r } := ⟨hg.cons, hg.mem, hg.dirs⟩

/-- `iput` always returns: what it frees was in use. -/
theorem iput_spec (i : ℕ) : ∃ s', iput sb s i = .ok s' ∧ Good K sb s' ∧ OthersSame sb i s.disk s'.disk ∧
      ∀ j, j ≠ i → Locked sb s j → Locked sb s' j := by
  have hsame : OthersSame sb i s.disk s.disk := fun _ _ _ => ⟨rfl, fun _ _ => rfl⟩
  unfold iput
  cases hx : s.mem i with
  | none =>
    refine ⟨{ s with ref := update s.ref i (s.ref i - 1) }, ?_, hg.setRef _, hsame, fun j _ hj => hj⟩
    simp only [pure_eq_ok, ok_bind]
  | some x =>
    rcases hg.mem i x hx with ⟨hi, rfl, htype⟩
    by_cases hlast : (din sb s.disk i).nlink = 0 ∧ s.ref i = 1
    · have hstart : Maps sb (update (din sb s.disk) i (din sb s.disk i)) s.disk := by
        rw [update_eq_self]
        exact hg.cons.maps
      rcases itrunc_spec hi htype hstart with ⟨d, x, htrunc, hfreed, hmaps, _, haddr⟩
      -- The inode has lost its blocks; now it is marked free, on disk and in the cache.
      have hdisk : ∀ j, j < sb.ninodes → din sb (iupdate sb (iupdate sb d i x) i { x with type := 0 }) j =
          update (din sb s.disk) i { x with type := 0 } j := by
        intro j hj
        rw [din_iupdate]
        by_cases hji : j = i
        · simp [hji]
        · rw [update_of_ne hji, update_of_ne hji, din_iupdate_cases hji, hfreed.inodes j hj]
      have hslots : ∀ p, ref sb (update (din sb s.disk) i x) d (i, p) = 0 := by
        intro p
        have hzero : x.slot d p = 0 := by cases p <;> simp [Dinode.slot, haddr]
        simp [ref, hzero]
      have hkept := hg.of_data hK (i := i) (d := iupdate sb (iupdate sb d i x) i { x with type := 0 })
        (fun c hc => by rw [iupdate_data hi hc, iupdate_data hi hc, hfreed.data c hc])
        (fun j hj hji => by rw [hdisk j hj, update_of_ne hji])
        (by
          have hempty := hmaps.setEmpty (x := { x with type := 0 }) hslots haddr
          rw [update_idem] at hempty
          exact ((hempty.iupdate hi).iupdate hi).congr_inodes hdisk)
        (.inl (by rw [hdisk i hi]; simp))
      refine ⟨{ disk := iupdate sb (iupdate sb d i x) i { x with type := 0 }
                ref := update s.ref i (s.ref i - 1)
                mem := update s.mem i none }, ?_, ?_, hkept.others, fun j hji hj => ?_⟩
      · simp only [hlast, and_self, if_true, htrunc, ok_bind, pure_eq_ok]
      · refine ⟨hkept.cons, fun j y hy => ?_, hkept.dirs⟩
        have hji : j ≠ i := by
          rintro rfl
          simp at hy
        have hmem : s.mem j = some y := by simpa [hji] using hy
        rcases hg.mem j y hmem with ⟨hj, rfl, hne⟩
        exact ⟨hj, (hkept.others j hj hji).1.symm, hne⟩
      · have hmem : s.mem j = some (din sb s.disk j) := hj
        have hj' := (hg.of_locked hj).1
        simp [Locked, hji, hmem, (hkept.others j hj' hji).1]
    · refine ⟨{ s with ref := update s.ref i (s.ref i - 1) }, ?_, hg.setRef _, hsame, fun j _ hj => hj⟩
      simp only [hlast, if_false, pure_eq_ok, ok_bind]

theorem iput_returns (i : ℕ) : Returns (iput sb s i) fun s' =>
      Good K sb s' ∧ OthersSame sb i s.disk s'.disk ∧ ∀ j, j ≠ i → Locked sb s j → Locked sb s' j := by
  rcases iput_spec hK hg i with ⟨s', hs', hpost⟩
  rw [hs']
  exact .ok hpost

/-! ### `readi` and `writei` -/

omit hK in
theorem State.readi_unchanged {off n : ℕ} (hl : Locked sb s i) (hoff : off < 2 ^ 32) (hn : n < 2 ^ 32) :
    ∃ r, s.readi sb i off n = .ok (r, s) := by
  rcases hg.of_locked hl with ⟨hi, htype⟩
  rcases Fs.readi_unchanged hg.cons hi htype hoff hn with ⟨r, hr⟩
  refine ⟨r, ?_⟩
  simp only [State.readi, hl.inode, hr, ok_bind, pure_eq_ok, hl.store_self]

omit hK in
theorem State.readi_eq {off n : ℕ} (hl : Locked sb s i) (hdev : (din sb s.disk i).type ≠ tDev)
    (hoff : off ≤ (din sb s.disk i).size.toNat) (hsum : off + n < 2 ^ 32) :
    s.readi sb i off n = .ok (.done ((((din sb s.disk i).content s.disk).drop off).take n), s) := by
  rcases hg.of_locked hl with ⟨hi, htype⟩
  have hr := Fs.readi_eq sb hdev (hg.cons.sized i hi htype hdev) hoff hsum
  simp only [State.readi, hl.inode, hr, ok_bind, pure_eq_ok, hl.store_self]

omit hK in
theorem State.writei_spec {off n : ℕ} (src : ℕ → UInt8) (hl : Locked sb s i)
    (hdev : (din sb s.disk i).type ≠ tDev) (hoff : off < 2 ^ 32) (hn : n < 2 ^ 32) :
    Returns (s.writei sb i off n src) fun (r, s') =>
      (¬ Fits (din sb s.disk i) off n ∧ r = .fail ∧ s' = s) ∨
      (Fits (din sb s.disk i) off n ∧ r = .done n ∧
        ∃ x d, s' = s.store i x d ∧ Written sb i off n src s.disk x d) := by
  rcases hg.of_locked hl with ⟨hi, htype⟩
  have hwrite : Returns (Fs.writei sb s.disk i (din sb s.disk i) off n src) fun (r, x, d) =>
      (Fits (din sb s.disk i) off n ∧ r = .done n ∧ Written sb i off n src s.disk x d) ∨
      (¬ Fits (din sb s.disk i) off n ∧ r = .fail ∧ x = din sb s.disk i ∧ d = s.disk) :=
    .intro (fun a ha => writei_ok hg.cons hi htype hdev hoff hn ha)
      fun e he => (writei_returns sb s.disk i _ off n src).not_bad he
  unfold State.writei
  rw [hl.inode]
  refine hwrite.bind fun a ha => .ok ?_
  rcases ha with ⟨hfits, hr, hwritten⟩ | ⟨hfits, hr, hx, hd⟩
  · exact .inr ⟨hfits, hr, _, _, rfl, hwritten⟩
  · refine .inl ⟨hfits, hr, ?_⟩
    rw [hx, hd, hl.store_self]

theorem Written.good {off n : ℕ} {src : ℕ → UInt8} {d : Disk} (hw : Written sb i off n src s.disk x d)
    (hl : Locked sb s i) (hdir : (din sb s.disk i).type = tDir → K x d) :
    Good K sb (s.store i x d) ∧ ∀ j, Locked sb s j → Locked sb (s.store i x d) j := by
  rcases hg.of_locked hl with ⟨hi, htype⟩
  have htype' : x.type = (din sb s.disk i).type := by rw [hw.kept]
  refine hg.store hl ⟨hw.consistent, fun j hj hdirj => ?_, hw.others⟩ hw.inode (htype' ▸ htype)
  by_cases hji : j = i
  · subst hji
    rw [hw.inode] at hdirj ⊢
    exact hdir (htype' ▸ hdirj)
  rcases hw.others j hj hji with ⟨hdin, hcontent⟩
  rw [hdin] at hdirj hcontent ⊢
  have hne : (din sb s.disk j).type ≠ 0 ∧ (din sb s.disk j).type ≠ tDev := by
    rw [hdirj]
    decide
  exact hK.congr (hg.dirs j hj hdirj) rfl fun k hk => byteAt_of_content (hcontent hne.1 hne.2) hk

end Steps

end Xv6.Fs
