import Xv6.Fs.Reservation

/-!
# Transactions — every system call stays within its reservation

The blocks that the system calls of `sysfile.c` log, along the same lines as the proofs that they keep the file
system consistent.  `create` of a directory is the call that touches most: the two inodes, a data block and an
indirect block for each of three new entries, and the bitmap.
-/

namespace Xv6.Fs
namespace Logged

open Common.Traced

/-! ## `namex` -/

section Namex

variable {sb : Superblock} {s0 s : State} {ip cwd : ℕ}

theorem namexLoop_silent (hs : Searchable sb s0) (nameiparent : Bool) (path : List UInt8) (h : Holding sb s0 s ip) :
    Silent (namexLoop sb nameiparent s ip path) := by
  induction hn : path.length using Nat.strong_induction_on generalizing s ip path with
  | _ n ih =>
    rw [namexLoop]
    split
    next =>
        split_ifs
        · exact (iput_silent h.good (h.kept h.used.kept)).bind fun _ _ => Silent.pure _
        · exact .pure _
    next name path' hskip =>
        refine (Silent.lift _).bind fun s1 hs1 => ?_
        rcases h.lock with ⟨s1', hlock, h1, hl1⟩
        rw [erase_lift, hlock] at hs1
        obtain rfl : s1' = s1 := by simpa using hs1
        split_ifs with hdir
        · exact (iput_silent h1.good (h1.kept h1.used.kept)).bind fun _ _ => Silent.pure _
        · exact Silent.pure _
        rw [hl1.inode, not_not] at hdir
        refine (dirlookup_silent h1.good hl1 name).bind fun r hr => ?_
        rw [erase_dirlookup] at hr
        rcases @dirlookup_dirMap sb s1' ip name h1.good hl1 hdir with
          ⟨next, k, hmap, _, _, hfound⟩ | ⟨_, hfound⟩
        · obtain rfl : (some (next, direntSize * k), s1'.iget next) = r := by simpa [hfound] using hr
          refine (iput_silent (h1.good.iget next) (h1.kept_iget h1.used.kept next)).bind fun s2 hs2 => ?_
          rw [h1.disk] at hmap hdir
          rcases h1.step h1.used.kept next with ⟨s2', hput, h2⟩
          rw [erase_iput, hput] at hs2
          obtain rfl : s2' = s2 := by simpa using hs2
          exact ih _ (hn ▸ length_skipelem hskip) path' ⟨h2, hs.named ip h.used.lt hdir _ next hmap⟩ rfl
        · obtain rfl : (none, s1') = r := by simpa [hfound] using hr
          exact (iput_silent h1.good (h1.kept h1.used.kept)).bind fun _ _ => Silent.pure _

theorem namex_silent (hs : Searchable sb s0) (hcwd : InUse sb s0 cwd) (nameiparent : Bool) (path : List UInt8) :
    Silent (namex sb s0 cwd path nameiparent) := by
  unfold namex
  split_ifs
  · exact namexLoop_silent hs nameiparent path ⟨held_iget hs.good _, hs.root⟩
  · exact namexLoop_silent hs nameiparent path ⟨held_idup hs.good _, hcwd⟩

variable {β : Type} {R : β → List ℕ → Prop}

theorem namex_leaves (hs : Searchable sb s0) (hcwd : InUse sb s0 cwd) {path : List UInt8} (hpath : ∀ a ∈ path, a ≠ 0)
    (nameiparent : Bool) {f : Option (ℕ × List UInt8) × State → Logged β}
    (hnone : ∀ s, Released sb s0 s → Leaves (f (none, s)) R)
    (hsome : ∀ i name s, Fs.namex sb s0 cwd path nameiparent = .ok (some (i, name), s) → Holding sb s0 s i →
      Leaves (f (some (i, name), s)) R) : Leaves (namex sb s0 cwd path nameiparent >>= f) R := by
  refine (namex_silent hs hcwd nameiparent path).bind ?_
  rintro ⟨_ | ⟨i, name⟩, s⟩ hr <;> rw [erase_namex] at hr
  · exact hnone s (namex_ok hs hcwd hpath hr)
  · exact hsome i name s hr (namex_ok hs hcwd hpath hr)

theorem ilock_leaves {K : Dinode → Disk → Prop} (hg : Good K sb s) (hip : ip < sb.ninodes) {f : State → Logged β}
    (h : ∀ s1, Good K sb s1 → Locked sb s1 ip → s1.disk = s.disk → (∀ j, Locked sb s j → Locked sb s1 j) →
      Leaves (f s1) R) : Leaves (lift (ilock sb s ip) >>= f) R := by
  refine (Silent.lift _).bind fun s1 hs1 => ?_
  rw [erase_lift] at hs1
  rcases (ilock_spec hg hip).of_ok hs1 with ⟨hg1, hl1, hdisk, _, hkeep⟩
  exact h s1 hg1 hl1 hdisk hkeep

end Namex

/-! ## `dirlink` -/

variable {sb : Superblock} {s : State} {dp ip cwd off n : ℕ} {l : List ℕ} {name : List UInt8}

theorem addLinks_leaves {β : Type} {R : β → List ℕ → Prop} (hl : sb.iblock ip ∈ l) {delta : UInt16} {f : State → Logged β}
    (h : ∀ w, Covered sb l w → Leaves (f (s.addLinks sb ip delta)) fun b w' => R b (w ++ w')) :
    Leaves (addLinks sb s ip delta >>= f) R := by
  refine Leaves.bind (show Logs sb l _ from (Logs.iupdate hl).bind fun _ _ => .pure _) fun s1 w1 hs1 h1 => ?_
  obtain rfl : s.addLinks sb ip delta = s1 := by simpa using hs1
  exact h w1 h1

theorem addLinks_logs {β : Type} (hl : sb.iblock ip ∈ l) {delta : UInt16} {f : State → Logged β}
    (h : Logs sb l (f (s.addLinks sb ip delta))) : Logs sb l (addLinks sb s ip delta >>= f) :=
  addLinks_leaves hl fun _ h1 => Leaves.mono h fun _ _ _ h2 => h1.append h2

theorem length_blocksOf_dirent (j : ℕ) : (blocksOf (direntSize * j) direntSize).length = 1 := by
  have hsame : (direntSize * j + direntSize - 1) / bsize = direntSize * j / bsize := by
    unfold direntSize bsize
    omega
  have hne : direntSize ≠ 0 := by decide
  rw [blocksOf, if_neg hne, hsame, Nat.sub_self, List.length_range']

theorem exists_of_length_le_one (h : l.length ≤ 1) : ∃ c, ∀ b ∈ l, b = c := by
  cases l with
  | nil => exact ⟨0, fun b hb => absurd hb List.not_mem_nil⟩
  | cons c l =>
    obtain rfl : l = [] := by simpa using h
    exact ⟨c, fun b hb => List.mem_singleton.1 hb⟩

section Entries

variable {K : Dinode → Disk → Prop} (hsize : sb.size ≤ 2 * bpb) (hg : Good K sb s) (hl : Locked sb s dp)

include hsize hg hl

theorem writeEntry_leaves (j : ℕ) (src : ℕ → UInt8) :
    Leaves (stateWritei sb s dp (direntSize * j) direntSize src) fun _ w =>
      ∃ a c, Covered sb [sb.iblock dp, a, c] w := by
  refine (stateWritei_leaves hg hsize src hl).mono ?_
  rintro _ w _ ⟨a, l, hlen, hw⟩
  rw [length_blocksOf_dirent] at hlen
  rcases exists_of_length_le_one hlen with ⟨c, hc⟩
  refine ⟨a, c, hw.mono fun b hb => ?_⟩
  rcases List.mem_cons.1 hb with rfl | hb
  · simp
  · rcases List.mem_cons.1 hb with rfl | hb
    · simp
    · simp [hc b hb]

theorem dirlink_leaves (inum : ℕ) :
    Leaves (dirlink sb s dp name inum) fun _ w => ∃ a c, Covered sb [sb.iblock dp, a, c] w := by
  unfold dirlink
  refine (dirlookup_silent hg hl name).bind ?_
  rintro ⟨r, s1⟩ hr
  rw [erase_dirlookup] at hr
  rcases (dirlookup_returns hg hl).of_ok hr with ⟨hdir, ⟨rfl, rfl, _⟩ | ⟨k, hk, rfl, rfl⟩⟩
  · refine (scanDir_silent hg hl _ _).bind ?_
    rintro ⟨r, off, s2⟩ hr2
    have hloop := scanDir_eq hg hl hdir .dirlinkRead (fun de => decide (de.inum = 0)) (k := 0)
      (din sb s1.disk dp).size.toNat (by unfold direntSize; omega)
    rw [erase_scanDir, hl.inode, ← Nat.mul_zero direntSize, hloop] at hr2
    have hs2 : s2 = s1 ∧ ∃ j, off = direntSize * j := by
      split at hr2
      next j _ =>
          obtain ⟨-, rfl, rfl⟩ : _ = r ∧ direntSize * j = off ∧ s1 = s2 := by simpa using hr2
          exact ⟨rfl, j, rfl⟩
      next =>
          split_ifs at hr2
          obtain ⟨-, rfl, rfl⟩ : _ = r ∧ direntSize * _ = off ∧ s1 = s2 := by simpa using hr2
          exact ⟨rfl, _, rfl⟩
    rcases hs2 with ⟨rfl, j, rfl⟩
    refine Leaves.bind (writeEntry_leaves hsize hg hl j _) ?_
    rintro ⟨r, s3⟩ w1 _ ⟨a, c, h1⟩
    simp only
    split_ifs
    · exact Leaves.pure ⟨a, c, h1.append .nil⟩
    · exact Leaves.error
  · simp only
    split_ifs
    · exact Leaves.error
    · refine Leaves.bind (iput_logs (hg.iget _) hsize (List.mem_singleton_self _)) fun _ w1 _ h1 => Leaves.pure ?_
      exact ⟨sb.iblock ((din sb s.disk dp).entry s.disk k).inum.toNat, 0, (h1.append .nil).mono (by simp)⟩

end Entries

/-! ## `create` -/

section Calls

variable (hsize : sb.size ≤ 2 * bpb)

include hsize

variable {K : Dinode → Disk → Prop}

theorem createDots_leaves (hK : DirInvariant sb K) (hg : Good K sb s) (hdp : Locked sb s dp) (hip : Locked sb s ip)
    (hip0 : 0 < ip) (type : UInt16) :
    Leaves (createDots sb s type dp ip) fun _ w =>
      ∃ l : List ℕ, l.length ≤ 4 ∧ Covered sb (sb.iblock dp :: sb.iblock ip :: l) w := by
  unfold createDots
  split_ifs
  · refine addLinks_leaves (List.mem_singleton_self _) fun w1 h1 => ?_
    rcases hg.addLinks hK hdp 1 with ⟨hg1, hl1⟩
    refine Leaves.bind (dirlink_leaves hsize hg1 (hl1 ip hip) ip) ?_
    rintro ⟨ok, s2⟩ w2 hs2 ⟨a, b, h2⟩
    rw [erase_dirlink] at hs2
    rcases (dirlink_good hg1 (hl1 ip hip) hK hip0.ne' (hg.of_locked hip).1).of_ok hs2 with ⟨hg2, hl2⟩
    cases ok with
    | false => exact Leaves.error
    | true =>
      refine Leaves.bind (dirlink_leaves hsize hg2 (hl2 rfl ip (hl1 ip hip)) dp) ?_
      rintro ⟨ok, s3⟩ w3 _ ⟨c, e, h3⟩
      cases ok with
      | false => exact Leaves.error
      | true =>
        refine Leaves.pure ⟨[a, b, c, e], Nat.le_refl 4, ?_⟩
        exact (h1.mono (by simp)).append ((h2.mono (by simp)).append ((h3.mono (by simp)).append .nil))
  · exact Leaves.pure ⟨[], Nat.zero_le 4, .nil⟩

omit hsize in
theorem ialloc_leaves (type : UInt16) : Leaves (ialloc sb s type) fun r w => Covered sb [sb.iblock r.1] w := by
  unfold ialloc
  refine (Silent.lift _).bind fun r _ => ?_
  refine Leaves.bind (show Logs sb [sb.iblock r.1] _ from .logWrite (.inr List.mem_cons_self)) fun _ _ _ h1 => ?_
  exact Leaves.pure (h1.append .nil)

theorem createNew_leaves (hK : DirInvariant sb K) (hg : Good K sb s) (hdp : Locked sb s dp) (hip : Locked sb s ip)
    (hip0 : 0 < ip) (hdp0 : 0 < dp) (type major minor : UInt16) :
    Leaves (do
      let s ← setInode sb s ip { s.inode ip with major := major, minor := minor, nlink := 1 }
      let s ← createDots sb s type dp ip
      let (ok, s) ← dirlink sb s dp name ip
      if ok then
        let s ← iput sb s dp
        return (some ip, s)
      else Common.Traced.lift (.error .createDirlink)) fun r w =>
      r.1 = some ip ∧ ∃ l : List ℕ, l.length ≤ 6 ∧ Covered sb (sb.iblock dp :: sb.iblock ip :: l) w := by
  rw [hip.inode]
  have hset := hg.setInode hK hip
    (x := { din sb s.disk ip with major := major, minor := minor, nlink := 1 }) rfl rfl rfl
  refine Leaves.bind (show Logs sb [sb.iblock ip] _ from
    (Logs.iupdate List.mem_cons_self).bind fun _ _ => .pure _) fun s1 w1 hs1 h1 => ?_
  obtain rfl : s.setInode sb ip { din sb s.disk ip with major := major, minor := minor, nlink := 1 } = s1 := by
    simpa using hs1
  generalize s.setInode sb ip { din sb s.disk ip with major := major, minor := minor, nlink := 1 } = s1 at hset ⊢
  rcases hset with ⟨hg1, hl1⟩
  have hdp1 := hl1 dp hdp
  refine Leaves.bind (createDots_leaves hsize hK hg1 hdp1 (hl1 ip hip) hip0 type) ?_
  rintro s2 w2 hs2 ⟨l, hlen, h2⟩
  rw [erase_createDots] at hs2
  rcases (createDots_good hK type hg1 hdp1 (hl1 ip hip) hdp0 hip0).of_ok hs2 with ⟨hg2, hl2⟩
  refine Leaves.bind (dirlink_leaves hsize hg2 (hl2 dp hdp1) ip) ?_
  rintro ⟨ok, s3⟩ w3 hs3 ⟨a, b, h3⟩
  rw [erase_dirlink] at hs3
  have hg3 := ((dirlink_good hg2 (hl2 dp hdp1) hK hip0.ne' (hg.of_locked hip).1).of_ok hs3).1
  cases ok with
  | false => exact Leaves.error
  | true =>
    refine Leaves.bind (iput_logs hg3 hsize (List.mem_singleton_self (sb.iblock dp))) fun s4 w4 _ h4 => ?_
    refine Leaves.pure ⟨rfl, a :: b :: l, by simp only [List.length_cons]; omega, ?_⟩
    have hsub : ∀ c ∈ sb.iblock dp :: sb.iblock ip :: l, c ∈ sb.iblock dp :: sb.iblock ip :: a :: b :: l := by
      intro c hc
      simp only [List.mem_cons] at hc ⊢
      tauto
    exact (h1.mono (by simp)).append
      ((h2.mono hsub).append ((h3.mono (by simp)).append ((h4.mono (by simp)).append .nil)))

/-- A list of at most eight blocks covers the log, and it has the block of the inode that is returned. -/
def Fitting (sb : Superblock) (r : Option ℕ) (w : List ℕ) : Prop :=
  ∃ l : List ℕ, l.length ≤ 8 ∧ (∀ ip, r = some ip → sb.iblock ip ∈ l) ∧ Covered sb l w

omit hsize in
theorem fitting_none (hlen : l.length ≤ 8) {w : List ℕ} (h : Covered sb l w) : Fitting sb none w :=
  ⟨l, hlen, fun ip hip => (by cases hip), h⟩

omit hsize in
theorem fitting_nil : Fitting sb none [] := fitting_none (Nat.zero_le 8) (l := []) .nil

section Path

variable (hs : Searchable sb s) (hcwd : InUse sb s cwd) {path : List UInt8} (hpath : ∀ a ∈ path, a ≠ 0)

include hs hcwd hpath

theorem create_leaves (hcwd0 : 0 < cwd) (type major minor : UInt16) :
    Leaves (create sb s cwd path type major minor) fun r w => Fitting sb r.1 w := by
  have hK := dirInvariant_dirOk sb
  unfold create
  refine namex_leaves hs hcwd hpath true (fun _ _ => Leaves.pure fitting_nil) fun dp name s1 hr h1 => ?_
  · have hpos := ((namex_good hK hs.root.lt path true hs.good hcwd0 hcwd.lt).of_ok hr).2
    refine ilock_leaves h1.good h1.used.lt fun s2 hg2 hl2 _ _ => ?_
    refine (dirlookup_silent hg2 hl2 name).bind ?_
    rintro ⟨r, s3⟩ hr3
    rw [erase_dirlookup] at hr3
    rcases (dirlookup_good hK hg2 hl2).of_ok hr3 with ⟨hg3, hnone, hfound⟩
    cases r with
    | some q =>
      rcases q with ⟨ip, off⟩
      have hip := (hfound ip off rfl).1.2
      -- Only the two inodes can be freed.
      refine Leaves.bind (iput_logs hg3 hsize (l := [sb.iblock dp, sb.iblock ip]) (by simp)) fun s4 w4 hs4 h4 => ?_
      rw [erase_iput] at hs4
      have hg4 := (hg3.iput hK).of_ok hs4
      refine ilock_leaves hg4 hip fun s5 hg5 _ _ _ => ?_
      split_ifs
      · refine Leaves.pure ⟨[sb.iblock dp, sb.iblock ip], by simp, fun ip' heq => ?_, h4.append .nil⟩
        obtain rfl : ip = ip' := Option.some.inj heq
        simp
      · refine Leaves.bind (iput_logs hg5 hsize (l := [sb.iblock dp, sb.iblock ip]) (by simp)) fun s6 w6 _ h6 => ?_
        exact Leaves.pure (fitting_none (by simp) (h4.append (h6.append .nil)))
    | none =>
      obtain rfl : s3 = s2 := hnone rfl
      refine Leaves.bind (ialloc_leaves type) ?_
      rintro ⟨ip, s4⟩ w4 hr4 h4
      rw [erase_ialloc] at hr4
      rcases (ialloc_spec hK hg3 type).of_ok hr4 with ⟨hip', hip0, hg4, hl4⟩
      refine ilock_leaves hg4 hip' fun s5 hg5 hip5 _ hl5 => ?_
      refine (createNew_leaves hsize hK hg5 (hl5 dp (hl4 dp hl2).2) hip5 hip0 (hpos dp name rfl).1 type major
        minor).mono ?_
      rintro ⟨r, s'⟩ w _ ⟨hsome, l, hlen, hw⟩
      refine ⟨sb.iblock dp :: sb.iblock ip :: l, by simp only [List.length_cons]; omega, fun ip' heq => ?_,
        (h4.mono (by simp)).append hw⟩
      obtain rfl : ip = ip' := by
        simp only at hsome heq
        rw [hsome] at heq
        exact Option.some.inj heq
      simp

/-- `iput` of the inode that was returned. -/
theorem sysOpen_leaves (hcwd0 : 0 < cwd) (omode : ℕ) (full : Bool) :
    Leaves (sysOpen sb s cwd path omode full) fun _ w => Fitting sb none w := by
  have hK := dirInvariant_dirOk sb
  have hopen : Leaves (openInode sb s cwd path omode) fun r w => Fitting sb r.1 w := by
    unfold openInode
    split_ifs
    · exact create_leaves hsize hs hcwd hpath hcwd0 tFile 0 0
    refine namex_leaves hs hcwd hpath false (fun _ _ => Leaves.pure fitting_nil) fun ip name s1 _ h1 => ?_
    refine ilock_leaves h1.good h1.used.lt fun s2 hg2 _ _ _ => ?_
    split_ifs
    · refine Leaves.bind (iput_logs hg2 hsize (List.mem_singleton_self (sb.iblock ip))) fun _ w3 _ h3 => ?_
      exact Leaves.pure (fitting_none (by simp) (h3.append .nil))
    · refine Leaves.pure ⟨[sb.iblock ip], by simp, fun ip' heq => ?_, .nil⟩
      obtain rfl : ip = ip' := Option.some.inj heq
      simp
  unfold sysOpen
  refine Leaves.bind hopen ?_
  rintro ⟨r, s1⟩ w1 hr ⟨l, hlen, hmem, h1⟩
  rw [erase_openInode] at hr
  have hg1 := (openInode_good hK hs.root.lt path omode hs.good hcwd0 hcwd.lt).of_ok hr
  cases r with
  | none => exact Leaves.pure (fitting_none hlen (h1.append .nil))
  | some ip =>
    simp only
    split_ifs
    · refine Leaves.bind (iput_logs hg1 hsize (hmem ip rfl)) fun _ w2 _ h2 => ?_
      exact Leaves.pure (fitting_none hlen (h1.append (h2.append .nil)))
    · exact Leaves.pure (fitting_none hlen (h1.append .nil))

theorem sysMake_leaves (hcwd0 : 0 < cwd) (type major minor : UInt16) :
    Leaves (sysMake sb s cwd path type major minor) fun _ w => Fitting sb none w := by
  have hK := dirInvariant_dirOk sb
  unfold sysMake
  refine Leaves.bind (create_leaves hsize hs hcwd hpath hcwd0 type major minor) ?_
  rintro ⟨r, s1⟩ w1 hr ⟨l, hlen, hmem, h1⟩
  rw [erase_create] at hr
  have hg1 := (create_good hK hs.root.lt path type major minor hs.good hcwd0 hcwd.lt).of_ok hr
  cases r with
  | none => exact Leaves.pure (fitting_none hlen (h1.append .nil))
  | some ip => exact Leaves.mono (iput_logs hg1 hsize (hmem ip rfl)) fun _ w2 _ h2 => fitting_none hlen (h1.append h2)

theorem sysChdir_leaves : Leaves (sysChdir sb s cwd path) fun _ w => Fitting sb none w := by
  unfold sysChdir
  refine namex_leaves hs hcwd hpath false (fun _ _ => Leaves.pure fitting_nil) fun ip name s1 _ h1 => ?_
  refine ilock_leaves h1.good h1.used.lt fun s2 hg2 _ _ _ => ?_
  split_ifs
  · refine Leaves.bind (iput_logs hg2 hsize (List.mem_singleton_self (sb.iblock ip))) fun _ w3 _ h3 => ?_
    exact Leaves.pure (fitting_none (by simp) (h3.append .nil))
  · refine Leaves.bind (iput_logs hg2 hsize (List.mem_singleton_self (sb.iblock cwd))) fun _ w3 _ h3 => ?_
    exact Leaves.pure (fitting_none (by simp) (h3.append .nil))

/-! ## `sys_unlink` -/

omit hs hcwd hpath in
theorem unlinkEntry_logs {K : Dinode → Disk → Prop} (hK : DirInvariant sb K) {k : ℕ} (hg : Good K sb s)
    (hdp : Locked sb s dp) (hip : Locked sb s ip) (hne : ip ≠ dp) (hdir : (din sb s.disk dp).type = tDir)
    (hk : (din sb s.disk dp).Occurs s.disk name k) :
    Leaves (unlinkEntry sb s dp ip (direntSize * k)) fun _ w => Fitting sb none w := by
  unfold unlinkEntry
  refine Leaves.bind (writeEntry_leaves hsize hg hdp k _) ?_
  rintro ⟨r, s1⟩ w1 hs1 ⟨a, c, h1⟩
  rw [erase_stateWritei] at hs1
  have hdev : (din sb s.disk dp).type ≠ tDev := by
    rw [hdir]
    decide
  have hlt : direntSize * k < 2 ^ 32 := by
    have hsz := (din sb s.disk dp).size.toNat_lt
    have hk' := hk.lt
    unfold Dinode.slots direntSize at *
    omega
  rcases (State.writei_spec hg Dirent.zero.byte hdp hdev hlt (by decide)).of_ok hs1 with
    ⟨_, rfl, rfl⟩ | ⟨_, rfl, x, d, rfl, hwritten⟩
  · exact Leaves.error
  have hK' : K x d := hK.erase hwritten hk.lt (hg.dirs dp (hg.of_locked hdp).1 hdir)
  rcases hwritten.good hK hg hdp (fun _ => hK') with ⟨hg1, hl1⟩
  generalize s.store dp x d = s1 at hg1 hl1 ⊢
  have hrest : ∀ s2, Good K sb s2 → Locked sb s2 ip → Logs sb [sb.iblock dp, a, c, sb.iblock ip] (do
      let s ← iput sb s2 dp
      let s ← addLinks sb s ip (-1)
      iput sb s ip) := by
    intro s2 hg2 hl2
    refine (iput_logs hg2 hsize (by simp)).bind fun s3 hs3 => ?_
    rw [erase_iput] at hs3
    rcases (iput_returns hK hg2 dp).of_ok hs3 with ⟨hg3, _, hl3⟩
    exact addLinks_logs (by simp) (iput_logs (hg3.addLinks hK (hl3 ip hne hl2) (-1)).1 hsize (by simp))
  have hcover : Covered sb [sb.iblock dp, a, c, sb.iblock ip] w1 := h1.mono (by simp)
  simp only [if_true]
  split_ifs
  · rcases hg1.addLinks hK (hl1 dp hdp) (-1) with ⟨hg2, hl2⟩
    exact Leaves.mono (addLinks_logs (by simp) (hrest _ hg2 (hl2 ip (hl1 ip hip)))) fun _ w2 _ h2 =>
      fitting_none (by simp) (hcover.append h2)
  · refine Leaves.mono (Logs.bind (.pure _) fun s2 hs2 => ?_) fun _ w2 _ h2 => fitting_none (by simp) (hcover.append h2)
    obtain rfl : s1 = s2 := by simpa using hs2
    exact hrest s1 hg1 (hl1 ip hip)

theorem sysUnlink_leaves : Leaves (sysUnlink sb s cwd path) fun _ w => Fitting sb none w := by
  have hK := dirInvariant_dirOk sb
  unfold sysUnlink
  refine namex_leaves hs hcwd hpath true (fun _ _ => Leaves.pure fitting_nil) fun dp name s1 _ h1 => ?_
  · refine ilock_leaves h1.good h1.used.lt fun s2 hg2 hl2 _ _ => ?_
    have hput : ∀ {s3 i}, Good (fun x d => x.DirOk d sb.ninodes) sb s3 →
        Leaves (iput sb s3 i) fun _ w => Fitting sb none w := fun hg3 =>
      Leaves.mono (iput_logs hg3 hsize (List.mem_singleton_self _)) fun _ _ _ h => fitting_none (by simp) h
    simp only
    split_ifs
    · exact hput hg2
    refine (dirlookup_silent hg2 hl2 name).bind ?_
    rintro ⟨r, s3⟩ hr3
    rw [erase_dirlookup] at hr3
    rcases (dirlookup_good hK hg2 hl2).of_ok hr3 with ⟨hg3, hnone, hfound⟩
    cases r with
    | none => exact hput hg3
    | some q =>
      rcases q with ⟨ip, off⟩
      rcases hfound ip off rfl with ⟨⟨_, hip⟩, hl3, hdisk, hdir, k, hk, rfl⟩
      simp only
      split_ifs with hself
      · exact Leaves.error
      refine ilock_leaves hg3 hip fun s4 hg4 hip4 hdisk4 hl4 => ?_
      have hsame : s4.disk = s2.disk := hdisk4.trans hdisk
      rw [← hsame] at hdir hk
      have hentry := unlinkEntry_logs hsize hK hg4 (hl4 dp (hl3 hself)) hip4 hself hdir hk
      split_ifs with hnlink hdir'
      · exact Leaves.error
      · rw [hip4.inode] at hdir'
        refine (isdirempty_silent hg4 hip4).bind ?_
        rintro ⟨empty, s5⟩ hs5
        rw [erase_isdirempty] at hs5
        obtain rfl : s5 = s4 := (isdirempty_returns hg4 hip4 hdir').of_ok hs5
        cases empty with
        | true => exact hentry
        | false =>
          refine Leaves.bind (iput_logs hg4 hsize (l := [sb.iblock ip, sb.iblock dp]) (by simp))
            fun s6 w6 hs6 h6 => ?_
          rw [erase_iput] at hs6
          exact Leaves.mono (iput_logs ((hg4.iput hK).of_ok hs6) hsize (by simp)) fun _ w7 _ h7 =>
            fitting_none (by simp) (h6.append h7)
      · exact hentry

/-! ## `sys_link` -/

omit hs hcwd hpath in
theorem linkBad_logs {K : Dinode → Disk → Prop} (hK : DirInvariant sb K) (hg : Good K sb s) (hip : ip < sb.ninodes)
    (hl : sb.iblock ip ∈ l) : Logs sb l (linkBad sb s ip) := by
  refine ilock_leaves hg hip fun s1 hg1 hl1 _ _ => ?_
  exact addLinks_logs hl (iput_logs (hg1.addLinks hK hl1 (-1)).1 hsize hl)

theorem sysLink_leaves (hcwd0 : 0 < cwd) {new : List UInt8} (hnew : ∀ a ∈ new, a ≠ 0) :
    Leaves (sysLink sb s cwd path new) fun _ w => Fitting sb none w := by
  have hK := dirInvariant_dirOk sb
  unfold sysLink
  refine namex_leaves hs hcwd hpath false (fun _ _ => Leaves.pure fitting_nil) fun ip last s1 hr h1 => ?_
  · have hpos := ((namex_good hK hs.root.lt path false hs.good hcwd0 hcwd.lt).of_ok hr).2
    refine (Silent.lift _).bind fun s2 hs2 => ?_
    rcases h1.lock with ⟨s2', hlock, h2, hl2⟩
    rw [erase_lift, hlock] at hs2
    obtain rfl : s2' = s2 := by simpa using hs2
    split_ifs with hdir
    · exact Leaves.mono (iput_logs h2.good hsize (List.mem_singleton_self _)) fun _ _ _ h => fitting_none (by simp) h
    rw [hl2.inode, h2.disk] at hdir
    rcases hs.addLinks h2 hl2 hdir 1 with ⟨hs3, hkeep⟩
    refine addLinks_leaves (List.mem_singleton_self _) fun w3 h3 => ?_
    refine namex_leaves hs3 (hkeep cwd hcwd) hnew true (fun s4 h4 => ?_) fun dp name s4 _ h4 => ?_
    · exact Leaves.mono (linkBad_logs hsize hK h4.good h1.used.lt (List.mem_singleton_self _)) fun _ w5 _ h5 =>
        fitting_none (by simp) (h3.append h5)
    refine ilock_leaves h4.good h4.used.lt fun s5 hg5 hl5 _ _ => ?_
    refine Leaves.bind (dirlink_leaves hsize hg5 hl5 ip) ?_
    rintro ⟨ok, s6⟩ w6 hs6 ⟨a, c, h6⟩
    rw [erase_dirlink] at hs6
    have hg6 := ((dirlink_good hg5 hl5 hK (hpos ip last rfl).1.ne' h1.used.lt).of_ok hs6).1
    -- The two inodes and the blocks of the new entry.
    have hrest : Logs sb [sb.iblock dp, a, c, sb.iblock ip] (do
        let s ← iput sb s6 dp
        if ok = true then iput sb s ip else linkBad sb s ip) := by
      refine (iput_logs hg6 hsize (by simp)).bind fun s7 hs7 => ?_
      rw [erase_iput] at hs7
      have hg7 := (hg6.iput hK).of_ok hs7
      split_ifs
      · exact iput_logs hg7 hsize (by simp)
      · exact linkBad_logs hsize hK hg7 h1.used.lt (by simp)
    exact Leaves.mono hrest fun _ w7 _ h7 =>
      fitting_none (by simp) ((h3.mono (by simp)).append ((h6.mono (by simp)).append h7))

end Path

/-! ## `filewrite` -/

omit hsize in
/-- A chunk of `filewrite` lies within four blocks, wherever it begins. -/
theorem length_blocksOf_chunk (hn : n ≤ filewriteMax) : (blocksOf off n).length ≤ 4 := by
  have hmax : filewriteMax = 3 * bsize := by decide
  rw [hmax] at hn
  rw [blocksOf]
  split_ifs with hzero
  · exact Nat.zero_le 4
  · rw [List.length_range']
    unfold bsize at *
    omega

theorem writeChunk_leaves (hg : Good K sb s) (hip : ip < sb.ninodes) (src : ℕ → UInt8) (hn : n ≤ filewriteMax) :
    Leaves (writeChunk sb s ip off n src) fun _ w => Fitting sb none w := by
  refine ilock_leaves hg hip fun s1 hg1 hl1 _ _ => ?_
  refine (stateWritei_leaves hg1 hsize src hl1).mono ?_
  rintro _ w _ ⟨a, l, hlen, hw⟩
  have hchunk : (blocksOf off n).length ≤ 4 := length_blocksOf_chunk hn
  exact fitting_none (by simp only [List.length_cons]; omega) hw

theorem filewrite_fitting (hK : DirInvariant sb K) (turns : ℕ) (src : ℕ → UInt8) (hg : Good K sb s)
    (hip : ip < sb.ninodes) (hdir : (din sb s.disk ip).type ≠ tDir) (hoff : off < 2 ^ 32) {r : Io Unit × State}
    {ws : List (List ℕ)} (h : filewrite sb turns s ip off n src = .ok (r, ws)) : ∀ w ∈ ws, Fitting sb none w := by
  induction turns generalizing s off n src r ws with
  | zero =>
    obtain ⟨-, rfl⟩ : _ = r ∧ [] = ws := by simpa [filewrite] using h
    exact fun w hw => absurd hw List.not_mem_nil
  | succ turns ih =>
    rw [filewrite] at h
    split_ifs at h with hpos
    · have hchunk := @writeChunk_leaves sb s ip off (min n filewriteMax) hsize K hg hip src (Nat.min_le_right _ _)
      rcases bind_eq_ok.1 h with ⟨⟨⟨r1, s1⟩, w1⟩, hrun, hrest⟩
      have hw1 := hchunk _ _ hrun
      have herase := erase_of_run hrun
      rw [erase_writeChunk] at herase
      have hmin : min n filewriteMax < 2 ^ 32 := Nat.lt_of_le_of_lt (Nat.min_le_right _ _) (by decide)
      rcases (writeChunk_good hK src hg hip hdir hoff hmin).of_ok herase with ⟨hg1, hdone⟩
      cases r1 with
      | device =>
        obtain ⟨-, rfl⟩ : _ = r ∧ [w1] = ws := by simpa using hrest
        exact fun w hw => List.mem_singleton.1 hw ▸ hw1
      | fail =>
        obtain ⟨-, rfl⟩ : _ = r ∧ [w1] = ws := by simpa using hrest
        exact fun w hw => List.mem_singleton.1 hw ▸ hw1
      | done m =>
        rcases hdone m rfl with ⟨rfl, hdir1, hoff1⟩
        simp only [ne_eq, not_true_eq_false, if_false] at hrest
        rcases bind_eq_ok.1 hrest with ⟨⟨r2, ws2⟩, hloop, hret⟩
        obtain ⟨-, rfl⟩ : r2 = r ∧ w1 :: ws2 = ws := by simpa using hret
        intro w hw
        rcases List.mem_cons.1 hw with rfl | hw
        · exact hw1
        · exact ih _ hg1 hdir1 hoff1 hloop w hw
    · obtain ⟨-, rfl⟩ : _ = r ∧ [] = ws := by simpa using h
      exact fun w hw => absurd hw List.not_mem_nil

end Calls

end Logged

/-! ## All calls -/

/-- The paths of a call are strings. -/
def Call.Strings : Call → Prop
  | .openFile _ path _ _ => ∀ a ∈ path, a ≠ 0
  | .mkdir _ path => ∀ a ∈ path, a ≠ 0
  | .mknod _ path _ _ => ∀ a ∈ path, a ≠ 0
  | .link _ old new => (∀ a ∈ old, a ≠ 0) ∧ ∀ a ∈ new, a ≠ 0
  | .unlink _ path => ∀ a ∈ path, a ≠ 0
  | .chdir _ path => ∀ a ∈ path, a ≠ 0
  | .write _ _ _ _ => True
  | .close _ => True

theorem Logged.Fitting.card_le {sb : Superblock} {w : List ℕ} (h : Logged.Fitting sb none w) :
    w.toFinset.card ≤ maxOpBlocks := by
  rcases h with ⟨l, hlen, _, hcover⟩
  calc w.toFinset.card ≤ l.length + 2 := hcover.card_le
    _ ≤ maxOpBlocks := Nat.add_le_add_right hlen 2

theorem Call.logs_fitting {sb : Superblock} {s s' : State} {ws : List (List ℕ)} (hs : Searchable sb s)
    (hheld : ∀ i, Holds sb s i → (din sb s.disk i).type ≠ 0) (hsize : sb.size ≤ 2 * bpb) (c : Call)
    (hc : c.Allowed sb s) (hstr : c.Strings) (h : c.logs sb s = .ok (s', ws)) :
    ∀ w ∈ ws, Logged.Fitting sb none w := by
  have hK := dirInvariant_dirOk sb
  have hused : ∀ {i}, Holds sb s i → InUse sb s i := fun hi => ⟨hi.lt, hheld _ hi, .inr hi.ref⟩
  -- A call that is one transaction.
  have hone : ∀ {α : Type} {m : Logged α} (f : α → State), Common.Traced.Leaves m (fun _ w => Logged.Fitting sb none w) →
      (do let p ← m.run; return (f p.1, [p.2])) = Except.ok (s', ws) → ∀ w ∈ ws, Logged.Fitting sb none w := by
    intro α m f hm heq
    rcases bind_eq_ok.1 heq with ⟨⟨a, w⟩, hrun, hret⟩
    obtain ⟨-, rfl⟩ : f a = s' ∧ [w] = ws := by simpa using hret
    exact fun v hv => List.mem_singleton.1 hv ▸ hm _ _ hrun
  cases c with
  | openFile cwd path omode full =>
    exact hone Prod.snd (Logged.sysOpen_leaves hsize hs (hused hc) hstr hc.pos omode full) h
  | mkdir cwd path => exact hone id (Logged.sysMake_leaves hsize hs (hused hc) hstr hc.pos tDir 0 0) h
  | mknod cwd path major minor =>
    exact hone id (Logged.sysMake_leaves hsize hs (hused hc) hstr hc.pos tDev major minor) h
  | link cwd old new => exact hone id (Logged.sysLink_leaves hsize hs (hused hc) hstr.1 hc.pos hstr.2) h
  | unlink cwd path => exact hone id (Logged.sysUnlink_leaves hsize hs (hused hc) hstr) h
  | chdir cwd path => exact hone Prod.snd (Logged.sysChdir_leaves hsize hs (hused hc) hstr) h
  | write ip off n src =>
    rcases hc with ⟨hold, hdir, hoff⟩
    rcases bind_eq_ok.1 h with ⟨⟨⟨r, s1⟩, ws1⟩, hrun, hret⟩
    obtain ⟨-, rfl⟩ : s1 = s' ∧ ws1 = ws := by simpa using hret
    exact Logged.filewrite_fitting hsize hK n src hs.good hold.lt hdir hoff hrun
  | close ip =>
    exact hone id (Common.Traced.Leaves.mono (Logged.iput_logs hs.good hsize (List.mem_singleton_self _))
      fun _ _ _ hw => Logged.fitting_none (by simp) hw) h

/-- Every transaction of a call on a consistent file system logs at most `MAXOPBLOCKS` blocks: each chunk of
`filewrite` is one, every other call is one. -/
theorem logs_le_maxOpBlocks {sb : Superblock} {s s' : State} {ws : List (List ℕ)} (hs : Searchable sb s)
    (hheld : ∀ i, Holds sb s i → (din sb s.disk i).type ≠ 0) (hsize : sb.size ≤ 2 * bpb) (c : Call)
    (hc : c.Allowed sb s) (hstr : c.Strings) (h : c.logs sb s = .ok (s', ws)) :
    c.run sb s = .ok s' ∧ ∀ w ∈ ws, w.toFinset.card ≤ maxOpBlocks := by
  constructor
  · rw [← Call.map_logs, h]
    rfl
  · exact fun w hw => (Call.logs_fitting hs hheld hsize c hc hstr h w hw).card_le

/-- The write of a byte to an empty file. -/
theorem logs_smallDisk_write : ∃ t ws,
    (Call.write 1 0 1 fun _ => 7).logs smallSb (smallState (smallDisk tFile)) = .ok (t, ws) ∧
      ∀ w ∈ ws, w.toFinset.card ≤ maxOpBlocks := by
  rcases exists_write_smallDisk with ⟨hallowed, t, hrun⟩
  have hs := searchable_smallState tFile (by decide)
  have hheld : ∀ i, Holds smallSb (smallState (smallDisk tFile)) i →
      (din smallSb (smallState (smallDisk tFile)).disk i).type ≠ 0 := by
    intro i hi
    obtain rfl : i = 1 := by
      by_contra hne
      have href := hi.ref
      simp [smallState, hne] at href
    exact hs.root.type
  cases hlogs : (Call.write 1 0 1 fun _ => 7).logs smallSb (smallState (smallDisk tFile)) with
  | error e =>
    rw [← Call.map_logs, hlogs] at hrun
    cases hrun
  | ok p =>
    rcases p with ⟨t', ws⟩
    exact ⟨t', ws, rfl, (logs_le_maxOpBlocks hs hheld (by decide) _ hallowed trivial hlogs).2⟩

end Xv6.Fs
