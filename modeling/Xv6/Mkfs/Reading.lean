import Mathlib.Data.List.Nodup
import Xv6.Fs.Dirlink
import Xv6.Mkfs.Consistency

/-!
# Reading — the kernel reads what `mkfs` has written

The kernel finds the super block of the image, the name of every file in the root directory, and in the
inode of that name the bytes of the file (`reads_of_main`).  The search in the root directory stops at the
entry; what is behind the last one, in a block that the directory may not have, is not looked at.
-/

namespace Xv6.Mkfs

open Fs

/-! ## What is read -/

/-- What `readsb` copies from block 1 are the fields of `sb`. -/
structure Readsb (d : Disk) (sb : Superblock) : Prop where
  size : (d 1).getInt 0 = sb.size
  nblocks : (d 1).getInt 4 = sb.nblocks
  ninodes : (d 1).getInt 8 = sb.ninodes
  nlog : (d 1).getInt 12 = sb.nlog
  logstart : (d 1).getInt 16 = sb.logstart
  inodestart : (d 1).getInt 20 = sb.inodestart
  bmapstart : (d 1).getInt 24 = sb.bmapstart

/-- The kernel runs on the image, nothing has been written yet, and the root directory is locked. -/
structure OnImage (d : Disk) (s : State) : Prop where
  disk : s.disk = d
  mem : ∀ i x, s.mem i = some x → x = din sb d i
  root : s.mem rootino = some (din sb d rootino)

/-- The name of the file leads to its bytes. -/
def Reads (d : Disk) (f : HostFile) : Prop :=
  ∀ s, OnImage d s → ∃ inum off s₁ s₂,
    dirlookup sb s rootino f.target = .ok (some (inum, off), s₁) ∧ ilock sb s₁ inum = .ok s₂ ∧
      s₂.readi sb inum 0 (s₂.inode inum).size.toNat = .ok (.done f.data, s₂)

def booted (d : Disk) : State :=
  { disk := d
    ref := Function.update (fun _ => 0) rootino 1
    mem := Function.update (fun _ => none) rootino (some (din sb d rootino)) }

variable {m : Image} {d d' : Disk} {files : ℕ → List UInt8} {fs : List HostFile} {s : State} {i j k : ℕ}

theorem onImage_booted : OnImage d (booted d) := by
  refine ⟨rfl, fun i x hx => ?_, by simp [booted]⟩
  by_cases hi : i = rootino
  · subst hi
    simpa [booted] using hx.symm
  · simp [booted, hi] at hx

/-! ## The super block -/

theorem readsb_blank (h : d 1 = sbBlock) : Readsb d sb := by
  have hget : ∀ (b : Block) {off v : ℕ}, off + 4 ≤ bsize → v < 2 ^ 32 → (b.setInt off v).getInt off = v :=
    fun b _ _ hoff hv => b.getInt_setInt_self hoff hv
  have hskip : ∀ (b : Block) {off off' v : ℕ}, off' + 4 ≤ off → (b.setInt off v).getInt off' = b.getInt off' :=
    fun b _ _ _ hlt => b.getInt_setInt_of_disjoint (.inl hlt)
  -- The words are set in ascending order: all later ones are skipped.
  refine ⟨?_, ?_, ?_, ?_, ?_, ?_, ?_⟩ <;> rw [h, sbBlock]
  · iterate 6 rw [hskip _ (by decide)]
    exact hget _ (by decide) (by decide)
  · iterate 5 rw [hskip _ (by decide)]
    exact hget _ (by decide) (by decide)
  · iterate 4 rw [hskip _ (by decide)]
    exact hget _ (by decide) (by decide)
  · iterate 3 rw [hskip _ (by decide)]
    exact hget _ (by decide) (by decide)
  · iterate 2 rw [hskip _ (by decide)]
    exact hget _ (by decide) (by decide)
  · rw [hskip _ (by decide)]
    exact hget _ (by decide) (by decide)
  · exact hget _ (by decide) (by decide)

/-! ## The search in a directory -/

section Search

variable {dp : ℕ} {x : Dinode} (hx : s.mem dp = some x) (hdev : x.type ≠ tDev)

include hx hdev

theorem readDirent_of_block (sb : Superblock) (hsize : direntSize * (k + 1) ≤ x.size.toNat)
    (hblock : x.blockAt s.disk (direntSize * k / bsize) ≠ 0) :
    readDirent sb s dp (direntSize * k) = .ok (some (x.entry s.disk k), s) := by
  have hlt := x.size.toNat_lt
  have hdiv : ∀ b, direntSize * k ≤ b → b < direntSize * k + direntSize → b / bsize = direntSize * k / bsize := by
    intro b hlo hhi
    unfold direntSize bsize at *
    omega
  have hread : readi sb s.disk x (direntSize * k) direntSize =
      .ok (.done (((x.content s.disk).drop (direntSize * k)).take direntSize), x, s.disk) :=
    readi_of_blocks sb hdev (by unfold direntSize at *; omega) (by unfold direntSize at *; omega)
      fun b hlo hhi _ => by rwa [hdiv b hlo hhi]
  have hinode : s.inode dp = x := by simp [State.inode, hx]
  have hstore : s.store dp x s.disk = s := by
    simp only [State.store, ← hx, Function.update_eq_self]
  have hmin : min direntSize (x.size.toNat - direntSize * k) = direntSize := by
    unfold direntSize at *
    omega
  have hbytes : Dirent.ofBytes (chars ((List.range direntSize).map
      fun j => x.byteAt s.disk (direntSize * k + j))) = x.entry s.disk k := by
    refine Dirent.ofBytes_congr fun j hj => ?_
    simp [chars, hj]
  rw [take_drop_content, hmin] at hread
  simp only [readDirent, State.readi, hinode, hread, hstore, ok_bind, pure_eq_ok, List.length_map,
    List.length_range, if_true, hbytes]

/-- The loop stops at entry `j`, if the blocks up to there are there. -/
theorem scanDir_found (sb : Superblock) (failed : Panic) (stop : Dirent → Bool) (turns : ℕ) (hturns : j < k + turns) (hkj : k ≤ j)
    (hsize : direntSize * (j + 1) ≤ x.size.toNat)
    (hblocks : ∀ i, i ≤ j → x.blockAt s.disk (direntSize * i / bsize) ≠ 0)
    (hbefore : ∀ i, i < j → stop (x.entry s.disk i) = false) (hstop : stop (x.entry s.disk j) = true) :
    scanDir sb failed stop turns s dp (direntSize * k) = .ok (some (x.entry s.disk j), direntSize * j, s) := by
  have hinode : s.inode dp = x := by simp [State.inode, hx]
  induction turns generalizing k with
  | zero => omega
  | succ turns ih =>
    have hk : direntSize * (k + 1) ≤ x.size.toNat := (Nat.mul_le_mul_left _ (Nat.succ_le_succ hkj)).trans hsize
    have hlt : direntSize * k < x.size.toNat := by
      unfold direntSize at *
      omega
    simp only [scanDir, hinode, hlt, if_true, readDirent_of_block hx hdev sb hk (hblocks k hkj), ok_bind]
    rcases Nat.eq_or_lt_of_le hkj with rfl | hkj'
    · simp only [hstop, if_true, pure_eq_ok]
    · have hrest := ih (k := k + 1) (by omega) hkj'
      simp only [hbefore k hkj', Bool.false_eq_true, if_false]
      exact hrest

end Search

/-! ## The entries of the root directory -/

theorem chars_append_right (l l' : List UInt8) : chars (l ++ l') (l.length + k) = chars l' k := by
  have hidx : l.length + k - l.length = k := by omega
  simp [chars, List.getElem?_append_right (Nat.le_add_right l.length k), hidx]

theorem chars_append_left {l : List UInt8} (l' : List UInt8) (hk : k < l.length) : chars (l ++ l') k = chars l k := by
  simp [chars, List.getElem?_append_left hk]

theorem ofBytes_direntBytes {l : List Dirent} {de : Dirent} (hk : l[k]? = some de) :
    Dirent.ofBytes (fun j => chars (direntBytes l) (direntSize * k + j)) = de := by
  induction l generalizing k with
  | nil => simp at hk
  | cons e l ih =>
    have hcons : direntBytes (e :: l) = (List.range direntSize).map e.byte ++ direntBytes l := rfl
    have hlen : ((List.range direntSize).map e.byte).length = direntSize := by simp
    cases k with
    | zero =>
      obtain rfl : e = de := by simpa using hk
      refine (Dirent.ofBytes_congr fun j hj => ?_).trans e.ofBytes_byte
      rw [hcons, Nat.mul_zero, Nat.zero_add, chars_append_left _ (by rwa [hlen])]
      simp [chars, hj]
    | succ k =>
      refine (Dirent.ofBytes_congr fun j hj => ?_).trans (ih (by simpa using hk))
      have hidx : direntSize * (k + 1) + j = ((List.range direntSize).map e.byte).length + (direntSize * k + j) := by
        rw [hlen, Nat.mul_succ]
        omega
      rw [hcons, hidx, chars_append_right]

theorem getElem_direntsFrom (inum : ℕ) (hk : k < fs.length) :
    (direntsFrom inum fs)[k]? = some (Dirent.make (inum + k) fs[k].target) := by
  induction fs generalizing inum k with
  | nil => simp at hk
  | cons f fs ih =>
    cases k with
    | zero => rfl
    | succ k =>
      have hrest := ih (inum + 1) (Nat.lt_of_succ_lt_succ hk)
      have hidx : inum + 1 + k = inum + (k + 1) := by omega
      simpa [direntsFrom, hidx] using hrest

def entries (fs : List HostFile) : List Dirent :=
  rootDirents ++ direntsFrom 2 fs

theorem getElem_entries (hk : k < fs.length) :
    (entries fs)[2 + k]? = some (Dirent.make (2 + k) fs[k].target) := by
  have hlen : rootDirents.length = 2 := rfl
  have hidx : 2 + k - rootDirents.length = k := by omega
  rw [entries, List.getElem?_append_right (by omega), hidx, getElem_direntsFrom 2 hk]

/-! ## The image -/

section Image

variable (hb : Built m d files) (hf : Finished m d d')

include hb hf

theorem Finished.byteAt (hpos : 0 < i) (hlt : i < m.freeinode) (hk : k < (din wide d i).size.toNat) :
    (din wide d' i).byteAt d' k = (din wide d i).byteAt d k ∧ (din wide d' i).blockAt d' (k / bsize) ≠ 0 := by
  have hi : i < wide.ninodes := Nat.lt_of_lt_of_le hlt hb.le
  rcases hb.type_ne hpos hlt with ⟨htype, hdev⟩
  refine ⟨hb.cons.byteAt_of_data hf.data hi htype hdev (hf.addrs hi) hk, ?_⟩
  rw [hf.blockAt hb hpos hlt]
  exact (hb.cons.sized i hi htype hdev).block hk

theorem Finished.entry (hroot : rootino < m.freeinode) (hdir : files rootino = direntBytes (entries fs))
    {de : Dirent} (hk : (entries fs)[k]? = some de) :
    (din wide d' rootino).entry d' k = de ∧ (din wide d' rootino).blockAt d' (direntSize * k / bsize) ≠ 0 ∧
      direntSize * (k + 1) ≤ (din wide d rootino).size.toNat := by
  have hlt : k < (entries fs).length := by
    by_contra hge
    rw [List.getElem?_eq_none (Nat.le_of_not_lt hge)] at hk
    cases hk
  have hsize : (din wide d rootino).size.toNat = direntSize * (entries fs).length := by
    rw [hb.size (by decide) hroot, hdir, length_direntBytes]
  have hend : direntSize * (k + 1) ≤ (din wide d rootino).size.toNat := by
    rw [hsize]
    exact Nat.mul_le_mul_left _ hlt
  have hin : ∀ j, j < direntSize → direntSize * k + j < (din wide d rootino).size.toNat := by
    intro j hj
    rw [Nat.mul_succ] at hend
    omega
  refine ⟨?_, (hf.byteAt hb (by decide) hroot (hin 0 (by decide))).2, hend⟩
  refine (Dirent.ofBytes_congr fun j hj => ?_).trans (ofBytes_direntBytes hk)
  rw [(hf.byteAt hb (by decide) hroot (hin j hj)).1, ← hdir, ← hb.content rootino (by decide) hroot]
  simp [Dinode.content, chars, hin j hj]

theorem Finished.content (hpos : 0 < i) (hlt : i < m.freeinode) (hir : i ≠ rootino) :
    (din wide d' i).content d' = files i := by
  have hi : i < wide.ninodes := Nat.lt_of_lt_of_le hlt hb.le
  rw [← hb.content i hpos hlt]
  refine content_congr (by rw [hf.inodes i hi hir]) fun k hk => (hf.byteAt hb hpos hlt hk).1

/-- `dirlookup` finds the first entry with the name. -/
theorem dirlookup_image (hroot : rootino < m.freeinode) (hdir : files rootino = direntBytes (entries fs))
    (hsmall : (din wide d rootino).size.toNat < ndirect * bsize) (hs : OnImage d' s) {name : List UInt8}
    {de : Dirent} (hk : (entries fs)[k]? = some de) (hmatch : matchesName name de = true)
    (hbefore : ∀ j e, j < k → (entries fs)[j]? = some e → matchesName name e = false) :
    dirlookup sb s rootino name = .ok (some (de.inum.toNat, direntSize * k), s.iget de.inum.toNat) := by
  have htype : (din wide d' rootino).type = tDir := by
    rw [hf.root]
    exact hb.type rootino (by decide) hroot
  have hmem : s.mem rootino = some (din wide d' rootino) := hs.root
  have hinode : s.inode rootino = din wide d' rootino := by simp [State.inode, hmem]
  rcases hf.entry hb hroot hdir hk with ⟨hentry, _, hend⟩
  have hfixed := hf.size_root hsmall
  have hsize : direntSize * (k + 1) ≤ (din wide d' rootino).size.toNat := by
    rw [hfixed]
    unfold fixedSize bsize
    omega
  have hlt : k < (entries fs).length := by
    by_contra hge
    rw [List.getElem?_eq_none (Nat.le_of_not_lt hge)] at hk
    cases hk
  have hentries : ∀ j, j ≤ k → ∃ e, (entries fs)[j]? = some e := fun j hj =>
    ⟨_, List.getElem?_eq_getElem (Nat.lt_of_le_of_lt hj hlt)⟩
  have hloop := scanDir_found hmem (by rw [htype]; decide) sb .dirlookupRead (matchesName name)
    (din wide d' rootino).size.toNat (j := k) (k := 0) (by unfold direntSize at hsize; omega) (Nat.zero_le k)
    hsize
    (fun j hj => by
      rcases hentries j hj with ⟨e, he⟩
      rw [hs.disk]
      exact (hf.entry hb hroot hdir he).2.1)
    (fun j hj => by
      rcases hentries j hj.le with ⟨e, he⟩
      rw [hs.disk, (hf.entry hb hroot hdir he).1]
      exact hbefore j e hj he)
    (by rw [hs.disk, hentry]; exact hmatch)
  rw [Nat.mul_zero, hs.disk, hentry] at hloop
  simp only [dirlookup, hinode, htype, ne_eq, not_true_eq_false, if_false, hloop, ok_bind, pure_eq_ok]

end Image

theorem ilock_image (hs : OnImage d s) (htype : (din sb d i).type ≠ 0) :
    ∃ s', ilock sb (s.iget i) i = .ok s' ∧ s'.disk = d ∧ s'.mem i = some (din sb d i) := by
  cases hmem : (s.iget i).mem i with
  | some x =>
    have hx : x = din sb d i := by
      simp only [State.iget] at hmem
      split_ifs at hmem
      · simp at hmem
      · exact hs.mem i x hmem
    refine ⟨s.iget i, ?_, hs.disk, by rw [hmem, hx]⟩
    simp only [ilock, hmem, pure_eq_ok]
  | none =>
    have hdisk : (s.iget i).disk = d := hs.disk
    refine ⟨{ s.iget i with mem := Function.update (s.iget i).mem i (some (din sb d i)) }, ?_, hdisk, by simp⟩
    simp only [ilock, hmem, hdisk, htype, if_false, pure_eq_ok]

theorem readi_whole {x : Dinode} (sb : Superblock) (hx : s.mem i = some x) (hdev : x.type ≠ tDev)
    (hblocks : ∀ k, k < x.size.toNat → x.blockAt s.disk (k / bsize) ≠ 0) :
    s.readi sb i 0 (s.inode i).size.toNat = .ok (.done (x.content s.disk), s) := by
  have hinode : s.inode i = x := by simp [State.inode, hx]
  have hstore : s.store i x s.disk = s := by
    simp only [State.store, ← hx, Function.update_eq_self]
  have hlt := x.size.toNat_lt
  have hread := readi_of_blocks sb hdev (Nat.zero_le x.size.toNat) (n := x.size.toNat) (d := s.disk) (by omega)
    fun k _ _ hk => hblocks k hk
  have hall : ((x.content s.disk).drop 0).take x.size.toNat = x.content s.disk := by
    rw [List.drop_zero, List.take_of_length_le length_content.le]
  rw [hall] at hread
  simp only [State.readi, hinode, hread, ok_bind, pure_eq_ok, hstore]

/-! ## All files -/

theorem main_entries (h : main fs = some d') (hfew : fs.length ≤ 206) :
    ∃ m d files, Built m d files ∧ Finished m d d' ∧ m.freeinode = fs.length + 2 ∧
      files rootino = direntBytes (entries fs) ∧ (din wide d rootino).size.toNat < ndirect * bsize ∧
      ∀ k, (hk : k < fs.length) → files (2 + k) = fs[k].data := by
  rcases main_built h hfew with ⟨m, d, files, hb, hf, hinode, hdir, hdata⟩
  have hone : rootino = 1 := rfl
  refine ⟨m, d, files, hb, hf, hinode, ?_, size_root_lt hb (by omega) hdir hfew, hdata⟩
  rw [hdir, entries, direntBytes_append]

theorem matchesName_make {inum : ℕ} {name name' : List UInt8} (hpos : inum ≠ 0) (hlt : inum < 2 ^ 16) :
    matchesName name (Dirent.make inum name') = true ↔ key name' = key name := by
  have hlive : (Dirent.make inum name').inum ≠ 0 := by
    intro hzero
    have hnat := Dirent.inum_make name' hlt
    rw [hzero] at hnat
    exact hpos hnat.symm
  rw [matchesName_iff, Dirent.str_make]
  exact and_iff_right hlive

theorem key_target (f : HostFile) : key f.target = f.target.take dirsiz := by
  refine key_eq_take _ fun a ha => f.name_ne a ?_
  unfold HostFile.target at ha
  split at ha
  · simp at ha
  rename_i c rest hname
  rw [hname]
  split_ifs at ha
  · exact List.mem_cons_of_mem c ha
  · exact ha

theorem eq_of_take_eq {l name : List UInt8} (h : l.take dirsiz = name) (hlen : name.length < dirsiz) : l = name := by
  rw [← h] at hlen ⊢
  rw [List.length_take] at hlen
  exact (List.take_of_length_le (by omega)).symm

theorem matchesName_before {e : Dirent} (hfew : fs.length ≤ 206)
    (hnames : (fs.map fun f => f.target.take dirsiz).Nodup)
    (hdots : ∀ f ∈ fs, f.target ≠ [46] ∧ f.target ≠ [46, 46]) (hk : k < fs.length) (hj : j < 2 + k)
    (he : (entries fs)[j]? = some e) : matchesName fs[k].target e = false := by
  rw [Bool.eq_false_iff]
  have hdot := hdots fs[k] (List.getElem_mem hk)
  -- The entries "." and "..", and those of the files before.
  have hcases : j = 0 ∨ j = 1 ∨ ∃ i, j = 2 + i := by
    rcases Nat.lt_or_ge j 2 with hlt | hge
    · omega
    · exact .inr (.inr ⟨j - 2, by omega⟩)
  rcases hcases with rfl | rfl | ⟨i, rfl⟩
  · obtain rfl : Dirent.make rootino [46] = e := by simpa [entries, rootDirents] using he
    rw [ne_eq, matchesName_make (by decide) (by decide), key_target]
    exact fun heq => hdot.1 (eq_of_take_eq heq.symm (by decide))
  · obtain rfl : Dirent.make rootino [46, 46] = e := by simpa [entries, rootDirents] using he
    rw [ne_eq, matchesName_make (by decide) (by decide), key_target]
    exact fun heq => hdot.2 (eq_of_take_eq heq.symm (by decide))
  have hi : i < fs.length := by omega
  obtain rfl : Dirent.make (2 + i) fs[i].target = e := by
    rw [getElem_entries hi] at he
    simpa using he
  rw [ne_eq, matchesName_make (by omega) (by omega), key_target, key_target]
  intro heq
  have hidx : i = k := (List.getElem?_inj (by simpa using hi) hnames).1 (by simp [hi, hk, heq])
  omega

/-- The kernel reads from the image what `mkfs` was given, if the names differ from each other and from
those of the first two entries. -/
theorem reads_of_main (h : main fs = some d) (hlen : fs.length < ninodes - 1)
    (hnames : (fs.map fun f => f.target.take dirsiz).Nodup)
    (hdots : ∀ f ∈ fs, f.target ≠ [46] ∧ f.target ≠ [46, 46]) : Readsb d sb ∧ ∀ f ∈ fs, Reads d f := by
  have hfew : fs.length ≤ 206 := by
    unfold ninodes at hlen
    omega
  rcases main_entries h hfew with ⟨m, d₁, files, hb, hf, hinode, hdir, hsmall, hdata⟩
  have hone : rootino = 1 := rfl
  refine ⟨readsb_blank ?_, fun f hmem s hs => ?_⟩
  · rw [hf.front 1 (by decide)]
    rfl
  rcases List.getElem_of_mem hmem with ⟨k, hk, rfl⟩
  have hlt : 2 + k < m.freeinode := by omega
  have hlookup := dirlookup_image hb hf (by omega) hdir hsmall hs (getElem_entries hk)
    ((matchesName_make (by omega) (by omega)).2 rfl)
    fun j e hj he => matchesName_before hfew hnames hdots hk hj he
  rw [Dirent.inum_make _ (by omega)] at hlookup
  have hi : 2 + k < wide.ninodes := Nat.lt_of_lt_of_le hlt hb.le
  have hsame : din sb d (2 + k) = din wide d₁ (2 + k) := hf.inodes (2 + k) hi (by omega)
  rcases hb.type_ne (by omega) hlt with ⟨htype, hdev⟩
  rcases ilock_image hs (by rwa [hsame]) with ⟨s', hlock, hdisk, hmem'⟩
  refine ⟨2 + k, direntSize * (2 + k), s.iget (2 + k), s', hlookup, hlock, ?_⟩
  have hbytes : (din sb d (2 + k)).content d = fs[k].data := by
    rw [← hdata k hk]
    exact hf.content hb (by omega) hlt (by omega)
  have hread := readi_whole sb hmem' (by rwa [hsame]) fun j hj => by
    rw [hdisk]
    exact (hf.byteAt hb (by omega) hlt (by rwa [← hsame])).2
  rwa [hdisk, hbytes] at hread

def plainFile : HostFile :=
  { name := [95, 97]
    chunks := [[104], [105]]
    name_ne := by simp }

theorem reads_plainFile :
    ∃ d, main [plainFile] = some d ∧ OnImage d (booted d) ∧ Readsb d sb ∧ Reads d plainFile := by
  rcases main_isSome [plainFile] (by decide) (by decide) (by decide) (by decide) with ⟨d, hd⟩
  rcases reads_of_main hd (by decide) (by decide) (by decide) with ⟨hsb, hreads⟩
  exact ⟨d, hd, onImage_booted, hsb, hreads plainFile List.mem_cons_self⟩

/-- The file `_.`, whose name in the file system is that of the first entry. -/
def dotFile : HostFile :=
  { name := [95, 46]
    chunks := [[104]]
    name_ne := by simp }

/-- Under the name `.` the kernel reads the root directory, not the file. -/
theorem not_reads_dotFile : ∃ d, main [dotFile] = some d ∧ [dotFile].length < ninodes - 1 ∧
      ([dotFile].map fun f => f.target.take dirsiz).Nodup ∧ ¬ Reads d dotFile := by
  rcases main_isSome [dotFile] (by decide) (by decide) (by decide) (by decide) with ⟨d, hd⟩
  refine ⟨d, hd, by decide, by decide, fun hreads => ?_⟩
  rcases main_entries hd (by decide) with ⟨m, d₁, files, hb, hf, hinode, hdir, hsmall, _⟩
  have hroot : rootino < m.freeinode := by
    rw [hinode]
    decide
  have hfirst : (entries [dotFile])[0]? = some (Dirent.make rootino [46]) := rfl
  have hmatch : matchesName dotFile.target (Dirent.make rootino [46]) = true :=
    (matchesName_make (by decide) (by decide)).2 rfl
  have hlookup := dirlookup_image hb hf hroot hdir hsmall onImage_booted hfirst hmatch
    fun j e hj _ => absurd hj (Nat.not_lt_zero j)
  rw [Dirent.inum_make _ (by decide)] at hlookup
  have hkind : (din sb d rootino).type = tDir := by
    have hroot' : (din wide d rootino).type = (din wide d₁ rootino).type := by rw [hf.root]
    exact hroot'.trans (hb.type rootino (by decide) hroot)
  rcases ilock_image onImage_booted (i := rootino) (by rw [hkind]; decide) with ⟨s', hlock, hdisk, hmem⟩
  rcases hreads (booted d) onImage_booted with ⟨inum, off, s₁, s₂, hfound, hlock', hread⟩
  rw [hlookup] at hfound
  obtain ⟨⟨rfl, -⟩, rfl⟩ : (rootino = inum ∧ _ = off) ∧ (booted d).iget rootino = s₁ := by simpa using hfound
  rw [hlock] at hlock'
  obtain rfl : s' = s₂ := by simpa using hlock'
  -- One block is enough for the three entries, and it is there.
  have hsize : (din sb d rootino).size.toNat = bsize := by
    have hbytes : (din wide d₁ rootino).size.toNat = direntSize * 3 := by
      rw [hb.size (by decide) hroot, hdir, length_direntBytes]
      rfl
    have hfixed := hf.size_root hsmall
    rw [hbytes] at hfixed
    exact hfixed
  have hwhole := readi_whole sb hmem (by rw [hkind]; decide) fun k hk => by
    have hk0 : k / bsize = 0 := Nat.div_eq_of_lt (by rwa [hsize] at hk)
    rw [hdisk, hk0]
    exact (hf.entry hb hroot hdir hfirst).2.1
  rw [hread] at hwhole
  have hdata : dotFile.data = (din sb d rootino).content s'.disk := by simpa using hwhole
  have hlen := congrArg List.length hdata
  rw [length_content, hsize] at hlen
  exact absurd hlen (by decide)

end Xv6.Mkfs
