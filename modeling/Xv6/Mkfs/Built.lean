import Mathlib.Data.List.Flatten
import Xv6.Mkfs.Append

/-!
# Built — what is in an image under construction

As long as inodes fit into the inode blocks, an image holds a root directory and files whose contents are
known (`Built`).  Each call of `ialloc` adds an empty file, each call of `iappend` adds bytes to one file.
-/

namespace Xv6.Mkfs

open Function (update update_comm update_eq_self update_idem update_of_ne update_self)
open Fs

/-! ## The free map -/

theorem bitmap_succ (used : ℕ) : Image.bitmap (used + 1) = (Image.bitmap used).setBit used := by
  simp [Image.bitmap, List.range_succ]

theorem bit_bitmap {used : ℕ} (h : used ≤ bpb) (k : ℕ) : (Image.bitmap used).bit k = decide (k < used) := by
  induction used with
  | zero =>
    have hzero : Image.bitmap 0 = Block.zero := rfl
    rw [hzero, Block.bit_zero]
    simp
  | succ used ih =>
    rw [bitmap_succ, Block.bit_setBit _ h, ih (Nat.le_of_succ_le h)]
    by_cases hk : k = used
    · simp [hk]
    · have hiff : k < used + 1 ↔ k < used := by omega
      simp [hk, hiff]

theorem bitAt_bitmap {d : Disk} {used b : ℕ} (hmap : d wide.bmapstart = Image.bitmap used)
    (hspare : d (wide.bmapstart + 1) = Block.zero) (hused : used ≤ bpb) (hb : b < fssize) :
    bitAt wide d b = decide (b < used) := by
  have hdiv : b / bpb = 0 ∨ b / bpb = 1 := by
    unfold bpb bsize fssize at *
    omega
  rcases hdiv with h0 | h1
  · have hblock : wide.bblock b = wide.bmapstart := by simp [Superblock.bblock, h0]
    have hmod : b % bpb = b := by
      have := Nat.div_add_mod b bpb
      rw [h0] at this
      omega
    rw [bitAt, hblock, hmap, bit_bitmap hused, hmod]
  have hblock : wide.bblock b = wide.bmapstart + 1 := by
    simp only [Superblock.bblock, h1]
    omega
  have hge : ¬ b < used := by
    have := Nat.div_add_mod b bpb
    rw [h1] at this
    omega
  rw [bitAt, hblock, hspare, Block.bit_zero]
  simp [hge]

/-! ## The invariant -/

/-- The image, seen as the disk `d`, holds files with the given contents. -/
structure Built (m : Image) (d : Disk) (files : ℕ → List UInt8) : Prop where
  like : Like m d
  cons : Consistent wide d
  pos : 0 < m.freeinode
  le : m.freeinode ≤ wide.ninodes
  free : ∀ i, i < wide.ninodes → i = 0 ∨ m.freeinode ≤ i → (din wide d i).type = 0
  type : ∀ i, 0 < i → i < m.freeinode → (din wide d i).type = if i = rootino then tDir else tFile
  content : ∀ i, 0 < i → i < m.freeinode → (din wide d i).content d = files i
  /-- The root directory has no more blocks than it needs. -/
  exact : rootino < m.freeinode → ∀ k, k < ndirect → (din wide d rootino).size.toNat ≤ k * bsize →
    (din wide d rootino).addr k = 0

variable {m m' : Image} {d : Disk} {files : ℕ → List UInt8} {i : ℕ} {bytes : List UInt8}

theorem Built.size (h : Built m d files) (hpos : 0 < i) (hlt : i < m.freeinode) :
    (din wide d i).size.toNat = (files i).length := by
  rw [← h.content i hpos hlt, length_content]

theorem Built.type_ne (h : Built m d files) (hpos : 0 < i) (hlt : i < m.freeinode) :
    (din wide d i).type ≠ 0 ∧ (din wide d i).type ≠ tDev := by
  rw [h.type i hpos hlt]
  split_ifs
  · decide
  · decide

theorem built_blank : ∃ d, Built Image.blank d fun _ => [] := by
  refine ⟨update Image.blank.disk wide.bmapstart (Image.bitmap nmeta), ?_⟩
  have hne : wide.bmapstart + 1 ≠ wide.bmapstart := by omega
  have hblank : ∀ c, c ≠ 1 → Image.blank.disk c = Block.zero := fun c hc => by simp [Image.blank, hc]
  have hbits : ∀ b, b < fssize → bitAt wide
      (update Image.blank.disk wide.bmapstart (Image.bitmap nmeta)) b = decide (b < nmeta) := by
    intro b hb
    refine bitAt_bitmap (update_self ..) ?_ (by decide) hb
    rw [update_of_ne hne]
    exact hblank _ (by decide)
  have hdin : ∀ i, i < wide.ninodes → din wide
      (update Image.blank.disk wide.bmapstart (Image.bitmap nmeta)) i = Dinode.zero := by
    intro i hi
    have hblock := Superblock.iblock_lt hi
    have hlo : wide.inodestart ≤ wide.iblock i := Nat.le_add_left _ _
    have hlo' : 1 < wide.inodestart := by decide
    rw [din, update_of_ne (by omega), hblank _ (by omega), Block.getDinode_zero]
  refine ⟨⟨fun c hc => ?_, hbits, fun c hc => ?_, hblank _ (by decide), Nat.le_refl _, by decide, fun _ _ => rfl⟩,
    consistent_of_empty (fun i hi => ?_) hbits, by decide, by decide, fun i hi _ => ?_, fun i h0 h1 => ?_,
    fun i h0 h1 => ?_, fun h1 => ?_⟩
  · refine update_of_ne ?_ _ _
    have := wide.bmapstart_lt_datastart
    omega
  · refine hblank c ?_
    have hle : nmeta ≤ c := hc
    have hmeta : 1 < nmeta := by decide
    omega
  · rw [hdin i hi]
    exact ⟨rfl, rfl⟩
  · rw [hdin i hi]
    rfl
  · have hlt : i < 1 := h1
    omega
  · have hlt : i < 1 := h1
    omega
  · exact absurd h1 (by decide)

/-! ## The steps -/

theorem Built.ialloc (h : Built m d files) (type : UInt16) (hlt : m.freeinode < wide.ninodes)
    (htype : type = if m.freeinode = rootino then tDir else tFile) :
    ∃ m' d', m.ialloc type = some (m.freeinode, m') ∧ m'.freeinode = m.freeinode + 1 ∧
      m'.freeblock = m.freeblock ∧ Built m' d' (update files m.freeinode []) := by
  generalize hx : ({ Dinode.zero with type := type, nlink := 1 } : Dinode) = x
  have hempty : x.size = 0 ∧ (∀ k, x.addr k = 0) ∧ x.type = type := by
    rw [← hx]
    exact ⟨rfl, Dinode.addr_zero, rfl⟩
  have hlike : Like { m with freeinode := m.freeinode + 1 } d :=
    ⟨h.like.same, h.like.bits, h.like.fresh, h.like.spare, h.like.meta_le, h.like.le_size, h.like.front⟩
  rcases hlike.winode hlt x with ⟨m', hm', hlike'⟩
  have hcounts := Counts.winode hm'
  rcases h.cons.alloc hlt (h.free _ hlt (.inr (Nat.le_refl _))) hempty.1 hempty.2.1 with ⟨hcons, hothers⟩
  have hinode : m'.freeinode = m.freeinode + 1 := hcounts.freeinode
  have hself : din wide (iupdate wide d m.freeinode x) m.freeinode = x := din_iupdate_self d
  have hother : ∀ i, i < wide.ninodes → i ≠ m.freeinode →
      din wide (iupdate wide d m.freeinode x) i = din wide d i := fun i hi hne => (hothers i hi hne).1
  have hrange : ∀ i, i < m'.freeinode → i < wide.ninodes := fun i hi => by omega
  refine ⟨m', iupdate wide d m.freeinode x, ?_, hinode, ?_, hlike', hcons, by omega, by omega,
    fun i hi hfree => ?_, fun i h0 h1 => ?_, fun i h0 h1 => ?_, fun h1 k hk hsize => ?_⟩
  · simp only [Image.ialloc, hx, hm', Option.bind_eq_bind, Option.bind_some]
    rfl
  · rcases Option.bind_eq_some_iff.1 hm' with ⟨buf, _, hret⟩
    obtain rfl : Image.wsect _ _ _ = m' := by simpa using hret
    rfl
  · have hpos := h.pos
    rw [hother i hi (by omega)]
    exact h.free i hi (by omega)
  · by_cases hi : i = m.freeinode
    · rw [hi, hself, hempty.2.2, htype]
    · rw [hother i (hrange i h1) hi]
      exact h.type i h0 (by omega)
  · by_cases hi : i = m.freeinode
    · rw [hi, hself, update_self]
      simp [Dinode.content, hempty.1]
    · rw [update_of_ne hi, ← h.content i h0 (by omega)]
      have htypes := h.type_ne h0 (by omega : i < m.freeinode)
      exact (hothers i (hrange i h1) hi).2 htypes.1 htypes.2
  · by_cases hi : rootino = m.freeinode
    · rw [hi, hself]
      exact hempty.2.1 k
    · rw [hother _ (hrange _ h1) hi] at hsize ⊢
      exact h.exact (by omega) k hk hsize

theorem map_range_chars (l : List UInt8) : (List.range l.length).map (chars l) = l := by
  refine List.ext_getElem (by simp) fun k hk hk' => ?_
  simp [chars, hk']

theorem splice_end (l bytes : List UInt8) : splice l l.length bytes = l ++ bytes := by
  simp [splice]

/-- The image comes to hold `files`, at the price of at most two blocks a byte, or it is too small. -/
def Grows (m : Image) (inodes bytes : ℕ) (files : ℕ → List UInt8) (full : Prop) (r : Option Image) : Prop :=
  (∃ m' d', r = some m' ∧ m'.freeinode = m.freeinode + inodes ∧ m'.freeblock ≤ m.freeblock + 2 * bytes ∧
    Built m' d' files) ∨
  r = none ∧ (full ∨ fssize < m.freeblock + 2 * bytes)

theorem Built.iappend (h : Built m d files) (hpos : 0 < i) (hlt : i < m.freeinode) (bytes : List UInt8) :
    Grows m 0 bytes.length (update files i (files i ++ bytes)) (maxfile * bsize < (files i).length + bytes.length)
      (m.iappend i bytes) := by
  have hi : i < wide.ninodes := Nat.lt_of_lt_of_le hlt h.le
  rcases h.type_ne hpos hlt with ⟨htype, hdev⟩
  rcases iappend_spec bytes h.like h.cons hi htype hdev with
    ⟨m', x, d', hm', hwritten, hlike, hcount⟩ | hnone
  swap
  · rw [h.size hpos hlt] at hnone
    exact .inr hnone
  have hcounts := Counts.iappend hm'
  have hself := hwritten.inode
  have hother : ∀ j, j < wide.ninodes → j ≠ i → din wide d' j = din wide d j := fun j hj hne =>
    (hwritten.others j hj hne).1
  have hinode := hcounts.freeinode
  have hrange : ∀ j, j < m'.freeinode → j < wide.ninodes := fun j hj => by
    have := h.le
    omega
  have hkept : x.type = (din wide d i).type := by rw [hwritten.kept]
  refine .inl ⟨m', d', hm', hinode, hcount, hlike, hwritten.consistent, hinode ▸ h.pos, hinode ▸ h.le,
    fun j hj hfree => ?_, fun j h0 h1 => ?_, fun j h0 h1 => ?_, fun h1 k hk hsize => ?_⟩
  · rw [hother j hj (by omega)]
    exact h.free j hj (by omega)
  · by_cases hji : j = i
    · rw [hji, hself, hkept]
      exact h.type i hpos hlt
    · rw [hother j (hrange j h1) hji]
      exact h.type j h0 (by omega)
  · by_cases hji : j = i
    · rw [hji, hself, update_self, hwritten.content, ← h.content i hpos hlt, ← length_content,
        splice_end, map_range_chars]
    · rw [update_of_ne hji, ← h.content j h0 (by omega)]
      have htypes := h.type_ne h0 (by omega : j < m.freeinode)
      exact (hwritten.others j (hrange j h1) hji).2 htypes.1 htypes.2
  by_cases hji : rootino = i
  · -- No byte was written at or behind the new end.
    rw [hji, hself] at hsize ⊢
    have hgrow := hwritten.size
    have hslot : slotOf k = some (.direct ⟨k, hk⟩) := by simp [slotOf, hk]
    have hold : (din wide d i).blockAt d k = 0 := by
      rw [blockAt_of_slotOf hslot]
      exact hji ▸ h.exact (hji ▸ hlt) k hk (by rw [hji]; omega)
    have hmissing := hwritten.missing k hold fun q hq => ?_
    · rwa [blockAt_of_slotOf hslot] at hmissing
    · refine Nat.ne_of_lt ?_
      rw [Nat.div_lt_iff_lt_mul (by decide)]
      omega
  · rw [hother _ (hrange _ h1) hji] at hsize ⊢
    exact h.exact (by omega) k hk hsize

/-! ## Files -/

def direntBytes (l : List Dirent) : List UInt8 :=
  (l.map fun de => (List.range direntSize).map de.byte).flatten

theorem direntBytes_append (l l' : List Dirent) : direntBytes (l ++ l') = direntBytes l ++ direntBytes l' := by
  simp [direntBytes]

theorem length_direntBytes (l : List Dirent) : (direntBytes l).length = direntSize * l.length := by
  induction l with
  | nil => rfl
  | cons de l ih =>
    have hcons : direntBytes (de :: l) = (List.range direntSize).map de.byte ++ direntBytes l := rfl
    rw [hcons, List.length_append, ih, List.length_map, List.length_range, List.length_cons, Nat.mul_succ,
      Nat.add_comm]

theorem Built.addEntry (h : Built m d files) (hroot : rootino < m.freeinode) (de : Dirent) :
    Grows m 0 direntSize (update files rootino (files rootino ++ direntBytes [de]))
      (maxfile * bsize < (files rootino).length + direntSize) (m.addEntry de) := by
  have hbytes : direntBytes [de] = (List.range direntSize).map de.byte := by simp [direntBytes]
  have hgrows := h.iappend (by decide) hroot (direntBytes [de])
  rwa [length_direntBytes, List.length_singleton, hbytes] at hgrows

theorem Built.chunks (h : Built m d files) (hpos : 0 < i) (hlt : i < m.freeinode) (chunks : List (List UInt8)) :
    Grows m 0 chunks.flatten.length (update files i (files i ++ chunks.flatten))
      (maxfile * bsize < (files i).length + chunks.flatten.length)
      (chunks.foldlM (fun m chunk => m.iappend i chunk) m) := by
  induction chunks generalizing m d files with
  | nil =>
    rw [List.flatten_nil, List.append_nil, update_eq_self]
    exact .inl ⟨m, d, rfl, rfl, Nat.le_refl _, h⟩
  | cons chunk chunks ih =>
    simp only [List.foldlM_cons, List.flatten_cons, List.length_append]
    rcases h.iappend hpos hlt chunk with ⟨m1, d1, hm1, hinode1, hcount1, h1⟩ | ⟨hnone, hwhy⟩
    · have hrest := ih h1 (by omega)
      rw [update_self, update_idem, List.append_assoc, List.length_append] at hrest
      rw [hm1]
      rcases hrest with ⟨m', d', hm', hinode, hcount, h'⟩ | ⟨hnone, hwhy⟩
      · exact .inl ⟨m', d', hm', by omega, by omega, h'⟩
      · exact .inr ⟨hnone, by omega⟩
    · rw [hnone]
      exact .inr ⟨rfl, by omega⟩

theorem Built.addFile (h : Built m d files) (hroot : rootino < m.freeinode) (hlt : m.freeinode < wide.ninodes)
    (f : HostFile) :
    Grows m 1 (direntSize + f.data.length) (update (update files rootino
      (files rootino ++ direntBytes [Dirent.make m.freeinode f.target])) m.freeinode f.data)
      (47 ∈ f.name ∨ maxfile * bsize < (files rootino).length + direntSize ∨ maxfile * bsize < f.data.length)
      (m.addFile f) := by
  have hne : m.freeinode ≠ rootino := by omega
  have hpos := h.pos
  unfold Image.addFile
  split_ifs with hslash
  · exact .inr ⟨rfl, .inl (.inl hslash)⟩
  rcases h.ialloc tFile hlt (by rw [if_neg hne]) with ⟨m1, d1, hm1, hinode1, hblock1, h1⟩
  simp only [hm1, Option.bind_eq_bind, Option.bind_some]
  rcases h1.addEntry (by omega) (Dirent.make m.freeinode f.target) with
    ⟨m2, d2, hm2, hinode2, hcount2, h2⟩ | ⟨hnone, hwhy⟩
  · have hchunks := h2.chunks (i := m.freeinode) hpos (by omega) f.chunks
    rw [update_of_ne hne, update_self, List.nil_append, update_of_ne hne.symm,
      update_comm hne.symm, update_idem, update_comm hne, List.length_nil, Nat.zero_add] at hchunks
    rw [hm2]
    have hdata : f.data.length = f.chunks.flatten.length := rfl
    rcases hchunks with ⟨m', d', hm', hinode, hcount, h'⟩ | ⟨hnone, hwhy⟩
    · exact .inl ⟨m', d', hm', by omega, by omega, h'⟩
    · exact .inr ⟨hnone, by omega⟩
  · rw [update_of_ne hne.symm] at hwhy
    rw [hnone]
    exact .inr ⟨rfl, by omega⟩

def direntsFrom (inum : ℕ) : List HostFile → List Dirent
  | [] => []
  | f :: fs => Dirent.make inum f.target :: direntsFrom (inum + 1) fs

theorem length_direntsFrom (inum : ℕ) (fs : List HostFile) : (direntsFrom inum fs).length = fs.length := by
  induction fs generalizing inum with
  | nil => rfl
  | cons f fs ih => simp [direntsFrom, ih]

def bytesOf (fs : List HostFile) : ℕ :=
  (fs.map fun f => direntSize + f.data.length).sum

/-- All files on the command line, or the first so many of them. -/
theorem Built.addFiles (h : Built m d files) (hroot : rootino < m.freeinode) (fs : List HostFile)
    (hle : m.freeinode + fs.length ≤ wide.ninodes) :
    (∃ m' d' files', fs.foldlM Image.addFile m = some m' ∧ m'.freeinode = m.freeinode + fs.length ∧
      m'.freeblock ≤ m.freeblock + 2 * bytesOf fs ∧ Built m' d' files' ∧
      files' rootino = files rootino ++ direntBytes (direntsFrom m.freeinode fs) ∧
      (∀ k, (hk : k < fs.length) → files' (m.freeinode + k) = fs[k].data) ∧
      ∀ i, i ≠ rootino → i < m.freeinode → files' i = files i) ∨
    fs.foldlM Image.addFile m = none ∧ ((∃ f ∈ fs, 47 ∈ f.name ∨ maxfile * bsize < f.data.length) ∨
      maxfile * bsize < (files rootino).length + direntSize * fs.length ∨ fssize < m.freeblock + 2 * bytesOf fs) := by
  induction fs generalizing m d files with
  | nil =>
    exact .inl ⟨m, d, files, rfl, rfl, Nat.le_refl _, h, by simp [direntsFrom, direntBytes],
      fun k hk => absurd hk (Nat.not_lt_zero k), fun _ _ _ => rfl⟩
  | cons f fs ih =>
    have hcost : bytesOf (f :: fs) = direntSize + f.data.length + bytesOf fs := by simp [bytesOf]
    have hsucc : (f :: fs).length = fs.length + 1 := rfl
    have hmul : direntSize * (f :: fs).length = direntSize * fs.length + direntSize := Nat.mul_succ _ _
    rw [List.foldlM_cons, hcost]
    rcases h.addFile hroot (by omega) f with ⟨m1, d1, hm1, hinode1, hcount1, h1⟩ | ⟨hnone, hwhy⟩
    · have hne : rootino ≠ m.freeinode := by omega
      have hlen : (direntBytes [Dirent.make m.freeinode f.target]).length = direntSize := length_direntBytes _
      rw [hm1]
      rcases ih h1 (by omega) (by omega) with
        ⟨m', d', files', hm', hinode, hcount, h', hdir, hfiles, hold⟩ | ⟨hnone, hwhy⟩
      · refine .inl ⟨m', d', files', hm', by omega, by omega, h', ?_, fun k hk => ?_, fun i hi hlt => ?_⟩
        · have hentry : direntBytes (direntsFrom m.freeinode (f :: fs)) =
              direntBytes [Dirent.make m.freeinode f.target] ++ direntBytes (direntsFrom (m.freeinode + 1) fs) :=
            direntBytes_append [_] _
          rw [hdir, hentry, hinode1, update_of_ne hne, update_self, List.append_assoc]
        · cases k with
          | zero =>
            rw [Nat.add_zero, hold _ hne.symm (by omega), update_self]
            rfl
          | succ k =>
            have hidx : m.freeinode + (k + 1) = m1.freeinode + k := by omega
            rw [hidx, hfiles k (Nat.lt_of_succ_lt_succ hk)]
            rfl
        · rw [hold i hi (by omega), update_of_ne (by omega), update_of_ne hi]
      · rw [update_of_ne hne, update_self, List.length_append, hlen] at hwhy
        refine .inr ⟨hnone, ?_⟩
        rcases hwhy with ⟨g, hg, hbad⟩ | hfull
        · exact .inl ⟨g, List.mem_cons_of_mem f hg, hbad⟩
        · exact .inr (by omega)
    · rw [hnone]
      refine .inr ⟨rfl, ?_⟩
      rcases hwhy with (hslash | hdir | hdata) | hroom
      · exact .inl ⟨f, List.mem_cons_self, .inl hslash⟩
      · exact .inr (.inl (by omega))
      · exact .inl ⟨f, List.mem_cons_self, .inr hdata⟩
      · exact .inr (.inr (by omega))

def rootDirents : List Dirent :=
  [Dirent.make rootino [46], Dirent.make rootino [46, 46]]

theorem built_root : ∃ m d files, Image.root = some m ∧ m.freeinode = 2 ∧ m.freeblock ≤ nmeta + 4 * direntSize ∧
    Built m d files ∧ files rootino = direntBytes rootDirents := by
  rcases built_blank with ⟨d0, h0⟩
  rcases h0.ialloc tDir (by decide) rfl with ⟨m1, d1, hm1, hinode1, hblock1, h1⟩
  have hinode : Image.blank.freeinode = rootino := rfl
  have hblock : m1.freeblock = nmeta := hblock1
  have hone : rootino = 1 := rfl
  have hsmall : nmeta + 4 * direntSize ≤ fssize ∧ 2 * direntSize ≤ maxfile * bsize := by decide
  simp only [Image.root, hm1, hinode, Option.bind_eq_bind, Option.bind_some, if_true]
  rcases h1.addEntry (by omega) (Dirent.make rootino [46]) with ⟨m2, d2, hm2, hinode2, hcount2, h2⟩ | ⟨-, hwhy⟩
  · rcases h2.addEntry (by omega) (Dirent.make rootino [46, 46]) with
      ⟨m3, d3, hm3, hinode3, hcount3, h3⟩ | ⟨-, hwhy⟩
    · refine ⟨m3, d3, _, by rw [hm2]; exact hm3, by omega, by omega, h3, ?_⟩
      rw [hinode, update_self, update_self, update_self]
      rfl
    · rw [hinode, update_self, update_self, List.length_append, length_direntBytes, List.length_nil,
        List.length_singleton] at hwhy
      omega
  · rw [hinode, update_self, List.length_nil] at hwhy
    omega

end Xv6.Mkfs
