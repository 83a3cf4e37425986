import Mathlib.Order.Interval.Finset.Nat
import Xv6.Mkfs.Built

/-!
# Consistency — is the image what the kernel relies on?

The final steps of `mkfs` round up the size of the root directory and write the free map.  The image is
consistent for the kernel exactly if the rounding does not add a block and the free map is not written
over an inode (`imageOk_iff`).
-/

namespace Xv6.Mkfs

open Fs

/-- What the kernel relies on, for the inodes `1` to `n`. -/
structure ImageOk (d : Disk) (n : ℕ) : Prop where
  /-- Every block index below `ceil(size/BSIZE)` has a block, which is marked as used. -/
  blocks : ∀ i, 0 < i → i ≤ n → ∀ k, k * bsize < (din sb d i).size.toNat →
    (din sb d i).blockAt d k ≠ 0 ∧ bitAt sb d ((din sb d i).blockAt d k) = true
  /-- No block is used twice. -/
  once : ∀ i j s t, 0 < i → i ≤ n → 0 < j → j ≤ n → (din sb d i).slot d s ≠ 0 →
    (din sb d i).slot d s = (din sb d j).slot d t → i = j ∧ s = t
  /-- Every block that is marked as used belongs to the metadata or to an inode. -/
  bits : ∀ b, b < sb.size → bitAt sb d b = true →
    b < sb.datastart ∨ ∃ i s, 0 < i ∧ i ≤ n ∧ (din sb d i).slot d s = b

variable {m : Image} {d d' : Disk} {files : ℕ → List UInt8} {fs : List HostFile} {i k used : ℕ}

/-! ## The last two steps -/

def fixedSize (size : ℕ) : ℕ :=
  (size / bsize + 1) * bsize

/-- The finished image in terms of the disk that `Built` speaks of. -/
structure Finished (m : Image) (d d' : Disk) : Prop where
  data : ∀ c, wide.datastart ≤ c → d' c = d c
  bits : ∀ b, b < fssize → bitAt wide d' b = decide (b < m.freeblock)
  inodes : ∀ i, i < wide.ninodes → i ≠ rootino → din wide d' i = din wide d i
  root : din wide d' rootino =
    { din wide d rootino with size := UInt32.ofNat (fixedSize (din wide d rootino).size.toNat) }
  lt : m.freeblock < bpb
  front : ∀ c, c < wide.inodestart → d' c = Image.blank.disk c

theorem wsect_self {x : ℕ} {v : Block} (hx : x ≤ fssize) : (m.wsect x v).disk x = v := by
  simp [Image.wsect, seek_eq hx]

theorem freeblock_fixRoot {m1 : Image} (h : m.fixRoot = some m1) : m1.freeblock = m.freeblock := by
  unfold Image.fixRoot at h
  rcases Option.bind_eq_some_iff.1 h with ⟨x, _, hw⟩
  unfold Image.winode at hw
  rcases Option.bind_eq_some_iff.1 hw with ⟨buf, _, hret⟩
  obtain rfl : m.wsect _ _ = m1 := by simpa using hret
  rfl

theorem finish_eq_some {m1 m2 : Image} (h₁ : m.fixRoot = some m1) (h2 : m1.balloc m1.freeblock = some m2) :
    m.freeblock < bpb ∧ m2.disk wide.bmapstart = Image.bitmap m.freeblock := by
  unfold Image.balloc at h2
  split_ifs at h2 with hlt
  obtain rfl : Image.wsect _ _ _ = m2 := by simpa using h2
  rw [freeblock_fixRoot h₁] at hlt ⊢
  exact ⟨hlt, wsect_self (by decide)⟩

theorem Built.finished {m1 m2 : Image} (h : Built m d files) (hroot : rootino < m.freeinode)
    (h₁ : m.fixRoot = some m1) (h2 : m1.balloc m1.freeblock = some m2) : Finished m d m2.disk := by
  have hcount := freeblock_fixRoot h₁
  rcases finish_eq_some h₁ h2 with ⟨hlt, hmap⟩
  have hi : rootino < wide.ninodes := Nat.lt_of_lt_of_le hroot h.le
  simp only [Image.fixRoot, h.like.rinode hi, Option.bind_eq_bind, Option.bind_some] at h₁
  rcases h.like.winode hi { din wide d rootino with
    size := UInt32.ofNat (fixedSize (din wide d rootino).size.toNat) } with ⟨m1', hm1', hlike⟩
  obtain rfl : m1' = m1 := by
    rw [fixedSize, h₁] at hm1'
    simpa using hm1'.symm
  -- The free map goes to the first of its two blocks.
  have hdisk : m2.disk = Function.update m1'.disk wide.bmapstart (Image.bitmap m.freeblock) := by
    unfold Image.balloc at h2
    split_ifs at h2
    obtain rfl : Image.wsect _ _ _ = m2 := by simpa using h2
    rw [hcount]
    rfl
  have hsame : ∀ c, c < wide.bmapstart ∨ wide.datastart ≤ c → m2.disk c =
      iupdate wide d rootino { din wide d rootino with
        size := UInt32.ofNat (fixedSize (din wide d rootino).size.toNat) } c := by
    intro c hc
    have hne : c ≠ wide.bmapstart := by
      have := wide.bmapstart_lt_datastart
      omega
    rw [hdisk, Function.update_of_ne hne, hlike.same c hc]
  have hdin : ∀ i, i < wide.ninodes → din wide m2.disk i = din wide (iupdate wide d rootino { din wide d rootino with
        size := UInt32.ofNat (fixedSize (din wide d rootino).size.toNat) }) i := by
    intro i hi
    rw [din, hsame _ (.inl (Superblock.iblock_lt hi))]
    rfl
  refine ⟨fun c hc => ?_, fun b hb => ?_, fun i hi hne => ?_, ?_, hlt, fun c hc => ?_⟩
  · rw [hsame c (.inr hc), iupdate_data hi hc]
  · refine bitAt_bitmap hmap ?_ hlt.le hb
    rw [hdisk, Function.update_of_ne (by omega)]
    exact hlike.spare
  · rw [hdin i hi, din_iupdate_cases hne]
  · rw [hdin rootino hi, din_iupdate_self d]
  · have hne : c ≠ wide.bmapstart := by
      have hlt : wide.inodestart < wide.bmapstart := by decide
      omega
    rw [hdisk, Function.update_of_ne hne, hlike.front c hc]

/-! ## As long as the inodes fit -/

section Fits

variable (hb : Built m d files) (hf : Finished m d d')

include hb hf

omit hb in
theorem Finished.addrs (hi : i < wide.ninodes) : (din wide d' i).addrs = (din wide d i).addrs := by
  by_cases hir : i = rootino
  · rw [hir, hf.root]
  · rw [hf.inodes i hi hir]

theorem Finished.slot (hpos : 0 < i) (hlt : i < m.freeinode) (s : Slot) :
    (din wide d' i).slot d' s = ref wide (din wide d) d (i, s) := by
  have hi : i < wide.ninodes := Nat.lt_of_lt_of_le hlt hb.le
  have htype := (hb.type_ne hpos hlt).1
  have haddr : ∀ k, (din wide d' i).addr k = (din wide d i).addr k := fun k => by
    simp [Dinode.addr, hf.addrs hi]
  have href : ref wide (din wide d) d (i, .indirect) = (din wide d i).addr ndirect := ref_of_alloc hi htype
  -- The indirect block is a data block, and those have not changed.
  have hsame : (din wide d i).addr ndirect ≠ 0 →
      d' ((din wide d i).addr ndirect) = d ((din wide d i).addr ndirect) := by
    intro hind
    have hrange := hb.cons.maps.range (i, .indirect) (by rw [href]; exact hind)
    rw [href] at hrange
    exact hf.data _ hrange.1
  rw [ref_of_alloc hi htype, ← slot_congr hsame]
  cases s <;> simp [Dinode.slot, haddr]

theorem Finished.blockAt (hpos : 0 < i) (hlt : i < m.freeinode) (k : ℕ) :
    (din wide d' i).blockAt d' k = (din wide d i).blockAt d k := by
  have hi : i < wide.ninodes := Nat.lt_of_lt_of_le hlt hb.le
  rw [blockAt_congr (hf.addrs hi), blockAt_of_data hb.cons.maps hf.data hi (hb.type_ne hpos hlt).1]

theorem Finished.bit_blockAt (hpos : 0 < i) (hlt : i < m.freeinode) (hk : (din wide d i).blockAt d k ≠ 0) :
    bitAt wide d' ((din wide d i).blockAt d k) = true := by
  have hi : i < wide.ninodes := Nat.lt_of_lt_of_le hlt hb.le
  rcases slotOf_isSome (lt_maxfile_of_blockAt hk) with ⟨s, hs⟩
  have href : ref wide (din wide d) d (i, s) = (din wide d i).blockAt d k := by
    rw [ref_of_alloc hi (hb.type_ne hpos hlt).1, blockAt_of_slotOf hs]
  have hrange := hb.cons.maps.range (i, s) (by rw [href]; exact hk)
  have hbit := hb.cons.maps.bit_of_ref (i := (i, s)) (by rw [href]; exact hk)
  rw [href] at hrange hbit
  rw [hf.bits _ hrange.2, ← hb.like.bits _ hrange.2]
  exact hbit

/-- Nothing but the size of the root directory can be wrong. -/
theorem imageOk_of_root (hsize : ∀ k, k * bsize < (din wide d' rootino).size.toNat →
      k * bsize < (din wide d rootino).size.toNat) : ImageOk d' (m.freeinode - 1) := by
  have hpos := hb.pos
  refine ⟨fun i h0 h1 k hk => ?_, fun i j s t hi hi' hj hj' hne heq => ?_, fun b hbs hbit => ?_⟩
  · have hlt : i < m.freeinode := by omega
    have hi : i < wide.ninodes := Nat.lt_of_lt_of_le hlt hb.le
    have hk' : k * bsize < (din wide d i).size.toNat := by
      by_cases hir : i = rootino
      · rw [hir] at hk ⊢
        exact hsize k hk
      · rw [← hf.inodes i hi hir]
        exact hk
    rcases hb.type_ne h0 hlt with ⟨htype, hdev⟩
    have hne := hb.cons.sized i hi htype hdev k hk'
    have hsame : (din sb d' i).blockAt d' k = (din wide d i).blockAt d k := hf.blockAt hb h0 hlt k
    rw [hsame]
    exact ⟨hne, hf.bit_blockAt hb h0 hlt hne⟩
  · have hs : (din sb d' i).slot d' s = ref wide (din wide d) d (i, s) := hf.slot hb hi (by omega) s
    have ht : (din sb d' j).slot d' t = ref wide (din wide d) d (j, t) := hf.slot hb hj (by omega) t
    rw [hs] at hne heq
    rw [ht] at heq
    have hpair := hb.cons.maps.inj _ _ hne heq
    simpa using hpair
  by_cases hmeta : b < sb.datastart
  · exact .inl hmeta
  have hbit' : bitAt wide d b = true := by
    rw [hb.like.bits b hbs, ← hf.bits b hbs]
    exact hbit
  rcases (hb.cons.maps.marked b (Nat.le_of_not_lt hmeta) hbs).1 hbit' with ⟨⟨i, s⟩, hp⟩
  have hb0 : ref wide (din wide d) d (i, s) ≠ 0 := by
    have := wide.datastart_pos
    have hge : wide.datastart ≤ b := Nat.le_of_not_lt hmeta
    omega
  -- Only inodes that have been allocated refer to blocks.
  have halloc : i < wide.ninodes ∧ (din wide d i).type ≠ 0 := by
    by_contra hno
    exact hb0 (by simp [ref, hno])
  have hi0 : 0 < i := Nat.pos_of_ne_zero fun h0 => halloc.2 (hb.free i halloc.1 (.inl h0))
  have hi1 : i < m.freeinode := Nat.lt_of_not_le fun hle => halloc.2 (hb.free i halloc.1 (.inr hle))
  refine .inr ⟨i, s, hi0, by omega, ?_⟩
  rw [← hp]
  exact hf.slot hb hi0 hi1 s

omit hb in
theorem Finished.size_root (hsmall : (din wide d rootino).size.toNat < ndirect * bsize) :
    (din wide d' rootino).size.toNat = fixedSize (din wide d rootino).size.toNat := by
  have hlt : fixedSize (din wide d rootino).size.toNat < 2 ^ 32 := by
    unfold fixedSize
    unfold ndirect bsize at *
    omega
  rw [hf.root]
  exact UInt32.toNat_ofNat'.trans (Nat.mod_eq_of_lt hlt)

theorem imageOk_iff_of_built (hroot : rootino < m.freeinode)
    (hsmall : (din wide d rootino).size.toNat < ndirect * bsize) :
    ImageOk d' (m.freeinode - 1) ↔ (din wide d rootino).size.toNat % bsize ≠ 0 := by
  have hfixed := hf.size_root hsmall
  constructor
  · intro hok hzero
    -- The rounded size calls for one block more than there are.
    have hk : (din wide d rootino).size.toNat / bsize < ndirect := by
      rwa [Nat.div_lt_iff_lt_mul (by decide)]
    have hsize : (din wide d rootino).size.toNat = (din wide d rootino).size.toNat / bsize * bsize := by
      unfold bsize at *
      omega
    have hblock := (hok.blocks rootino (by decide) (by omega) ((din wide d rootino).size.toNat / bsize) (by
      have hlt : (din wide d rootino).size.toNat / bsize * bsize < (din wide d' rootino).size.toNat := by
        rw [hfixed]
        unfold fixedSize bsize
        omega
      exact hlt)).1
    have hsame : (din sb d' rootino).blockAt d' ((din wide d rootino).size.toNat / bsize) =
        (din wide d rootino).blockAt d ((din wide d rootino).size.toNat / bsize) :=
      hf.blockAt hb (by decide) hroot _
    rw [hsame, blockAt_of_slotOf (by simp [slotOf, hk] : slotOf _ = some (.direct ⟨_, hk⟩))] at hblock
    exact hblock (hb.exact hroot _ hk hsize.le)
  · intro hne
    refine imageOk_of_root hb hf fun k hk => ?_
    rw [hfixed] at hk
    unfold fixedSize at hk
    unfold bsize at *
    omega

end Fits

/-! ## The inode in the free map -/

theorem testBit_bitmap {j t : ℕ} (hused : used ≤ bpb) (ht : t < 8) :
    ((Image.bitmap used).byte j).testBit t = decide (8 * j + t < used) := by
  have hbit := bit_bitmap hused (8 * j + t)
  have hdiv : (8 * j + t) / 8 = j := by omega
  have hmod : (8 * j + t) % 8 = t := by omega
  rwa [Block.bit_eq_testBit, hdiv, hmod] at hbit

theorem testBit_byte {b : Block} {j t : ℕ} (ht : 8 ≤ t) : (b.byte j).testBit t = false :=
  Nat.testBit_lt_two_pow (Nat.lt_of_lt_of_le (b.byte_lt j) (Nat.pow_le_pow_right (n := 2) (by decide) ht))

theorem byte_bitmap_zero {j : ℕ} (hused : used ≤ bpb) (hj : used ≤ 8 * j) : (Image.bitmap used).byte j = 0 := by
  refine Nat.eq_of_testBit_eq fun t => ?_
  rw [Nat.zero_testBit]
  rcases Nat.lt_or_ge t 8 with ht | ht
  · rw [testBit_bitmap hused ht, decide_eq_false (by omega)]
  · exact testBit_byte ht

theorem byte_bitmap_ones {j : ℕ} (hused : used ≤ bpb) (hj : 8 * j + 8 ≤ used) : (Image.bitmap used).byte j = 255 := by
  refine Nat.eq_of_testBit_eq fun t => ?_
  have hones : Nat.testBit 255 t = decide (t < 8) := Nat.testBit_two_pow_sub_one 8 t
  rw [hones]
  rcases Nat.lt_or_ge t 8 with ht | ht
  · rw [testBit_bitmap hused ht, decide_eq_true (by omega), decide_eq_true ht]
  · rw [testBit_byte ht, decide_eq_false (by omega)]

/-- The first inode that does not fit into the inode blocks is overwritten with the free map, and then it
has a size but not the blocks for it. -/
theorem not_imageOk_of_bitmap {n : ℕ} (hmap : d wide.bmapstart = Image.bitmap used) (hlo : 64 < used)
    (hhi : used ≤ bpb) (hn : wide.ninodes ≤ n) : ¬ ImageOk d n := by
  intro hok
  have hinode : din sb d wide.ninodes = (Image.bitmap used).getDinode 0 := congrArg (Block.getDinode · 0) hmap
  have hsize : (din sb d wide.ninodes).size.toNat = (Image.bitmap used).getInt 8 := by
    rw [hinode]
    exact UInt32.toNat_ofNat'.trans (Nat.mod_eq_of_lt (Block.getInt_lt _ _))
  rcases Nat.lt_or_ge 96 used with hlt | hle
  · -- All bits of the size are set, so the size is larger than that of any file.
    have hbytes : ∀ j, 8 ≤ j → j ≤ 11 → (Image.bitmap used).byte j = 255 := fun j _ hj =>
      byte_bitmap_ones hhi (by omega)
    have hones : (Image.bitmap used).getInt 8 = 2 ^ 32 - 1 := by
      unfold Block.getInt
      rw [hbytes 8 (by omega) (by omega), hbytes 9 (by omega) (by omega), hbytes 10 (by omega) (by omega),
        hbytes 11 (by omega) (by omega)]
      rfl
    have hblock := (hok.blocks wide.ninodes (by decide) hn maxfile (by rw [hsize, hones]; decide)).1
    exact absurd (lt_maxfile_of_blockAt hblock) (Nat.lt_irrefl _)
  -- The size is not zero, but the addresses are.
  have hbit : ((Image.bitmap used).byte 8).testBit 0 = true := by
    rw [testBit_bitmap hhi (by omega), decide_eq_true (by omega)]
  have hne : (Image.bitmap used).byte 8 ≠ 0 := by
    intro hzero
    rw [hzero] at hbit
    simp at hbit
  have hpos : 0 * bsize < (din sb d wide.ninodes).size.toNat := by
    rw [hsize]
    unfold Block.getInt
    omega
  have haddr : (din sb d wide.ninodes).addr 0 = 0 := by
    have hbytes : ∀ j, 12 ≤ j → (Image.bitmap used).byte j = 0 := fun j hj => byte_bitmap_zero hhi (by omega)
    rw [hinode]
    simp [Dinode.addr, Block.getDinode, Block.getInt, hbytes]
  exact (hok.blocks wide.ninodes (by decide) hn 0 hpos).1 haddr

/-! ## All files -/

theorem freeblock_addFile {m' : Image} {f : HostFile} (h : m.addFile f = some m') : m.freeblock ≤ m'.freeblock := by
  unfold Image.addFile at h
  split_ifs at h
  rcases Option.bind_eq_some_iff.1 h with ⟨⟨inum, m1⟩, halloc, hrest⟩
  rcases Option.bind_eq_some_iff.1 hrest with ⟨m2, hentry, hchunks⟩
  have hle1 : m.freeblock ≤ m1.freeblock := by
    unfold Image.ialloc at halloc
    rcases Option.bind_eq_some_iff.1 halloc with ⟨m0, hwinode, hret⟩
    obtain ⟨-, rfl⟩ : _ ∧ m0 = m1 := by simpa using hret
    exact (Counts.winode hwinode).freeblock
  have hle2 := (Counts.iappend hentry).freeblock
  have hle3 : ∀ {chunks : List (List UInt8)} {m2 : Image},
      chunks.foldlM (fun m chunk => m.iappend inum chunk) m2 = some m' → m2.freeblock ≤ m'.freeblock := by
    intro chunks
    induction chunks with
    | nil =>
      intro m2 hm2
      obtain rfl : m2 = m' := by simpa using hm2
      exact Nat.le_refl _
    | cons chunk chunks ih =>
      intro m2 hm2
      rw [List.foldlM_cons] at hm2
      rcases Option.bind_eq_some_iff.1 hm2 with ⟨m3, hm3, hrest⟩
      exact (Counts.iappend hm3).freeblock.trans (ih hrest)
  exact hle1.trans (hle2.trans (hle3 hchunks))

theorem freeblock_addFiles {m' : Image} (h : fs.foldlM Image.addFile m = some m') : m.freeblock ≤ m'.freeblock := by
  induction fs generalizing m with
  | nil =>
    obtain rfl : m = m' := by simpa using h
    exact Nat.le_refl _
  | cons f fs ih =>
    rw [List.foldlM_cons] at h
    rcases Option.bind_eq_some_iff.1 h with ⟨m1, hm1, hrest⟩
    exact (freeblock_addFile hm1).trans (ih hrest)

theorem Built.freeblock_ge (hb : Built m d files) (hroot : rootino < m.freeinode) {n : ℕ} (hn : n ≤ ndirect)
    (hsize : ∀ k, k < n → k * bsize < (din wide d rootino).size.toNat) : nmeta + n ≤ m.freeblock := by
  have hi : rootino < wide.ninodes := Nat.lt_of_lt_of_le hroot hb.le
  rcases hb.type_ne (by decide) hroot with ⟨htype, hdev⟩
  have hslot : ∀ k (hk : k < ndirect), ref wide (din wide d) d (rootino, .direct ⟨k, hk⟩) =
      (din wide d rootino).addr k := fun k hk => ref_of_alloc hi htype
  have hne : ∀ k, k < n → (din wide d rootino).addr k ≠ 0 := by
    intro k hk
    have hblock := hb.cons.sized rootino hi htype hdev k (hsize k hk)
    rwa [blockAt_of_slotOf (by simp [slotOf, hk.trans_le hn] : slotOf k = some (.direct ⟨k, hk.trans_le hn⟩))] at hblock
  have hmem : Set.MapsTo (din wide d rootino).addr (Finset.range n) (Finset.Ico nmeta m.freeblock) := by
    intro k hk
    have hk' : k < n := by simpa using hk
    have hp : ref wide (din wide d) d (rootino, .direct ⟨k, hk'.trans_le hn⟩) ≠ 0 := by
      rw [hslot]
      exact hne k hk'
    have hrange := hb.cons.maps.range _ hp
    have hbit := hb.cons.maps.bit_of_ref hp
    rw [hslot] at hrange hbit
    rw [hb.like.bits _ hrange.2] at hbit
    simp only [Finset.coe_Ico, Set.mem_Ico]
    exact ⟨hrange.1, by simpa using hbit⟩
  have hinj : Set.InjOn (din wide d rootino).addr (Finset.range n) := by
    intro k hk l hl heq
    have hk' : k < n := by simpa using hk
    have hl' : l < n := by simpa using hl
    have hpair := hb.cons.maps.inj (rootino, .direct ⟨k, hk'.trans_le hn⟩) (rootino, .direct ⟨l, hl'.trans_le hn⟩)
      (by rw [hslot]; exact hne k hk') (by rw [hslot, hslot]; exact heq)
    simpa using hpair
  have hcard := Finset.card_le_card_of_injOn _ hmem hinj
  have hmeta := hb.like.meta_le
  have hmeta' : nmeta ≤ m.freeblock := hmeta
  rw [Finset.card_range, Nat.card_Ico] at hcard
  omega

theorem size_root (hb : Built m d files) (hroot : rootino < m.freeinode)
    (hdir : files rootino = direntBytes rootDirents ++ direntBytes (direntsFrom 2 fs)) :
    (din wide d rootino).size.toNat = direntSize * (fs.length + 2) := by
  rw [hb.size (by decide) hroot, hdir, ← direntBytes_append, length_direntBytes, List.length_append,
    length_direntsFrom, Nat.add_comm]
  rfl

theorem size_root_lt (hb : Built m d files) (hroot : rootino < m.freeinode)
    (hdir : files rootino = direntBytes rootDirents ++ direntBytes (direntsFrom 2 fs))
    (hfew : fs.length ≤ 206) : (din wide d rootino).size.toNat < ndirect * bsize := by
  rw [size_root hb hroot hdir]
  unfold ndirect bsize direntSize
  omega

theorem built_addFiles {m0 : Image} (hm0 : Image.root = some m0) (hm : fs.foldlM Image.addFile m0 = some m)
    (hfew : fs.length ≤ 206) : ∃ d files, Built m d files ∧ m.freeinode = fs.length + 2 ∧
      files rootino = direntBytes rootDirents ++ direntBytes (direntsFrom 2 fs) ∧
      ∀ k, (hk : k < fs.length) → files (2 + k) = fs[k].data := by
  rcases built_root with ⟨m0', d0, files0, hm0', hinode0, _, h0, hroot0⟩
  obtain rfl : m0' = m0 := Option.some.inj (hm0'.symm.trans hm0)
  have hmax : wide.ninodes = 208 := rfl
  have hone : rootino = 1 := rfl
  rcases h0.addFiles (by omega) fs (by omega) with ⟨m', d1, files1, hm', hinode, _, hb, hdir, hdata, _⟩ | ⟨hnone, _⟩
  · obtain rfl : m' = m := Option.some.inj (hm'.symm.trans hm)
    rw [hroot0, hinode0] at hdir
    rw [hinode0] at hdata
    exact ⟨d1, files1, hb, by omega, hdir, hdata⟩
  · cases hnone.symm.trans hm

theorem main_built (h : main fs = some d') (hfew : fs.length ≤ 206) :
    ∃ m d files, Built m d files ∧ Finished m d d' ∧ m.freeinode = fs.length + 2 ∧
      files rootino = direntBytes rootDirents ++ direntBytes (direntsFrom 2 fs) ∧
      ∀ k, (hk : k < fs.length) → files (2 + k) = fs[k].data := by
  unfold main at h
  rcases Option.bind_eq_some_iff.1 h with ⟨m0, hm0, hfiles⟩
  rcases Option.bind_eq_some_iff.1 hfiles with ⟨m1, hm1, hfix⟩
  rcases Option.bind_eq_some_iff.1 hfix with ⟨m2, hm2, hmap⟩
  rcases Option.bind_eq_some_iff.1 hmap with ⟨m3, hm3, hret⟩
  obtain rfl : m3.disk = d' := by simpa using hret
  rcases built_addFiles hm0 hm1 hfew with ⟨d1, files1, hb, hinode, hdir, hdata⟩
  have hone : rootino = 1 := rfl
  exact ⟨m1, d1, files1, hb, hb.finished (by omega) hm2 hm3, hinode, hdir, hdata⟩

theorem main_overflow (h : main fs = some d) (hmany : 206 < fs.length) :
    ∃ used, d wide.bmapstart = Image.bitmap used ∧ 64 < used ∧ used ≤ bpb := by
  unfold main at h
  rcases Option.bind_eq_some_iff.1 h with ⟨m0, hm0, hfiles⟩
  rcases Option.bind_eq_some_iff.1 hfiles with ⟨m1, hm1, hfix⟩
  rcases Option.bind_eq_some_iff.1 hfix with ⟨m2, hm2, hmap⟩
  rcases Option.bind_eq_some_iff.1 hmap with ⟨m3, hm3, hret⟩
  obtain rfl : m3.disk = d := by simpa using hret
  have hone : rootino = 1 := rfl
  -- After the first 206 files, the root directory has seven blocks.
  rw [← List.take_append_drop 206 fs, List.foldlM_append] at hm1
  rcases Option.bind_eq_some_iff.1 hm1 with ⟨m, hm, hrest⟩
  have hlen : (fs.take 206).length = 206 := by
    rw [List.length_take]
    omega
  rcases built_addFiles hm0 hm hlen.le with ⟨d1, files1, hb, hinode, hdir, _⟩
  have hsize := size_root hb (by omega) hdir
  have hblocks := hb.freeblock_ge (n := 7) (by omega) (by decide) fun k hk => by
    rw [hsize, hlen]
    unfold bsize direntSize
    omega
  rcases finish_eq_some hm2 hm3 with ⟨hlt, hbits⟩
  refine ⟨_, hbits, ?_, hlt.le⟩
  have hle := freeblock_addFiles hrest
  have hmeta : nmeta = 60 := rfl
  omega

theorem imageOk_iff_of_few (h : main fs = some d) (hfew : fs.length ≤ 206) :
    ImageOk d (fs.length + 1) ↔ (fs.length + 2) % 32 ≠ 0 := by
  rcases main_built h hfew with ⟨m, d1, files1, hb, hf, hinode, hdir, _⟩
  have hone : rootino = 1 := rfl
  have hsize := size_root hb (by omega) hdir
  have hcount : fs.length + 1 = m.freeinode - 1 := by omega
  rw [hcount, imageOk_iff_of_built hb hf (by omega) (size_root_lt hb (by omega) hdir hfew), hsize]
  unfold bsize direntSize
  omega

/-- The image is consistent for the kernel exactly if the inodes fit into the inode blocks and the entries
of the root directory do not fill its last block. -/
theorem imageOk_iff (h : main fs = some d) :
    ImageOk d (fs.length + 1) ↔ fs.length ≤ 206 ∧ (fs.length + 2) % 32 ≠ 0 := by
  rcases Nat.lt_or_ge 206 fs.length with hmany | hfew
  · rcases main_overflow h hmany with ⟨used, hmap, hlo, hhi⟩
    have hmax : wide.ninodes = 208 := rfl
    exact iff_of_false (not_imageOk_of_bitmap hmap hlo hhi (by omega)) (by omega)
  · rw [imageOk_iff_of_few h hfew]
    exact (and_iff_right hfew).symm

theorem main_isSome (fs : List HostFile) (hlen : fs.length ≤ 206) (hslash : ∀ f ∈ fs, 47 ∉ f.name)
    (hdata : ∀ f ∈ fs, f.data.length ≤ maxfile * bsize)
    (hroom : nmeta + 4 * direntSize + 2 * bytesOf fs < bpb) : ∃ d, main fs = some d := by
  rcases built_root with ⟨m0, d0, files0, hm0, hinode0, hcount0, h0, hroot0⟩
  have hmax : wide.ninodes = 208 := rfl
  have hroot : rootino < m0.freeinode := by
    rw [hinode0]
    decide
  have hdir : (files0 rootino).length = direntSize * 2 := by
    rw [hroot0, length_direntBytes]
    rfl
  have hsizes : bpb ≤ fssize ∧ direntSize * 208 ≤ maxfile * bsize := by decide
  have hmul : direntSize * fs.length ≤ direntSize * 206 := Nat.mul_le_mul_left _ hlen
  rcases h0.addFiles hroot fs (by omega) with
    ⟨m1, d1, files1, hm1, hinode1, hcount1, h₁, _⟩ | ⟨_, ⟨f, hf, hbad⟩ | hfull⟩
  rotate_left
  · rcases hbad with hbad | hbad
    · exact absurd hbad (hslash f hf)
    · exact absurd hbad (Nat.not_lt.2 (hdata f hf))
  · omega
  have hi : rootino < wide.ninodes := by decide
  rcases h₁.like.winode hi { din wide d1 rootino with
    size := UInt32.ofNat (fixedSize (din wide d1 rootino).size.toNat) } with ⟨m2, hm2, _⟩
  have hfix : m1.fixRoot = some m2 := by
    simp only [Image.fixRoot, h₁.like.rinode hi, Option.bind_eq_bind, Option.bind_some]
    exact hm2
  have hblock := freeblock_fixRoot hfix
  have hmap : m2.freeblock < bsize * 8 := by
    have hbpb : bpb = bsize * 8 := rfl
    omega
  refine ⟨(m2.wsect sb.bmapstart (Image.bitmap m2.freeblock)).disk, ?_⟩
  simp only [main, hm0, hm1, hfix, Image.balloc, hmap, if_true, Option.bind_eq_bind, Option.bind_some]
  rfl

/-- Thirty empty files; their names are single characters. -/
def thirtyFiles : List HostFile :=
  (List.finRange 30).map fun k =>
    { name := [UInt8.ofNat (97 + k.val)]
      chunks := []
      name_ne := by
        revert k
        simp only [List.mem_singleton, forall_eq]
        decide }

theorem main_thirtyFiles : ∃ d, main thirtyFiles = some d :=
  main_isSome thirtyFiles (by decide) (by decide) (by decide) (by decide)

/-- With its 32 entries the root directory fills one block, but its size is made that of two. -/
theorem not_imageOk_thirtyFiles : ∃ d, main thirtyFiles = some d ∧ ¬ ImageOk d (thirtyFiles.length + 1) := by
  rcases main_thirtyFiles with ⟨d, hd⟩
  refine ⟨d, hd, fun hok => ?_⟩
  have hlen : thirtyFiles.length = 30 := rfl
  have hne := (imageOk_iff_of_few hd (by omega)).1 hok
  omega

/-- The first 29 of these files make a consistent image. -/
theorem imageOk_take_thirtyFiles : ∃ d, main (thirtyFiles.take 29) = some d ∧
      (ImageOk d 30 ↔ 29 ≤ 206 ∧ (29 + 2) % 32 ≠ 0) ∧ ImageOk d 30 := by
  rcases main_isSome (thirtyFiles.take 29) (by decide) (by decide) (by decide) (by decide) with ⟨d, hd⟩
  have hiff := imageOk_iff hd
  exact ⟨d, hd, hiff, hiff.2 (by decide)⟩

end Xv6.Mkfs
