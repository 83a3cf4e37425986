import Xv6.Fs.Consistent
import Xv6.Mkfs.Image

/-!
# Append — `iappend` does what the kernel does

`mkfs` hands out blocks by counting up, the kernel by looking for the first clear bit of the free map.  An
image under construction is therefore compared with a disk that has the same inodes and data blocks, and
on which the free map marks the blocks below the counter (`Like`).  There the loop of `iappend` is the
loop of the kernel's `writei` (`iappendLoop_like`), and what is known about the one holds of the other.
-/

namespace Xv6.Mkfs

open Function (update update_apply update_eq_self update_of_ne)
open Fs

/-- The super block with as many inodes as fit into the inode blocks. -/
def wide : Superblock :=
  { sb with
    ninodes := ninodeblocks * ipb
    log_le := by decide
    inode_le := by decide
    bmap_le := by decide
    data_le := by decide
    ninodes_le := by decide
    size_lt := by decide }

/-- The disk `d` is the image, with a free map. -/
structure Like (m : Image) (d : Disk) : Prop where
  same : ∀ c, c < wide.bmapstart ∨ wide.datastart ≤ c → d c = m.disk c
  bits : ∀ b, b < fssize → bitAt wide d b = decide (b < m.freeblock)
  fresh : ∀ c, m.freeblock ≤ c → m.disk c = Block.zero
  /-- The second block for the free map is never written. -/
  spare : m.disk (wide.bmapstart + 1) = Block.zero
  meta_le : wide.datastart ≤ m.freeblock
  le_size : m.freeblock ≤ fssize
  /-- The super block and the log are as they were at the beginning. -/
  front : ∀ c, c < wide.inodestart → m.disk c = Image.blank.disk c

variable {m m' : Image} {d d' : Disk} {ip ip' : Dinode} {i fbn x off n turns : ℕ} {v : Block}

theorem seek_eq (h : x ≤ fssize) : Image.seek x = x := Nat.mod_eq_of_lt (Nat.lt_of_le_of_lt h (by decide))

theorem rsect_of_lt (h : x < fssize) : m.rsect x = some (m.disk x) := by
  simp [Image.rsect, seek_eq h.le, h]

/-! ## The counters -/

/-- No inode is taken, and blocks are only added. -/
structure Counts (m m' : Image) : Prop where
  freeinode : m'.freeinode = m.freeinode
  freeblock : m.freeblock ≤ m'.freeblock

namespace Counts

theorem refl (m : Image) : Counts m m := ⟨rfl, Nat.le_refl _⟩

theorem trans {m1 m2 m3 : Image} (h1 : Counts m1 m2) (h2 : Counts m2 m3) : Counts m1 m3 :=
  ⟨h2.freeinode.trans h1.freeinode, h1.freeblock.trans h2.freeblock⟩

theorem wsect (m : Image) (x : ℕ) (v : Block) : Counts m (m.wsect x v) := ⟨rfl, Nat.le_refl _⟩

theorem winode {y : Dinode} (h : m.winode i y = some m') : Counts m m' := by
  rcases Option.bind_eq_some_iff.1 h with ⟨buf, _, hret⟩
  obtain rfl : m.wsect _ _ = m' := by simpa using hret
  exact wsect m _ _

theorem allocAddr {k : ℕ} (h : m.allocAddr ip k = (ip', m')) : Counts m m' := by
  unfold Image.allocAddr at h
  split_ifs at h
  · obtain ⟨-, rfl⟩ : _ ∧ _ = m' := by simpa using h
    exact ⟨rfl, Nat.le_succ _⟩
  · obtain ⟨-, rfl⟩ : ip = ip' ∧ m = m' := by simpa using h
    exact refl m

theorem blockFor (h : m.blockFor ip fbn = some (x, ip', m')) : Counts m m' := by
  unfold Image.blockFor at h
  split_ifs at h
  · rcases halloc : m.allocAddr ip fbn with ⟨ip1, m1⟩
    simp only [halloc] at h
    obtain ⟨-, -, rfl⟩ : _ ∧ ip1 = ip' ∧ m1 = m' := by simpa using h
    exact allocAddr halloc
  rcases halloc : m.allocAddr ip ndirect with ⟨ip1, m1⟩
  simp only [halloc] at h
  rcases Option.bind_eq_some_iff.1 h with ⟨blk, _, hrest⟩
  split_ifs at hrest
  · obtain ⟨-, -, rfl⟩ : _ ∧ ip1 = ip' ∧ _ = m' := by simpa using hrest
    exact (allocAddr halloc).trans ⟨rfl, Nat.le_succ _⟩
  · obtain ⟨-, -, rfl⟩ : _ ∧ ip1 = ip' ∧ m1 = m' := by simpa using hrest
    exact allocAddr halloc

theorem iappendLoop {p : ℕ → UInt8} {off' : ℕ}
    (h : Image.iappendLoop turns m ip off n p = some (off', ip', m')) : Counts m m' := by
  induction turns generalizing m ip off n p with
  | zero =>
    obtain ⟨-, -, rfl⟩ : off = off' ∧ ip = ip' ∧ m = m' := by simpa [Image.iappendLoop] using h
    exact refl m
  | succ turns ih =>
    simp only [Image.iappendLoop] at h
    split_ifs at h
    · rcases Option.bind_eq_some_iff.1 h with ⟨⟨x, ip1, m1⟩, hblock, hrest⟩
      rcases Option.bind_eq_some_iff.1 hrest with ⟨buf, _, hrest⟩
      exact (blockFor hblock).trans ((wsect m1 x _).trans (ih hrest))
    · obtain ⟨-, -, rfl⟩ : off = off' ∧ ip = ip' ∧ m = m' := by simpa using h
      exact refl m

theorem iappend {bytes : List UInt8} (h : m.iappend i bytes = some m') : Counts m m' := by
  rcases Option.bind_eq_some_iff.1 h with ⟨ip, _, hrest⟩
  rcases Option.bind_eq_some_iff.1 hrest with ⟨⟨off, ip1, m1⟩, hloop, hwinode⟩
  exact (iappendLoop hloop).trans (winode hwinode)

end Counts

namespace Like

theorem wsect (h : Like m d) (hlo : wide.datastart ≤ x) (hx : x < m.freeblock) (v : Block) :
    Like (m.wsect x v) (update d x v) := by
  have hseek : Image.seek x = x := seek_eq (hx.le.trans h.le_size)
  refine ⟨fun c hc => ?_, fun b hb => ?_, fun c hc => ?_, ?_, h.meta_le, h.le_size, fun c hc => ?_⟩
  · simp only [Image.wsect, hseek, update_apply]
    split_ifs
    · rfl
    · exact h.same c hc
  · rw [bitAt_write_data hb hlo]
    exact h.bits b hb
  · have hne : c ≠ x := by
      have hle : m.freeblock ≤ c := hc
      omega
    simp only [Image.wsect, hseek, update_of_ne hne]
    exact h.fresh c hc
  · have hne : wide.bmapstart + 1 ≠ x := by
      have hmap : wide.bmapstart + 1 < wide.datastart := by decide
      omega
    simp only [Image.wsect, hseek, update_of_ne hne]
    exact h.spare
  · have hne : c ≠ x := by
      have hfront : wide.inodestart < wide.datastart := by decide
      omega
    simp only [Image.wsect, hseek, update_of_ne hne]
    exact h.front c hc

theorem winode (h : Like m d) (hi : i < wide.ninodes) (y : Dinode) :
    ∃ m', m.winode i y = some m' ∧ Like m' (iupdate wide d i y) := by
  have hblock : wide.iblock i < wide.bmapstart := Superblock.iblock_lt hi
  have hlt : wide.iblock i < fssize := hblock.trans (by decide)
  have hread : m.rsect (sb.iblock i) = some (m.disk (wide.iblock i)) := rsect_of_lt hlt
  have hseek : Image.seek (sb.iblock i) = wide.iblock i := seek_eq hlt.le
  refine ⟨m.wsect (sb.iblock i) ((m.disk (wide.iblock i)).putDinode (i % ipb) y), ?_, ?_⟩
  · simp [Image.winode, hread]
  refine ⟨fun c hc => ?_, fun b hb => ?_, fun c hc => ?_, ?_, h.meta_le, h.le_size, fun c hc => ?_⟩
  · simp only [Image.wsect, hseek, iupdate, update_apply]
    split_ifs with hci
    · rw [h.same _ (.inl hblock)]
    · exact h.same c hc
  · rw [bitAt_iupdate hi]
    exact h.bits b hb
  · have hne : c ≠ wide.iblock i := by
      have hle : m.freeblock ≤ c := hc
      have := h.meta_le
      have := wide.bmapstart_lt_datastart
      omega
    simp only [Image.wsect, hseek, update_of_ne hne]
    exact h.fresh c hc
  · have hne : wide.bmapstart + 1 ≠ wide.iblock i := by omega
    simp only [Image.wsect, hseek, update_of_ne hne]
    exact h.spare
  · have hne : c ≠ wide.iblock i := Nat.ne_of_lt (Nat.lt_of_lt_of_le hc (Nat.le_add_left _ _))
    simp only [Image.wsect, hseek, update_of_ne hne]
    exact h.front c hc

theorem rinode (h : Like m d) (hi : i < wide.ninodes) : m.rinode i = some (din wide d i) := by
  have hblock : wide.iblock i < wide.bmapstart := Superblock.iblock_lt hi
  have hread : m.rsect (sb.iblock i) = some (m.disk (wide.iblock i)) := rsect_of_lt (hblock.trans (by decide))
  simp [Image.rinode, hread, din, h.same _ (.inl hblock)]

/-- The next block is the one that `balloc` returns. -/
theorem balloc (h : Like m d) (hlt : m.freeblock < fssize) :
    ∃ d', Fs.balloc wide d = .ok (m.freeblock, d') ∧ Like { m with freeblock := m.freeblock + 1 } d' ∧
      ∀ c, wide.datastart ≤ c → c ≠ m.freeblock → d' c = d c := by
  have hbit : bitAt wide d m.freeblock = false := by simp [h.bits _ hlt]
  rcases balloc_isOk hlt hbit with ⟨⟨b, d'⟩, hb⟩
  rcases balloc_ok hb with ⟨hsize, hfree, rfl⟩
  -- No bit below the counter is clear, and the bit of the counter is.
  have hbm : b = m.freeblock := by
    have hle : m.freeblock ≤ b := by
      rw [h.bits b hsize] at hfree
      simpa using hfree
    refine Nat.le_antisymm (Nat.le_of_not_lt fun hlt' => ?_) hle
    rw [balloc_first hb hlt'] at hbit
    cases hbit
  subst hbm
  have hdata : ∀ c, wide.datastart ≤ c → bzero (markUsed wide d m.freeblock) m.freeblock c =
      if c = m.freeblock then Block.zero else d c := fun c hc => balloc_data hlt hc
  refine ⟨_, hb, ⟨fun c hc => ?_, fun b hbs => ?_, fun c hc => ?_, h.spare, ?_, hlt, h.front⟩, fun c hc hne => ?_⟩
  · rcases hc with hc | hc
    · have hne : c ≠ m.freeblock := by
        have := h.meta_le
        have := wide.bmapstart_lt_datastart
        omega
      have hne' : c ≠ wide.bblock m.freeblock := Nat.ne_of_lt (Nat.lt_of_lt_of_le hc Superblock.le_bblock)
      simp only [bzero, markUsed, update_of_ne hne, update_of_ne hne']
      exact h.same c (.inl hc)
    · rw [hdata c hc]
      split_ifs with hcm
      · rw [hcm]
        exact (h.fresh _ (Nat.le_refl _)).symm
      · exact h.same c (.inr hc)
  · rw [bitAt_balloc h.meta_le hbs, update_apply, h.bits b hbs]
    by_cases hbm : b = m.freeblock
    · simp [hbm]
    · rw [if_neg hbm, decide_eq_decide]
      have hcount : ({ m with freeblock := m.freeblock + 1 } : Image).freeblock = m.freeblock + 1 := rfl
      omega
  · exact h.fresh c (Nat.le_of_succ_le hc)
  · exact Nat.le_succ_of_le h.meta_le
  · rw [hdata c hc, if_neg hne]

end Like

/-! ## `blockFor` is `bmap` -/

section Bmap

variable (hlike : Like m d) (hi : i < wide.ninodes) (hx : ip.type ≠ 0) {D : ℕ → Dinode}
  (hmaps : Maps wide (update D i ip) d)

include hlike hi hx hmaps

omit hi hx in
theorem ref_lt_freeblock {p : ℕ × Slot} (hp : ref wide (update D i ip) d p ≠ 0) :
    wide.datastart ≤ ref wide (update D i ip) d p ∧ ref wide (update D i ip) d p < m.freeblock := by
  rcases hmaps.range p hp with ⟨hlo, hhi⟩
  have hbit := hmaps.bit_of_ref hp
  rw [hlike.bits _ hhi] at hbit
  exact ⟨hlo, by simpa using hbit⟩

theorem addr_lt_freeblock (hind : ip.addr ndirect ≠ 0) :
    wide.datastart ≤ ip.addr ndirect ∧ ip.addr ndirect < m.freeblock := by
  have href : ref wide (update D i ip) d (i, .indirect) = ip.addr ndirect := ref_update_self hi hx .indirect
  have hlt := ref_lt_freeblock hlike hmaps (p := (i, .indirect)) (by rw [href]; exact hind)
  rwa [href] at hlt

end Bmap

theorem blockFor_entry_like {blk : Block} {k : ℕ} (hlike : Like m d) (hlo : wide.datastart ≤ ip.addr ndirect)
    (hlt : ip.addr ndirect < m.freeblock) (hk : k < nindirect) (hblk : blk = m.disk (ip.addr ndirect)) :
    (blk.getInt (4 * k) ≠ 0 → bmapEntry wide d ip k = .ok (blk.getInt (4 * k), ip, d)) ∧
    (blk.getInt (4 * k) = 0 → (blk.setInt (4 * k) m.freeblock).getInt (4 * k) = m.freeblock ∧
      (m.freeblock < fssize → ∃ d', bmapEntry wide d ip k = .ok (m.freeblock, ip, d') ∧
        Like ({ m with freeblock := m.freeblock + 1 }.wsect (ip.addr ndirect)
          (blk.setInt (4 * k) m.freeblock)) d')) := by
  have hsame : d (ip.addr ndirect) = blk := (hlike.same _ (.inr hlo)).trans hblk.symm
  refine ⟨fun hne => ?_, fun hzero => ⟨?_, fun hfree => ?_⟩⟩
  · simp only [bmapEntry, hsame, hne, if_false, pure_eq_ok]
  · refine Block.getInt_setInt_self _ ?_ (Nat.lt_of_le_of_lt hlike.le_size (by decide))
    unfold nindirect at hk
    unfold bsize at *
    omega
  · rcases hlike.balloc hfree with ⟨d', hballoc, hlike', _⟩
    refine ⟨update d' (ip.addr ndirect) (blk.setInt (4 * k) m.freeblock), ?_, ?_⟩
    · simp only [bmapEntry, hsame, hzero, if_true, hballoc, ok_bind, pure_eq_ok]
    · exact hlike'.wsect hlo (Nat.lt_succ_of_lt hlt) _

section Bmap

variable (hlike : Like m d) (hi : i < wide.ninodes) (hx : ip.type ≠ 0) {D : ℕ → Dinode}
  (hmaps : Maps wide (update D i ip) d)

include hlike hi hx hmaps

theorem allocAddr_spec :
    (∃ ip' m' d', m.allocAddr ip ndirect = (ip', m') ∧ loadIndirect wide d ip = .ok (ip', d') ∧ Like m' d' ∧
      wide.datastart ≤ ip'.addr ndirect ∧ ip'.addr ndirect < m'.freeblock ∧ m'.freeblock ≤ m.freeblock + 1) ∨
    m.freeblock = fssize ∧ ∃ ip' m', m.allocAddr ip ndirect = (ip', m') ∧ ip'.addr ndirect = fssize := by
  have hself : (ip.setAddr ndirect m.freeblock).addr ndirect = m.freeblock := by
    rw [Dinode.addr_setAddr ip (by decide) (Nat.lt_of_le_of_lt hlike.le_size (by decide)), if_pos rfl]
  by_cases hzero : ip.addr ndirect = 0
  · have halloc : m.allocAddr ip ndirect =
        (ip.setAddr ndirect m.freeblock, { m with freeblock := m.freeblock + 1 }) := if_pos hzero
    rcases hlike.le_size.lt_or_eq with hlt | hfull
    · rcases hlike.balloc hlt with ⟨d', hballoc, hlike', _⟩
      refine .inl ⟨_, _, d', halloc, ?_, hlike', hself.symm ▸ hlike.meta_le, ?_, Nat.le_refl _⟩
      · simp only [loadIndirect, hzero, if_true, hballoc, ok_bind, pure_eq_ok]
      · rw [hself]
        exact Nat.lt_succ_self _
    · exact .inr ⟨hfull, _, _, halloc, hself.trans hfull⟩
  · refine .inl ⟨ip, m, d, if_neg hzero, if_neg hzero, hlike, ?_⟩
    exact (addr_lt_freeblock hlike hi hx hmaps hzero).imp_right fun hlt => ⟨hlt, Nat.le_succ _⟩

theorem blockFor_spec (hfbn : fbn < maxfile) :
    (∃ x ip' m' d', m.blockFor ip fbn = some (x, ip', m') ∧ bmap wide d ip fbn = .ok (x, ip', d') ∧ Like m' d' ∧
      m'.freeblock ≤ m.freeblock + 2) ∨
    fssize < m.freeblock + 2 ∧ ∀ r, m.blockFor ip fbn = some r → r.1 = fssize := by
  by_cases hdirect : fbn < ndirect
  · by_cases hzero : ip.addr fbn = 0
    · have hself : (ip.setAddr fbn m.freeblock).addr fbn = m.freeblock := by
        rw [Dinode.addr_setAddr ip (Nat.lt_succ_of_lt hdirect)
          (Nat.lt_of_le_of_lt hlike.le_size (by decide)), if_pos rfl]
      have hblock : m.blockFor ip fbn =
          some (m.freeblock, ip.setAddr fbn m.freeblock, { m with freeblock := m.freeblock + 1 }) := by
        simp only [Image.blockFor, hdirect, if_true, Image.allocAddr, hzero, hself]
      rcases hlike.le_size.lt_or_eq with hlt | hfull
      · rcases hlike.balloc hlt with ⟨d', hballoc, hlike', _⟩
        exact .inl ⟨_, _, _, d', hblock, by simp only [bmap, hdirect, if_true, hzero, hballoc, ok_bind, pure_eq_ok],
          hlike', Nat.le_succ _⟩
      · refine .inr ⟨by omega, fun r hr => ?_⟩
        rw [← Option.some.inj (hblock.symm.trans hr)]
        exact hfull
    · exact .inl ⟨ip.addr fbn, ip, m, d, by simp only [Image.blockFor, hdirect, if_true, Image.allocAddr, hzero, if_false],
        by simp only [bmap, hdirect, if_true, hzero, if_false, pure_eq_ok], hlike, Nat.le_add_right _ _⟩
  have hk : fbn - ndirect < nindirect := by
    unfold maxfile at hfbn
    omega
  rcases allocAddr_spec hlike hi hx hmaps with ⟨ip1, m1, d1, halloc, hload, hlike1, hlo, hlt, hcount⟩ |
    ⟨hfull, ip1, m1, halloc, haddr⟩
  · have hread := rsect_of_lt (m := m1) (Nat.lt_of_lt_of_le hlt hlike1.le_size)
    have hbmap : bmap wide d ip fbn = bmapEntry wide d1 ip1 (fbn - ndirect) := by
      simp only [bmap, hdirect, if_false, hk, if_true, hload, ok_bind]
    rcases blockFor_entry_like hlike1 hlo hlt hk rfl with ⟨hthere, hnew⟩
    by_cases hzero : (m1.disk (ip1.addr ndirect)).getInt (4 * (fbn - ndirect)) = 0
    · rcases hnew hzero with ⟨hself, hentry⟩
      have hblock : m.blockFor ip fbn = some (m1.freeblock, ip1,
          { m1 with freeblock := m1.freeblock + 1 }.wsect (ip1.addr ndirect)
            ((m1.disk (ip1.addr ndirect)).setInt (4 * (fbn - ndirect)) m1.freeblock)) := by
        simp only [Image.blockFor, hdirect, if_false, halloc, hread, Option.bind_eq_bind, Option.bind_some, hzero,
          if_true, hself]
        rfl
      rcases hlike1.le_size.lt_or_eq with hlt' | hfull
      · rcases hentry hlt' with ⟨d', hd', hlike'⟩
        exact .inl ⟨_, _, _, d', hblock, hbmap.trans hd', hlike', Nat.succ_le_succ hcount⟩
      · refine .inr ⟨by omega, fun r hr => ?_⟩
        rw [← Option.some.inj (hblock.symm.trans hr)]
        exact hfull
    · refine .inl ⟨_, _, _, d1, ?_, hbmap.trans (hthere hzero), hlike1, Nat.le_succ_of_le hcount⟩
      simp only [Image.blockFor, hdirect, if_false, halloc, hread, Option.bind_eq_bind, Option.bind_some, hzero]
      rfl
  · -- The new indirect block cannot be read.
    refine .inr ⟨by omega, fun r hr => ?_⟩
    have hread : m1.rsect fssize = none := by simp [Image.rsect, seek_eq]
    simp [Image.blockFor, hdirect, halloc, haddr, hread] at hr

/-! ## `iappend` is `writei` at the end of the file -/

/-- The loop of `iappend` is the loop of `writei`, unless the file or the image becomes too large. -/
theorem iappendLoop_spec {o : ℕ} (p : ℕ → UInt8) (hturns : n ≤ turns) :
    (∃ ip' m' d', Image.iappendLoop turns m ip o n p = some (o + n, ip', m') ∧
      (0 < n → o + n ≤ maxfile * bsize) ∧ writeLoop wide turns d ip o n p = .ok (ip', d') ∧ Like m' d' ∧
      m'.freeblock ≤ m.freeblock + 2 * n) ∨
    Image.iappendLoop turns m ip o n p = none ∧ (maxfile * bsize < o + n ∨ fssize < m.freeblock + 2 * n) := by
  induction turns generalizing m d ip o n p with
  | zero =>
    obtain rfl : n = 0 := Nat.le_zero.1 hturns
    exact .inl ⟨ip, m, d, rfl, fun hpos => absurd hpos (Nat.lt_irrefl 0), rfl, hlike, Nat.le_refl _⟩
  | succ turns ih =>
    by_cases hpos : 0 < n
    · by_cases hfbn : o / bsize < maxfile
      · rcases blockFor_spec hlike hi hx hmaps hfbn with ⟨x, ip1, m1, d1, hblock, hbmap, hlike1, hcount⟩ |
          ⟨hfull, hstop⟩
        · have hb := bmap_ok hi hx hmaps hbmap
          have hx1 : ip1.type ≠ 0 := by
            rw [hb.kept]
            exact hx
          -- The sector is in the data area, so that both sides write the same block.
          have hrange : wide.datastart ≤ x ∧ x < m1.freeblock := by
            rcases hb.slot hi hx with ⟨s, _, href⟩
            have hlt := ref_lt_freeblock hlike1 hb.maps (p := (i, s)) (by rw [href]; exact hb.pos)
            rwa [href] at hlt
          have hread := rsect_of_lt (m := m1) (Nat.lt_of_lt_of_le hrange.2 hlike1.le_size)
          have hmod : (o / bsize + 1) * bsize - o = bsize - o % bsize := by
            unfold bsize
            omega
          have hoff : o - o / bsize * bsize = o % bsize := by
            unfold bsize
            omega
          have hm := chunk_pos o hpos
          have hle : min n (bsize - o % bsize) ≤ bsize - o % bsize := Nat.min_le_right _ _
          have hwrote := hb.wrote hi hx p hm hle
          simp only [Image.iappendLoop, writeLoop, hpos, if_true, hfbn, hblock, hbmap, Option.bind_eq_bind,
            Option.bind_some, ok_bind, hmod, hoff, hread, ← hlike1.same x (.inr hrange.1)]
          generalize hc : min n (bsize - o % bsize) = c at *
          have hend : o + c + (n - c) = o + n := by omega
          have hnext := ih (hlike1.wsect hrange.1 hrange.2 ((d1 x).copyIn (o % bsize) c p)) hx1 hwrote.maps
            (o := o + c) (fun k => p (c + k)) (by omega : n - c ≤ turns)
          rw [hend] at hnext
          have hsame : (m1.wsect x ((d1 x).copyIn (o % bsize) c p)).freeblock = m1.freeblock := rfl
          rcases hnext with ⟨ip', m', d', hloop, hfits, hwrite, hlike', hle'⟩ | ⟨hnone, hwhy⟩
          · refine .inl ⟨ip', m', d', hloop, fun _ => ?_, hwrite, hlike', by omega⟩
            by_cases hmore : 0 < n - c
            · exact hfits hmore
            -- The last chunk ends in a block of the file.
            have hlast : o + n ≤ (o / bsize + 1) * bsize := by
              unfold bsize at *
              omega
            exact hlast.trans (Nat.mul_le_mul_right bsize hfbn)
          · exact .inr ⟨hnone, hwhy.imp_right fun hroom => by omega⟩
        · refine .inr ⟨?_, .inr (by omega)⟩
          simp only [Image.iappendLoop, hpos, if_true, hfbn]
          cases hblock : m.blockFor ip (o / bsize) with
          | none => rfl
          | some r => simp [Image.rsect, hstop r hblock, seek_eq]
      · refine .inr ⟨by simp [Image.iappendLoop, hpos, hfbn], .inl ?_⟩
        have hle := Nat.mul_le_of_le_div _ _ _ (Nat.le_of_not_lt hfbn)
        omega
    · obtain rfl : n = 0 := by omega
      refine .inl ⟨ip, m, d, by simp [Image.iappendLoop], fun h => absurd h hpos, by simp [writeLoop], hlike, Nat.le_refl _⟩

end Bmap

theorem iappend_spec (bytes : List UInt8) (hlike : Like m d) (hc : Consistent wide d) (hi : i < wide.ninodes)
    (htype : (din wide d i).type ≠ 0) (hdev : (din wide d i).type ≠ tDev) :
    (∃ m' y d', m.iappend i bytes = some m' ∧
      Written wide i (din wide d i).size.toNat bytes.length (chars bytes) d y d' ∧ Like m' d' ∧
      m'.freeblock ≤ m.freeblock + 2 * bytes.length) ∨
    m.iappend i bytes = none ∧ (maxfile * bsize < (din wide d i).size.toNat + bytes.length ∨
      fssize < m.freeblock + 2 * bytes.length) := by
  have hmaps : Maps wide (update (din wide d) i (din wide d i)) d := by
    rw [update_eq_self]
    exact hc.maps
  simp only [Image.iappend, hlike.rinode hi, Option.bind_eq_bind, Option.bind_some]
  rcases iappendLoop_spec hlike hi htype hmaps (chars bytes) (Nat.le_refl _) with
    ⟨ip, m1, d1, hloop, hfits, hwrite, hlike1, hcount⟩ | ⟨hnone, hwhy⟩
  · have hwrote := writeLoop_ok hi htype hmaps (Nat.le_refl _) hwrite
    rcases hlike1.winode hi { ip with size := UInt32.ofNat ((din wide d i).size.toNat + bytes.length) } with
      ⟨m2, hm2, hlike2⟩
    have hlt : (din wide d i).size.toNat + bytes.length < 2 ^ 32 := by
      have hsize := (din wide d i).size.toNat_lt
      by_cases hpos : 0 < bytes.length
      · exact Nat.lt_of_le_of_lt (hfits hpos) (by decide)
      · omega
    rw [hloop]
    refine .inl ⟨m2, _, _, hm2, hwrote.toWritten hc hi htype hdev (hwrote.settled_iupdate hi htype _) (Nat.le_refl _)
      rfl ?_, hlike2, ?_⟩
    · rw [UInt32.toNat_ofNat', Nat.mod_eq_of_lt hlt]
      omega
    · rcases Option.bind_eq_some_iff.1 hm2 with ⟨buf, _, hret⟩
      obtain rfl : m1.wsect _ _ = m2 := by simpa using hret
      exact hcount
  · rw [hnone]
    exact .inr ⟨rfl, hwhy⟩

end Xv6.Mkfs
