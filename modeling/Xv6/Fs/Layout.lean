import Mathlib.Logic.Function.Basic
import Mathlib.Tactic.SplitIfs
import Xv6.Disk.Block

/-!
# Layout — the super block, the on-disk inodes and the free map

The disk is divided into the boot block, the super block, the log, the inode blocks, the free map and
the data blocks.  What the file system keeps in the inode blocks and in the free map is reached
through `din` and `bitAt` alone; the lemmas of this file say that a write to one of the three areas
leaves the other two as they are.  Nothing above this file looks at the bytes of an inode again.
-/

namespace Xv6

open Function (update update_of_ne update_self)

namespace Fs

/-! ## The super block -/

/-- `struct superblock`, for a disk whose areas follow each other in the order of `fs.h`. -/
structure Superblock where
  size : ℕ
  nblocks : ℕ
  ninodes : ℕ
  nlog : ℕ
  logstart : ℕ
  inodestart : ℕ
  bmapstart : ℕ
  log_le : 2 ≤ logstart
  inode_le : logstart + nlog ≤ inodestart
  bmap_le : inodestart + (ninodes + ipb - 1) / ipb ≤ bmapstart
  data_le : bmapstart + (size / bpb + 1) ≤ size
  /-- Directory entries hold inode numbers in 16 bits. -/
  ninodes_le : ninodes ≤ 2 ^ 16
  /-- `balloc` counts blocks in an `int`. -/
  size_lt : size + bpb ≤ 2 ^ 31

namespace Superblock

variable (sb : Superblock)

def datastart : ℕ :=
  sb.bmapstart + (sb.size / bpb + 1)

def iblock (i : ℕ) : ℕ :=
  i / ipb + sb.inodestart

def bblock (b : ℕ) : ℕ :=
  b / bpb + sb.bmapstart

variable {sb} {i b : ℕ}

theorem iblock_lt (hi : i < sb.ninodes) : sb.iblock i < sb.bmapstart := by
  have hlt : i / ipb < (sb.ninodes + ipb - 1) / ipb := by
    have hpos : 0 < ipb := by decide
    rw [Nat.div_lt_iff_lt_mul hpos]
    have hle := Nat.lt_div_mul_add (a := sb.ninodes + ipb - 1) hpos
    omega
  have := sb.bmap_le
  unfold iblock
  omega

theorem le_bblock : sb.bmapstart ≤ sb.bblock b := Nat.le_add_left _ _

theorem bblock_lt (hb : b < sb.size) : sb.bblock b < sb.datastart := by
  have hle : b / bpb ≤ sb.size / bpb := Nat.div_le_div_right hb.le
  unfold bblock datastart
  omega

theorem bmapstart_lt_datastart : sb.bmapstart < sb.datastart := Nat.lt_add_of_pos_right (Nat.succ_pos _)

theorem datastart_pos : 0 < sb.datastart := Nat.zero_lt_of_lt bmapstart_lt_datastart

theorem datastart_le : sb.datastart ≤ sb.size := sb.data_le

/-- Block numbers fit into the 32-bit words that hold them. -/
theorem lt_of_lt_size (hb : b < sb.size) : b < 2 ^ 32 := by
  have := sb.size_lt
  omega

theorem inode_eq_iff {j : ℕ} : i = j ↔ sb.iblock i = sb.iblock j ∧ i % ipb = j % ipb := by
  have hi := Nat.div_add_mod i ipb
  have hj := Nat.div_add_mod j ipb
  unfold iblock
  constructor
  · rintro rfl
    exact ⟨rfl, rfl⟩
  · rintro ⟨hblock, hmod⟩
    have hdiv : i / ipb = j / ipb := by omega
    rw [← hi, ← hj, hdiv, hmod]

theorem bit_eq_iff {c : ℕ} : b = c ↔ sb.bblock b = sb.bblock c ∧ b % bpb = c % bpb := by
  have hb := Nat.div_add_mod b bpb
  have hc := Nat.div_add_mod c bpb
  unfold bblock
  constructor
  · rintro rfl
    exact ⟨rfl, rfl⟩
  · rintro ⟨hblock, hmod⟩
    have hdiv : b / bpb = c / bpb := by omega
    rw [← hb, ← hc, hdiv, hmod]

end Superblock

/-! ## `struct dinode` -/

/-- Types of inodes, as `stat.h` numbers them. -/
def tDir : UInt16 := 1
def tFile : UInt16 := 2
def tDev : UInt16 := 3

@[ext]
structure Dinode where
  type : UInt16
  major : UInt16
  minor : UInt16
  nlink : UInt16
  size : UInt32
  addrs : Fin (ndirect + 1) → UInt32

namespace Dinode

def zero : Dinode :=
  { type := 0
    major := 0
    minor := 0
    nlink := 0
    size := 0
    addrs := fun _ => 0 }

def addr (x : Dinode) (k : ℕ) : ℕ :=
  if h : k < ndirect + 1 then (x.addrs ⟨k, h⟩).toNat else 0

def setAddr (x : Dinode) (k b : ℕ) : Dinode :=
  { x with addrs := fun j => if j.val = k then UInt32.ofNat b else x.addrs j }

theorem addr_setAddr (x : Dinode) {j k b : ℕ} (hk : k < ndirect + 1) (hb : b < 2 ^ 32) :
    (x.setAddr k b).addr j = if j = k then b else x.addr j := by
  by_cases hj : j = k
  · subst hj
    simp only [addr, hk, setAddr, dif_pos, if_true]
    rw [UInt32.toNat_ofNat', Nat.mod_eq_of_lt hb]
  · simp [addr, setAddr, hj]

theorem addr_lt (x : Dinode) (k : ℕ) : x.addr k < 2 ^ 32 := by
  unfold addr
  split
  · exact UInt32.toNat_lt _
  · omega

@[simp] theorem addr_zero (k : ℕ) : zero.addr k = 0 := by
  simp [addr, zero]

def byte (x : Dinode) (j : ℕ) : UInt8 :=
  if j < 2 then leByte x.type.toNat j
  else if j < 4 then leByte x.major.toNat (j - 2)
  else if j < 6 then leByte x.minor.toNat (j - 4)
  else if j < 8 then leByte x.nlink.toNat (j - 6)
  else if j < 12 then leByte x.size.toNat (j - 8)
  else leByte (x.addr ((j - 12) / 4)) ((j - 12) % 4)
where
  /-- Byte `k` of a number. -/
  leByte (v k : ℕ) : UInt8 := UInt8.ofNat (v / 256 ^ k)

end Dinode

end Fs

/-! ## Inodes in a block -/

namespace Block

open Fs

def getDinode (b : Block) (k : ℕ) : Dinode :=
  { type := UInt16.ofNat (b.getShort (dinodeSize * k))
    major := UInt16.ofNat (b.getShort (dinodeSize * k + 2))
    minor := UInt16.ofNat (b.getShort (dinodeSize * k + 4))
    nlink := UInt16.ofNat (b.getShort (dinodeSize * k + 6))
    size := UInt32.ofNat (b.getInt (dinodeSize * k + 8))
    addrs := fun j => UInt32.ofNat (b.getInt (dinodeSize * k + 12 + 4 * j.val)) }

def putDinode (b : Block) (k : ℕ) (x : Dinode) : Block :=
  fun i => if dinodeSize * k ≤ i.val ∧ i.val < dinodeSize * (k + 1) then x.byte (i.val - dinodeSize * k)
    else b i

theorem byte_putDinode (b : Block) {k j : ℕ} (x : Dinode) (hk : k < ipb) (hj : j < dinodeSize) :
    (b.putDinode k x).byte (dinodeSize * k + j) = (x.byte j).toNat := by
  have hlt : dinodeSize * k + j < bsize := by
    unfold ipb at hk
    unfold dinodeSize bsize at *
    omega
  have hin : dinodeSize * k ≤ dinodeSize * k + j ∧ dinodeSize * k + j < dinodeSize * (k + 1) := by
    unfold dinodeSize at *
    omega
  simp [byte, hlt, putDinode, hin]

theorem byte_putDinode_of_ne (b : Block) {i k j : ℕ} (x : Dinode) (hik : i ≠ k) (hj : j < dinodeSize) :
    (b.putDinode k x).byte (dinodeSize * i + j) = b.byte (dinodeSize * i + j) := by
  have hout : ¬ (dinodeSize * k ≤ dinodeSize * i + j ∧ dinodeSize * i + j < dinodeSize * (k + 1)) := by
    unfold dinodeSize at *
    omega
  by_cases hlt : dinodeSize * i + j < bsize
  · simp only [byte, hlt, putDinode, dif_pos, if_neg hout]
  · simp [byte, hlt]

theorem toNat_leByte (v k : ℕ) : (Dinode.byte.leByte v k).toNat = v / 256 ^ k % 256 := by
  rw [Dinode.byte.leByte, UInt8.toNat_ofNat']

theorem getDinode_putDinode (b : Block) {k : ℕ} (x : Dinode) (hk : k < ipb) : (b.putDinode k x).getDinode k = x := by
  have hshort : ∀ {o : ℕ} {v : UInt16}, o + 2 ≤ dinodeSize →
      (∀ i, i < 2 → x.byte (o + i) = Dinode.byte.leByte v.toNat i) →
      UInt16.ofNat ((b.putDinode k x).getShort (dinodeSize * k + o)) = v := by
    intro o v ho hv
    have hget : (b.putDinode k x).getShort (dinodeSize * k + o) = v.toNat := by
      refine getShort_of_bytes _ v.toNat_lt fun i hi => ?_
      rw [Nat.add_assoc, b.byte_putDinode x hk (by omega), hv i hi, toNat_leByte]
    rw [hget, UInt16.ofNat_toNat]
  have hint : ∀ {o v : ℕ}, v < 2 ^ 32 → o + 4 ≤ dinodeSize → (∀ i, i < 4 → x.byte (o + i) = Dinode.byte.leByte v i) →
      (b.putDinode k x).getInt (dinodeSize * k + o) = v := by
    intro o v hv ho hbytes
    refine getInt_of_bytes _ hv fun i hi => ?_
    rw [Nat.add_assoc, b.byte_putDinode x hk (by omega), hbytes i hi, toNat_leByte]
  ext1
  · exact hshort (o := 0) (by decide) fun i hi => by interval_cases i <;> rfl
  · exact hshort (o := 2) (by decide) fun i hi => by interval_cases i <;> rfl
  · exact hshort (o := 4) (by decide) fun i hi => by interval_cases i <;> rfl
  · exact hshort (o := 6) (by decide) fun i hi => by interval_cases i <;> rfl
  · have hsize := hint (o := 8) x.size.toNat_lt (by decide) fun i hi => by interval_cases i <;> rfl
    simp only [getDinode]
    rw [hsize, UInt32.ofNat_toNat]
  funext j
  have hj := j.isLt
  have haddr := hint (o := 12 + 4 * j.val) (x.addr_lt j.val) (by unfold ndirect dinodeSize at *; omega)
    fun i hi => by
      have hdiv : (12 + 4 * j.val + i - 12) / 4 = j.val := by omega
      have hmod : (12 + 4 * j.val + i - 12) % 4 = i := by omega
      have hge : ∀ m, m ≤ 12 → ¬ 12 + 4 * j.val + i < m := by omega
      simp [Dinode.byte, hge, hdiv, hmod]
  simp only [getDinode]
  rw [Nat.add_assoc, haddr]
  simp [Dinode.addr, hj]

theorem getDinode_putDinode_of_ne (b : Block) {i k : ℕ} (x : Dinode) (hik : i ≠ k) :
    (b.putDinode k x).getDinode i = b.getDinode i := by
  have hbyte : ∀ j, j < dinodeSize → (b.putDinode k x).byte (dinodeSize * i + j) = b.byte (dinodeSize * i + j) :=
    fun j hj => b.byte_putDinode_of_ne x hik hj
  have hshort : ∀ o, o + 2 ≤ dinodeSize →
      (b.putDinode k x).getShort (dinodeSize * i + o) = b.getShort (dinodeSize * i + o) := by
    intro o ho
    simp only [getShort, Nat.add_assoc]
    rw [hbyte o (by omega), hbyte (o + 1) (by omega)]
  have hint : ∀ o, o + 4 ≤ dinodeSize →
      (b.putDinode k x).getInt (dinodeSize * i + o) = b.getInt (dinodeSize * i + o) := by
    intro o ho
    simp only [getInt, Nat.add_assoc]
    rw [hbyte o (by omega), hbyte (o + 1) (by omega), hbyte (o + 2) (by omega), hbyte (o + 3) (by omega)]
  ext1
  · exact congrArg UInt16.ofNat (hshort 0 (by decide))
  · exact congrArg UInt16.ofNat (hshort 2 (by decide))
  · exact congrArg UInt16.ofNat (hshort 4 (by decide))
  · exact congrArg UInt16.ofNat (hshort 6 (by decide))
  · exact congrArg UInt32.ofNat (hint 8 (by decide))
  funext j
  have hj := j.isLt
  have haddr := hint (12 + 4 * j.val) (by unfold ndirect dinodeSize at *; omega)
  simp only [getDinode]
  rw [Nat.add_assoc, haddr]

@[simp] theorem getDinode_zero (k : ℕ) : zero.getDinode k = Dinode.zero := by
  ext <;> simp [getDinode, getShort, Dinode.zero]

end Block

/-! ## The three areas -/

namespace Fs

variable {sb : Superblock} {d : Disk} {i j b c : ℕ} {x : Dinode} {v : Block}

def din (sb : Superblock) (d : Disk) (i : ℕ) : Dinode :=
  (d (sb.iblock i)).getDinode (i % ipb)

def bitAt (sb : Superblock) (d : Disk) (b : ℕ) : Bool :=
  (d (sb.bblock b)).bit (b % bpb)

/-- `iupdate`: copy a modified in-memory inode to disk. -/
def iupdate (sb : Superblock) (d : Disk) (i : ℕ) (x : Dinode) : Disk :=
  update d (sb.iblock i) ((d (sb.iblock i)).putDinode (i % ipb) x)

def markUsed (sb : Superblock) (d : Disk) (b : ℕ) : Disk :=
  update d (sb.bblock b) ((d (sb.bblock b)).setBit (b % bpb))

def markFree (sb : Superblock) (d : Disk) (b : ℕ) : Disk :=
  update d (sb.bblock b) ((d (sb.bblock b)).clearBit (b % bpb))

/-! ### Writes to the inode blocks -/

theorem din_iupdate (i j : ℕ) : din sb (iupdate sb d i x) j = update (din sb d) i x j := by
  by_cases hij : j = i
  · subst hij
    simp [din, iupdate, Block.getDinode_putDinode _ _ (Nat.mod_lt _ (by decide : 0 < ipb))]
  rw [update_of_ne hij]
  by_cases hblock : sb.iblock j = sb.iblock i
  · have hmod : j % ipb ≠ i % ipb := fun h => hij (Superblock.inode_eq_iff.2 ⟨hblock, h⟩)
    simp [din, iupdate, hblock, Block.getDinode_putDinode_of_ne _ _ hmod]
  · simp [din, iupdate, hblock]

theorem din_iupdate_cases (hj : j ≠ i) : din sb (iupdate sb d i x) j = din sb d j := by
  rw [din_iupdate]
  exact update_of_ne hj ..

theorem din_iupdate_self (d : Disk) : din sb (iupdate sb d i x) i = x := by
  rw [din_iupdate]
  exact update_self ..

theorem bitAt_iupdate (hi : i < sb.ninodes) : bitAt sb (iupdate sb d i x) b = bitAt sb d b := by
  have hne : sb.bblock b ≠ sb.iblock i :=
    Nat.ne_of_gt (Nat.lt_of_lt_of_le (Superblock.iblock_lt hi) Superblock.le_bblock)
  simp [bitAt, iupdate, hne]

theorem iupdate_data (hi : i < sb.ninodes) (hb : sb.datastart ≤ b) : iupdate sb d i x b = d b := by
  have hlt := Superblock.iblock_lt hi
  have hlt' := sb.bmapstart_lt_datastart
  have hne : b ≠ sb.iblock i := by omega
  simp [iupdate, hne]

/-! ### Writes to the free map -/

theorem bitAt_markUsed : bitAt sb (markUsed sb d b) c = update (bitAt sb d) b true c := by
  have hmod : b % bpb < bpb := Nat.mod_lt _ (by decide)
  by_cases hcb : c = b
  · subst hcb
    simp [bitAt, markUsed, Block.bit_setBit _ hmod]
  rw [update_of_ne hcb]
  by_cases hblock : sb.bblock c = sb.bblock b
  · have hne : c % bpb ≠ b % bpb := fun h => hcb (Superblock.bit_eq_iff.2 ⟨hblock, h⟩)
    simp [bitAt, markUsed, hblock, Block.bit_setBit _ hmod, hne]
  · simp [bitAt, markUsed, hblock]

theorem bitAt_markFree : bitAt sb (markFree sb d b) c = update (bitAt sb d) b false c := by
  have hmod : b % bpb < bpb := Nat.mod_lt _ (by decide)
  by_cases hcb : c = b
  · subst hcb
    simp [bitAt, markFree, Block.bit_clearBit _ hmod]
  rw [update_of_ne hcb]
  by_cases hblock : sb.bblock c = sb.bblock b
  · have hne : c % bpb ≠ b % bpb := fun h => hcb (Superblock.bit_eq_iff.2 ⟨hblock, h⟩)
    simp [bitAt, markFree, hblock, Block.bit_clearBit _ hmod, hne]
  · simp [bitAt, markFree, hblock]

theorem din_write_bmap (hj : j < sb.ninodes) : din sb (update d (sb.bblock b) v) j = din sb d j := by
  have hne : sb.iblock j ≠ sb.bblock b :=
    Nat.ne_of_lt (Nat.lt_of_lt_of_le (Superblock.iblock_lt hj) Superblock.le_bblock)
  simp [din, hne]

theorem write_bmap_data (hb : b < sb.size) (hc : sb.datastart ≤ c) : update d (sb.bblock b) v c = d c := by
  have hlt := Superblock.bblock_lt hb
  exact update_of_ne (by omega) _ _

/-! ### Writes to data blocks -/

theorem din_write_data (hj : j < sb.ninodes) (hb : sb.datastart ≤ b) : din sb (update d b v) j = din sb d j := by
  have hlt := Superblock.iblock_lt hj
  have hlt' := sb.bmapstart_lt_datastart
  have hne : sb.iblock j ≠ b := by omega
  simp [din, hne]

theorem bitAt_write_data (hc : c < sb.size) (hb : sb.datastart ≤ b) : bitAt sb (update d b v) c = bitAt sb d c := by
  have hlt := Superblock.bblock_lt hc
  have hne : sb.bblock c ≠ b := by omega
  simp [bitAt, hne]

end Fs
end Xv6
