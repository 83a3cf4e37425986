import Xv6.Files.Table
import Xv6.Fs.Lookup

/-!
# Lseek — moving the offset of an open file

`sys_lseek` adds the signed argument to an offset without sign, in 32 bits, and returns the sum as a signed number.
It does not look at the sum: the offset is changed also where the value that is returned is negative.
-/

namespace Xv6.Fs

open Files (FdType)

/-- The fields of `struct file` that the call uses. -/
@[ext]
structure SeekFile where
  type : FdType
  ip : ℕ
  off : UInt32

/-- The call `lseek(fd, offset, whence)`, once the arguments are fetched. -/
def sysLseek (sb : Superblock) (s : State) (f : SeekFile) (offset whence : Int32) :
    Except Panic (Int32 × SeekFile × State) := do
  if f.type ≠ .inode then return (-1, f, s)
  if whence = 0 then
    -- SEEK_SET
    let f := { f with off := offset.toUInt32 }
    return (f.off.toInt32, f, s)
  else if whence = 1 then
    -- SEEK_CUR
    let f := { f with off := f.off + offset.toUInt32 }
    return (f.off.toInt32, f, s)
  else if whence = 2 then
    -- SEEK_END
    let s ← ilock sb s f.ip
    let f := { f with off := (s.inode f.ip).size + offset.toUInt32 }
    return (f.off.toInt32, f, s)
  else return (-1, f, s)

/-! ## What the call is for -/

def SeekFile.base (f : SeekFile) (size : UInt32) (whence : Int32) : Option UInt32 :=
  if f.type ≠ .inode then none
  else if whence = 0 then some 0
  else if whence = 1 then some f.off
  else if whence = 2 then some size
  else none

/-- The place that the arguments name, if the value returned can tell it. -/
def SeekFile.place (f : SeekFile) (size : UInt32) (offset whence : Int32) : Option ℤ :=
  ((f.base size whence).map fun base => base.toNat + offset.toInt).filter fun t => decide (0 ≤ t ∧ t < 2 ^ 31)

/-- The call moves the offset to the place and returns it; if there is none it does nothing and returns -1. -/
def SeekFile.Exact (f : SeekFile) (size : UInt32) (offset whence r : Int32) (f' : SeekFile) : Prop :=
  match f.place size offset whence with
  | some t => r.toInt = t ∧ (f'.off.toNat : ℤ) = t ∧ f' = { f with off := f'.off }
  | none => r = -1 ∧ f' = f

/-- The sum is a place that the value returned can tell, or it is -1 in 32 bits and so was the offset before. -/
def SeekFile.Sound (f : SeekFile) (size : UInt32) (offset whence : Int32) : Prop :=
  ∀ base, f.base size whence = some base →
    (0 ≤ base.toNat + offset.toInt ∧ base.toNat + offset.toInt < 2 ^ 31) ∨
      (f.off = 0xffffffff ∧ (base.toNat + offset.toInt) % 2 ^ 32 = 2 ^ 32 - 1)

/-! ## Arithmetic -/

theorem toInt_toInt32 (x : UInt32) :
    x.toInt32.toInt = if x.toNat < 2 ^ 31 then (x.toNat : ℤ) else x.toNat - 2 ^ 32 := by
  have h : x.toInt32.toInt = x.toBitVec.toInt := rfl
  rw [h, BitVec.toInt_eq_toNat_cond]
  show (if 2 * x.toNat < 2 ^ 32 then (x.toNat : ℤ) else (x.toNat : ℤ) - (2 ^ 32 : ℕ)) = _
  split_ifs <;> omega

/-- The sum without sign, in 32 bits. -/
theorem toNat_add_toUInt32 (x : UInt32) (o : Int32) :
    ((x + o.toUInt32).toNat : ℤ) = (x.toNat + o.toInt) % 2 ^ 32 := by
  have hbits : o.toUInt32.toNat = o.toBitVec.toNat := rfl
  have hint : o.toInt = o.toBitVec.toInt := rfl
  have hlt := o.toBitVec.isLt
  rw [UInt32.toNat_add, hbits, hint, BitVec.toInt_eq_toNat_cond]
  split_ifs <;> omega

theorem toInt32_eq_neg_one_iff {x : UInt32} : x.toInt32 = -1 ↔ x = 0xffffffff := by
  constructor
  · intro h
    have hint : x.toInt32.toInt = -1 := congrArg Int32.toInt h
    rw [toInt_toInt32] at hint
    have hlt := x.toNat_lt
    refine UInt32.toNat_inj.1 ?_
    show x.toNat = 4294967295
    split_ifs at hint
    omega
  · rintro rfl
    rfl

/-! ## The call -/

section Call

variable {K : Dinode → Disk → Prop} {sb : Superblock} {s : State} {f : SeekFile} {offset whence : Int32}

theorem sysLseek_eq (hg : Good K sb s)
    (hip : f.type = .inode → f.ip < sb.ninodes ∧ (din sb s.disk f.ip).type ≠ 0) :
    ∃ s', sysLseek sb s f offset whence = match f.base (din sb s.disk f.ip).size whence with
      | some base => .ok ((base + offset.toUInt32).toInt32, { f with off := base + offset.toUInt32 }, s')
      | none => .ok (-1, f, s') := by
  unfold sysLseek SeekFile.base
  by_cases htype : f.type = .inode
  case neg =>
    rw [if_pos htype, if_pos htype]
    exact ⟨s, rfl⟩
  rw [if_neg (not_not.2 htype), if_neg (not_not.2 htype)]
  split_ifs with hset hcur hend
  · exact ⟨s, by simp⟩
  · exact ⟨s, rfl⟩
  · rcases hip htype with ⟨hlt, halloc⟩
    cases hlock : ilock sb s f.ip with
    | error e => exact absurd (ilock_error hlock).2 halloc
    | ok s1 =>
      rcases (ilock_spec hg hlt).of_ok hlock with ⟨_, hlocked, hdisk, _, _⟩
      refine ⟨s1, ?_⟩
      simp only [ok_bind, pure_eq_ok, hlocked.inode, hdisk]
  · exact ⟨s, rfl⟩

variable {size : UInt32} {r : Int32} {f' : SeekFile}

theorem SeekFile.exact_none (h : f.base size whence = none) : f.Exact size offset whence r f' ↔ r = -1 ∧ f' = f := by
  simp [SeekFile.Exact, SeekFile.place, h]

theorem SeekFile.exact_some {base : UInt32} (h : f.base size whence = some base) :
    f.Exact size offset whence r f' ↔ if 0 ≤ base.toNat + offset.toInt ∧ base.toNat + offset.toInt < 2 ^ 31 then
        r.toInt = base.toNat + offset.toInt ∧ (f'.off.toNat : ℤ) = base.toNat + offset.toInt ∧
          f' = { f with off := f'.off }
      else r = -1 ∧ f' = f := by
  rw [SeekFile.Exact, SeekFile.place, h, Option.map_some]
  split_ifs with hrange
  · rw [Option.filter_some_pos (by simpa using hrange)]
  · rw [Option.filter_some_neg (by simpa using hrange)]

theorem SeekFile.exact_store_iff {base : UInt32} (h : f.base size whence = some base) :
    f.Exact size offset whence (base + offset.toUInt32).toInt32 { f with off := base + offset.toUInt32 } ↔
      f.Sound size offset whence := by
  have hsum := toNat_add_toUInt32 base offset
  have hsound : f.Sound size offset whence ↔ (0 ≤ base.toNat + offset.toInt ∧ base.toNat + offset.toInt < 2 ^ 31) ∨
        (f.off = 0xffffffff ∧ (base.toNat + offset.toInt) % 2 ^ 32 = 2 ^ 32 - 1) := by
    simp [SeekFile.Sound, h]
  rw [hsound, SeekFile.exact_some h]
  split_ifs with hrange
  · have hnat : ((base + offset.toUInt32).toNat : ℤ) = base.toNat + offset.toInt := by omega
    refine iff_of_true ⟨?_, hnat, rfl⟩ (.inl hrange)
    rw [toInt_toInt32, if_pos (by omega), hnat]
  -- the sum is stored, so it has to be the offset that was there, and -1
  rw [toInt32_eq_neg_one_iff]
  constructor
  · rintro ⟨hneg, hsame⟩
    refine .inr ⟨?_, ?_⟩
    · rw [← hneg]
      exact (congrArg SeekFile.off hsame).symm
    · rw [← hsum, hneg]
      rfl
  rintro (hin | ⟨hoff, hmod⟩)
  · exact absurd hin hrange
  have hall : base + offset.toUInt32 = 0xffffffff := by
    refine UInt32.toNat_inj.1 ?_
    show (base + offset.toUInt32).toNat = 4294967295
    omega
  refine ⟨hall, ?_⟩
  rw [hall, ← hoff]

theorem SeekFile.Exact.same_of_neg (h : f.Exact size offset whence r f') (hr : r.toInt < 0) : f' = f := by
  cases hbase : f.base size whence with
  | none => exact ((SeekFile.exact_none hbase).1 h).2
  | some base =>
    rw [SeekFile.exact_some hbase] at h
    split_ifs at h with hrange
    · omega
    · exact h.2

end Call

/-- The call moves the offset to where it should, or does nothing and returns -1, exactly if the sum is sound; then a
negative value says that the file is as it was. -/
theorem sysLseek_exact_iff {K : Dinode → Disk → Prop} {sb : Superblock} {s : State} {f : SeekFile}
    {offset whence : Int32} (hg : Good K sb s)
    (hip : f.type = .inode → f.ip < sb.ninodes ∧ (din sb s.disk f.ip).type ≠ 0) :
    (∃ r f' s', sysLseek sb s f offset whence = .ok (r, f', s') ∧
        f.Exact (din sb s.disk f.ip).size offset whence r f' ∧ (r.toInt < 0 → f' = f)) ↔
      f.Sound (din sb s.disk f.ip).size offset whence := by
  rcases sysLseek_eq hg hip with ⟨s₁, hcall⟩
  rw [hcall]
  cases hbase : f.base (din sb s.disk f.ip).size whence with
  | none =>
    refine iff_of_true ⟨-1, f, s₁, rfl, (SeekFile.exact_none hbase).2 ⟨rfl, rfl⟩, fun _ => rfl⟩ fun base h => ?_
    rw [hbase] at h
    cases h
  | some base =>
    rw [← SeekFile.exact_store_iff hbase]
    constructor
    · rintro ⟨r, f', s', heq, hexact, _⟩
      obtain ⟨rfl, rfl, _⟩ : _ = r ∧ _ = f' ∧ _ = s' := by simpa using heq
      exact hexact
    · intro hexact
      exact ⟨_, _, s₁, rfl, hexact, hexact.same_of_neg⟩

def seekStart : SeekFile where
  type := .inode
  ip := 1
  off := 0

theorem sysLseek_end_smallState :
    (∃ r f' s', sysLseek smallSb (smallState (smallDisk tFile)) seekStart 0 2 = .ok (r, f', s') ∧
        seekStart.Exact (din smallSb (smallDisk tFile) 1).size 0 2 r f' ∧ (r.toInt < 0 → f' = seekStart)) ↔
      seekStart.Sound (din smallSb (smallDisk tFile) 1).size 0 2 :=
  sysLseek_exact_iff (f := seekStart) (good_smallState (dirInvariant_dirOk smallSb) tFile) fun _ =>
    ⟨by decide, (type_smallDisk tFile).trans_ne (by decide)⟩

/-- A place before the beginning is stored as one that is far behind the end. -/
theorem sysLseek_before_start : sysLseek smallSb (smallState (smallDisk tFile)) seekStart (-5) 0 =
        .ok (-5, { seekStart with off := 4294967291 }, smallState (smallDisk tFile)) ∧
      ¬ seekStart.Exact (din smallSb (smallDisk tFile) 1).size (-5) 0 (-5) { seekStart with off := 4294967291 } := by
  refine ⟨rfl, ?_⟩
  have hbase : seekStart.base (din smallSb (smallDisk tFile) 1).size 0 = some 0 := rfl
  rw [SeekFile.exact_some hbase, if_neg (by decide)]
  exact fun h => absurd h.1 (by decide)

end Xv6.Fs
