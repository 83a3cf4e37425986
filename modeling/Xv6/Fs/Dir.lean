import Xv6.Common.SlotMap
import Xv6.Fs.Consistent
import Xv6.Fs.Name

/-!
# Dir — directories as finite maps

A directory is a file that holds directory entries; an entry with inode number 0 is free.  `table` reads
the entries of an inode as the slots of a finite map from names to inode numbers.  The two writes that
the kernel makes to a directory, of a new entry into a free slot and of zeroes over an entry, add a name
to this map and remove one.
-/

namespace Xv6.Fs

open Common

/-! ## Entries -/

def Dinode.entry (x : Dinode) (d : Disk) (k : ℕ) : Dirent :=
  Dirent.ofBytes (fun j => x.byteAt d (direntSize * k + j))

def Dinode.slots (x : Dinode) : ℕ :=
  x.size.toNat / direntSize

def Dinode.table (x : Dinode) (d : Disk) (k : ℕ) : Option (List UInt8 × ℕ) :=
  if (x.entry d k).inum = 0 then none else some ((x.entry d k).str, (x.entry d k).inum.toNat)

def Dinode.dirMap (x : Dinode) (d : Disk) : List UInt8 → Option ℕ :=
  lookup (x.table d) x.slots

structure Dinode.DirOk (x : Dinode) (d : Disk) (ninodes : ℕ) : Prop where
  whole : x.size.toNat % direntSize = 0
  distinct : Distinct (x.table d) x.slots
  /-- Entries name inodes of the file system. -/
  valid : ∀ k, k < x.slots → (x.entry d k).inum.toNat < ninodes

variable {sb : Superblock} {d d' : Disk} {x ip' : Dinode} {i k n off : ℕ} {de : Dirent}

theorem Dinode.DirOk.size_eq (h : x.DirOk d n) : x.size.toNat = direntSize * x.slots := by
  have hdiv := Nat.div_add_mod x.size.toNat direntSize
  rw [h.whole, Nat.add_zero] at hdiv
  exact hdiv.symm

theorem table_eq_none : x.table d k = none ↔ (x.entry d k).inum = 0 := by
  unfold Dinode.table
  split_ifs with h
  · simp [h]
  · simp [h]

variable {m : ℕ} {y : Dinode}

theorem table_eq_some {name : List UInt8} : x.table d k = some (name, m) ↔
      (x.entry d k).inum ≠ 0 ∧ (x.entry d k).str = name ∧ (x.entry d k).inum.toNat = m := by
  unfold Dinode.table
  split_ifs with h
  · simp [h]
  · simp [h]

theorem dirOk_of_empty (h : x.size = 0) : x.DirOk d n := by
  have hslots : x.slots = 0 := by simp [Dinode.slots, h]
  refine ⟨by simp [h], fun j _ _ _ _ hj => ?_, fun k hk => ?_⟩
  · omega
  · omega

theorem entry_congr (h : ∀ k, k < x.size.toNat → y.byteAt d' k = x.byteAt d k) (hk : k < x.slots) :
    y.entry d' k = x.entry d k := by
  refine Dirent.ofBytes_congr fun j hj => h _ ?_
  unfold Dinode.slots direntSize at *
  omega

theorem table_congr (h : ∀ k, k < x.size.toNat → y.byteAt d' k = x.byteAt d k) (hk : k < x.slots) :
    y.table d' k = x.table d k := by
  simp only [Dinode.table, entry_congr h hk]

theorem Dinode.DirOk.congr (hx : x.DirOk d n) (hsize : y.size = x.size)
    (h : ∀ k, k < x.size.toNat → y.byteAt d' k = x.byteAt d k) : y.DirOk d' n := by
  have hslots : y.slots = x.slots := by simp [Dinode.slots, hsize]
  have hentry : ∀ k, k < x.slots → y.entry d' k = x.entry d k := fun k hk => entry_congr h hk
  have htable : ∀ k, k < x.slots → y.table d' k = x.table d k := fun k hk => table_congr h hk
  refine ⟨by rw [hsize]; exact hx.whole, fun j k s a b hj hk hsj hsk => ?_, fun k hk => ?_⟩
  · rw [hslots] at hj hk
    rw [htable j hj] at hsj
    rw [htable k hk] at hsk
    exact hx.distinct j k s a b hj hk hsj hsk
  · rw [hslots] at hk
    rw [hentry k hk]
    exact hx.valid k hk

theorem byteAt_of_content (h : y.content d' = x.content d) (hk : k < x.size.toNat) :
    y.byteAt d' k = x.byteAt d k := by
  have hlen : y.size.toNat = x.size.toNat := by
    rw [← length_content, ← length_content, h]
  have hy : (y.content d')[k]? = some (y.byteAt d' k) := by
    simp [Dinode.content, hlen, hk]
  have hx : (x.content d)[k]? = some (x.byteAt d k) := by
    simp [Dinode.content, hk]
  rw [h, hx] at hy
  simpa using hy.symm

theorem dirMap_congr (h : y.content d' = x.content d) : y.dirMap d' = x.dirMap d := by
  have hslots : y.slots = x.slots := by
    rw [Dinode.slots, Dinode.slots, ← length_content, ← length_content, h]
  unfold Dinode.dirMap
  rw [hslots]
  exact lookup_congr fun k hk => table_congr (fun m hm => byteAt_of_content h hm) hk

/-! ## An entry is written -/

/-- The entries after the bytes of `de` have been written over entry `m`, or behind the last one. -/
theorem Written.entry (h : Written sb i (direntSize * m) direntSize de.byte d ip' d') (hm : m ≤ (din sb d i).slots)
    (hwhole : m = (din sb d i).slots → (din sb d i).size.toNat = direntSize * m) :
    ip'.slots = max (din sb d i).slots (m + 1) ∧ ∀ k, k < max (din sb d i).slots (m + 1) →
        ip'.entry d' k = if k = m then de else (din sb d i).entry d k := by
  have hsize := h.size
  have hslots : ip'.slots = max (din sb d i).slots (m + 1) := by
    unfold Dinode.slots direntSize at *
    omega
  refine ⟨hslots, fun k hk => ?_⟩
  have hbyte : ∀ j, j < direntSize → ip'.byteAt d' (direntSize * k + j) =
      if k = m then de.byte j else (din sb d i).byteAt d (direntSize * k + j) := by
    intro j hj
    rw [h.bytes _ (by unfold Dinode.slots direntSize at *; omega)]
    by_cases hkm : k = m
    · subst hkm
      have hidx : direntSize * k + j - direntSize * k = j := by omega
      rw [if_pos ⟨by omega, by omega⟩, if_pos rfl, hidx]
    · have hout : ¬ (direntSize * m ≤ direntSize * k + j ∧ direntSize * k + j < direntSize * m + direntSize) := by
        unfold direntSize at *
        omega
      rw [if_neg hout, if_neg hkm]
  by_cases hkm : k = m
  · subst hkm
    have hcopy : ip'.entry d' k = Dirent.ofBytes de.byte := Dirent.ofBytes_congr fun j hj => by simpa using hbyte j hj
    rw [hcopy, Dirent.ofBytes_byte, if_pos rfl]
  · rw [if_neg hkm]
    exact Dirent.ofBytes_congr fun j hj => by simpa [hkm] using hbyte j hj

/-- `de` may be written over entry `m`, or behind the last one, to add its name: the slot is free, and
there is no such name yet. -/
structure Dinode.Put (x : Dinode) (d : Disk) (m : ℕ) (de : Dirent) : Prop where
  whole : x.size.toNat = direntSize * x.slots
  le : m ≤ x.slots
  free : m < x.slots → (x.entry d m).inum = 0
  live : de.inum ≠ 0
  new : ∀ k, k < x.slots → (x.entry d k).inum ≠ 0 → (x.entry d k).str ≠ de.str

theorem Dinode.Put.lookup (h : x.Put d m de) : x.dirMap d de.str = none := by
  refine lookup_eq_none_iff.2 fun j b hj hslot => ?_
  rcases table_eq_some.1 hslot with ⟨hlive, hstr, _⟩
  exact h.new j hj hlive hstr

section WriteEntry

variable {m : ℕ} (h : Written sb i (direntSize * m) direntSize de.byte d ip' d')

include h

theorem Written.put_table (hput : (din sb d i).Put d m de) :
    ip'.slots = max (din sb d i).slots (m + 1) ∧ ip'.table d' m = some (de.str, de.inum.toNat) ∧
      ∀ j, j < (din sb d i).slots → j ≠ m → ip'.table d' j = (din sb d i).table d j := by
  rcases h.entry hput.le (fun hm => by rw [hput.whole, hm]) with ⟨hslots, hentry⟩
  refine ⟨hslots, ?_, fun j hj hjm => ?_⟩
  · rw [table_eq_some, hentry m (by omega), if_pos rfl]
    exact ⟨hput.live, rfl, rfl⟩
  · simp only [Dinode.table, hentry j (by omega), if_neg hjm]

theorem Written.dirOk_put (hput : (din sb d i).Put d m de) (hok : (din sb d i).DirOk d n)
    (hvalid : de.inum.toNat < n) : ip'.DirOk d' n := by
  rcases h.put_table hput with ⟨hslots, hself, hother⟩
  rcases h.entry hput.le (fun hm => by rw [hput.whole, hm]) with ⟨_, hentry⟩
  refine ⟨?_, ?_, fun k hk => ?_⟩
  · have hsize := h.size
    have hwhole := hok.whole
    unfold direntSize at *
    omega
  · rw [hslots]
    refine put_distinct hok.distinct hput.le hself hother fun j b => ?_
    exact lookup_eq_none_iff.1 hput.lookup j b
  · rw [hslots] at hk
    rw [hentry k hk]
    split_ifs with hkm
    · exact hvalid
    · have hle := hput.le
      exact hok.valid k (by omega)

variable (hde : de = Dirent.zero) (hm : m < (din sb d i).slots)

include hde hm

theorem Written.erase_table : ip'.slots = (din sb d i).slots ∧ ip'.table d' m = none ∧
      ∀ j, j < (din sb d i).slots → j ≠ m → ip'.table d' j = (din sb d i).table d j := by
  rcases h.entry hm.le (fun heq => absurd heq (Nat.ne_of_lt hm)) with ⟨hslots, hentry⟩
  have hmax : max (din sb d i).slots (m + 1) = (din sb d i).slots := by omega
  rw [hmax] at hslots hentry
  refine ⟨hslots, ?_, fun j hj hjm => ?_⟩
  · rw [table_eq_none, hentry m hm, if_pos rfl, hde]
    rfl
  · simp only [Dinode.table, hentry j hj, if_neg hjm]

theorem Written.dirOk_erase (hok : (din sb d i).DirOk d n) : ip'.DirOk d' n := by
  rcases h.erase_table hde hm with ⟨hslots, hself, hother⟩
  rcases h.entry hm.le (fun heq => absurd heq (Nat.ne_of_lt hm)) with ⟨_, hentry⟩
  refine ⟨?_, ?_, fun k hk => ?_⟩
  · have hsize := h.size
    have hwhole := hok.whole
    unfold Dinode.slots direntSize at *
    omega
  · rw [hslots]
    exact erase_distinct hok.distinct hself hother
  rw [hslots] at hk
  rw [hentry k (by omega)]
  split_ifs with hkm
  · have hpos : 0 < n := Nat.zero_lt_of_lt (hok.valid m hm)
    rw [hde]
    exact hpos
  · exact hok.valid k hk

end WriteEntry

/-! ## What may be required of directories

Runs of the file system keep every property of directories that the two writes keep. -/

structure DirInvariant (sb : Superblock) (K : Dinode → Disk → Prop) : Prop where
  congr : ∀ {x y d d'}, K x d → y.size = x.size →
    (∀ k, k < x.size.toNat → y.byteAt d' k = x.byteAt d k) → K y d'
  empty : ∀ {x d}, x.size = 0 → K x d
  valid : ∀ {x d}, K x d → ∀ k, k < x.slots → (x.entry d k).inum.toNat < sb.ninodes
  put : ∀ {i m de d ip' d'}, Written sb i (direntSize * m) direntSize de.byte d ip' d' →
    (din sb d i).Put d m de → K (din sb d i) d → de.inum.toNat < sb.ninodes → K ip' d'
  erase : ∀ {i m d ip' d'}, Written sb i (direntSize * m) direntSize Dirent.zero.byte d ip' d' →
    m < (din sb d i).slots → K (din sb d i) d → K ip' d'

theorem dirInvariant_dirOk (sb : Superblock) : DirInvariant sb fun x d => x.DirOk d sb.ninodes where
  congr hx hsize h := hx.congr hsize h
  empty h := dirOk_of_empty h
  valid h := h.valid
  put h hput hok hvalid := h.dirOk_put hput hok hvalid
  erase h hm hok := h.dirOk_erase rfl hm hok

/-- Entries name inodes of the file system; nothing is said about the names. -/
def Dinode.DirValid (x : Dinode) (d : Disk) (ninodes : ℕ) : Prop :=
  ∀ k, k < x.slots → (x.entry d k).inum.toNat < ninodes

theorem dirInvariant_dirValid (sb : Superblock) : DirInvariant sb fun x d => x.DirValid d sb.ninodes where
  congr {x y d d'} hx hsize h := by
    have hslots : y.slots = x.slots := by simp [Dinode.slots, hsize]
    intro k hk
    rw [hslots] at hk
    rw [entry_congr h hk]
    exact hx k hk
  empty {x d} h := by
    intro k hk
    simp [Dinode.slots, h] at hk
  valid h := h
  put {i m de d ip' d'} h hput hok hvalid := by
    rcases h.entry hput.le (fun hm => by rw [hput.whole, hm]) with ⟨hslots, hentry⟩
    intro k hk
    rw [hslots] at hk
    rw [hentry k hk]
    split_ifs with hkm
    · exact hvalid
    · have hle := hput.le
      exact hok k (by omega)
  erase {i m d ip' d'} h hm hok := by
    rcases h.entry hm.le (fun heq => absurd heq (Nat.ne_of_lt hm)) with ⟨hslots, hentry⟩
    intro k hk
    rw [hslots] at hk
    rw [hentry k hk]
    split_ifs with hkm
    · exact Nat.zero_lt_of_lt (hok m hm)
    · exact hok k (by omega)

end Xv6.Fs
