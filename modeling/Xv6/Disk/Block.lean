import Mathlib.Data.Nat.Bitwise
import Mathlib.Tactic.IntervalCases
import Xv6.Param

/-!
# Block — disk blocks and the integers stored in them

A block is `bsize` bytes.  The kernel overlays C structures on `buf->data`; the accesses it then makes
are to 32-bit and 16-bit words, stored little-endian, to bytes and to single bits.  `getInt` and
`setInt` are the accesses to words at a byte offset, and the lemmas say that the words, and further
below the bits, do not disturb each other.
-/

namespace Xv6

abbrev Block := Fin bsize → UInt8

abbrev Disk := ℕ → Block

namespace Block

def byte (b : Block) (i : ℕ) : ℕ :=
  if h : i < bsize then (b ⟨i, h⟩).toNat else 0

def getInt (b : Block) (off : ℕ) : ℕ :=
  b.byte off + 256 * (b.byte (off + 1) + 256 * (b.byte (off + 2) + 256 * b.byte (off + 3)))

def setInt (b : Block) (off v : ℕ) : Block :=
  fun i => if off ≤ i.val ∧ i.val < off + 4 then UInt8.ofNat (v / 256 ^ (i.val - off)) else b i

/-- A 32-bit word read as a C `int`. -/
def toInt (v : ℕ) : ℤ :=
  if v < 2 ^ 31 then (v : ℤ) else (v : ℤ) - 2 ^ 32

theorem byte_lt (b : Block) (i : ℕ) : b.byte i < 256 := by
  unfold byte
  split
  · exact UInt8.toNat_lt _
  · omega

theorem getInt_lt (b : Block) (off : ℕ) : b.getInt off < 2 ^ 32 := by
  have h0 := b.byte_lt off
  have h1 := b.byte_lt (off + 1)
  have h2 := b.byte_lt (off + 2)
  have h3 := b.byte_lt (off + 3)
  unfold getInt
  omega

variable {off v i k j : ℕ}

theorem byte_setInt_of_lt (b : Block) (h : i < off ∨ off + 4 ≤ i) : (b.setInt off v).byte i = b.byte i := by
  unfold byte
  by_cases hi : i < bsize
  · have hout : ¬ (off ≤ i ∧ i < off + 4) := by omega
    simp [hi, setInt, hout]
  · simp [hi]

theorem byte_setInt_self (b : Block) (hk : k < 4) (hoff : off + 4 ≤ bsize) :
    (b.setInt off v).byte (off + k) = v / 256 ^ k % 256 := by
  have hi : off + k < bsize := by omega
  have hin : off ≤ off + k ∧ off + k < off + 4 := by omega
  simp [byte, hi, setInt, hk, UInt8.toNat_ofNat']

theorem getInt_setInt_self (b : Block) (hoff : off + 4 ≤ bsize) (hv : v < 2 ^ 32) :
    (b.setInt off v).getInt off = v := by
  have h0 := b.byte_setInt_self (v := v) (k := 0) (by omega) hoff
  have h1 := b.byte_setInt_self (v := v) (k := 1) (by omega) hoff
  have h2 := b.byte_setInt_self (v := v) (k := 2) (by omega) hoff
  have h3 := b.byte_setInt_self (v := v) (k := 3) (by omega) hoff
  unfold getInt
  rw [Nat.add_zero] at h0
  rw [h0, h1, h2, h3]
  omega

theorem getInt_setInt_of_disjoint (b : Block) {off' : ℕ} (h : off' + 4 ≤ off ∨ off + 4 ≤ off') :
    (b.setInt off v).getInt off' = b.getInt off' := by
  unfold getInt
  rw [b.byte_setInt_of_lt (i := off') (by omega), b.byte_setInt_of_lt (i := off' + 1) (by omega),
    b.byte_setInt_of_lt (i := off' + 2) (by omega), b.byte_setInt_of_lt (i := off' + 3) (by omega)]

theorem toInt_of_lt (h : v < 2 ^ 31) : toInt v = v := by
  exact if_pos h

/-- Four bytes that are those of a 32-bit number make up that number. -/
theorem getInt_of_bytes (b : Block) (hv : v < 2 ^ 32) (h : ∀ k, k < 4 → b.byte (off + k) = v / 256 ^ k % 256) :
    b.getInt off = v := by
  have h0 := h 0 (by omega)
  have h1 := h 1 (by omega)
  have h2 := h 2 (by omega)
  have h3 := h 3 (by omega)
  unfold getInt
  rw [Nat.add_zero] at h0
  rw [h0, h1, h2, h3]
  omega

/-! ## Shorts -/

def getShort (b : Block) (off : ℕ) : ℕ :=
  b.byte off + 256 * b.byte (off + 1)

theorem getShort_of_bytes (b : Block) (hv : v < 2 ^ 16) (h : ∀ k, k < 2 → b.byte (off + k) = v / 256 ^ k % 256) :
    b.getShort off = v := by
  have h0 := h 0 (by omega)
  have h1 := h 1 (by omega)
  unfold getShort
  rw [Nat.add_zero] at h0
  rw [h0, h1]
  omega

/-! ## Bytes -/

def zero : Block :=
  fun _ => 0

@[simp] theorem byte_zero (i : ℕ) : zero.byte i = 0 := by
  simp [byte, zero]

@[simp] theorem getInt_zero : zero.getInt off = 0 := by
  simp [getInt]

/-- Byte `k` modulo the block size: where byte `k` of a file is in its block. -/
def get (b : Block) (k : ℕ) : UInt8 :=
  b ⟨k % bsize, Nat.mod_lt k (by decide)⟩

/-- `memmove(b + off, src, m)`. -/
def copyIn (b : Block) (off m : ℕ) (src : ℕ → UInt8) : Block :=
  fun i => if off ≤ i.val ∧ i.val < off + m then src (i.val - off) else b i

/-! ## Bits -/

def bit (b : Block) (k : ℕ) : Bool :=
  b.byte (k / 8) &&& 1 <<< (k % 8) != 0

def setBit (b : Block) (k : ℕ) : Block :=
  fun i => if i.val = k / 8 then UInt8.ofNat ((b i).toNat ||| 1 <<< (k % 8)) else b i

def clearBit (b : Block) (k : ℕ) : Block :=
  fun i => if i.val = k / 8 then UInt8.ofNat ((b i).toNat &&& (255 ^^^ 1 <<< (k % 8))) else b i

theorem bit_eq_testBit (b : Block) : b.bit k = (b.byte (k / 8)).testBit (k % 8) := by
  have hand : b.byte (k / 8) &&& 1 <<< (k % 8) = ((b.byte (k / 8)).testBit (k % 8)).toNat * 2 ^ (k % 8) := by
    rw [Nat.one_shiftLeft]
    exact Nat.and_two_pow _ _
  unfold bit
  rw [hand]
  cases (b.byte (k / 8)).testBit (k % 8) <;> simp

theorem bit_zero : zero.bit k = false := by
  simp [bit]

theorem bit_index_eq_iff : j = k ↔ j / 8 = k / 8 ∧ j % 8 = k % 8 := by
  omega

theorem byte_setBit (b : Block) (hk : k < bpb) :
    (b.setBit k).byte i = if i = k / 8 then b.byte i ||| 1 <<< (k % 8) else b.byte i := by
  have hk8 : k / 8 < bsize := by unfold bpb at hk; omega
  by_cases hi : i = k / 8
  · subst hi
    have hbyte : (b ⟨k / 8, hk8⟩).toNat < 2 ^ 8 := UInt8.toNat_lt _
    have hmask : 1 <<< (k % 8) < 2 ^ 8 := by
      rw [Nat.one_shiftLeft]
      exact Nat.pow_lt_pow_right (by omega) (by omega)
    have hor := Nat.or_lt_two_pow hbyte hmask
    simp only [byte, hk8, setBit, dif_pos, if_true]
    rw [UInt8.toNat_ofNat', Nat.mod_eq_of_lt hor]
  · simp [byte, setBit, hi]

theorem byte_clearBit (b : Block) (hk : k < bpb) : (b.clearBit k).byte i =
      if i = k / 8 then b.byte i &&& (255 ^^^ 1 <<< (k % 8)) else b.byte i := by
  have hk8 : k / 8 < bsize := by unfold bpb at hk; omega
  by_cases hi : i = k / 8
  · subst hi
    have hbyte : (b ⟨k / 8, hk8⟩).toNat < 2 ^ 8 := UInt8.toNat_lt _
    have hand : (b ⟨k / 8, hk8⟩).toNat &&& (255 ^^^ 1 <<< (k % 8)) < 2 ^ 8 := lt_of_le_of_lt Nat.and_le_left hbyte
    simp only [byte, hk8, clearBit, dif_pos, if_true]
    rw [UInt8.toNat_ofNat', Nat.mod_eq_of_lt hand]
  · simp [byte, clearBit, hi]

theorem bit_setBit (b : Block) (hk : k < bpb) : (b.setBit k).bit j = (decide (j = k) || b.bit j) := by
  rw [bit_eq_testBit, bit_eq_testBit, byte_setBit b hk]
  by_cases hi : j / 8 = k / 8
  · simp only [hi, if_true, Nat.testBit_or, Nat.one_shiftLeft, Nat.testBit_two_pow]
    have hjk : (k % 8 = j % 8) ↔ j = k := by rw [bit_index_eq_iff (j := j)]; omega
    simp [hjk, Bool.or_comm]
  · have hjk : j ≠ k := fun h => hi (by rw [h])
    simp [hi, hjk]

theorem bit_clearBit (b : Block) (hk : k < bpb) : (b.clearBit k).bit j = (decide (j ≠ k) && b.bit j) := by
  rw [bit_eq_testBit, bit_eq_testBit, byte_clearBit b hk]
  by_cases hi : j / 8 = k / 8
  · have h255 : Nat.testBit 255 (j % 8) = true := by
      have hj : j % 8 < 8 := Nat.mod_lt _ (by omega)
      interval_cases j % 8 <;> rfl
    have hjk : (k % 8 = j % 8) ↔ j = k := by rw [bit_index_eq_iff (j := j)]; omega
    simp only [hi, if_true, Nat.testBit_and, Nat.testBit_xor, Nat.one_shiftLeft, Nat.testBit_two_pow, h255]
    by_cases h : j = k
    · simp [h]
    · simp [h, hjk]
  · have hjk : j ≠ k := fun h => hi (by rw [h])
    simp [hi, hjk]

end Block

end Xv6
