import Xv6.Fs.Balloc

/-!
# Bmap — the block maps of the inodes

An inode refers to data blocks from `ndirect` places in the inode, to its indirect block from one more
place, and to further data blocks from the entries of the indirect block.  `ref` collects these
places over all allocated inodes; `Maps` says that they agree with the free map.

While a system call works on an inode, its in-memory copy may be ahead of the disk: `ref` therefore
takes the inodes from a function that the caller overrides at the inode in hand.
-/

namespace Xv6.Fs

open Function (update update_of_ne)
open Common

/-! ## Places that hold block numbers -/

/-- The places of one inode. -/
inductive Slot
  | direct (k : Fin ndirect)
  | indirect
  | entry (k : Fin nindirect)
  deriving DecidableEq

def Slot.isLeaf : Slot → Bool
  | .direct _ => true
  | .indirect => false
  | .entry _ => true

def Dinode.slot (x : Dinode) (d : Disk) : Slot → ℕ
  | .direct k => x.addr k
  | .indirect => x.addr ndirect
  | .entry k => if x.addr ndirect = 0 then 0 else (d (x.addr ndirect)).getInt (4 * k)

/-- The place for block `n` of the file. -/
def slotOf (n : ℕ) : Option Slot :=
  if h : n < ndirect then some (.direct ⟨n, h⟩)
  else if h : n - ndirect < nindirect then some (.entry ⟨n - ndirect, h⟩)
  else none

def Dinode.blockAt (x : Dinode) (d : Disk) (n : ℕ) : ℕ :=
  match slotOf n with
  | some s => x.slot d s
  | none => 0

/-- The block number in each place of each inode; only allocated inodes count. -/
def ref (sb : Superblock) (D : ℕ → Dinode) (d : Disk) (p : ℕ × Slot) : ℕ :=
  if p.1 < sb.ninodes ∧ (D p.1).type ≠ 0 then (D p.1).slot d p.2 else 0

/-- The inodes `D` and the free map agree. -/
def Maps (sb : Superblock) (D : ℕ → Dinode) (d : Disk) : Prop :=
  Allocated sb.datastart sb.size (bitAt sb d) (ref sb D d)

variable {sb : Superblock} {D : ℕ → Dinode} {d d' : Disk} {x ip ip' : Dinode} {i j b n : ℕ} {s : Slot}

theorem slotOf_isLeaf (h : slotOf n = some s) : s.isLeaf = true := by
  unfold slotOf at h
  split_ifs at h
  · have hs := Option.some.inj h
    rw [← hs]
    rfl
  · have hs := Option.some.inj h
    rw [← hs]
    rfl

theorem slotOf_inj {m : ℕ} (hn : slotOf n = some s) (hm : slotOf m = some s) : m = n := by
  unfold slotOf at hn hm
  split_ifs at hn hm with h1 h2 h3 h4
  · have := Option.some.inj (hn.trans hm.symm)
    simp only [Slot.direct.injEq, Fin.mk.injEq] at this
    exact this.symm
  · exact absurd (Option.some.inj (hn.trans hm.symm)) (by simp)
  · exact absurd (Option.some.inj (hn.trans hm.symm)) (by simp)
  · have := Option.some.inj (hn.trans hm.symm)
    simp only [Slot.entry.injEq, Fin.mk.injEq] at this
    omega

theorem slotOf_isSome (hn : n < maxfile) : ∃ s, slotOf n = some s := by
  unfold slotOf
  split_ifs with h1 h2
  · exact ⟨_, rfl⟩
  · exact ⟨_, rfl⟩
  · unfold maxfile at hn
    omega

theorem slotOf_eq_none (hn : maxfile ≤ n) : slotOf n = none := by
  unfold maxfile at hn
  have h1 : ¬ n < ndirect := by omega
  have h2 : ¬ n - ndirect < nindirect := by omega
  simp [slotOf, h1, h2]

theorem blockAt_of_slotOf (h : slotOf n = some s) : x.blockAt d n = x.slot d s := by
  simp [Dinode.blockAt, h]

theorem lt_maxfile_of_blockAt (h : x.blockAt d n ≠ 0) : n < maxfile := by
  by_contra hn
  simp [Dinode.blockAt, slotOf_eq_none (Nat.le_of_not_lt hn)] at h

/-- The places of an inode depend on the disk only through its indirect block. -/
theorem slot_congr (h : x.addr ndirect ≠ 0 → d' (x.addr ndirect) = d (x.addr ndirect)) :
    x.slot d' s = x.slot d s := by
  cases s with
  | direct k => rfl
  | indirect => rfl
  | entry k =>
    by_cases hind : x.addr ndirect = 0
    · simp [Dinode.slot, hind]
    · simp [Dinode.slot, hind, h hind]

theorem ref_of_alloc (hi : i < sb.ninodes) (hx : (D i).type ≠ 0) : ref sb D d (i, s) = (D i).slot d s := by
  simp [ref, hi, hx]

theorem ref_update_self (hi : i < sb.ninodes) (hx : ip.type ≠ 0) (s : Slot) :
    ref sb (update D i ip) d (i, s) = ip.slot d s := by
  simp [ref, hi, hx]

theorem ref_update_of_ne (hj : j ≠ i) (s : Slot) : ref sb (update D i ip) d (j, s) = ref sb D d (j, s) := by
  simp [ref, hj]

theorem Maps.setMeta {y : Dinode} (h : Maps sb (update D i x) d) (haddrs : y.addrs = x.addrs)
    (htype : y.type = 0 ↔ x.type = 0) : Maps sb (update D i y) d := by
  have hslot : ∀ s, y.slot d s = x.slot d s := by
    intro s
    have haddr : ∀ k, y.addr k = x.addr k := by simp [Dinode.addr, haddrs]
    cases s <;> simp [Dinode.slot, haddr]
  refine h.congr (fun _ _ => rfl) (fun p => ?_) sb.datastart_le
  rcases p with ⟨j, s⟩
  by_cases hj : j = i
  · subst hj
    simp [ref, htype, hslot]
  · rw [ref_update_of_ne hj, ref_update_of_ne hj]

theorem Maps.iupdate (h : Maps sb D d) (hi : i < sb.ninodes) : Maps sb D (iupdate sb d i x) := by
  refine h.congr (fun c _ => bitAt_iupdate hi) (fun p => ?_) sb.datastart_le
  rcases p with ⟨j, s⟩
  by_cases halloc : j < sb.ninodes ∧ (D j).type ≠ 0
  · rw [ref_of_alloc halloc.1 halloc.2, ref_of_alloc halloc.1 halloc.2]
    refine slot_congr (fun hind => iupdate_data hi ?_)
    have href : ref sb D d (j, .indirect) = (D j).addr ndirect := ref_of_alloc halloc.1 halloc.2
    have hrange := h.range (j, .indirect) (by rw [href]; exact hind)
    rw [href] at hrange
    exact hrange.1
  · simp [ref, halloc]

/-! ## One block is added -/

/-- The free block `b` goes into the empty place `s` of inode `ip`. -/
structure Assigned (sb : Superblock) (s : Slot) (b : ℕ) (ip : Dinode) (d : Disk) (ip' : Dinode)
    (d' : Disk) : Prop where
  free : bitAt sb d b = false
  lt : b < sb.size
  was : ip.slot d s = 0
  bits : ∀ c, c < sb.size → bitAt sb d' c = update (bitAt sb d) b true c
  inodes : ∀ j, j < sb.ninodes → din sb d' j = din sb d j
  kept : ip' = { ip with addrs := ip'.addrs }
  now : ip'.slot d' s = b
  slots : ∀ s', s' ≠ s → ip'.slot d' s' = ip.slot d s'
  /-- Apart from the new block, only the indirect block of the inode itself may change. -/
  data : ∀ c, sb.datastart ≤ c → c ≠ b → c ≠ ip.addr ndirect → d' c = d c
  zero : d' b = Block.zero

namespace Assigned

theorem type_eq (h : Assigned sb s b ip d ip' d') : ip'.type = ip.type := by
  rw [h.kept]

theorem pos (h : Assigned sb s b ip d ip' d') (hmaps : Maps sb D d) : b ≠ 0 := by
  have hlo := hmaps.lo_le_of_bit h.free
  have := sb.datastart_pos
  omega

theorem freeCount (h : Assigned sb s b ip d ip' d') :
    freeCount sb.size (bitAt sb d') + 1 = freeCount sb.size (bitAt sb d) := by
  rw [freeCount_congr h.bits]
  exact freeCount_claim h.free h.lt

variable (h : Assigned sb s b ip d ip' d') (hi : i < sb.ninodes) (hx : ip.type ≠ 0)
  (hmaps : Maps sb (update D i ip) d)

include h hi hx hmaps

/-- A block that is referred to from another place than the indirect block of the inode itself keeps
its content. -/
theorem data_of_ref {p : ℕ × Slot} (hp : ref sb (update D i ip) d p ≠ 0)
    (hne : p ≠ (i, .indirect)) :
    d' (ref sb (update D i ip) d p) = d (ref sb (update D i ip) d p) := by
  rcases hmaps.range p hp with ⟨hlo, hsize⟩
  refine h.data _ hlo (hmaps.ref_ne_of_bit h.free h.lt p) fun hind => hne ?_
  refine hmaps.inj p (i, .indirect) hp ?_
  rw [ref_update_self hi hx]
  exact hind

theorem others (hj : j ≠ i) (s' : Slot) : ref sb (update D i ip') d' (j, s') = ref sb (update D i ip) d (j, s') := by
  rw [ref_update_of_ne hj, ref_update_of_ne hj]
  by_cases halloc : j < sb.ninodes ∧ (D j).type ≠ 0
  · rw [ref_of_alloc halloc.1 halloc.2, ref_of_alloc halloc.1 halloc.2]
    refine slot_congr (fun hind => ?_)
    -- The indirect block of `j` is referred to from `j`, hence it is not the new block.
    have href : ref sb (update D i ip) d (j, .indirect) = (D j).addr ndirect := by
      rw [ref_update_of_ne hj, ref_of_alloc halloc.1 halloc.2]
      rfl
    have hdata := h.data_of_ref hi hx hmaps (p := (j, .indirect)) (by rw [href]; exact hind)
      (by simp [hj])
    rwa [href] at hdata
  · simp [ref, halloc]

theorem maps : Maps sb (update D i ip') d' := by
  have hwas : ref sb (update D i ip) d (i, s) = 0 := by
    rw [ref_update_self hi hx]
    exact h.was
  refine (hmaps.claim h.free h.lt hwas).congr h.bits (fun p => ?_) sb.datastart_le
  rcases p with ⟨j, s'⟩
  by_cases hj : j = i
  · subst hj
    rw [ref_update_self hi (h.type_eq ▸ hx)]
    by_cases hs : s' = s
    · subst hs
      simp [h.now]
    · rw [h.slots s' hs, update_of_ne (by simp [hs]), ref_update_self hi hx]
  · rw [h.others hi hx hmaps hj, update_of_ne (by simp [hj])]

end Assigned

/-! ## `bmap` -/

def loadIndirect (sb : Superblock) (d : Disk) (ip : Dinode) : Except Panic (Dinode × Disk) :=
  if ip.addr ndirect = 0 then do
    let (b, d) ← balloc sb d
    return (ip.setAddr ndirect b, d)
  else return (ip, d)

/-- The entry `k` of the indirect block, allocating the data block if necessary. -/
def bmapEntry (sb : Superblock) (d : Disk) (ip : Dinode) (k : ℕ) : Except Panic (ℕ × Dinode × Disk) :=
  let a := d (ip.addr ndirect)
  if a.getInt (4 * k) = 0 then do
    let (b, d) ← balloc sb d
    return (b, ip, update d (ip.addr ndirect) (a.setInt (4 * k) b))
  else return (a.getInt (4 * k), ip, d)

/-- Return the disk block address of the nth block in inode ip.  If there is no such block, bmap
allocates one. -/
def bmap (sb : Superblock) (d : Disk) (ip : Dinode) (bn : ℕ) : Except Panic (ℕ × Dinode × Disk) :=
  if bn < ndirect then
    if ip.addr bn = 0 then do
      let (b, d) ← balloc sb d
      return (b, ip.setAddr bn b, d)
    else return (ip.addr bn, ip, d)
  else if bn - ndirect < nindirect then do
    let (ip, d) ← loadIndirect sb d ip
    bmapEntry sb d ip (bn - ndirect)
  else .error .bmapOutOfRange

theorem bmapEntry_returns (k : ℕ) :
    Returns (bmapEntry sb d ip k) fun _ => True := by
  dsimp only [bmapEntry]
  split_ifs
  · exact balloc_returns.bind fun _ _ => .ok trivial
  · exact .ok trivial

theorem bmap_returns (bn : ℕ) : Returns (bmap sb d ip bn) fun _ => True := by
  have hload : Returns (loadIndirect sb d ip) fun _ => True := by
    unfold loadIndirect
    split_ifs
    · exact balloc_returns.bind fun _ _ => .ok trivial
    · exact .ok trivial
  unfold bmap
  split_ifs
  · exact balloc_returns.bind fun _ _ => .ok trivial
  · exact .ok trivial
  · exact hload.bind fun _ _ => bmapEntry_returns _
  · exact .error (by simp)

theorem bmap_of_blockAt (h : ip.blockAt d n ≠ 0) : bmap sb d ip n = .ok (ip.blockAt d n, ip, d) := by
  unfold Dinode.blockAt slotOf at *
  by_cases h1 : n < ndirect
  · have haddr : ip.addr n ≠ 0 := by simpa [h1, Dinode.slot] using h
    simp [bmap, h1, haddr, Dinode.slot]
  by_cases h2 : n - ndirect < nindirect
  · have hind : ip.addr ndirect ≠ 0 := by
      intro hzero
      simp [h1, h2, Dinode.slot, hzero] at h
    have hentry : (d (ip.addr ndirect)).getInt (4 * (n - ndirect)) ≠ 0 := by
      simpa [h1, h2, Dinode.slot, hind] using h
    simp [bmap, h1, h2, loadIndirect, bmapEntry, hind, hentry, Dinode.slot]
  · simp [h1, h2] at h

/-! ### The three allocations -/

section Assign

variable (hi : i < sb.ninodes) (hx : ip.type ≠ 0) (hmaps : Maps sb (update D i ip) d)
  (hlt : b < sb.size) (hfree : bitAt sb d b = false)

include hi hx hmaps hlt hfree

/-- The indirect block of the inode in hand is a data block other than a new one. -/
theorem indirect_ne (hind : ip.addr ndirect ≠ 0) : sb.datastart ≤ ip.addr ndirect ∧ ip.addr ndirect ≠ b := by
  have href : ref sb (update D i ip) d (i, .indirect) = ip.addr ndirect := by
    rw [ref_update_self hi hx]
    rfl
  have hrange := hmaps.range (i, .indirect) (by rw [href]; exact hind)
  have hne := hmaps.ref_ne_of_bit hfree hlt (i, .indirect)
  rw [href] at hrange hne
  exact ⟨hrange.1, hne⟩

theorem assigned_direct (k : Fin ndirect) (hzero : ip.addr k = 0) :
    Assigned sb (.direct k) b ip d (ip.setAddr k b) (bzero (markUsed sb d b) b) := by
  have hlo : sb.datastart ≤ b := hmaps.lo_le_of_bit hfree
  have hk : k.val < ndirect + 1 := Nat.lt_succ_of_lt k.isLt
  have haddr : ∀ m, (ip.setAddr k b).addr m = if m = k then b else ip.addr m :=
    fun m => ip.addr_setAddr hk (Superblock.lt_of_lt_size hlt)
  have hind : (ip.setAddr k b).addr ndirect = ip.addr ndirect := by
    rw [haddr, if_neg (Nat.ne_of_gt k.isLt)]
  refine ⟨hfree, hlt, hzero, fun c hc => bitAt_balloc hlo hc, fun j hj => din_balloc hlo hj, rfl, ?_, ?_,
    fun c hc hcb _ => ?_, ?_⟩
  · simp [Dinode.slot, haddr]
  · intro s' hs'
    cases s' with
    | direct m =>
      have hmk : m.val ≠ k.val := fun h => hs' (by rw [Fin.ext h])
      simp [Dinode.slot, haddr, hmk]
    | indirect => exact hind
    | entry m =>
      simp only [Dinode.slot, hind]
      by_cases hz : ip.addr ndirect = 0
      · simp [hz]
      · rcases indirect_ne hi hx hmaps hlt hfree hz with ⟨hge, hne⟩
        rw [if_neg hz, if_neg hz, balloc_data hlt hge, if_neg hne]
  · rw [balloc_data hlt hc, if_neg hcb]
  · rw [balloc_data hlt hlo, if_pos rfl]

omit hi hx in
theorem assigned_indirect (hzero : ip.addr ndirect = 0) :
    Assigned sb .indirect b ip d (ip.setAddr ndirect b) (bzero (markUsed sb d b) b) := by
  have hlo : sb.datastart ≤ b := hmaps.lo_le_of_bit hfree
  have hb : b ≠ 0 := by have := sb.datastart_pos; omega
  have haddr : ∀ m, (ip.setAddr ndirect b).addr m = if m = ndirect then b else ip.addr m :=
    fun m => ip.addr_setAddr (Nat.lt_succ_self _) (Superblock.lt_of_lt_size hlt)
  refine ⟨hfree, hlt, hzero, fun c hc => bitAt_balloc hlo hc, fun j hj => din_balloc hlo hj, rfl, ?_, ?_,
    fun c hc hcb _ => ?_, ?_⟩
  · simp [Dinode.slot, haddr]
  · intro s' hs'
    cases s' with
    | direct m => simp [Dinode.slot, haddr, Nat.ne_of_lt m.isLt]
    | indirect => exact absurd rfl hs'
    | entry m =>
      -- The new indirect block is zeroed: its entries are empty, as those of a missing one are.
      simp [Dinode.slot, haddr, hzero, balloc_data hlt hlo]
  · rw [balloc_data hlt hc, if_neg hcb]
  · rw [balloc_data hlt hlo, if_pos rfl]

theorem assigned_entry (k : Fin nindirect) (hind : ip.addr ndirect ≠ 0)
    (hzero : (d (ip.addr ndirect)).getInt (4 * k) = 0) :
    Assigned sb (.entry k) b ip d ip
      (update (bzero (markUsed sb d b) b) (ip.addr ndirect)
        ((d (ip.addr ndirect)).setInt (4 * k) b)) := by
  have hlo : sb.datastart ≤ b := hmaps.lo_le_of_bit hfree
  rcases indirect_ne hi hx hmaps hlt hfree hind with ⟨hge, hne⟩
  have hk : 4 * k.val + 4 ≤ bsize := by
    have := k.isLt
    unfold nindirect bsize at *
    omega
  refine ⟨hfree, hlt, ?_, fun c hc => ?_, fun j hj => ?_, rfl, ?_, ?_, fun c hc hcb hci => ?_, ?_⟩
  · simp [Dinode.slot, hind, hzero]
  · rw [bitAt_write_data hc hge, bitAt_balloc hlo hc]
  · rw [din_write_data hj hge, din_balloc hlo hj]
  · simp [Dinode.slot, hind, Block.getInt_setInt_self _ hk (Superblock.lt_of_lt_size hlt)]
  · intro s' hs'
    cases s' with
    | direct m => rfl
    | indirect => rfl
    | entry m =>
      have hmk : m.val ≠ k.val := fun h => hs' (by rw [Fin.ext h])
      have hdisj : 4 * m.val + 4 ≤ 4 * k.val ∨ 4 * k.val + 4 ≤ 4 * m.val := by omega
      simp [Dinode.slot, hind, Block.getInt_setInt_of_disjoint _ hdisj]
  · rw [update_of_ne hci, balloc_data hlt hc, if_neg hcb]
  · rw [update_of_ne (Ne.symm hne), balloc_data hlt hlo, if_pos rfl]

end Assign

/-! ### What `bmap` does -/

/-- The number of blocks `bmap` takes for block `n` of the file. -/
def Dinode.cost (x : Dinode) (d : Disk) (n : ℕ) : ℕ :=
  if x.blockAt d n ≠ 0 then 0 else if ndirect ≤ n ∧ x.addr ndirect = 0 then 2 else 1

/-- `b` is block `n` of inode `i` in `ip'` and `d'`, and was added to `ip` and `d` if it was missing. -/
structure Bmapped (sb : Superblock) (D : ℕ → Dinode) (i n b : ℕ) (ip : Dinode) (d : Disk) (ip' : Dinode)
    (d' : Disk) : Prop where
  maps : Maps sb (update D i ip') d'
  kept : ip' = { ip with addrs := ip'.addrs }
  inodes : ∀ j, j < sb.ninodes → din sb d' j = din sb d j
  block : ip'.blockAt d' n = b
  pos : b ≠ 0
  blocks : ∀ m, m ≠ n → ip'.blockAt d' m = ip.blockAt d m
  indirect : ip.addr ndirect ≠ 0 → ip'.addr ndirect = ip.addr ndirect
  others : ∀ j s, j ≠ i →
    ref sb (update D i ip') d' (j, s) = ref sb (update D i ip) d (j, s)
  /-- The data blocks of all files keep their content. -/
  data : ∀ p, p.2.isLeaf = true → ref sb (update D i ip) d p ≠ 0 →
    d' (ref sb (update D i ip) d p) = d (ref sb (update D i ip) d p)
  fresh : ip.blockAt d n = 0 → d' b = Block.zero
  unchanged : ip.blockAt d n ≠ 0 → ip' = ip ∧ d' = d
  count : freeCount sb.size (bitAt sb d') + ip.cost d n = freeCount sb.size (bitAt sb d)

section Bmapped

variable (hi : i < sb.ninodes) (hx : ip.type ≠ 0) (hmaps : Maps sb (update D i ip) d)

include hmaps in
theorem Bmapped.refl (h : ip.blockAt d n ≠ 0) : Bmapped sb D i n (ip.blockAt d n) ip d ip d where
  maps := hmaps
  kept := rfl
  inodes _ _ := rfl
  block := rfl
  pos := h
  blocks _ _ := rfl
  indirect _ := rfl
  others _ _ _ := rfl
  data _ _ _ := rfl
  fresh hzero := absurd hzero h
  unchanged _ := ⟨rfl, rfl⟩
  count := by simp [Dinode.cost, h]

include hi hx hmaps

theorem Assigned.bmapped (h : Assigned sb s b ip d ip' d') (hs : slotOf n = some s)
    (hcost : n < ndirect ∨ ip.addr ndirect ≠ 0) : Bmapped sb D i n b ip d ip' d' := by
  have hleaf : s ≠ .indirect := by
    intro heq
    have := slotOf_isLeaf hs
    simp [heq, Slot.isLeaf] at this
  have hzero : ip.blockAt d n = 0 := by
    rw [blockAt_of_slotOf hs]
    exact h.was
  refine ⟨h.maps hi hx hmaps, h.kept, h.inodes, ?_, h.pos hmaps, fun m hm => ?_, fun _ => ?_,
    fun j s' hj => h.others hi hx hmaps hj s', fun p hp href => ?_, fun _ => h.zero,
    fun hne => absurd hzero hne, ?_⟩
  · rw [blockAt_of_slotOf hs]
    exact h.now
  · cases hm' : slotOf m with
    | none => simp [Dinode.blockAt, hm']
    | some s' =>
      have hne : s' ≠ s := by
        rintro rfl
        exact hm (slotOf_inj hs hm')
      rw [blockAt_of_slotOf hm', blockAt_of_slotOf hm', h.slots s' hne]
  · exact h.slots .indirect (Ne.symm hleaf)
  · refine h.data_of_ref hi hx hmaps href fun heq => ?_
    simp [heq, Slot.isLeaf] at hp
  · have hone : ip.cost d n = 1 := by
      have hnot : ¬ (ndirect ≤ n ∧ ip.addr ndirect = 0) := by
        rintro ⟨hge, hind⟩
        rcases hcost with hlt | hne
        · omega
        · exact hne hind
      simp [Dinode.cost, hzero, hnot]
    rw [hone]
    exact h.freeCount

/-- The missing indirect block is added first. -/
theorem Assigned.bmapped_indirect {b1 : ℕ} {ip1 : Dinode} {d1 : Disk} (hn : ndirect ≤ n)
    (h1 : Assigned sb .indirect b1 ip d ip1 d1) (h2 : Bmapped sb D i n b ip1 d1 ip' d')
    (hzero : ip.blockAt d n = 0) : Bmapped sb D i n b ip d ip' d' := by
  have hblocks : ∀ m, ip1.blockAt d1 m = ip.blockAt d m := by
    intro m
    cases hm : slotOf m with
    | none => simp [Dinode.blockAt, hm]
    | some s' =>
      have hne : s' ≠ .indirect := by
        intro heq
        have := slotOf_isLeaf hm
        simp [heq, Slot.isLeaf] at this
      rw [blockAt_of_slotOf hm, blockAt_of_slotOf hm, h1.slots s' hne]
  have hind : ip.addr ndirect = 0 := h1.was
  have hind1 : ip1.addr ndirect ≠ 0 := by
    have hnow : ip1.addr ndirect = b1 := h1.now
    rw [hnow]
    exact h1.pos hmaps
  refine ⟨h2.maps, ?_, fun j hj => (h2.inodes j hj).trans (h1.inodes j hj), h2.block, h2.pos,
    fun m hm => (h2.blocks m hm).trans (hblocks m), fun hne => absurd hind hne,
    fun j s hj => (h2.others j s hj).trans (h1.others hi hx hmaps hj s), fun p hp href => ?_,
    fun _ => h2.fresh ((hblocks n).trans hzero), fun hne => absurd hzero hne, ?_⟩
  · rw [h2.kept, h1.kept]
  · have hne : p ≠ (i, .indirect) := by
      intro heq
      simp [heq, Slot.isLeaf] at hp
    -- The place holds the same block before and after the first allocation.
    have hsame : ref sb (update D i ip1) d1 p = ref sb (update D i ip) d p := by
      rcases p with ⟨j, s⟩
      by_cases hj : j = i
      · subst hj
        rw [ref_update_self hi (h1.type_eq ▸ hx), ref_update_self hi hx]
        exact h1.slots s (by rintro rfl; exact hne rfl)
      · exact h1.others hi hx hmaps hj s
    have hdata := h2.data p hp (by rw [hsame]; exact href)
    rw [hsame] at hdata
    rw [hdata, h1.data_of_ref hi hx hmaps href hne]
  · have htwo : ip.cost d n = 2 := by simp [Dinode.cost, hzero, hn, hind]
    have hone : ip1.cost d1 n = 1 := by simp [Dinode.cost, hblocks n, hzero, hind1]
    have hcount := h2.count
    have hcount1 := h1.freeCount
    rw [hone] at hcount
    rw [htwo]
    omega

omit hi hx hmaps in
theorem exists_of_balloc {α : Type} {f : ℕ × Disk → Except Panic α} {r : α}
    (h : (balloc sb d >>= f) = .ok r) :
    ∃ b, b < sb.size ∧ bitAt sb d b = false ∧ f (b, bzero (markUsed sb d b) b) = .ok r := by
  rcases bind_eq_ok.1 h with ⟨⟨b, d1⟩, hb, hf⟩
  rcases balloc_ok hb with ⟨hlt, hfree, rfl⟩
  exact ⟨b, hlt, hfree, hf⟩

theorem bmapEntry_ok (hind : ip.addr ndirect ≠ 0) (hn : ndirect ≤ n) (hlt : n - ndirect < nindirect)
    (h : bmapEntry sb d ip (n - ndirect) = .ok (b, ip', d')) : Bmapped sb D i n b ip d ip' d' := by
  have hslot : slotOf n = some (.entry ⟨n - ndirect, hlt⟩) := by
    simp [slotOf, Nat.not_lt.2 hn, hlt]
  have hentry : ip.blockAt d n = (d (ip.addr ndirect)).getInt (4 * (n - ndirect)) := by
    rw [blockAt_of_slotOf hslot]
    simp [Dinode.slot, hind]
  dsimp only [bmapEntry] at h
  split_ifs at h with hzero
  · rcases exists_of_balloc h with ⟨b', hb', hfree, hret⟩
    obtain ⟨rfl, rfl, rfl⟩ : b' = b ∧ ip = ip' ∧ _ = d' := by simpa using hret
    exact (assigned_entry hi hx hmaps hb' hfree ⟨n - ndirect, hlt⟩ hind hzero).bmapped hi hx hmaps hslot
      (.inr hind)
  obtain ⟨rfl, rfl, rfl⟩ : _ = b ∧ ip = ip' ∧ d = d' := by simpa using h
  have hne : ip.blockAt d n ≠ 0 := by
    rw [hentry]
    exact hzero
  have hrefl := Bmapped.refl (i := i) hmaps hne
  rwa [hentry] at hrefl

theorem bmap_ok (h : bmap sb d ip n = .ok (b, ip', d')) : Bmapped sb D i n b ip d ip' d' := by
  by_cases hne : ip.blockAt d n = 0
  · unfold bmap at h
    split_ifs at h with h1 hzero h2
    · rcases exists_of_balloc h with ⟨b', hb', hfree, hret⟩
      obtain ⟨rfl, rfl, rfl⟩ : b' = b ∧ _ = ip' ∧ _ = d' := by simpa using hret
      exact (assigned_direct hi hx hmaps hb' hfree ⟨n, h1⟩ hzero).bmapped hi hx hmaps (by simp [slotOf, h1])
        (.inl h1)
    · simp [Dinode.blockAt, slotOf, h1, Dinode.slot, hzero] at hne
    have hn : ndirect ≤ n := Nat.le_of_not_lt h1
    rcases bind_eq_ok.1 h with ⟨⟨ip1, d1⟩, hload, hentry⟩
    unfold loadIndirect at hload
    split_ifs at hload with hind
    · -- Both the indirect block and the data block are new.
      rcases exists_of_balloc hload with ⟨b1, hb1, hfree, hret⟩
      obtain ⟨rfl, rfl⟩ : _ = ip1 ∧ _ = d1 := by simpa using hret
      have hassigned := assigned_indirect hmaps hb1 hfree hind
      have hind1 : (ip.setAddr ndirect b1).addr ndirect ≠ 0 := by
        have hnow : (ip.setAddr ndirect b1).addr ndirect = b1 := hassigned.now
        rw [hnow]
        exact hassigned.pos hmaps
      have hsecond := bmapEntry_ok hi (hassigned.type_eq ▸ hx) (hassigned.maps hi hx hmaps) hind1 hn h2
        hentry
      exact hassigned.bmapped_indirect hi hx hmaps hn hsecond hne
    · obtain ⟨rfl, rfl⟩ : ip = ip1 ∧ d = d1 := by simpa using hload
      exact bmapEntry_ok hi hx hmaps hind hn h2 hentry
  · rw [bmap_of_blockAt hne] at h
    obtain ⟨rfl, rfl, rfl⟩ : _ = b ∧ ip = ip' ∧ d = d' := by simpa using h
    exact Bmapped.refl hmaps hne

omit hi hx hmaps in
theorem balloc_of_freeCount (h : 0 < freeCount sb.size (bitAt sb d)) :
    ∃ b, b < sb.size ∧ bitAt sb d b = false ∧ balloc sb d = .ok (b, bzero (markUsed sb d b) b) := by
  rcases exists_of_freeCount_pos h with ⟨c, hc, hbit⟩
  rcases balloc_isOk hc hbit with ⟨⟨b, d1⟩, hb⟩
  rcases balloc_ok hb with ⟨hlt, hfree, rfl⟩
  exact ⟨b, hlt, hfree, hb⟩

omit hi hx hmaps in
theorem bmapEntry_isOk (h : 0 < freeCount sb.size (bitAt sb d)) (k : ℕ) : ∃ r, bmapEntry sb d ip k = .ok r := by
  rcases balloc_of_freeCount h with ⟨b, _, _, hb⟩
  dsimp only [bmapEntry]
  split_ifs
  · rw [hb]
    exact ⟨_, rfl⟩
  · exact ⟨_, rfl⟩

omit hi hx in
theorem bmap_isOk (hn : n < maxfile) (hcost : ip.cost d n ≤ freeCount sb.size (bitAt sb d)) :
    ∃ r, bmap sb d ip n = .ok r := by
  by_cases hne : ip.blockAt d n = 0
  · have hpos : 0 < ip.cost d n := by
      unfold Dinode.cost
      rw [if_neg (not_not.2 hne)]
      split_ifs
      · decide
      · decide
    rcases balloc_of_freeCount (Nat.lt_of_lt_of_le hpos hcost) with ⟨b, hlt, hfree, hb⟩
    unfold bmap
    split_ifs with h1 hzero h2
    · rw [hb]
      exact ⟨_, rfl⟩
    · exact ⟨_, rfl⟩
    · by_cases hind : ip.addr ndirect = 0
      · -- The second allocation finds what the first one has left.
        have hcount := (assigned_indirect hmaps hlt hfree hind).freeCount
        have htwo : ip.cost d n = 2 := by simp [Dinode.cost, hne, Nat.le_of_not_lt h1, hind]
        have hload : loadIndirect sb d ip = .ok (ip.setAddr ndirect b, bzero (markUsed sb d b) b) := by
          simp [loadIndirect, hind, hb]
        have hleft : 0 < freeCount sb.size (bitAt sb (bzero (markUsed sb d b) b)) := by omega
        simp only [hload, ok_bind]
        exact bmapEntry_isOk hleft _
      · have hload : loadIndirect sb d ip = .ok (ip, d) := by simp [loadIndirect, hind]
        simp only [hload, ok_bind]
        exact bmapEntry_isOk (Nat.lt_of_lt_of_le hpos hcost) _
    · unfold maxfile at hn
      omega
  · exact ⟨_, bmap_of_blockAt hne⟩

end Bmapped

end Xv6.Fs
