import Xv6.Fs.Bmap

/-!
# Itrunc — discarding the contents of an inode

`itrunc` frees the direct blocks one by one, then the blocks of the indirect block, then the indirect
block.  The entries of the indirect block stay in it; they are gone when the inode lets go of the block.
Between these two moments the free map and the places of the inode disagree, so the loop over the
entries is followed with a list of places of its own (`cutEntries`).
-/

namespace Xv6.Fs

open Function (update update_of_ne)
open Common

/-! ## The code -/

/-- `if(ip->addrs[k]){ bfree(ip->dev, ip->addrs[k]); ip->addrs[k] = 0; }` -/
def freeAddr (sb : Superblock) (d : Disk) (ip : Dinode) (k : ℕ) : Except Panic (Disk × Dinode) :=
  if ip.addr k ≠ 0 then do
    let d ← bfree sb d (ip.addr k)
    return (d, ip.setAddr k 0)
  else return (d, ip)

/-- The loop over the direct blocks, `n` of them from `k` on. -/
def itruncDirect (sb : Superblock) : ℕ → ℕ → Disk → Dinode → Except Panic (Disk × Dinode)
  | 0, _, d, ip => return (d, ip)
  | n + 1, k, d, ip => do
      let (d, ip) ← freeAddr sb d ip k
      itruncDirect sb n (k + 1) d ip

/-- The loop over the entries of the indirect block `a`, `n` of them from `j` on. -/
def itruncEntries (sb : Superblock) (a : Block) : ℕ → ℕ → Disk → Except Panic Disk
  | 0, _, d => return d
  | n + 1, j, d => do
      let d ← if a.getInt (4 * j) ≠ 0 then bfree sb d (a.getInt (4 * j)) else pure d
      itruncEntries sb a n (j + 1) d

def itruncIndirect (sb : Superblock) (d : Disk) (ip : Dinode) : Except Panic (Disk × Dinode) :=
  if ip.addr ndirect ≠ 0 then do
    let d ← itruncEntries sb (d (ip.addr ndirect)) nindirect 0 d
    let d ← bfree sb d (ip.addr ndirect)
    return (d, ip.setAddr ndirect 0)
  else return (d, ip)

def itrunc (sb : Superblock) (d : Disk) (i : ℕ) (ip : Dinode) : Except Panic (Disk × Dinode) := do
  let (d, ip) ← itruncDirect sb ndirect 0 d ip
  let (d, ip) ← itruncIndirect sb d ip
  return (iupdate sb d i { ip with size := 0 }, { ip with size := 0 })

variable {sb : Superblock} {D : ℕ → Dinode} {d d' d'' : Disk} {ip : Dinode} {i k n b : ℕ}

/-! ## Only the free map changes -/

structure Freed (sb : Superblock) (d d' : Disk) : Prop where
  inodes : ∀ j, j < sb.ninodes → din sb d' j = din sb d j
  data : ∀ c, sb.datastart ≤ c → d' c = d c

namespace Freed

theorem refl (sb : Superblock) (d : Disk) : Freed sb d d := ⟨fun _ _ => rfl, fun _ _ => rfl⟩

theorem trans (h : Freed sb d d') (h' : Freed sb d' d'') : Freed sb d d'' :=
  ⟨fun j hj => (h'.inodes j hj).trans (h.inodes j hj), fun c hc => (h'.data c hc).trans (h.data c hc)⟩

theorem markFree (hb : b < sb.size) : Freed sb d (markFree sb d b) :=
  ⟨fun _ hj => din_write_bmap hj, fun _ hc => write_bmap_data hb hc⟩

theorem ref (h : Freed sb d d') (hrange : ∀ p, Fs.ref sb D d p ≠ 0 → sb.datastart ≤ Fs.ref sb D d p)
    (p : ℕ × Slot) : Fs.ref sb D d' p = Fs.ref sb D d p := by
  rcases p with ⟨j, s⟩
  by_cases halloc : j < sb.ninodes ∧ (D j).type ≠ 0
  · rw [ref_of_alloc halloc.1 halloc.2, ref_of_alloc halloc.1 halloc.2]
    refine slot_congr (fun hind => h.data _ ?_)
    have href : Fs.ref sb D d (j, .indirect) = (D j).addr ndirect := ref_of_alloc halloc.1 halloc.2
    have hge := hrange (j, .indirect) (by rw [href]; exact hind)
    rwa [href] at hge
  · simp [Fs.ref, halloc]

end Freed

/-- A block that a place holds can be freed. -/
theorem bfree_of_ref {ι : Type} [DecidableEq ι] {r : ι → ℕ} {p : ι}
    (h : Allocated sb.datastart sb.size (bitAt sb d) r) (hp : r p ≠ 0) :
    bfree sb d (r p) = .ok (markFree sb d (r p)) ∧ Freed sb d (markFree sb d (r p)) ∧
      Allocated sb.datastart sb.size (bitAt sb (markFree sb d (r p))) (update r p 0) := by
  refine ⟨bfree_eq_ok (h.bit_of_ref hp), Freed.markFree (h.range p hp).2, ?_⟩
  exact (h.release hp).congr (fun c _ => bitAt_markFree) (fun _ => rfl) sb.datastart_le

/-! ## The direct blocks -/

theorem addr_setAddr_zero (x : Dinode) {k : ℕ} (hk : k < ndirect + 1) (m : ℕ) :
    (x.setAddr k 0).addr m = if m = k then 0 else x.addr m :=
  x.addr_setAddr hk (by decide)

section Direct

variable (hi : i < sb.ninodes)

include hi

theorem freeAddr_spec (hx : ip.type ≠ 0) (hmaps : Maps sb (update D i ip) d) (hk : k < ndirect) :
    ∃ d', freeAddr sb d ip k = .ok (d', ip.setAddr k 0) ∧ Freed sb d d' ∧
      Maps sb (update D i (ip.setAddr k 0)) d' := by
  have haddr := addr_setAddr_zero ip (Nat.lt_succ_of_lt hk)
  have hslot : ∀ s, (ip.setAddr k 0).slot d s = if s = .direct ⟨k, hk⟩ then 0 else ip.slot d s := by
    intro s
    cases s with
    | direct m => simp [Dinode.slot, haddr, Fin.ext_iff]
    | indirect => simp [Dinode.slot, haddr, Nat.ne_of_gt hk]
    | entry m => simp [Dinode.slot, haddr, Nat.ne_of_gt hk]
  have href : ref sb (update D i ip) d (i, .direct ⟨k, hk⟩) = ip.addr k := ref_update_self hi hx _
  -- Whether or not there is a block, the place is empty afterwards and nothing else changes.
  have hcut : ∀ p, ref sb (update D i (ip.setAddr k 0)) d p =
      update (ref sb (update D i ip) d) (i, .direct ⟨k, hk⟩) 0 p := by
    rintro ⟨j, s⟩
    by_cases hj : j = i
    · subst hj
      rw [ref_update_self hi (show (ip.setAddr k 0).type ≠ 0 from hx), hslot]
      by_cases hs : s = .direct ⟨k, hk⟩
      · simp [hs]
      · rw [if_neg hs, update_of_ne (by simp [hs]), ref_update_self hi hx]
    · rw [ref_update_of_ne hj, update_of_ne (by simp [hj]), ref_update_of_ne hj]
  by_cases hzero : ip.addr k = 0
  · have hsame : ip.setAddr k 0 = ip := by
      ext1
      · rfl
      · rfl
      · rfl
      · rfl
      · rfl
      funext m
      by_cases hm : m.val = k
      · subst hm
        have hget : (ip.addrs m).toNat = 0 := by
          rw [Dinode.addr, dif_pos m.isLt] at hzero
          exact hzero
        simp [Dinode.setAddr, ← UInt32.toNat_inj, hget]
      · simp [Dinode.setAddr, hm]
    refine ⟨d, ?_, Freed.refl sb d, ?_⟩
    · simp [freeAddr, hzero, hsame]
    · rw [hsame]
      exact hmaps
  · rcases bfree_of_ref hmaps (p := (i, .direct ⟨k, hk⟩)) (by rw [href]; exact hzero) with
      ⟨hok, hfreed, hrel⟩
    rw [href] at hok hfreed hrel
    refine ⟨_, ?_, hfreed, ?_⟩
    · simp [freeAddr, hzero, hok]
    refine hrel.congr (fun _ _ => rfl) (fun p => ?_) sb.datastart_le
    rw [hfreed.ref (fun p hp => ?_), hcut p]
    rw [hcut] at hp ⊢
    have hpne : p ≠ (i, .direct ⟨k, hk⟩) := by
      rintro rfl
      simp at hp
    rw [update_of_ne hpne] at hp ⊢
    exact (hmaps.range p hp).1

theorem itruncDirect_spec (hx : ip.type ≠ 0) (hmaps : Maps sb (update D i ip) d)
    (hk : k + n ≤ ndirect) :
    ∃ d' ip', itruncDirect sb n k d ip = .ok (d', ip') ∧ Freed sb d d' ∧
      Maps sb (update D i ip') d' ∧ ip' = { ip with addrs := ip'.addrs } ∧
      ∀ m, ip'.addr m = if k ≤ m ∧ m < k + n then 0 else ip.addr m := by
  induction n generalizing k d ip with
  | zero =>
    refine ⟨d, ip, rfl, Freed.refl sb d, hmaps, rfl, fun m => ?_⟩
    rw [if_neg (by omega)]
  | succ n ih =>
    rcases freeAddr_spec hi hx hmaps (show k < ndirect by omega) with ⟨d1, hfree, hfreed1, hmaps1⟩
    rcases ih (k := k + 1) (show (ip.setAddr k 0).type ≠ 0 from hx) hmaps1 (by omega) with
      ⟨d', ip', hrest, hfreed, hmaps', hkept, haddr⟩
    refine ⟨d', ip', ?_, hfreed1.trans hfreed, hmaps', ?_, fun m => ?_⟩
    · simp only [itruncDirect, hfree, ok_bind]
      exact hrest
    · rw [hkept]
      rfl
    rw [haddr m, addr_setAddr_zero ip (by omega)]
    by_cases hm : m = k
    · simp [hm]
    · have hiff : k + 1 ≤ m ∧ m < k + 1 + n ↔ k ≤ m ∧ m < k + (n + 1) := by omega
      rw [if_neg hm]
      exact if_congr hiff rfl rfl

end Direct

/-! ## The indirect block -/

/-- The places with the first `j` entries of inode `i` left out. -/
def cutEntries (r : ℕ × Slot → ℕ) (i j : ℕ) (p : ℕ × Slot) : ℕ :=
  match p with
  | (i', .entry m) => if i' = i ∧ m.val < j then 0 else r (i', .entry m)
  | (i', s) => r (i', s)

theorem cutEntries_zero (r : ℕ × Slot → ℕ) (i : ℕ) (p : ℕ × Slot) : cutEntries r i 0 p = r p := by
  rcases p with ⟨j, s⟩
  cases s <;> simp [cutEntries]

theorem cutEntries_succ (r : ℕ × Slot → ℕ) (i : ℕ) (j : Fin nindirect) (p : ℕ × Slot) :
    cutEntries r i (j.val + 1) p = update (cutEntries r i j) (i, .entry j) 0 p := by
  rcases p with ⟨i', s⟩
  cases s with
  | direct m => simp [cutEntries]
  | indirect => simp [cutEntries]
  | entry m =>
    by_cases hp : i' = i ∧ m = j
    · rcases hp with ⟨rfl, rfl⟩
      simp [cutEntries]
    have hne : (i', Slot.entry m) ≠ (i, Slot.entry j) := by simpa using hp
    rw [update_of_ne hne]
    have hiff : (i' = i ∧ m.val < j.val + 1) ↔ (i' = i ∧ m.val < j.val) := by
      rw [Fin.ext_iff] at hp
      omega
    exact if_congr hiff rfl rfl

theorem itruncEntries_spec {r : ℕ × Slot → ℕ} {a : Block} {j : ℕ}
    (ha : ∀ m : Fin nindirect, r (i, .entry m) = a.getInt (4 * m))
    (h : Allocated sb.datastart sb.size (bitAt sb d) (cutEntries r i j)) (hj : j + n = nindirect) :
    ∃ d', itruncEntries sb a n j d = .ok d' ∧ Freed sb d d' ∧
      Allocated sb.datastart sb.size (bitAt sb d') (cutEntries r i nindirect) := by
  induction n generalizing j d with
  | zero =>
    rw [Nat.add_zero] at hj
    exact ⟨d, rfl, Freed.refl sb d, hj ▸ h⟩
  | succ n ih =>
    have hlt : j < nindirect := by omega
    have hcut : cutEntries r i j (i, .entry ⟨j, hlt⟩) = a.getInt (4 * j) := by
      simp only [cutEntries, Nat.lt_irrefl, and_false, if_false]
      exact ha ⟨j, hlt⟩
    have hnext := cutEntries_succ r i ⟨j, hlt⟩
    by_cases hzero : a.getInt (4 * j) = 0
    · -- An empty entry: leaving it out changes nothing.
      have hsame : Allocated sb.datastart sb.size (bitAt sb d) (cutEntries r i (j + 1)) := by
        refine h.congr (fun _ _ => rfl) (fun p => ?_) sb.datastart_le
        rw [hnext p]
        by_cases hp : p = (i, .entry ⟨j, hlt⟩)
        · rw [hp, hcut, hzero]
          simp
        · rw [update_of_ne hp]
      rcases ih (j := j + 1) hsame (by omega) with ⟨d', hrest, hfreed, hall⟩
      refine ⟨d', ?_, hfreed, hall⟩
      simpa [itruncEntries, hzero] using hrest
    · rcases bfree_of_ref h (p := (i, .entry ⟨j, hlt⟩)) (by rw [hcut]; exact hzero) with
        ⟨hok, hfreed1, hrel⟩
      rw [hcut] at hok hfreed1 hrel
      have hsame := hrel.congr (fun _ _ => rfl) hnext sb.datastart_le
      rcases ih (j := j + 1) hsame (by omega) with ⟨d', hrest, hfreed, hall⟩
      refine ⟨d', ?_, hfreed1.trans hfreed, hall⟩
      simp only [itruncEntries, ne_eq, hzero, not_false_iff, if_true, hok, ok_bind]
      exact hrest

theorem itruncIndirect_spec (hi : i < sb.ninodes) (hx : ip.type ≠ 0)
    (hmaps : Maps sb (update D i ip) d) :
    ∃ d' ip', itruncIndirect sb d ip = .ok (d', ip') ∧ Freed sb d d' ∧
      Maps sb (update D i ip') d' ∧ ip' = { ip with addrs := ip'.addrs } ∧
      ∀ m, ip'.addr m = if m = ndirect then 0 else ip.addr m := by
  by_cases hzero : ip.addr ndirect = 0
  · refine ⟨d, ip, by simp [itruncIndirect, hzero], Freed.refl sb d, hmaps, rfl, fun m => ?_⟩
    by_cases hm : m = ndirect
    · simp [hm, hzero]
    · simp [hm]
  have hself : ∀ s, ref sb (update D i ip) d (i, s) = ip.slot d s := ref_update_self hi hx
  have hentries : ∀ m : Fin nindirect, ref sb (update D i ip) d (i, .entry m) =
      (d (ip.addr ndirect)).getInt (4 * m) := by
    intro m
    rw [hself]
    simp [Dinode.slot, hzero]
  have hstart : Allocated sb.datastart sb.size (bitAt sb d)
      (cutEntries (ref sb (update D i ip) d) i 0) :=
    hmaps.congr (fun _ _ => rfl) (cutEntries_zero _ i) sb.datastart_le
  rcases itruncEntries_spec hentries hstart (Nat.zero_add _) with ⟨d1, hloop, hfreed1, hcut⟩
  have hind : cutEntries (ref sb (update D i ip) d) i nindirect (i, .indirect) = ip.addr ndirect := hself .indirect
  rcases bfree_of_ref hcut (p := (i, .indirect)) (by rw [hind]; exact hzero) with ⟨hok, hfreed2, hrel⟩
  rw [hind] at hok hfreed2 hrel
  have haddr := addr_setAddr_zero ip (Nat.lt_succ_self ndirect)
  have hfreed := hfreed1.trans hfreed2
  refine ⟨_, ip.setAddr ndirect 0, ?_, hfreed, ?_, rfl, haddr⟩
  · simp only [itruncIndirect, ne_eq, hzero, not_false_iff, if_true, hloop, hok, ok_bind, pure_eq_ok]
  -- Without the indirect block, the inode refers to its direct blocks only.
  have href : ∀ p, ref sb (update D i (ip.setAddr ndirect 0)) d p =
      update (cutEntries (ref sb (update D i ip) d) i nindirect) (i, .indirect) 0 p := by
    rintro ⟨j, s⟩
    by_cases hj : j = i
    · subst hj
      rw [ref_update_self hi (show (ip.setAddr ndirect 0).type ≠ 0 from hx)]
      cases s with
      | direct m => simp [Dinode.slot, haddr, Nat.ne_of_lt m.isLt, cutEntries, hself]
      | indirect => simp [Dinode.slot, haddr]
      | entry m => simp [Dinode.slot, haddr, cutEntries]
    · rw [ref_update_of_ne hj, update_of_ne (by simp [hj])]
      cases s <;> simp [cutEntries, hj, ref_update_of_ne hj]
  refine hrel.congr (fun _ _ => rfl) (fun p => ?_) sb.datastart_le
  rw [hfreed.ref (fun q hq => ?_), href p]
  have hle := hrel.range q (by rw [← href q]; exact hq)
  rw [href q]
  exact hle.1

/-! ## `itrunc` -/

/-- `itrunc` never panics, and leaves an inode without blocks. -/
theorem itrunc_spec (hi : i < sb.ninodes) (hx : ip.type ≠ 0) (hmaps : Maps sb (update D i ip) d) :
    ∃ d' ip', itrunc sb d i ip = .ok (iupdate sb d' i ip', ip') ∧ Freed sb d d' ∧
      Maps sb (update D i ip') d' ∧ ip' = { ip with size := 0, addrs := ip'.addrs } ∧
      ∀ m, ip'.addr m = 0 := by
  rcases itruncDirect_spec (k := 0) (n := ndirect) hi hx hmaps (by omega) with
    ⟨d1, ip1, hdirect, hfreed1, hmaps1, hkept1, haddr1⟩
  have hx1 : ip1.type ≠ 0 := by
    rw [hkept1]
    exact hx
  rcases itruncIndirect_spec hi hx1 hmaps1 with ⟨d2, ip2, hindirect, hfreed2, hmaps2, hkept2, haddr2⟩
  refine ⟨d2, { ip2 with size := 0 }, ?_, hfreed1.trans hfreed2, hmaps2.setMeta rfl Iff.rfl, ?_, fun m => ?_⟩
  · simp [itrunc, hdirect, hindirect]
  · rw [hkept2, hkept1]
  have haddr : Dinode.addr { ip2 with size := 0 } m = ip2.addr m := rfl
  rw [haddr, haddr2, haddr1]
  by_cases hm : m = ndirect
  · simp [hm]
  by_cases hlt : m < ndirect
  · simp [hlt]
  · -- There are no further addresses in an inode.
    have hout : ¬ m < ndirect + 1 := by omega
    simp [hm, hlt, Dinode.addr, hout]

end Xv6.Fs
