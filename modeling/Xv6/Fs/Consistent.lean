import Xv6.Fs.Content

/-!
# Consistent — files as arrays of bytes

On a consistent file system the block maps agree with the free map and every file has the blocks that
its size calls for.  There `writei` replaces bytes of the array `content` and `readi` reads them, and
neither touches another file.
-/

namespace Xv6.Fs

open Function (update update_apply update_eq_self update_of_ne update_self)

variable {sb : Superblock} {D E : ℕ → Dinode} {d d' : Disk} {ip ip' x : Dinode} {i j off n : ℕ}
  {src : ℕ → UInt8} {r : Io ℕ}

/-- Every block index below `ceil(size/BSIZE)` has a block. -/
def Dinode.Sized (x : Dinode) (d : Disk) : Prop :=
  ∀ k, k * bsize < x.size.toNat → x.blockAt d k ≠ 0

structure Consistent (sb : Superblock) (d : Disk) : Prop where
  maps : Maps sb (din sb d) d
  sized : ∀ i, i < sb.ninodes → (din sb d i).type ≠ 0 → (din sb d i).type ≠ tDev → (din sb d i).Sized d

variable {k : ℕ} {y : Dinode}

/-- The block of a byte of the file. -/
theorem Dinode.Sized.block (h : x.Sized d) (hk : k < x.size.toNat) : x.blockAt d (k / bsize) ≠ 0 :=
  h _ (Nat.lt_of_le_of_lt (Nat.div_mul_le_self k bsize) hk)

theorem Dinode.Sized.size_le (h : x.Sized d) : x.size.toNat ≤ maxfile * bsize := by
  by_contra hlt
  exact absurd (lt_maxfile_of_blockAt (h maxfile (by omega))) (Nat.lt_irrefl _)

theorem Maps.congr_inodes (h : Maps sb D d) (hE : ∀ j, j < sb.ninodes → E j = D j) : Maps sb E d := by
  refine h.congr (fun _ _ => rfl) (fun p => ?_) sb.datastart_le
  rcases p with ⟨j, s⟩
  by_cases hj : j < sb.ninodes
  · simp [ref, hj, hE j hj]
  · simp [ref, hj]

/-! ## What a call of `writei` does -/

/-- The bytes `[off, off + n)` of the array are replaced, and the array is extended if needed. -/
def splice (l : List UInt8) (off : ℕ) (bytes : List UInt8) : List UInt8 :=
  l.take off ++ bytes ++ l.drop (off + bytes.length)

def OthersSame (sb : Superblock) (i : ℕ) (d d' : Disk) : Prop :=
  ∀ j, j < sb.ninodes → j ≠ i → din sb d' j = din sb d j ∧
    ((din sb d j).type ≠ 0 → (din sb d j).type ≠ tDev → (din sb d' j).content d' = (din sb d j).content d)

/-- A successful `writei` on inode `i`. -/
structure Written (sb : Superblock) (i off n : ℕ) (src : ℕ → UInt8) (d : Disk) (ip' : Dinode) (d' : Disk) :
    Prop where
  consistent : Consistent sb d'
  inode : din sb d' i = ip'
  kept : ip' = { din sb d i with size := ip'.size, addrs := ip'.addrs }
  size : ip'.size.toNat = max (din sb d i).size.toNat (off + n)
  /-- Blocks are added only where something is written. -/
  missing : ∀ k, (din sb d i).blockAt d k = 0 → (∀ m, m < n → (off + m) / bsize ≠ k) → ip'.blockAt d' k = 0
  content : ip'.content d' = splice ((din sb d i).content d) off ((List.range n).map src)
  bytes : ∀ k, k < ip'.size.toNat →
    ip'.byteAt d' k = if off ≤ k ∧ k < off + n then src (k - off) else (din sb d i).byteAt d k
  others : OthersSame sb i d d'

attribute [local simp] Dinode.content

theorem length_content : (x.content d).length = x.size.toNat := by
  simp

theorem content_congr (hsize : y.size = x.size) (h : ∀ k, k < x.size.toNat → y.byteAt d' k = x.byteAt d k) :
    y.content d' = x.content d := by
  unfold Dinode.content
  rw [hsize]
  exact List.map_congr_left fun k hk => h k (List.mem_range.1 hk)

/-- The array after the bytes have been written one by one. -/
theorem content_eq_splice (hoff : off ≤ x.size.toNat) (hsize : y.size.toNat = max x.size.toNat (off + n))
    (hin : ∀ k, k < n → y.byteAt d' (off + k) = src k)
    (hout : ∀ k, k < x.size.toNat → k < off ∨ off + n ≤ k → y.byteAt d' k = x.byteAt d k) :
    y.content d' = splice (x.content d) off ((List.range n).map src) := by
  refine List.ext_getElem ?_ fun k hk hk' => ?_
  · simp only [splice, length_content, List.length_append, List.length_take, List.length_drop,
      List.length_map, List.length_range]
    omega
  have hky : k < max x.size.toNat (off + n) := by rwa [length_content, hsize] at hk
  have hleft : (y.content d')[k] = y.byteAt d' k := by simp
  rw [hleft]
  by_cases h₁ : k < off
  · have hright : (splice (x.content d) off ((List.range n).map src))[k] = x.byteAt d k := by
      simp [splice, h₁, Nat.lt_of_lt_of_le h₁ hoff]
    rw [hright]
    exact hout k (by omega) (.inl h₁)
  have hmin : min off x.size.toNat = off := Nat.min_eq_left hoff
  by_cases h2 : k < off + n
  · have hright : (splice (x.content d) off ((List.range n).map src))[k] = src (k - off) := by
      have h3 : k - off < n := by omega
      simp [splice, List.getElem_append, hmin, h₁, h3]
    have hk0 : off + (k - off) = k := by omega
    rw [hright, ← hin (k - off) (by omega), hk0]
  have hright : (splice (x.content d) off ((List.range n).map src))[k] = x.byteAt d k := by
    have h3 : ¬ k - off < n := by omega
    have hk0 : off + n + (k - off - n) = k := by omega
    simp [splice, List.getElem_append, hmin, h₁, h3, hk0]
  rw [hright]
  exact hout k (by omega) (.inr (by omega))

/-! ### The inode block -/

theorem blockAt_congr (h : y.addrs = x.addrs) (d : Disk) (k : ℕ) : y.blockAt d k = x.blockAt d k := by
  have haddr : ∀ m, y.addr m = x.addr m := by simp [Dinode.addr, h]
  cases hk : slotOf k with
  | none => simp [Dinode.blockAt, hk]
  | some s =>
    rw [blockAt_of_slotOf hk, blockAt_of_slotOf hk]
    cases s <;> simp [Dinode.slot, haddr]

theorem byteAt_congr (h : y.addrs = x.addrs) (d : Disk) (k : ℕ) : y.byteAt d k = x.byteAt d k := by
  simp only [Dinode.byteAt, blockAt_congr h d]

theorem blockAt_of_data (hmaps : Maps sb E d) (hdata : ∀ c, sb.datastart ≤ c → d' c = d c)
    (hj : j < sb.ninodes) (halloc : (E j).type ≠ 0) (k : ℕ) : (E j).blockAt d' k = (E j).blockAt d k := by
  cases hk : slotOf k with
  | none => simp [Dinode.blockAt, hk]
  | some s =>
    rw [blockAt_of_slotOf hk, blockAt_of_slotOf hk]
    refine slot_congr (fun hind => hdata _ ?_)
    have href : ref sb E d (j, .indirect) = (E j).addr ndirect := ref_of_alloc hj halloc
    have hrange := hmaps.range (j, .indirect) (by rw [href]; exact hind)
    rw [href] at hrange
    exact hrange.1

theorem byteAt_of_data (hmaps : Maps sb E d) (hdata : ∀ c, sb.datastart ≤ c → d' c = d c) (hj : j < sb.ninodes)
    (halloc : (E j).type ≠ 0) (hk : (E j).blockAt d (k / bsize) ≠ 0) : (E j).byteAt d' k = (E j).byteAt d k := by
  rcases slotOf_isSome (lt_maxfile_of_blockAt hk) with ⟨s, hs⟩
  have href : ref sb E d (j, s) = (E j).blockAt d (k / bsize) := by
    rw [ref_of_alloc hj halloc, blockAt_of_slotOf hs]
  have hrange := hmaps.range (j, s) (by rw [href]; exact hk)
  rw [href] at hrange
  simp only [Dinode.byteAt, blockAt_of_data hmaps hdata hj halloc]
  rw [hdata _ hrange.1]

/-! ### The other files -/

theorem Wrote.blockAt_other (h : Wrote sb D i off n src ip d ip' d') (hj : j < sb.ninodes) (hji : j ≠ i)
    (halloc : (D j).type ≠ 0) (k : ℕ) : (D j).blockAt d' k = (D j).blockAt d k := by
  cases hk : slotOf k with
  | none => simp [Dinode.blockAt, hk]
  | some s =>
    have hsame := h.others j s hji
    rw [ref_update_of_ne hji, ref_update_of_ne hji, ref_of_alloc hj halloc, ref_of_alloc hj halloc] at hsame
    rw [blockAt_of_slotOf hk, blockAt_of_slotOf hk, hsame]

theorem Wrote.byteAt_other (h : Wrote sb D i off n src ip d ip' d') (hj : j < sb.ninodes) (hji : j ≠ i)
    (halloc : (D j).type ≠ 0) (hk : (D j).blockAt d (k / bsize) ≠ 0) : (D j).byteAt d' k = (D j).byteAt d k := by
  rcases slotOf_isSome (lt_maxfile_of_blockAt hk) with ⟨s, hs⟩
  have href : ref sb (update D i ip) d (j, s) = (D j).blockAt d (k / bsize) := by
    rw [ref_update_of_ne hji, ref_of_alloc hj halloc, blockAt_of_slotOf hs]
  have hdata := h.data j s hji (slotOf_isLeaf hs) (by rw [href]; exact hk)
  rw [href] at hdata
  simp only [Dinode.byteAt, h.blockAt_other hj hji halloc, hdata]

/-! ### `writei` -/

/-- The loop of `writei` has made `ip'` and `d'` of the file system `d`; in the end the in-memory inode is
`y` and the disk `d₂`, where the same blocks hold the same bytes. -/
structure Settled (sb : Superblock) (i : ℕ) (d : Disk) (ip' : Dinode) (d' : Disk) (y : Dinode) (d₂ : Disk) :
    Prop where
  inodes : ∀ j, j < sb.ninodes → din sb d₂ j = update (din sb d) i y j
  maps : Maps sb (update (din sb d) i y) d₂
  blockAt : ∀ k, y.blockAt d₂ k = ip'.blockAt d' k
  byteAt : ∀ k, ip'.blockAt d' (k / bsize) ≠ 0 → y.byteAt d₂ k = ip'.byteAt d' k
  blockAt_other : ∀ j, j < sb.ninodes → j ≠ i → (din sb d j).type ≠ 0 →
    ∀ k, (din sb d j).blockAt d₂ k = (din sb d j).blockAt d' k
  byteAt_other : ∀ j, j < sb.ninodes → j ≠ i → (din sb d j).type ≠ 0 →
    ∀ k, (din sb d j).blockAt d' (k / bsize) ≠ 0 → (din sb d j).byteAt d₂ k = (din sb d j).byteAt d' k

section Writei

variable (hc : Consistent sb d) (hi : i < sb.ninodes) (halloc : (din sb d i).type ≠ 0)
  (hdev : (din sb d i).type ≠ tDev)

include hi halloc

/-- The inode goes to disk with a new size. -/
theorem Wrote.settled_iupdate (h : Wrote sb (din sb d) i off n src (din sb d i) d ip' d') (v : UInt32) :
    Settled sb i d ip' d' { ip' with size := v } (iupdate sb d' i { ip' with size := v }) := by
  have htype : ip'.type ≠ 0 := by
    rw [h.kept]
    exact halloc
  have hself : update (din sb d) i ip' i = ip' := update_self ..
  have hother : ∀ j, j ≠ i → update (din sb d) i ip' j = din sb d j := fun j hj =>
    update_of_ne hj ..
  have hself' : (update (din sb d) i ip' i).type ≠ 0 := by rwa [hself]
  have hdata : ∀ c, sb.datastart ≤ c → iupdate sb d' i { ip' with size := v } c = d' c := fun c hc =>
    iupdate_data hi hc
  refine ⟨fun j hj => ?_, (h.maps.setMeta (y := { ip' with size := v }) rfl Iff.rfl).iupdate hi, fun k => ?_, fun k hk => ?_,
    fun j hj hji hj' k => ?_, fun j hj hji hj' k hk => ?_⟩
  · rw [din_iupdate]
    by_cases hji : j = i
    · simp [hji]
    · simp [hji, h.inodes j hj]
  · have hblock := blockAt_of_data h.maps hdata hi hself' k
    rw [hself] at hblock
    exact (blockAt_congr (y := { ip' with size := v }) rfl _ k).trans hblock
  · have hbyte := byteAt_of_data h.maps hdata hi hself' (k := k) (by rwa [hself])
    rw [hself] at hbyte
    exact (byteAt_congr (y := { ip' with size := v }) rfl _ k).trans hbyte
  · have hblock := blockAt_of_data h.maps hdata hj (by rwa [hother j hji]) k
    rwa [hother j hji] at hblock
  · have hbyte := byteAt_of_data h.maps hdata hj (by rwa [hother j hji]) (k := k) (by rwa [hother j hji])
    rwa [hother j hji] at hbyte

omit hi halloc in
theorem Wrote.settled_same (h : Wrote sb (din sb d) i off n src (din sb d i) d ip' d')
    (hsame : ip' = din sb d i) : Settled sb i d ip' d' ip' d' := by
  refine ⟨fun j hj => ?_, h.maps, fun _ => rfl, fun _ _ => rfl, fun _ _ _ _ _ => rfl, fun _ _ _ _ _ _ => rfl⟩
  rw [h.inodes j hj, hsame, update_eq_self]

include hc hdev

theorem Wrote.toWritten {y : Dinode} {d2 : Disk}
    (h : Wrote sb (din sb d) i off n src (din sb d i) d ip' d') (hs : Settled sb i d ip' d' y d2)
    (hoff : off ≤ (din sb d i).size.toNat) (hy : y = { ip' with size := y.size })
    (hsize : y.size.toNat = max (din sb d i).size.toNat (off + n)) : Written sb i off n src d y d2 := by
  have hold : (din sb d i).Sized d := hc.sized i hi halloc hdev
  have hinode : din sb d2 i = y := by
    rw [hs.inodes i hi]
    exact update_self ..
  have hother : ∀ j, j < sb.ninodes → j ≠ i → din sb d2 j = din sb d j := by
    intro j hj hji
    rw [hs.inodes j hj]
    exact update_of_ne hji ..
  have hin : ∀ k, k < n → y.byteAt d2 (off + k) = src k := by
    intro k hk
    rcases h.written k hk with ⟨hblock, hbyte⟩
    rw [hs.byteAt _ hblock, hbyte]
  have hout : ∀ k, k < (din sb d i).size.toNat → k < off ∨ off + n ≤ k → y.byteAt d2 k = (din sb d i).byteAt d k := by
    intro k hk hout
    have hblock := hold.block hk
    rw [hs.byteAt k (by rw [h.mapped _ hblock]; exact hblock), h.rest k hout hblock]
  refine ⟨⟨hs.maps.congr_inodes hs.inodes, fun j hj hj' hjdev => ?_⟩, hinode, ?_, hsize,
    fun k hk hout => (hs.blockAt k).trans (h.missing k hk hout), content_eq_splice hoff hsize hin hout, fun k hk => ?_, fun j hj hji => ?_⟩
  · by_cases hji : j = i
    · subst hji
      rw [hinode]
      intro k hk
      rw [hs.blockAt]
      by_cases hkold : k * bsize < (din sb d j).size.toNat
      · rw [h.mapped k (hold k hkold)]
        exact hold k hkold
      · -- A block beyond the old end begins inside of what was written.
        have hin := (h.written (k * bsize - off) (by omega)).1
        have hidx : off + (k * bsize - off) = k * bsize := by omega
        rwa [hidx, Nat.mul_div_cancel _ (by decide)] at hin
    · rw [hother j hj hji] at hj' hjdev ⊢
      intro k hk
      rw [hs.blockAt_other j hj hji hj', h.blockAt_other hj hji hj']
      exact hc.sized j hj hj' hjdev k hk
  · rw [hy, h.kept]
  · split_ifs with hrange
    · have hk0 : off + (k - off) = k := by omega
      rw [← hin (k - off) (by omega), hk0]
    · exact hout k (by omega) (by omega)
  · refine ⟨hother j hj hji, fun hj' hjdev => ?_⟩
    rw [hother j hj hji]
    refine content_congr rfl fun k hk => ?_
    have hblock := (hc.sized j hj hj' hjdev).block hk
    have hblock' : (din sb d j).blockAt d' (k / bsize) ≠ 0 := by
      rw [h.blockAt_other hj hji hj']
      exact hblock
    rw [hs.byteAt_other j hj hji hj' k hblock', h.byteAt_other hj hji hj' hblock]

/-- The tests at the head of `writei`, without wrap-around. -/
def Fits (x : Dinode) (off n : ℕ) : Prop :=
  off ≤ x.size.toNat ∧ off + n ≤ maxfile * bsize

omit hc hi halloc in
/-- `writei` fails its tests exactly if the range does not fit. -/
theorem writei_eq (src : ℕ → UInt8) (hoff : off < 2 ^ 32) (hn : n < 2 ^ 32) :
    (¬ Fits (din sb d i) off n ∧ writei sb d i (din sb d i) off n src = .ok (.fail, din sb d i, d)) ∨
    (Fits (din sb d i) off n ∧ writei sb d i (din sb d i) off n src = (do
        let (ip, d) ← writeLoop sb n d (din sb d i) off n src
        return (.done n, writeSize sb i (off + n) n ip d))) := by
  have hmax : maxfile * bsize < 2 ^ 32 := by decide
  have hsize : (din sb d i).size.toNat < 2 ^ 32 := UInt32.toNat_lt _
  unfold Fits
  by_cases h₁ : (din sb d i).size.toNat < off ∨ (off + n) % 2 ^ 32 < off
  · refine .inl ⟨by omega, ?_⟩
    simp only [writei, hdev, if_false, h₁, if_true, pure_eq_ok]
  have hsum : (off + n) % 2 ^ 32 = off + n := by omega
  rw [hsum] at h₁
  by_cases h2 : maxfile * bsize < off + n
  · refine .inl ⟨by omega, ?_⟩
    simp only [writei, hdev, if_false, hsum, h₁, h2, if_true, pure_eq_ok]
  · refine .inr ⟨by omega, ?_⟩
    simp only [writei, hdev, if_false, hsum, h₁, h2]

theorem writei_ok (hoff : off < 2 ^ 32) (hn : n < 2 ^ 32)
    (h : writei sb d i (din sb d i) off n src = .ok (r, ip', d')) :
    (Fits (din sb d i) off n ∧ r = .done n ∧ Written sb i off n src d ip' d') ∨
      (¬ Fits (din sb d i) off n ∧ r = .fail ∧ ip' = din sb d i ∧ d' = d) := by
  rcases writei_eq hdev src hoff hn with ⟨hfits, heq⟩ | ⟨hfits, heq⟩
  · rw [heq] at h
    obtain ⟨rfl, rfl, rfl⟩ : .fail = r ∧ din sb d i = ip' ∧ d = d' := by simpa using h
    exact .inr ⟨hfits, rfl, rfl, rfl⟩
  rw [heq] at h
  rcases bind_eq_ok.1 h with ⟨⟨ip1, d1⟩, hloop, hret⟩
  have hmaps : Maps sb (update (din sb d) i (din sb d i)) d := by
    rw [update_eq_self]
    exact hc.maps
  have hwrote := writeLoop_ok hi halloc hmaps (le_refl n) hloop
  have hsize1 : ip1.size = (din sb d i).size := by rw [hwrote.kept]
  obtain ⟨rfl, hpair⟩ : .done n = r ∧ writeSize sb i (off + n) n ip1 d1 = (ip', d') := by simpa using hret
  refine .inl ⟨hfits, rfl, ?_⟩
  unfold writeSize at hpair
  split_ifs at hpair with hgrow
  · obtain ⟨rfl, rfl⟩ : _ = ip' ∧ _ = d' := Prod.mk.inj hpair
    have hlt : off + n < 2 ^ 32 := Nat.lt_of_le_of_lt hfits.2 (by decide)
    refine hwrote.toWritten hc hi halloc hdev (hwrote.settled_iupdate hi halloc _) hfits.1 rfl ?_
    rw [hsize1] at hgrow
    rw [UInt32.toNat_ofNat', Nat.mod_eq_of_lt hlt]
    omega
  obtain ⟨rfl, rfl⟩ : ip1 = ip' ∧ d1 = d' := Prod.mk.inj hpair
  rw [hsize1] at hgrow
  have hle : off + n ≤ (din sb d i).size.toNat := by
    have := hfits.1
    omega
  -- All blocks were there already, so nothing was added and `iupdate` is not missed.
  have hsame : ip1 = din sb d i := by
    refine hwrote.same fun k hk => ?_
    exact (hc.sized i hi halloc hdev).block (by omega)
  refine hwrote.toWritten hc hi halloc hdev (hwrote.settled_same hsame) hfits.1 rfl ?_
  rw [hsize1]
  omega

theorem writei_isOk (src : ℕ → UInt8) (hoff : off < 2 ^ 32) (hn : n < 2 ^ 32)
    (henough : (din sb d i).need d (blocksOf off n) ≤ freeBlocks sb d) :
    ∃ r ip' d', writei sb d i (din sb d i) off n src = .ok (r, ip', d') := by
  rcases writei_eq hdev src hoff hn with ⟨_, heq⟩ | ⟨hfits, heq⟩
  · exact ⟨_, _, _, heq⟩
  have hmaps : Maps sb (update (din sb d) i (din sb d i)) d := by
    rw [update_eq_self]
    exact hc.maps
  rcases writeLoop_isOk n src hi halloc hmaps hfits.2 henough with ⟨⟨ip1, d1⟩, hloop⟩
  rw [heq, hloop]
  exact ⟨_, _, _, rfl⟩

end Writei

/-! ## `readi` -/

theorem take_drop_content (x : Dinode) (d : Disk) (off n : ℕ) : ((x.content d).drop off).take n =
      (List.range (min n (x.size.toNat - off))).map (fun k => x.byteAt d (off + k)) := by
  refine List.ext_getElem ?_ fun k hk hk' => ?_
  · simp
  · simp

theorem readi_of_blocks (sb : Superblock) (hdev : ip.type ≠ tDev) (hoff : off ≤ ip.size.toNat)
    (hsum : off + n < 2 ^ 32)
    (hblocks : ∀ k, off ≤ k → k < off + n → k < ip.size.toNat → ip.blockAt d (k / bsize) ≠ 0) :
    readi sb d ip off n = .ok (.done (((ip.content d).drop off).take n), ip, d) := by
  have hmod : (off + n) % 2 ^ 32 = off + n := Nat.mod_eq_of_lt hsum
  have h₁ : ¬ (ip.size.toNat < off ∨ off + n < off) := by omega
  have hcount : (if ip.size.toNat < off + n then ip.size.toNat - off else n) = min n (ip.size.toNat - off) := by
    split_ifs
    · omega
    · omega
  have hloop := readLoop_eq sb (le_refl (min n (ip.size.toNat - off))) fun k hk =>
    hblocks (off + k) (by omega) (by omega) (by omega)
  simp only [readi, hdev, if_false, hmod, h₁, hcount, hloop, ok_bind, pure_eq_ok, take_drop_content]

theorem readi_eq (sb : Superblock) (hdev : ip.type ≠ tDev) (hsized : ip.Sized d) (hoff : off ≤ ip.size.toNat)
    (hsum : off + n < 2 ^ 32) :
    readi sb d ip off n = .ok (.done (((ip.content d).drop off).take n), ip, d) :=
  readi_of_blocks sb hdev hoff hsum fun _ _ _ hk => hsized.block hk

/-- Whatever is asked of it, `readi` changes nothing: it never makes `bmap` allocate. -/
theorem readi_unchanged (hc : Consistent sb d) (hi : i < sb.ninodes) (halloc : (din sb d i).type ≠ 0)
    (hoff : off < 2 ^ 32) (hn : n < 2 ^ 32) : ∃ r, readi sb d (din sb d i) off n = .ok (r, din sb d i, d) := by
  by_cases hdev : (din sb d i).type = tDev
  · exact ⟨.device, by simp only [readi, hdev, if_true, pure_eq_ok]⟩
  · by_cases hfail : (din sb d i).size.toNat < off ∨ (off + n) % 2 ^ 32 < off
    · exact ⟨.fail, by simp only [readi, hdev, if_false, hfail, if_true, pure_eq_ok]⟩
    · exact ⟨_, readi_eq sb hdev (hc.sized i hi halloc hdev) (by omega) (by omega)⟩

/-! ## Steps that leave the data blocks alone -/

/-- What may happen to the inode in hand: it is free or empty now, or nothing that matters for its
contents has changed. -/
def Harmless (x x' : Dinode) : Prop :=
  x'.type = 0 ∨ x'.size = 0 ∨ (x'.type = x.type ∧ x'.size = x.size ∧ x'.addrs = x.addrs)

/-- An inode with the same addresses has the same bytes. -/
theorem Consistent.byteAt_of_data (hc : Consistent sb d) (hdata : ∀ c, sb.datastart ≤ c → d' c = d c)
    (hj : j < sb.ninodes) (htype : (din sb d j).type ≠ 0) (hdev : (din sb d j).type ≠ tDev)
    (haddrs : x.addrs = (din sb d j).addrs) (hk : k < (din sb d j).size.toNat) :
    x.byteAt d' k = (din sb d j).byteAt d k := by
  rw [byteAt_congr haddrs]
  exact Fs.byteAt_of_data hc.maps hdata hj htype ((hc.sized j hj htype hdev).block hk)

theorem Consistent.of_data (hc : Consistent sb d) (hdata : ∀ c, sb.datastart ≤ c → d' c = d c)
    (hinodes : ∀ j, j < sb.ninodes → j ≠ i → din sb d' j = din sb d j) (hmaps : Maps sb (din sb d') d')
    (hi : Harmless (din sb d i) (din sb d' i)) : Consistent sb d' ∧ OthersSame sb i d d' := by
  refine ⟨⟨hmaps, fun j hj htype hdev k hk => ?_⟩, fun j hj hji => ?_⟩
  · have hcases : Harmless (din sb d j) (din sb d' j) := by
      by_cases hji : j = i
      · exact hji ▸ hi
      · exact .inr (.inr (by simp [hinodes j hj hji]))
    rcases hcases with hfree | hempty | ⟨htype', hsize, haddrs⟩
    · exact absurd hfree htype
    · simp [hempty] at hk
    · rw [htype'] at htype hdev
      rw [blockAt_congr haddrs, blockAt_of_data hc.maps hdata hj htype]
      exact hc.sized j hj htype hdev k (hsize ▸ hk)
  · have hsame := hinodes j hj hji
    refine ⟨hsame, fun htype hdev => content_congr (by rw [hsame]) fun k hk => ?_⟩
    exact hc.byteAt_of_data hdata hj htype hdev (by rw [hsame]) hk

theorem Maps.setEmpty (h : Maps sb D d) (hold : ∀ p, ref sb D d (i, p) = 0) (hnew : ∀ m, x.addr m = 0) :
    Maps sb (update D i x) d := by
  have hslot : ∀ p, x.slot d p = 0 := by
    intro p
    cases p <;> simp [Dinode.slot, hnew]
  refine h.congr (fun _ _ => rfl) (fun p => ?_) sb.datastart_le
  rcases p with ⟨j, p⟩
  by_cases hj : j = i
  · subst hj
    rw [hold p]
    simp [ref, hslot]
  · rw [ref_update_of_ne hj]

theorem Consistent.maps_alloc (hc : Consistent sb d) (hi : i < sb.ninodes) (htype : (din sb d i).type = 0)
    (hx : ∀ m, x.addr m = 0) : Maps sb (din sb (iupdate sb d i x)) (iupdate sb d i x) := by
  have hset := hc.maps.setEmpty (i := i) (fun p => by simp [ref, htype]) hx
  refine (hset.iupdate hi).congr_inodes fun j _ => ?_
  rw [din_iupdate]

theorem Consistent.alloc (hc : Consistent sb d) (hi : i < sb.ninodes) (htype : (din sb d i).type = 0)
    (hsize : x.size = 0) (hx : ∀ m, x.addr m = 0) :
    Consistent sb (iupdate sb d i x) ∧ OthersSame sb i d (iupdate sb d i x) := by
  refine hc.of_data (fun c hdata => iupdate_data hi hdata) (fun j _ hji => din_iupdate_cases hji)
    (hc.maps_alloc hi htype hx) (.inr (.inl ?_))
  rw [din_iupdate_self]
  exact hsize

/-! ## Files are arrays of bytes -/

/-- Two inodes, and data blocks 4 to 7. -/
def smallSb : Superblock :=
  { size := 8
    nblocks := 4
    ninodes := 2
    nlog := 0
    logstart := 2
    inodestart := 2
    bmapstart := 3
    log_le := Nat.le_add_right 2 0
    inode_le := by decide
    bmap_le := by decide
    data_le := by decide
    ninodes_le := by decide
    size_lt := by decide }

def smallInode (type : UInt16) : Disk :=
  iupdate smallSb (fun _ => Block.zero) 1 { Dinode.zero with type := type, nlink := 1 }

def smallDisk (type : UInt16) : Disk :=
  markUsed smallSb (markUsed smallSb (markUsed smallSb (markUsed smallSb (smallInode type) 0) 1) 2) 3

theorem ref_of_empty (hempty : ∀ i, i < sb.ninodes → (din sb d i).addrs = Dinode.zero.addrs) (p : ℕ × Slot) :
    ref sb (din sb d) d p = 0 := by
  rcases p with ⟨j, s⟩
  by_cases hj : j < sb.ninodes
  · have haddr : ∀ k, (din sb d j).addr k = 0 := by
      intro k
      have hzero : (din sb d j).addr k = Dinode.zero.addr k := by simp [Dinode.addr, hempty j hj]
      rw [hzero, Dinode.addr_zero]
    have hslot : (din sb d j).slot d s = 0 := by cases s <;> simp [Dinode.slot, haddr]
    simp [ref, hslot]
  · simp [ref, hj]

/-- No inode has a block or a size, and the free map says so. -/
theorem consistent_of_empty (hempty : ∀ i, i < sb.ninodes → (din sb d i).addrs = Dinode.zero.addrs ∧
      (din sb d i).size = 0)
    (hbits : ∀ b, b < sb.size → bitAt sb d b = decide (b < sb.datastart)) : Consistent sb d := by
  have href := ref_of_empty fun i hi => (hempty i hi).1
  refine ⟨⟨sb.datastart_pos, fun p hp => absurd (href p) hp, fun p _ hp => absurd (href p) hp,
    fun b hb hs => ?_, fun b hb => ?_⟩, fun i hi _ _ k hk => ?_⟩
  · have hb0 : b ≠ 0 := by have := sb.datastart_pos; omega
    have hnone : ¬ ∃ p, ref sb (din sb d) d p = b := by
      rintro ⟨p, hp⟩
      exact hb0 (hp.symm.trans (href p))
    simp [hbits b hs, Nat.not_lt.2 hb, hnone]
  · simp [hbits b (Nat.lt_of_lt_of_le hb sb.datastart_le), hb]
  · simp [(hempty i hi).2] at hk

theorem din_smallInode (type : UInt16) : din smallSb (smallInode type) i =
      if i = 1 then { Dinode.zero with type := type, nlink := 1 } else Dinode.zero := by
  rw [smallInode, din_iupdate]
  by_cases h1 : i = 1
  · simp [h1]
  · simp [h1, din]

theorem bitAt_smallInode (type : UInt16) (b : ℕ) : bitAt smallSb (smallInode type) b = false := by
  rw [smallInode, bitAt_iupdate (by decide)]
  exact Block.bit_zero

theorem din_smallDisk (type : UInt16) (hi : i < 2) :
    din smallSb (smallDisk type) i = din smallSb (smallInode type) i := by
  have hlt : i < smallSb.ninodes := hi
  simp only [smallDisk, markUsed, din_write_bmap hlt]

theorem bitAt_smallDisk (type : UInt16) {b : ℕ} (hb : b < 8) : bitAt smallSb (smallDisk type) b = decide (b < 4) := by
  simp only [smallDisk, bitAt_markUsed, update_apply, bitAt_smallInode]
  interval_cases b <;> rfl

theorem smallInode_empty (type : UInt16) (i : ℕ) :
    (din smallSb (smallInode type) i).addrs = Dinode.zero.addrs ∧ (din smallSb (smallInode type) i).size = 0 := by
  rw [din_smallInode]
  split_ifs
  · exact ⟨rfl, rfl⟩
  · exact ⟨rfl, rfl⟩

theorem consistent_smallDisk (type : UInt16) : Consistent smallSb (smallDisk type) := by
  refine consistent_of_empty (fun i hi => ?_) fun b hb => bitAt_smallDisk type hb
  rw [din_smallDisk type hi]
  exact smallInode_empty type i

theorem freeBlocks_smallDisk (type : UInt16) : 4 ≤ freeBlocks smallSb (smallDisk type) := by
  have hcount : freeBlocks smallSb (smallDisk type) = Common.freeCount 8 (fun b => decide (b < 4)) :=
    Common.freeCount_congr fun b hb => bitAt_smallDisk type hb
  rw [hcount]
  decide

end Xv6.Fs
