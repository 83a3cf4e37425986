import Xv6.Fs.Bmap

/-!
# Content — `readi` and `writei` on the bytes of a file

To its users an inode is an array of bytes.  `byteAt` finds byte `k` through the block map, `content` is
the whole array.  Both loops go block by block; `Wrote` says what a stretch of the writing loop has
done, and stretches compose (`Wrote.trans`), so that one chunk is all that has to be looked at.
-/

namespace Xv6.Fs

open Function (update update_of_ne)

/-! ## The code -/

/-- What `readi` and `writei` return: a count and, for `readi`, the bytes; `device` when the call goes to
`devsw[ip->major]`. -/
inductive Io (α : Type)
  | device
  | fail
  | done (a : α)
  deriving DecidableEq

/-- The loop of `readi`, with `n` bytes still to read; each turn reads at least one, so that `n` turns are
enough. -/
def readLoop (sb : Superblock) : ℕ → Disk → Dinode → ℕ → ℕ → Except Panic (List UInt8 × Dinode × Disk)
  | 0, d, ip, _, _ => return ([], ip, d)
  | turns + 1, d, ip, off, n =>
    if 0 < n then do
      let (b, ip, d) ← bmap sb d ip (off / bsize)
      let m := min n (bsize - off % bsize)
      let (rest, ip, d') ← readLoop sb turns d ip (off + m) (n - m)
      return ((List.range m).map (fun k => (d b).get (off % bsize + k)) ++ rest, ip, d')
    else return ([], ip, d)

def readi (sb : Superblock) (d : Disk) (ip : Dinode) (off n : ℕ) :
    Except Panic (Io (List UInt8) × Dinode × Disk) :=
  if ip.type = tDev then return (.device, ip, d)
  else if ip.size.toNat < off ∨ (off + n) % 2 ^ 32 < off then return (.fail, ip, d)
  else do
    let n := if ip.size.toNat < (off + n) % 2 ^ 32 then ip.size.toNat - off else n
    let (bytes, ip, d) ← readLoop sb n d ip off n
    return (.done bytes, ip, d)

def writeLoop (sb : Superblock) : ℕ → Disk → Dinode → ℕ → ℕ → (ℕ → UInt8) → Except Panic (Dinode × Disk)
  | 0, d, ip, _, _, _ => return (ip, d)
  | turns + 1, d, ip, off, n, src =>
    if 0 < n then do
      let (b, ip, d) ← bmap sb d ip (off / bsize)
      let m := min n (bsize - off % bsize)
      let d := update d b ((d b).copyIn (off % bsize) m src)
      writeLoop sb turns d ip (off + m) (n - m) (fun k => src (m + k))
    else return (ip, d)

/-- `if(n > 0 && off > ip->size){ ip->size = off; iupdate(ip); }`, where `off` has moved to the end of what
was written. -/
def writeSize (sb : Superblock) (i off n : ℕ) (ip : Dinode) (d : Disk) : Dinode × Disk :=
  if 0 < n ∧ ip.size.toNat < off then
    ({ ip with size := UInt32.ofNat off }, iupdate sb d i { ip with size := UInt32.ofNat off })
  else (ip, d)

def writei (sb : Superblock) (d : Disk) (i : ℕ) (ip : Dinode) (off n : ℕ) (src : ℕ → UInt8) :
    Except Panic (Io ℕ × Dinode × Disk) :=
  if ip.type = tDev then return (.device, ip, d)
  else if ip.size.toNat < off ∨ (off + n) % 2 ^ 32 < off then return (.fail, ip, d)
  else if maxfile * bsize < (off + n) % 2 ^ 32 then return (.fail, ip, d)
  else do
    let (ip, d) ← writeLoop sb n d ip off n src
    return (.done n, writeSize sb i (off + n) n ip d)

theorem writeLoop_returns (sb : Superblock) (turns : ℕ) (d : Disk) (ip : Dinode) (off n : ℕ)
    (src : ℕ → UInt8) : Returns (writeLoop sb turns d ip off n src) fun _ => True := by
  induction turns generalizing d ip off n src with
  | zero => exact .ok trivial
  | succ turns ih =>
    simp only [writeLoop]
    split_ifs
    · exact (bmap_returns _).bind fun _ _ => ih _ _ _ _ _
    · exact .ok trivial

theorem writei_returns (sb : Superblock) (d : Disk) (i : ℕ) (ip : Dinode) (off n : ℕ) (src : ℕ → UInt8) :
    Returns (writei sb d i ip off n src) fun _ => True := by
  unfold writei
  split_ifs
  · exact .ok trivial
  · exact .ok trivial
  · exact .ok trivial
  · exact (writeLoop_returns sb n d ip off n src).bind fun _ _ => .ok trivial

/-! ## The bytes of a file -/

def Dinode.byteAt (x : Dinode) (d : Disk) (k : ℕ) : UInt8 :=
  (d (x.blockAt d (k / bsize))).get k

def Dinode.content (x : Dinode) (d : Disk) : List UInt8 :=
  (List.range x.size.toNat).map (x.byteAt d)

variable {sb : Superblock} {D : ℕ → Dinode} {d d' d1 : Disk} {ip ip' ip1 : Dinode} {i off n m b turns : ℕ}
  {src : ℕ → UInt8}

/-! ## Reading -/

/-- The part of a chunk that is in the block of its first byte. -/
theorem chunk_block {k : ℕ} (hm : m ≤ bsize - off % bsize) (hk : k < m) :
    (off + k) / bsize = off / bsize ∧ (off + k) % bsize = off % bsize + k := by
  unfold bsize at *
  omega

theorem Block.get_congr (v : Block) {j k : ℕ} (h : j % bsize = k % bsize) : v.get j = v.get k := by
  simp [Block.get, h]

theorem map_range_split (f : ℕ → UInt8) (hm : m ≤ n) : (List.range n).map (fun k => f (off + k)) =
      (List.range m).map (fun k => f (off + k)) ++ (List.range (n - m)).map (fun k => f (off + m + k)) := by
  have hn : n = m + (n - m) := by omega
  conv_lhs => rw [hn, List.range_add, List.map_append, List.map_map]
  congr 1
  refine List.map_congr_left fun k _ => ?_
  simp [Nat.add_assoc]

theorem chunk_pos (off : ℕ) (hn : 0 < n) : 0 < min n (bsize - off % bsize) := by
  have := Nat.mod_lt off (by decide : 0 < bsize)
  omega

theorem readLoop_eq (sb : Superblock) (hturns : n ≤ turns) (h : ∀ k, k < n → ip.blockAt d ((off + k) / bsize) ≠ 0) :
    readLoop sb turns d ip off n = .ok ((List.range n).map (fun k => ip.byteAt d (off + k)), ip, d) := by
  induction turns generalizing off n with
  | zero =>
    have hn : n = 0 := Nat.le_zero.1 hturns
    subst hn
    rfl
  | succ turns ih =>
    by_cases hpos : 0 < n
    · have hfirst : ip.blockAt d (off / bsize) ≠ 0 := by simpa using h 0 hpos
      have hm := chunk_pos off hpos
      have hmle : min n (bsize - off % bsize) ≤ bsize - off % bsize := Nat.min_le_right _ _
      have hmn : min n (bsize - off % bsize) ≤ n := Nat.min_le_left _ _
      generalize hmdef : min n (bsize - off % bsize) = m at hm hmle hmn
      have hthere : ∀ k, k < n - m → ip.blockAt d ((off + m + k) / bsize) ≠ 0 := by
        intro k hk
        rw [Nat.add_assoc]
        exact h (m + k) (by omega)
      have hrest := ih (by omega : n - m ≤ turns) hthere
      have hchunk : (List.range m).map (fun k => (d (ip.blockAt d (off / bsize))).get (off % bsize + k)) =
          (List.range m).map (fun k => ip.byteAt d (off + k)) := by
        refine List.map_congr_left fun k hk => ?_
        rcases chunk_block hmle (List.mem_range.1 hk) with ⟨hdiv, hmod⟩
        have hbyte : ip.byteAt d (off + k) = (d (ip.blockAt d (off / bsize))).get (off + k) := by
          simp only [Dinode.byteAt, hdiv]
        rw [hbyte]
        refine Block.get_congr _ ?_
        rw [hmod, ← hmod, Nat.mod_mod, hmod]
      simp only [readLoop, hpos, if_true, bmap_of_blockAt hfirst, ok_bind, hmdef, hrest, pure_eq_ok]
      rw [map_range_split _ hmn, hchunk]
    · have hn : n = 0 := by omega
      subst hn
      rfl

/-! ## Writing -/

/-- A stretch of the writing loop: the bytes `[off, off + n)` of inode `i` are now those of `src`. -/
structure Wrote (sb : Superblock) (D : ℕ → Dinode) (i off n : ℕ) (src : ℕ → UInt8) (ip : Dinode) (d : Disk)
    (ip' : Dinode) (d' : Disk) : Prop where
  maps : Maps sb (update D i ip') d'
  kept : ip' = { ip with addrs := ip'.addrs }
  inodes : ∀ j, j < sb.ninodes → din sb d' j = din sb d j
  others : ∀ j s, j ≠ i →
    ref sb (update D i ip') d' (j, s) = ref sb (update D i ip) d (j, s)
  /-- The data blocks of the other inodes keep their content. -/
  data : ∀ j s, j ≠ i → s.isLeaf = true → ref sb (update D i ip) d (j, s) ≠ 0 →
    d' (ref sb (update D i ip) d (j, s)) = d (ref sb (update D i ip) d (j, s))
  mapped : ∀ k, ip.blockAt d k ≠ 0 → ip'.blockAt d' k = ip.blockAt d k
  /-- Blocks are added only where something is written. -/
  missing : ∀ k, ip.blockAt d k = 0 → (∀ m, m < n → (off + m) / bsize ≠ k) → ip'.blockAt d' k = 0
  written : ∀ k, k < n → ip'.blockAt d' ((off + k) / bsize) ≠ 0 ∧ ip'.byteAt d' (off + k) = src k
  rest : ∀ k, k < off ∨ off + n ≤ k → ip.blockAt d (k / bsize) ≠ 0 → ip'.byteAt d' k = ip.byteAt d k
  /-- Without a new block the in-memory inode stays as it was. -/
  same : (∀ k, k < n → ip.blockAt d ((off + k) / bsize) ≠ 0) → ip' = ip

namespace Wrote

theorem refl (hmaps : Maps sb (update D i ip) d) : Wrote sb D i off 0 src ip d ip d where
  maps := hmaps
  kept := rfl
  inodes _ _ := rfl
  others _ _ _ := rfl
  data _ _ _ _ _ := rfl
  mapped _ _ := rfl
  missing _ hk _ := hk
  written k hk := absurd hk (Nat.not_lt_zero k)
  rest _ _ _ := rfl
  same _ := rfl

theorem trans (h1 : Wrote sb D i off m src ip d ip1 d1)
    (h2 : Wrote sb D i (off + m) n (fun k => src (m + k)) ip1 d1 ip' d') :
    Wrote sb D i off (m + n) src ip d ip' d' := by
  have hmapped : ∀ k, ip.blockAt d k ≠ 0 → ip1.blockAt d1 k ≠ 0 := by
    intro k hk
    rw [h1.mapped k hk]
    exact hk
  refine ⟨h2.maps, ?_, fun j hj => (h2.inodes j hj).trans (h1.inodes j hj),
    fun j s hj => (h2.others j s hj).trans (h1.others j s hj), fun j s hj hs href => ?_,
    fun k hk => (h2.mapped k (hmapped k hk)).trans (h1.mapped k hk), fun k hk hout => ?_, fun k hk => ?_,
    fun k hk hne => ?_, fun hall => ?_⟩
  · rw [h2.kept, h1.kept]
  · have hsame := h1.others j s hj
    have hdata := h2.data j s hj hs (by rw [hsame]; exact href)
    rw [hsame] at hdata
    rw [hdata, h1.data j s hj hs href]
  · refine h2.missing k (h1.missing k hk fun q hq => hout q (by omega)) fun q hq => ?_
    rw [Nat.add_assoc]
    exact hout (m + q) (by omega)
  · by_cases hkm : k < m
    · rcases h1.written k hkm with ⟨hblock, hbyte⟩
      refine ⟨?_, ?_⟩
      · rw [h2.mapped _ hblock]
        exact hblock
      · rw [h2.rest (off + k) (.inl (by omega)) hblock, hbyte]
    have hk' := h2.written (k - m) (by omega)
    have hidx : off + m + (k - m) = off + k := by omega
    have hsrc : m + (k - m) = k := by omega
    rw [hidx, hsrc] at hk'
    exact hk'
  · rw [h2.rest k (by omega) (hmapped _ hne), h1.rest k (by omega) hne]
  · have hfirst : ip1 = ip := h1.same fun k hk => hall k (by omega)
    rw [← hfirst]
    refine h2.same fun k hk => hmapped _ ?_
    rw [Nat.add_assoc]
    exact hall (m + k) (by omega)

end Wrote

/-- A write to a data block that some file holds: block maps and free map stay as they are. -/
theorem ref_write_leaf {E : ℕ → Dinode} {p : ℕ × Slot} (v : Block) (hmaps : Maps sb E d)
    (hleaf : p.2.isLeaf = true) (q : ℕ × Slot) :
    ref sb E (update d (ref sb E d p) v) q = ref sb E d q := by
  rcases q with ⟨j, s⟩
  by_cases halloc : j < sb.ninodes ∧ (E j).type ≠ 0
  · rw [ref_of_alloc halloc.1 halloc.2, ref_of_alloc halloc.1 halloc.2]
    refine slot_congr (fun hind => update_of_ne (fun heq => ?_) _ _)
    -- An indirect block is not a data block of anybody.
    have href : ref sb E d (j, .indirect) = (E j).addr ndirect := ref_of_alloc halloc.1 halloc.2
    have hpq := hmaps.inj (j, .indirect) p (by rw [href]; exact hind) (href.trans heq)
    rw [← hpq] at hleaf
    cases hleaf
  · simp [ref, halloc]

theorem maps_write_leaf {E : ℕ → Dinode} {p : ℕ × Slot} (v : Block) (hmaps : Maps sb E d)
    (hleaf : p.2.isLeaf = true) (hp : ref sb E d p ≠ 0) :
    Maps sb E (update d (ref sb E d p) v) :=
  hmaps.congr (fun _ hc => bitAt_write_data hc (hmaps.range p hp).1) (ref_write_leaf v hmaps hleaf)
    sb.datastart_le

theorem get_copyIn (v : Block) (o : ℕ) (k : ℕ) : (v.copyIn o m src).get k =
      if o ≤ k % bsize ∧ k % bsize < o + m then src (k % bsize - o) else v.get k :=
  rfl

theorem Bmapped.slot (hi : i < sb.ninodes) (hx : ip.type ≠ 0) (h : Bmapped sb D i n b ip d ip1 d1) :
    ∃ s, slotOf n = some s ∧ ref sb (update D i ip1) d1 (i, s) = b := by
  have hx1 : ip1.type ≠ 0 := by
    rw [h.kept]
    exact hx
  have hb : ip1.blockAt d1 n ≠ 0 := by
    rw [h.block]
    exact h.pos
  rcases slotOf_isSome (lt_maxfile_of_blockAt hb) with ⟨s, hs⟩
  refine ⟨s, hs, ?_⟩
  rw [ref_update_self hi hx1, ← blockAt_of_slotOf hs, h.block]

theorem Bmapped.blockAt_write (hi : i < sb.ninodes) (hx : ip.type ≠ 0)
    (h : Bmapped sb D i n b ip d ip1 d1) (v : Block) (k : ℕ) :
    ip1.blockAt (update d1 b v) k = ip1.blockAt d1 k := by
  have hx1 : ip1.type ≠ 0 := by
    rw [h.kept]
    exact hx
  rcases h.slot hi hx with ⟨s, hs, href⟩
  cases hk : slotOf k with
  | none => simp [Dinode.blockAt, hk]
  | some s' =>
    have hsame := ref_write_leaf v h.maps (p := (i, s)) (slotOf_isLeaf hs) (i, s')
    rw [href, ref_update_self hi hx1, ref_update_self hi hx1] at hsame
    rw [blockAt_of_slotOf hk, blockAt_of_slotOf hk, hsame]

theorem Bmapped.wrote (hi : i < sb.ninodes) (hx : ip.type ≠ 0)
    (h : Bmapped sb D i (off / bsize) b ip d ip1 d1) (src : ℕ → UInt8) (hm : 0 < m) (hchunk : m ≤ bsize - off % bsize) :
    Wrote sb D i off m src ip d ip1 (update d1 b ((d1 b).copyIn (off % bsize) m src)) := by
  have hx1 : ip1.type ≠ 0 := by
    rw [h.kept]
    exact hx
  rcases h.slot hi hx with ⟨s, hs, href⟩
  have hleaf := slotOf_isLeaf hs
  have hrefs := ref_write_leaf ((d1 b).copyIn (off % bsize) m src) h.maps (p := (i, s)) hleaf
  have hmaps := maps_write_leaf ((d1 b).copyIn (off % bsize) m src) h.maps (p := (i, s)) hleaf
    (by rw [href]; exact h.pos)
  have hblocks := h.blockAt_write hi hx ((d1 b).copyIn (off % bsize) m src)
  rw [href] at hrefs hmaps
  generalize hd2 : update d1 b ((d1 b).copyIn (off % bsize) m src) = d2 at hrefs hmaps hblocks ⊢
  have hd₂b : d2 b = (d1 b).copyIn (off % bsize) m src := by simp [← hd2]
  have hd₂ne : ∀ c, c ≠ b → d2 c = d1 c := fun c hc => by simp [← hd2, hc]
  have hmapped : ∀ k, ip.blockAt d k ≠ 0 → ip1.blockAt d2 k = ip.blockAt d k := by
    intro k hk
    rw [hblocks]
    by_cases hkn : k = off / bsize
    · subst hkn
      rcases h.unchanged hk with ⟨rfl, rfl⟩
      rfl
    · exact h.blocks k hkn
  refine ⟨hmaps, h.kept, fun j hj => ?_, fun j s' hj => (hrefs (j, s')).trans (h.others j s' hj),
    fun j s' hj hleaf' hne => ?_, hmapped, fun k hk hout => ?_, fun k hk => ?_, fun k hk hne => ?_,
    fun hall => ?_⟩
  · have hrange := h.maps.range (i, s) (by rw [href]; exact h.pos)
    rw [href] at hrange
    rw [← hd2, din_write_data hj hrange.1, h.inodes j hj]
  · have hcb : ref sb (update D i ip) d (j, s') ≠ b := by
      intro heq
      have hother := h.others j s' hj
      have hpair := h.maps.inj (j, s') (i, s) (by rw [hother]; exact hne) (by rw [hother, heq, href])
      exact hj (congrArg Prod.fst hpair)
    rw [hd₂ne _ hcb, h.data (j, s') hleaf' hne]
  · have hkn : k ≠ off / bsize := fun heq => hout 0 hm (by simpa using heq.symm)
    rw [hblocks, h.blocks k hkn, hk]
  · rcases chunk_block hchunk hk with ⟨hdiv, hmod⟩
    have hblock : ip1.blockAt d2 ((off + k) / bsize) = b := by rw [hdiv, hblocks, h.block]
    refine ⟨by rw [hblock]; exact h.pos, ?_⟩
    simp only [Dinode.byteAt, hblock, hd₂b]
    rw [get_copyIn, hmod, if_pos (by omega)]
    congr 1
    omega
  · by_cases hkn : k / bsize = off / bsize
    · -- Another byte of the block that was written; then the block was there before.
      have hold : ip.blockAt d (off / bsize) ≠ 0 := hkn ▸ hne
      rcases h.unchanged hold with ⟨rfl, rfl⟩
      have hblock : ip1.blockAt d2 (k / bsize) = b := by rw [hkn, hblocks, h.block]
      have hblock' : ip1.blockAt d1 (k / bsize) = b := by rw [hkn, h.block]
      simp only [Dinode.byteAt, hblock, hblock', hd₂b]
      have hout : ¬ (off % bsize ≤ k % bsize ∧ k % bsize < off % bsize + m) := by
        have hk1 := Nat.div_add_mod k bsize
        have hoff := Nat.div_add_mod off bsize
        rw [hkn] at hk1
        omega
      rw [get_copyIn, if_neg hout]
    rcases slotOf_isSome (lt_maxfile_of_blockAt hne) with ⟨s', hs'⟩
    have hsame : ip1.blockAt d2 (k / bsize) = ip.blockAt d (k / bsize) := hmapped _ hne
    have hc : ref sb (update D i ip) d (i, s') = ip.blockAt d (k / bsize) := by
      rw [ref_update_self hi hx, blockAt_of_slotOf hs']
    have hcb : ip.blockAt d (k / bsize) ≠ b := by
      intro heq
      have hc1 : ref sb (update D i ip1) d1 (i, s') = b := by
        rw [ref_update_self hi hx1, ← blockAt_of_slotOf hs', ← hblocks, hsame, heq]
      have hpair := h.maps.inj (i, s') (i, s) (by rw [hc1]; exact h.pos) (hc1.trans href.symm)
      have hss : s' = s := congrArg Prod.snd hpair
      exact hkn (slotOf_inj hs (hss ▸ hs'))
    have hdata := h.data (i, s') (slotOf_isLeaf hs') (by rw [hc]; exact hne)
    rw [hc] at hdata
    simp only [Dinode.byteAt, hsame]
    rw [hd₂ne _ hcb, hdata]
  · have hold : ip.blockAt d (off / bsize) ≠ 0 := by simpa using hall 0 hm
    exact (h.unchanged hold).1

theorem writeLoop_ok (hi : i < sb.ninodes) (hx : ip.type ≠ 0) (hmaps : Maps sb (update D i ip) d)
    (hturns : n ≤ turns) (h : writeLoop sb turns d ip off n src = .ok (ip', d')) :
    Wrote sb D i off n src ip d ip' d' := by
  induction turns generalizing ip d off n src with
  | zero =>
    have hn : n = 0 := Nat.le_zero.1 hturns
    subst hn
    obtain ⟨rfl, rfl⟩ : ip = ip' ∧ d = d' := by simpa [writeLoop] using h
    exact Wrote.refl hmaps
  | succ turns ih =>
    by_cases hpos : 0 < n
    · simp only [writeLoop, hpos, if_true] at h
      rcases bind_eq_ok.1 h with ⟨⟨b, ip1, d1⟩, hbmap, hrest⟩
      have hb := bmap_ok hi hx hmaps hbmap
      have hwrote := hb.wrote hi hx src (chunk_pos off hpos) (Nat.min_le_right n _)
      have hx1 : ip1.type ≠ 0 := by
        rw [hb.kept]
        exact hx
      have hm := chunk_pos off hpos
      have hnext := ih hx1 hwrote.maps (by omega) hrest
      have hall := hwrote.trans hnext
      have hsum : min n (bsize - off % bsize) + (n - min n (bsize - off % bsize)) = n := by omega
      rwa [hsum] at hall
    · have hn : n = 0 := by omega
      subst hn
      obtain ⟨rfl, rfl⟩ : ip = ip' ∧ d = d' := by simpa [writeLoop] using h
      exact Wrote.refl hmaps

/-! ## Enough free blocks -/

/-- The blocks of a file that the bytes `[off, off + n)` are in. -/
def blocksOf (off n : ℕ) : List ℕ :=
  if n = 0 then [] else List.range' (off / bsize) ((off + n - 1) / bsize - off / bsize + 1)

/-- How many blocks have to be added for the given blocks of a file to be there: the data blocks that are
missing, and the indirect block if one of them needs it. -/
def Dinode.need (x : Dinode) (d : Disk) (l : List ℕ) : ℕ :=
  (l.filter (fun k => x.blockAt d k = 0)).length +
    if x.addr ndirect = 0 ∧ ∃ k ∈ l, ndirect ≤ k then 1 else 0

def freeBlocks (sb : Superblock) (d : Disk) : ℕ :=
  Common.freeCount sb.size (bitAt sb d)

theorem blocksOf_cons (hn : 0 < n) :
    blocksOf off n = off / bsize ::
      blocksOf (off + min n (bsize - off % bsize)) (n - min n (bsize - off % bsize)) := by
  by_cases hone : n ≤ bsize - off % bsize
  · -- The last chunk.
    have hmin : min n (bsize - off % bsize) = n := Nat.min_eq_left hone
    have hlast : (off + n - 1) / bsize = off / bsize := by unfold bsize at *; omega
    simp [blocksOf, hmin, Nat.ne_of_gt hn, hlast]
  have hmin : min n (bsize - off % bsize) = bsize - off % bsize := Nat.min_eq_right (by omega)
  have hnext : (off + (bsize - off % bsize)) / bsize = off / bsize + 1 := by unfold bsize at *; omega
  have hend : off + (bsize - off % bsize) + (n - (bsize - off % bsize)) = off + n := by omega
  have hcount : (off + n - 1) / bsize - off / bsize + 1 =
      (off + n - 1) / bsize - (off / bsize + 1) + 1 + 1 := by unfold bsize at *; omega
  have hne : n - (bsize - off % bsize) ≠ 0 := by omega
  simp only [blocksOf, hmin, Nat.ne_of_gt hn, hne, if_false, hnext, hend]
  rw [hcount, List.range'_succ]

theorem not_mem_blocksOf (hn : 0 < n) :
    off / bsize ∉ blocksOf (off + min n (bsize - off % bsize)) (n - min n (bsize - off % bsize)) := by
  have hnext : n - min n (bsize - off % bsize) ≠ 0 → off / bsize < (off + min n (bsize - off % bsize)) / bsize := by
    intro hne
    have hmin : min n (bsize - off % bsize) = bsize - off % bsize := by omega
    rw [hmin]
    unfold bsize at *
    omega
  unfold blocksOf
  split_ifs with hzero
  · simp
  · rw [List.mem_range']
    rintro ⟨k, _, heq⟩
    have := hnext hzero
    omega

/-- What is left to add after `bmap` has added one of the blocks. -/
theorem Bmapped.need {k : ℕ} {l : List ℕ} {d2 : Disk} (h : Bmapped sb D i k b ip d ip1 d1) (hk : k ∉ l)
    (hd2 : ∀ m, ip1.blockAt d2 m = ip1.blockAt d1 m) : ip1.need d2 l + ip.cost d k ≤ ip.need d (k :: l) := by
  have hfilter : l.filter (fun m => ip1.blockAt d2 m = 0) = l.filter (fun m => ip.blockAt d m = 0) := by
    refine List.filter_congr fun m hm => ?_
    have hmk : m ≠ k := fun heq => hk (heq ▸ hm)
    rw [hd2, h.blocks m hmk]
  have hind : ip1.addr ndirect = 0 → ip.addr ndirect = 0 := by
    intro h1
    by_contra hne
    exact hne ((h.indirect hne).symm.trans h1)
  have hmono : (if ip1.addr ndirect = 0 ∧ ∃ m ∈ l, ndirect ≤ m then 1 else 0) ≤
      if ip.addr ndirect = 0 ∧ ∃ m ∈ k :: l, ndirect ≤ m then 1 else 0 := by
    split_ifs with h1 h2 h2
    · exact le_refl 1
    · rcases h1 with ⟨hzero, m, hm, hge⟩
      exact absurd ⟨hind hzero, m, List.mem_cons_of_mem k hm, hge⟩ h2
    · exact Nat.zero_le 1
    · exact le_refl 0
  unfold Dinode.need
  rw [hfilter]
  by_cases hzero : ip.blockAt d k = 0
  · have hlen : ((k :: l).filter (fun m => ip.blockAt d m = 0)).length =
        (l.filter (fun m => ip.blockAt d m = 0)).length + 1 := by simp [hzero]
    rw [hlen]
    by_cases hboth : ndirect ≤ k ∧ ip.addr ndirect = 0
    · -- The indirect block has been added as well, and is not needed again.
      have hthere : ip1.addr ndirect ≠ 0 := by
        intro hnone
        have hblock : ip1.blockAt d1 k = 0 := by
          have hge : ¬ k < ndirect := Nat.not_lt.2 hboth.1
          by_cases hlt : k - ndirect < nindirect
          · simp [Dinode.blockAt, slotOf, hge, hlt, Dinode.slot, hnone]
          · simp [Dinode.blockAt, slotOf, hge, hlt]
        exact h.pos (h.block.symm.trans hblock)
      have hneeded : ip.addr ndirect = 0 ∧ ∃ m ∈ k :: l, ndirect ≤ m := ⟨hboth.2, k, List.mem_cons_self, hboth.1⟩
      have hcost : ip.cost d k = 2 := by simp [Dinode.cost, hzero, hboth]
      have hnotAgain : ¬ (ip1.addr ndirect = 0 ∧ ∃ m ∈ l, ndirect ≤ m) := fun hcon => hthere hcon.1
      rw [hcost, if_pos hneeded, if_neg hnotAgain]
    · have hcost : ip.cost d k = 1 := by simp [Dinode.cost, hzero, hboth]
      rw [hcost]
      omega
  · have hlen : ((k :: l).filter (fun m => ip.blockAt d m = 0)).length =
        (l.filter (fun m => ip.blockAt d m = 0)).length := by simp [hzero]
    have hcost : ip.cost d k = 0 := by simp [Dinode.cost, hzero]
    rw [hlen, hcost]
    omega

theorem cost_le_need (x : Dinode) (d : Disk) (k : ℕ) (l : List ℕ) : x.cost d k ≤ x.need d (k :: l) := by
  by_cases hzero : x.blockAt d k = 0
  · have hlen : 0 < ((k :: l).filter (fun m => x.blockAt d m = 0)).length := by simp [hzero]
    unfold Dinode.need
    by_cases hboth : ndirect ≤ k ∧ x.addr ndirect = 0
    · have hneeded : x.addr ndirect = 0 ∧ ∃ m ∈ k :: l, ndirect ≤ m := ⟨hboth.2, k, List.mem_cons_self, hboth.1⟩
      have hcost : x.cost d k = 2 := by simp [Dinode.cost, hzero, hboth]
      rw [hcost, if_pos hneeded]
      omega
    · have hcost : x.cost d k = 1 := by simp [Dinode.cost, hzero, hboth]
      rw [hcost]
      omega
  · have hcost : x.cost d k = 0 := by simp [Dinode.cost, hzero]
    rw [hcost]
    exact Nat.zero_le _

theorem need_le_length (x : Dinode) (l : List ℕ) : x.need d l ≤ l.length + 1 := by
  have hfilter : (l.filter (fun k => x.blockAt d k = 0)).length ≤ l.length := List.length_filter_le ..
  unfold Dinode.need
  split_ifs
  · omega
  · omega

theorem Bmapped.freeBlocks_write (hi : i < sb.ninodes) (hx : ip.type ≠ 0) (h : Bmapped sb D i n b ip d ip1 d1)
    (v : Block) : freeBlocks sb (update d1 b v) = freeBlocks sb d1 := by
  rcases h.slot hi hx with ⟨s, hs, href⟩
  have hrange := h.maps.range (i, s) (by rw [href]; exact h.pos)
  rw [href] at hrange
  exact Common.freeCount_congr fun c hc => bitAt_write_data hc hrange.1

theorem writeLoop_isOk (turns : ℕ) (src : ℕ → UInt8) (hi : i < sb.ninodes) (hx : ip.type ≠ 0)
    (hmaps : Maps sb (update D i ip) d) (hend : off + n ≤ maxfile * bsize)
    (henough : ip.need d (blocksOf off n) ≤ freeBlocks sb d) :
    ∃ r, writeLoop sb turns d ip off n src = .ok r := by
  induction turns generalizing ip d off n src with
  | zero => exact ⟨_, rfl⟩
  | succ turns ih =>
    by_cases hpos : 0 < n
    · rw [blocksOf_cons hpos] at henough
      have hlt : off / bsize < maxfile := by
        rw [Nat.div_lt_iff_lt_mul (by decide)]
        omega
      rcases bmap_isOk hmaps hlt ((cost_le_need ip d _ _).trans henough) with ⟨⟨b, ip1, d1⟩, hbmap⟩
      have hb := bmap_ok hi hx hmaps hbmap
      have hx1 : ip1.type ≠ 0 := by
        rw [hb.kept]
        exact hx
      have hm := chunk_pos off hpos
      have hwrote := hb.wrote hi hx src hm (Nat.min_le_right n _)
      have hblocks := hb.blockAt_write hi hx ((d1 b).copyIn (off % bsize) (min n (bsize - off % bsize)) src)
      have hneed := hb.need (not_mem_blocksOf hpos) hblocks
      have hfree := hb.freeBlocks_write hi hx ((d1 b).copyIn (off % bsize) (min n (bsize - off % bsize)) src)
      have hcount : freeBlocks sb d1 + ip.cost d (off / bsize) = freeBlocks sb d := hb.count
      simp only [writeLoop, hpos, if_true, hbmap, ok_bind]
      exact ih _ hx1 hwrote.maps (by omega) (by omega)
    · simp [writeLoop, hpos]

end Xv6.Fs
