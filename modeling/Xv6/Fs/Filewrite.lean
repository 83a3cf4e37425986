import Mathlib.Data.List.Perm.Subperm
import Xv6.Fs.Calls

/-!
# Filewrite — a write in chunks is a write

`filewrite` cuts a write into transactions of at most 1536 bytes, each with a `writei` of its own, and moves the offset of
the open file from one to the next.  With enough free blocks the chunks add up to one `writei` of all the bytes, as far
as that fits into a file; otherwise a number of whole chunks has been written.

`writeChunks` is the loop with all that it leaves behind.  The loop `filewrite` of the system calls is the same without
the offset (`filewrite_eq_writeChunks`).
-/

namespace Xv6.Fs

/-! ## The code -/

/-- The loop of `filewrite`: what the last `writei` returned, `i`, `f->off`, and the state.  Each turn writes at least one
byte. -/
def writeChunks (sb : Superblock) (ip n : ℕ) (src : ℕ → UInt8) :
    ℕ → State → ℕ → ℕ → Except Panic (Io Unit × ℕ × ℕ × State)
  | 0, s, i, off => return (.done (), i, off, s)
  | turns + 1, s, i, off =>
    if i < n then do
      let n₁ := min (n - i) filewriteMax
      let s ← ilock sb s ip
      let (r, s) ← s.writei sb ip off n₁ (fun k => src (i + k))
      match r with
      | .device => return (.device, i, off, s)
      | .fail => return (.fail, i, off, s)
      | .done m => if m ≠ n₁ then .error .shortFilewrite else writeChunks sb ip n src turns s (i + m) (off + m)
    else return (.done (), i, off, s)

/-- `filewrite` of `n` bytes at `src` to the inode `ip`, open for writing at the offset `off`: its value, the new offset and the state. -/
def filewriteAt (sb : Superblock) (s : State) (ip off n : ℕ) (src : ℕ → UInt8) : Except Panic (ℤ × ℕ × State) := do
  let (_, i, off, s) ← writeChunks sb ip n src n s 0 off
  return (if i = n then (n : ℤ) else -1, off, s)

/-- The loop of the system calls is this one, without `i` and the offset. -/
theorem filewrite_eq_writeChunks (sb : Superblock) (ip n : ℕ) (src : ℕ → UInt8) (turns : ℕ) (s : State) (i off : ℕ) :
    filewrite sb turns s ip off (n - i) (fun k => src (i + k)) =
      (fun r => (r.1, r.2.2.2)) <$> writeChunks sb ip n src turns s i off := by
  induction turns generalizing s i off with
  | zero => rfl
  | succ turns ih =>
    rw [filewrite, writeChunks]
    by_cases hlt : i < n
    · rw [if_pos hlt, if_pos (Nat.sub_pos_of_lt hlt)]
      cases ilock sb s ip with
      | error e => rfl
      | ok s1 =>
        simp only [ok_bind]
        cases s1.writei sb ip off (min (n - i) filewriteMax) (fun k => src (i + k)) with
        | error e => rfl
        | ok r =>
          rcases r with ⟨_ | _ | m, s2⟩
          · rfl
          · rfl
          simp only [ok_bind]
          split_ifs
          · rfl
          · rw [← ih, Nat.sub_sub]
            simp only [Nat.add_assoc]
    · rw [if_neg hlt, if_neg (by omega)]
      rfl

/-! ## Enough free blocks -/

variable {sb : Superblock} {d d' : Disk} {x ip' : Dinode} {i off n : ℕ} {L l l' : List ℕ}

theorem need_perm (h : l.Perm l') : x.need d l = x.need d l' := by
  unfold Dinode.need
  rw [(h.filter _).length_eq]
  simp only [h.mem_iff]

theorem need_cons {k : ℕ} (h : x.blockAt d k ≠ 0) : x.need d (k :: l) = x.need d l := by
  have hind : ndirect ≤ k → x.addr ndirect ≠ 0 := by
    intro hk hzero
    refine h ?_
    have hge : ¬ k < ndirect := Nat.not_lt.2 hk
    by_cases hlt : k - ndirect < nindirect
    · simp [Dinode.blockAt, slotOf, hge, hlt, Dinode.slot, hzero]
    · simp [Dinode.blockAt, slotOf, hge, hlt]
  have hiff : (x.addr ndirect = 0 ∧ ∃ m ∈ k :: l, ndirect ≤ m) ↔ x.addr ndirect = 0 ∧ ∃ m ∈ l, ndirect ≤ m := by
    refine and_congr_right fun hzero => ⟨?_, ?_⟩
    · rintro ⟨m, hm, hge⟩
      rcases List.mem_cons.1 hm with rfl | hm
      · exact absurd hzero (hind hge)
      · exact ⟨m, hm, hge⟩
    · rintro ⟨m, hm, hge⟩
      exact ⟨m, List.mem_cons_of_mem k hm, hge⟩
  unfold Dinode.need
  rw [List.filter_cons_of_neg (by simpa using h)]
  simp only [hiff]

theorem need_mono (hnd : l.Nodup) (hsub : l ⊆ l') : x.need d l ≤ x.need d l' := by
  have hlen : (l.filter fun k => x.blockAt d k = 0).length ≤ (l'.filter fun k => x.blockAt d k = 0).length :=
    ((List.subperm_of_subset hnd hsub).filter _).length_le
  have hind : (x.addr ndirect = 0 ∧ ∃ m ∈ l, ndirect ≤ m) → x.addr ndirect = 0 ∧ ∃ m ∈ l', ndirect ≤ m := by
    rintro ⟨hzero, m, hm, hge⟩
    exact ⟨hzero, m, hsub hm, hge⟩
  unfold Dinode.need
  split_ifs with h h'
  · omega
  · exact absurd (hind h) h'
  · omega
  · omega

/-- The blocks `L` of the file can all be added. -/
def Enough (sb : Superblock) (x : Dinode) (d : Disk) (L : List ℕ) : Prop := x.need d L ≤ freeBlocks sb d

/-- They still can after one of them has been added. -/
theorem Bmapped.enough {D : ℕ → Dinode} {k b : ℕ} {ip ip1 : Dinode} {d1 d2 : Disk}
    (h : Bmapped sb D i k b ip d ip1 d1) (hblocks : ∀ m, ip1.blockAt d2 m = ip1.blockAt d1 m)
    (hfree : freeBlocks sb d2 = freeBlocks sb d1) (hL : L.Nodup) (hk : k ∈ L) (henough : Enough sb ip d L) :
    Enough sb ip1 d2 L := by
  have hperm := List.perm_cons_erase hk
  have hnot : k ∉ L.erase k := hL.not_mem_erase
  have hblock : ip1.blockAt d2 k ≠ 0 := by
    rw [hblocks, h.block]
    exact h.pos
  have hstep := h.need hnot hblocks
  have hcount : freeBlocks sb d1 + ip.cost d k = freeBlocks sb d := h.count
  rw [Enough, need_perm hperm] at henough
  rw [Enough, need_perm hperm, need_cons hblock, hfree]
  omega

theorem writeLoop_enough {D : ℕ → Dinode} {ip : Dinode} {turns : ℕ} {src : ℕ → UInt8} (hi : i < sb.ninodes)
    (hx : ip.type ≠ 0) (hmaps : Maps sb (Function.update D i ip) d) (hL : L.Nodup)
    (hin : ∀ k < n, (off + k) / bsize ∈ L) (henough : Enough sb ip d L)
    (h : writeLoop sb turns d ip off n src = .ok (ip', d')) : Enough sb ip' d' L := by
  induction turns generalizing ip d off n src with
  | zero =>
    obtain ⟨rfl, rfl⟩ : ip = ip' ∧ d = d' := by simpa [writeLoop] using h
    exact henough
  | succ turns ih =>
    by_cases hpos : 0 < n
    · simp only [writeLoop, hpos, if_true] at h
      rcases bind_eq_ok.1 h with ⟨⟨b, ip1, d1⟩, hbmap, hrest⟩
      have hb := bmap_ok hi hx hmaps hbmap
      have hm := chunk_pos off hpos
      have hwrote := hb.wrote hi hx src hm (Nat.min_le_right n _)
      have hx1 : ip1.type ≠ 0 := by
        rw [hb.kept]
        exact hx
      have hfree := hb.freeBlocks_write hi hx ((d1 b).copyIn (off % bsize) (min n (bsize - off % bsize)) src)
      have hblocks := hb.blockAt_write hi hx ((d1 b).copyIn (off % bsize) (min n (bsize - off % bsize)) src)
      refine ih hx1 hwrote.maps (fun k hk => ?_) (hb.enough hblocks hfree hL ?_ henough) hrest
      · rw [Nat.add_assoc]
        exact hin _ (by omega)
      · exact hin 0 hpos
    · simp only [writeLoop, hpos, if_false] at h
      obtain ⟨rfl, rfl⟩ : ip = ip' ∧ d = d' := by simpa using h
      exact henough

theorem Enough.congr {y : Dinode} (h : Enough sb x d L) (hblocks : ∀ k, y.blockAt d' k = x.blockAt d k)
    (hind : y.addr ndirect = x.addr ndirect) (hfree : freeBlocks sb d' = freeBlocks sb d) : Enough sb y d' L := by
  have hneed : y.need d' L = x.need d L := by
    unfold Dinode.need
    simp only [hblocks, hind]
  rw [Enough, hneed, hfree]
  exact h

theorem writei_enough {r : Io ℕ} {src : ℕ → UInt8} (hc : Consistent sb d) (hi : i < sb.ninodes)
    (halloc : (din sb d i).type ≠ 0) (hdev : (din sb d i).type ≠ tDev) (hoff : off < 2 ^ 32) (hn : n < 2 ^ 32)
    (hL : L.Nodup) (hin : ∀ k < n, (off + k) / bsize ∈ L) (henough : Enough sb (din sb d i) d L)
    (h : writei sb d i (din sb d i) off n src = .ok (r, ip', d')) : Enough sb ip' d' L := by
  rcases writei_eq hdev src hoff hn with ⟨_, heq⟩ | ⟨_, heq⟩
  · rw [heq] at h
    obtain ⟨-, rfl, rfl⟩ : .fail = r ∧ din sb d i = ip' ∧ d = d' := by simpa using h
    exact henough
  rw [heq] at h
  rcases bind_eq_ok.1 h with ⟨⟨ip1, d1⟩, hloop, hret⟩
  have hmaps : Maps sb (Function.update (din sb d) i (din sb d i)) d := by
    rw [Function.update_eq_self]
    exact hc.maps
  have hwrote := writeLoop_ok hi halloc hmaps (le_refl n) hloop
  have hleft := writeLoop_enough hi halloc hmaps hL hin henough hloop
  obtain ⟨-, hpair⟩ : .done n = r ∧ writeSize sb i (off + n) n ip1 d1 = (ip', d') := by simpa using hret
  unfold writeSize at hpair
  split_ifs at hpair
  · obtain ⟨rfl, rfl⟩ : _ = ip' ∧ _ = d' := Prod.mk.inj hpair
    refine hleft.congr (hwrote.settled_iupdate hi halloc _).blockAt rfl ?_
    exact Common.freeCount_congr fun c _ => bitAt_iupdate hi
  · obtain ⟨rfl, rfl⟩ : ip1 = ip' ∧ d1 = d' := Prod.mk.inj hpair
    exact hleft

theorem mem_blocksOf {k : ℕ} : k ∈ blocksOf off n ↔ ∃ j < n, (off + j) / bsize = k := by
  unfold blocksOf
  by_cases hn : n = 0
  · simp [hn]
  rw [if_neg hn, List.mem_range'_1]
  constructor
  · rintro ⟨hlo, hhi⟩
    -- The first byte of the range that is in the block.
    refine ⟨k * bsize - off, ?_, ?_⟩
    · simp only [bsize] at *
      omega
    · simp only [bsize] at *
      omega
  · rintro ⟨j, hj, rfl⟩
    simp only [bsize]
    omega

theorem nodup_blocksOf (off n : ℕ) : (blocksOf off n).Nodup := by
  unfold blocksOf
  split_ifs
  · exact List.nodup_nil
  · exact List.nodup_range'

/-! ## One chunk -/

section Chunk

variable {K : Dinode → Disk → Prop} {s : State} {ip : ℕ} {src : ℕ → UInt8}

theorem ilock_isOk (htype : (din sb s.disk ip).type ≠ 0) : ∃ s', ilock sb s ip = .ok s' := by
  unfold ilock
  cases s.mem ip with
  | some x => exact ⟨s, rfl⟩
  | none =>
    rw [if_neg htype]
    exact ⟨_, rfl⟩

theorem State.writei_chunk (src : ℕ → UInt8) (hg : Good K sb s) (hl : Locked sb s ip)
    (hdev : (din sb s.disk ip).type ≠ tDev) (hoff : off < 2 ^ 32) (hn : n < 2 ^ 32) (hL : L.Nodup)
    (hin : off + n ≤ maxfile * bsize → ∀ k < n, (off + k) / bsize ∈ L)
    (henough : Enough sb (din sb s.disk ip) s.disk L) :
    (¬ Fits (din sb s.disk ip) off n ∧ s.writei sb ip off n src = .ok (.fail, s)) ∨
      (Fits (din sb s.disk ip) off n ∧ ∃ x d, s.writei sb ip off n src = .ok (.done n, s.store ip x d) ∧
        Written sb ip off n src s.disk x d ∧ Enough sb x d L) := by
  rcases hg.of_locked hl with ⟨hi, htype⟩
  by_cases hfits : Fits (din sb s.disk ip) off n
  · have hneed : (din sb s.disk ip).need s.disk (blocksOf off n) ≤ freeBlocks sb s.disk := by
      refine Nat.le_trans (need_mono (nodup_blocksOf off n) fun k hk => ?_) henough
      rcases mem_blocksOf.1 hk with ⟨j, hj, rfl⟩
      exact hin hfits.2 j hj
    rcases writei_isOk hg.cons hi htype hdev src hoff hn hneed with ⟨r, x, d, hrun⟩
    rcases writei_ok hg.cons hi htype hdev hoff hn hrun with ⟨_, rfl, hw⟩ | ⟨hnot, _⟩
    · refine .inr ⟨hfits, x, d, ?_, hw, writei_enough hg.cons hi htype hdev hoff hn hL (hin hfits.2) henough hrun⟩
      simp only [State.writei, hl.inode, hrun, ok_bind, pure_eq_ok]
    · exact absurd hfits hnot
  · rcases writei_eq hdev src hoff hn with ⟨_, heq⟩ | ⟨hfits', _⟩
    · refine .inl ⟨hfits, ?_⟩
      simp only [State.writei, hl.inode, heq, ok_bind, pure_eq_ok, hl.store_self]
    · exact absurd hfits' hfits

/-! ## All chunks -/

theorem splice_nil (l : List UInt8) : splice l off [] = l := by
  rw [splice, List.append_nil, List.length_nil, Nat.add_zero, List.take_append_drop]

theorem splice_splice {l : List UInt8} (h : off ≤ l.length) (xs ys : List UInt8) :
    splice (splice l off xs) (off + xs.length) ys = splice l off (xs ++ ys) := by
  have hlen : (l.take off ++ xs).length = off + xs.length := by
    rw [List.length_append, List.length_take_of_le h]
  have htake : (splice l off xs).take (off + xs.length) = l.take off ++ xs := by
    rw [splice, List.take_append_of_le_length (Nat.le_of_eq hlen.symm), List.take_of_length_le (Nat.le_of_eq hlen)]
  have hdrop : (splice l off xs).drop (off + xs.length + ys.length) = l.drop (off + (xs ++ ys).length) := calc
      (splice l off xs).drop (off + xs.length + ys.length)
          = (l.take off ++ xs ++ l.drop (off + xs.length)).drop ((l.take off ++ xs).length + ys.length) := by
            rw [hlen, splice]
      _ = (l.drop (off + xs.length)).drop ys.length := List.drop_length_add_append _
      _ = l.drop (off + xs.length + ys.length) := List.drop_drop
      _ = l.drop (off + (xs ++ ys).length) := by rw [List.length_append, Nat.add_assoc]
  rw [splice, htake, hdrop, splice, List.append_assoc (l.take off)]

/-- What the loop has done when `i` has become `i'`. -/
structure ChunksWritten (sb : Superblock) (ip n : ℕ) (src : ℕ → UInt8) (d : Disk) (i off i' off' : ℕ) (d' : Disk) :
    Prop where
  le : i ≤ i'
  off_eq : off' = off + (i' - i)
  content : (din sb d' ip).content d' =
    splice ((din sb d ip).content d) off ((List.range (i' - i)).map fun k => src (i + k))
  full : i' = n ↔ i = n ∨ Fits (din sb d ip) off (n - i)
  /-- Otherwise whole chunks have been written. -/
  whole : i' ≠ n → i' < n ∧ (i' - i) % filewriteMax = 0

theorem chunksWritten_refl (h : i = n ∨ ¬ Fits (din sb d ip) off (n - i)) (hle : i ≤ n) :
    ChunksWritten sb ip n src d i off i off d where
  le := Nat.le_refl i
  off_eq := by omega
  content := by rw [Nat.sub_self, List.range_zero, List.map_nil, splice_nil]
  full := by
    refine ⟨.inl, fun hcase => ?_⟩
    rcases h with heq | hnot
    · exact heq
    · exact hcase.resolve_right hnot
  whole hne := ⟨by omega, by rw [Nat.sub_self, Nat.zero_mod]⟩

theorem ChunksWritten.cons {d1 : Disk} {i' off' m : ℕ} {y : Dinode}
    (h : ChunksWritten sb ip n src d1 (i + m) (off + m) i' off' d')
    (hw : Written sb ip off m (fun k => src (i + k)) d y d1) (hfits : Fits (din sb d ip) off m)
    (hm : i + m = n ∨ m = filewriteMax) (hlt : i + m ≤ n) (hpos : 0 < m) : ChunksWritten sb ip n src d i off i' off' d' where
  le := by
    have hle := h.le
    omega
  off_eq := by
    have hle := h.le
    have hoff := h.off_eq
    omega
  content := by
    have hle := h.le
    have hlen : off + m = off + ((List.range m).map fun k => src (i + k)).length := by simp
    have hsum : i' - i = m + (i' - (i + m)) := by omega
    have hlist : (List.range (i' - i)).map (fun k => src (i + k)) =
        (List.range m).map (fun k => src (i + k)) ++ (List.range (i' - (i + m))).map fun k => src (i + m + k) := by
      rw [hsum, List.range_add, List.map_append, List.map_map]
      simp only [Function.comp_def, Nat.add_assoc]
    rw [h.content, hw.inode, hw.content, hlen, splice_splice, ← hlist]
    rw [length_content]
    exact hfits.1
  full := by
    rw [h.full]
    -- The next chunk begins inside of the file.
    have hnext : off + m ≤ (din sb d1 ip).size.toNat := by
      rw [hw.inode, hw.size]
      exact Nat.le_max_right _ _
    have hoff := hfits.1
    have hend := hfits.2
    simp only [Fits]
    omega
  whole hne := by
    rcases h.whole hne with ⟨hlt', hmod⟩
    have hle := h.le
    refine ⟨hlt', ?_⟩
    rcases hm with hm | rfl
    · omega
    · rw [show i' - i = i' - (i + filewriteMax) + filewriteMax by omega, Nat.add_mod_right, hmod]

theorem writeChunks_spec (src : ℕ → UInt8) {turns : ℕ} (hK : DirInvariant sb K) (hg : Good K sb s) (hip : ip < sb.ninodes)
    (hfile : (din sb s.disk ip).type = tFile) (hoff : off < 2 ^ 32) (hi : i ≤ n) (hturns : n - i ≤ turns)
    (hL : L.Nodup) (hin : ∀ b, off ≤ b → b < off + (n - i) → b < maxfile * bsize → b / bsize ∈ L)
    (henough : Enough sb (din sb s.disk ip) s.disk L) :
    ∃ r i' off' s', writeChunks sb ip n src turns s i off = .ok (r, i', off', s') ∧
      ChunksWritten sb ip n src s.disk i off i' off' s'.disk := by
  induction turns generalizing s i off with
  | zero => exact ⟨_, i, off, s, rfl, chunksWritten_refl (.inl (by omega)) hi⟩
  | succ turns ih =>
    rw [writeChunks]
    by_cases hlt : i < n
    · rw [if_pos hlt]
      have htype : (din sb s.disk ip).type ≠ 0 := by
        rw [hfile]
        decide
      rcases ilock_isOk htype with ⟨s1, hlock⟩
      rcases (ilock_spec hg hip).of_ok hlock with ⟨hg1, hl1, hdisk, _, _⟩
      rw [← hdisk] at hfile henough ⊢
      have hdev : (din sb s1.disk ip).type ≠ tDev := by
        rw [hfile]
        decide
      have hmax : 0 < filewriteMax := by decide
      have hbound : filewriteMax < 2 ^ 32 := by decide
      generalize hm : min (n - i) filewriteMax = m
      have hchunk := State.writei_chunk (n := m) (fun k => src (i + k)) hg1 hl1 hdev hoff (by omega) hL
        (fun hend k hk => hin (off + k) (by omega) (by omega) (by omega)) henough
      rw [hlock, ok_bind]
      rcases hchunk with ⟨hnot, hrun⟩ | ⟨hfits, x, d, hrun, hw, hleft⟩
      · rw [hrun]
        refine ⟨.fail, i, off, s1, rfl, chunksWritten_refl (.inr fun hfits => hnot ⟨hfits.1, ?_⟩) hi⟩
        have hend := hfits.2
        omega
      rw [hrun, ok_bind]
      dsimp only
      rw [if_neg (not_not.2 rfl)]
      have hdir : (din sb s1.disk ip).type ≠ tDir := by
        rw [hfile]
        decide
      have hgood := hw.good hK hg1 hl1 fun h => absurd h hdir
      have htype' : (din sb d ip).type = tFile := by
        rw [hw.inode, hw.kept]
        exact hfile
      have hend : off + m < 2 ^ 32 := Nat.lt_of_le_of_lt hfits.2 (by decide)
      rw [← hw.inode] at hleft
      rcases ih (s := s1.store ip x d) (i := i + m) hgood.1 htype' hend (by omega) (by omega)
        (fun b hlo hhi => hin b (by omega) (by omega)) hleft with ⟨r, i', off', s', hrest, hdone⟩
      exact ⟨r, i', off', s', hrest, hdone.cons hw hfits (by omega) (by omega) (by omega)⟩
    · rw [if_neg hlt]
      exact ⟨_, i, off, s, rfl, chunksWritten_refl (.inl (by omega)) hi⟩

end Chunk

/-! ## `filewrite` -/

theorem size_of_content {x y : Dinode} {d d' : Disk} (h : x.content d = y.content d') : x.size = y.size := by
  have hlen := congrArg List.length h
  rw [length_content, length_content] at hlen
  exact UInt32.toNat_inj.1 hlen

/-- A single `writei` of all the bytes; if there are none it may fail. -/
theorem writei_content {sb : Superblock} {d : Disk} {ip off n : ℕ} (src : ℕ → UInt8) (hc : Consistent sb d)
    (hip : ip < sb.ninodes) (hfile : (din sb d ip).type = tFile) (hoff : off < 2 ^ 32) (hn : n < 2 ^ 31)
    (hfits : 0 = n ∨ Fits (din sb d ip) off (n - 0))
    (henough : Enough sb (din sb d ip) d (blocksOf off (min n (maxfile * bsize - off)))) :
    ∃ q x d', writei sb d ip (din sb d ip) off n src = .ok (q, x, d') ∧
      x.content d' = splice ((din sb d ip).content d) off ((List.range n).map src) := by
  have htype : (din sb d ip).type ≠ 0 ∧ (din sb d ip).type ≠ tDev := by
    rw [hfile]
    decide
  by_cases hin : Fits (din sb d ip) off n
  · have hmin : min n (maxfile * bsize - off) = n := by
      have hend := hin.2
      omega
    rw [hmin] at henough
    rcases writei_isOk hc hip htype.1 htype.2 src hoff (by omega) henough with ⟨q, x, d', hwrite⟩
    rcases writei_ok hc hip htype.1 htype.2 hoff (by omega) hwrite with ⟨_, _, hw⟩ | ⟨hnot, _⟩
    · exact ⟨q, x, d', hwrite, hw.content⟩
    · exact absurd hin hnot
  · rcases writei_eq htype.2 src hoff (show n < 2 ^ 32 by omega) with ⟨_, heq⟩ | ⟨hin', _⟩
    · obtain rfl : 0 = n := hfits.resolve_right hin
      exact ⟨_, _, _, heq, by rw [List.range_zero, List.map_nil, splice_nil]⟩
    · exact absurd hin' hin

/-- `filewrite` of `n` bytes to a file.  Free blocks are needed for the bytes below the largest size of a file. -/
theorem filewriteAt_eq_writei {sb : Superblock} {s : State} (ip off n : ℕ) (src : ℕ → UInt8)
    (hg : Good (fun x d => x.DirValid d sb.ninodes) sb s) (hip : ip < sb.ninodes)
    (hfile : (din sb s.disk ip).type = tFile) (hoff : off < 2 ^ 32) (hn : n < 2 ^ 31)
    (henough : Enough sb (din sb s.disk ip) s.disk (blocksOf off (min n (maxfile * bsize - off)))) :
    ∃ r off' s', filewriteAt sb s ip off n src = .ok (r, off', s') ∧
      (r = n ↔ n = 0 ∨ (off ≤ (din sb s.disk ip).size.toNat ∧ off + n ≤ maxfile * bsize)) ∧
      (r = n → off' = off + n ∧ ∃ q x d, writei sb s.disk ip (din sb s.disk ip) off n src = .ok (q, x, d) ∧
        (din sb s'.disk ip).size = x.size ∧ (din sb s'.disk ip).content s'.disk = x.content d) ∧
      (r ≠ n → r = -1 ∧ ∃ chunks, chunks * filewriteMax < n ∧ off' = off + chunks * filewriteMax ∧
        (din sb s'.disk ip).content s'.disk = splice ((din sb s.disk ip).content s.disk) off
          ((List.range (chunks * filewriteMax)).map src)) := by
  have hin : ∀ b, off ≤ b → b < off + (n - 0) → b < maxfile * bsize →
      b / bsize ∈ blocksOf off (min n (maxfile * bsize - off)) := by
    intro b hlo hhi hmax
    exact mem_blocksOf.2 ⟨b - off, by omega, by rw [Nat.add_sub_cancel' hlo]⟩
  rcases writeChunks_spec src (dirInvariant_dirValid sb) hg hip hfile hoff (Nat.zero_le n) (Nat.le_refl _)
    (nodup_blocksOf off _) hin henough with ⟨q, i', off', s', hrun, hdone⟩
  rw [Nat.sub_zero] at hrun
  have hcontent := hdone.content
  have hoff' := hdone.off_eq
  simp only [Nat.sub_zero, Nat.zero_add] at hcontent hoff'
  have hret : ((if i' = n then (n : ℤ) else -1) = n) ↔ i' = n := by
    split_ifs with heq
    · simp [heq]
    · simp only [heq]
  refine ⟨if i' = n then (n : ℤ) else -1, off', s', ?_, ?_, fun hr => ?_, fun hr => ?_⟩
  · simp only [filewriteAt, hrun, ok_bind, pure_eq_ok]
  · rw [hret, hdone.full, Nat.sub_zero, eq_comm]
    rfl
  · obtain rfl := hret.1 hr
    rcases writei_content src hg.cons hip hfile hoff hn (hdone.full.1 rfl) henough with ⟨q', x, d, hwrite, hsame⟩
    rw [← hsame] at hcontent
    exact ⟨hoff', q', x, d, hwrite, size_of_content hcontent, hcontent⟩
  have hnot : i' ≠ n := fun heq => hr (hret.2 heq)
  rcases hdone.whole hnot with ⟨hlt, hmod⟩
  rw [Nat.sub_zero] at hmod
  have hchunks := Nat.div_mul_cancel (Nat.dvd_of_mod_eq_zero hmod)
  refine ⟨if_neg hnot, i' / filewriteMax, ?_, ?_, ?_⟩
  · rw [hchunks]
    exact hlt
  · rw [hchunks]
    exact hoff'
  · rw [hchunks]
    exact hcontent

/-- Three bytes are written to the empty file. -/
theorem filewriteAt_smallDisk :
    ∃ s', filewriteAt smallSb (smallState (smallDisk tFile)) 1 0 3 (fun k => UInt8.ofNat k) = .ok (3, 3, s') := by
  have hfile : (din smallSb (smallState (smallDisk tFile)).disk 1).type = tFile := type_smallDisk tFile
  have hg := good_smallState (dirInvariant_dirValid smallSb) tFile
  have henough : Enough smallSb (din smallSb (smallDisk tFile) 1) (smallDisk tFile)
      (blocksOf 0 (min 3 (maxfile * bsize - 0))) :=
    calc
      (din smallSb (smallDisk tFile) 1).need (smallDisk tFile) (blocksOf 0 (min 3 (maxfile * bsize - 0)))
          ≤ (blocksOf 0 (min 3 (maxfile * bsize - 0))).length + 1 := need_le_length _ _
      _ ≤ 4 := by decide
      _ ≤ freeBlocks smallSb (smallDisk tFile) := freeBlocks_smallDisk tFile
  rcases filewriteAt_eq_writei 1 0 3 (fun k => UInt8.ofNat k) hg (by decide) hfile (by decide) (by decide) henough with
    ⟨r, off', s', hrun, hiff, hdone, _⟩
  have hr : r = (3 : ℕ) := hiff.2 (.inr ⟨Nat.zero_le _, by decide⟩)
  obtain rfl := (hdone hr).1
  rw [hr] at hrun
  exact ⟨s', hrun⟩

end Xv6.Fs
