import Mathlib.Data.Finset.Dedup
import Xv6.Fs.Logged
import Xv6.Fs.Lookup

/-!
# Reservation — how many blocks a transaction logs

`begin_op` reserves `MAXOPBLOCKS` blocks of the log for every transaction.  The blocks that a computation logs are
counted by giving a list that covers them (`Covered`): apart from the two bitmap blocks they are inode blocks, one data
block for each block of the file that is written, and the indirect block.  Path lookup logs nothing as long as no
inode on the way is freed.
-/

namespace Xv6.Fs

open Function (update update_eq_self)
open Common.Traced

/-! ## Covers -/

/-- A file system with at most two bitmap blocks has these. -/
def InBitmap (sb : Superblock) (b : ℕ) : Prop := b = sb.bmapstart ∨ b = sb.bmapstart + 1

def Covered (sb : Superblock) (l w : List ℕ) : Prop := ∀ b ∈ w, InBitmap sb b ∨ b ∈ l

variable {sb : Superblock} {l l' w w' : List ℕ} {b i k n off turns : ℕ} {d : Disk} {D : ℕ → Dinode} {x : Dinode}

theorem inBitmap_bblock (hsize : sb.size ≤ 2 * bpb) (hb : b < sb.size) : InBitmap sb (sb.bblock b) := by
  have hdiv : b / bpb < 2 := Nat.div_lt_of_lt_mul (by omega)
  rcases Nat.le_one_iff_eq_zero_or_eq_one.1 (Nat.lt_succ_iff.1 hdiv) with hzero | hone
  · exact .inl (by rw [Superblock.bblock, hzero, Nat.zero_add])
  · exact .inr (by rw [Superblock.bblock, hone, Nat.add_comm])

theorem Covered.nil : Covered sb l [] :=
  fun _ h => absurd h List.not_mem_nil

theorem Covered.append (h : Covered sb l w) (h' : Covered sb l w') : Covered sb l (w ++ w') := by
  intro b hb
  rcases List.mem_append.1 hb with hb | hb
  · exact h b hb
  · exact h' b hb

theorem Covered.mono (h : Covered sb l w) (hl : ∀ b ∈ l, b ∈ l') : Covered sb l' w :=
  fun b hb => (h b hb).imp_right (hl b)

/-- The bitmap blocks come on top. -/
theorem Covered.card_le (h : Covered sb l w) : w.toFinset.card ≤ l.length + 2 := by
  have hsub : w.toFinset ⊆ (sb.bmapstart :: (sb.bmapstart + 1) :: l).toFinset := by
    intro b hb
    rcases h b (List.mem_toFinset.1 hb) with (rfl | rfl) | hl
    · simp
    · simp
    · simp [hl]
  calc w.toFinset.card ≤ (sb.bmapstart :: (sb.bmapstart + 1) :: l).toFinset.card := Finset.card_le_card hsub
    _ ≤ (sb.bmapstart :: (sb.bmapstart + 1) :: l).length := List.toFinset_card_le _
    _ = l.length + 2 := rfl

namespace Logged

/-! ## Blocks -/

/-- The computation logs bitmap blocks and blocks of `l` only. -/
def Logs {α : Type} (sb : Superblock) (l : List ℕ) (m : Logged α) : Prop := Leaves m fun _ w => Covered sb l w

section Logs

variable {α β : Type} {m : Logged α} {f : α → Logged β}

theorem Logs.bind (h : Logs sb l m) (hf : ∀ a, m.erase = .ok a → Logs sb l (f a)) : Logs sb l (m >>= f) :=
  Leaves.bind h fun a _ ha h1 => Leaves.mono (hf a ha) fun _ _ _ h2 => h1.append h2

theorem Logs.pure (a : α) : Logs sb l (Pure.pure a) := Leaves.pure .nil

theorem Logs.of_silent (h : Silent m) : Logs sb l m := by
  refine Leaves.mono h fun _ w _ hw => ?_
  subst hw
  exact .nil

theorem Logs.lift (x : Except Panic α) : Logs sb l (Common.Traced.lift x) := .of_silent (Silent.lift x)

theorem Logs.logWrite (h : InBitmap sb b ∨ b ∈ l) : Logs sb l (logWrite b) := by
  refine Leaves.emit fun c hc => ?_
  obtain rfl : c = b := by simpa using hc
  exact h

theorem Logs.iupdate (hl : sb.iblock i ∈ l) : Logs sb l (iupdate sb d i x) :=
  (Logs.logWrite (.inr hl)).bind fun _ _ => .pure _

end Logs

section Blocks

variable (hsize : sb.size ≤ 2 * bpb)

include hsize

theorem balloc_leaves : Leaves (balloc sb d) fun r w => Covered sb [r.1] w := by
  unfold balloc
  refine (Silent.lift _).bind ?_
  rintro ⟨b, d1⟩ hb
  rw [erase_lift] at hb
  have hrest : Logs sb [b] (do logWrite (sb.bblock b); logWrite b; return (b, d1)) :=
    (Logs.logWrite (.inl (inBitmap_bblock hsize (balloc_ok hb).1))).bind fun _ _ =>
      (Logs.logWrite (.inr List.mem_cons_self)).bind fun _ _ => .pure _
  refine Leaves.mono hrest fun r w hr hw => ?_
  obtain rfl : (b, d1) = r := by simpa using hr
  exact hw

theorem bfree_logs (hb : b < sb.size) : Logs sb l (bfree sb d b) :=
  (Logs.lift _).bind fun _ _ => (Logs.logWrite (.inl (inBitmap_bblock hsize hb))).bind fun _ _ => .pure _

/-! ## `bmap` -/

theorem loadIndirect_leaves (hmaps : Maps sb D d) :
    Leaves (loadIndirect sb d x) fun r w => r.1.addr ndirect ≠ 0 ∧ Covered sb [r.1.addr ndirect] w := by
  unfold loadIndirect
  split_ifs with hzero
  · refine Leaves.bind (balloc_leaves hsize) ?_
    rintro ⟨b, d1⟩ w1 hb h1
    rw [erase_balloc] at hb
    rcases balloc_ok hb with ⟨hlt, hfree, _⟩
    have haddr : (x.setAddr ndirect b).addr ndirect = b := by
      rw [x.addr_setAddr (Nat.lt_succ_self _) (Superblock.lt_of_lt_size hlt), if_pos rfl]
    have hlo : sb.datastart ≤ b := hmaps.lo_le_of_bit hfree
    refine Leaves.pure ?_
    rw [haddr]
    exact ⟨(Nat.lt_of_lt_of_le sb.datastart_pos hlo).ne', h1.append .nil⟩
  · exact Leaves.pure ⟨hzero, .nil⟩

theorem bmapEntry_leaves : Leaves (bmapEntry sb d x k) fun r w => r.2.1 = x ∧ Covered sb [r.1, x.addr ndirect] w := by
  simp only [bmapEntry]
  split_ifs
  · refine Leaves.bind (balloc_leaves hsize) ?_
    rintro ⟨b, d1⟩ w1 _ h1
    refine Leaves.bind (show Logs sb [x.addr ndirect] _ from .logWrite (.inr List.mem_cons_self)) fun _ w2 _ h2 =>
      Leaves.pure ?_
    exact ⟨rfl, (h1.mono (by simp)).append ((h2.mono (by simp)).append .nil)⟩
  · exact Leaves.pure ⟨rfl, .nil⟩

/-- The block that is found or added, and the indirect block if there is one. -/
theorem bmap_leaves (hmaps : Maps sb D d) : Leaves (bmap sb d x n) fun r w =>
      ∀ c ∈ w, InBitmap sb c ∨ c = r.1 ∨ (c ≠ 0 ∧ c = r.2.1.addr ndirect) := by
  unfold bmap
  split_ifs with hdirect hzero hind
  · refine Leaves.bind (balloc_leaves hsize) ?_
    rintro ⟨b, d1⟩ w1 _ h1
    refine Leaves.pure fun c hc => ?_
    rw [List.append_nil] at hc
    exact (h1 c hc).imp_right fun hmem => .inl (List.mem_singleton.1 hmem)
  · exact Leaves.pure fun c hc => absurd hc List.not_mem_nil
  · refine Leaves.bind (loadIndirect_leaves hsize hmaps) ?_
    rintro ⟨x1, d1⟩ w1 _ ⟨hne, h1⟩
    refine (bmapEntry_leaves hsize).mono ?_
    rintro ⟨b, x2, d2⟩ w2 _ ⟨rfl, h2⟩ c hc
    rcases (h1.mono (by simp)).append h2 c hc with hbit | hmem
    · exact .inl hbit
    · rcases List.mem_cons.1 hmem with rfl | hmem
      · exact .inr (.inl rfl)
      · obtain rfl := List.mem_singleton.1 hmem
        exact .inr (.inr ⟨hne, rfl⟩)
  · exact Leaves.error

/-! ## `itrunc` -/

section Itrunc

variable (hi : i < sb.ninodes)

include hi

theorem freeAddr_logs (hx : x.type ≠ 0) (hmaps : Maps sb (update D i x) d) (hk : k < ndirect) :
    Logs sb l (freeAddr sb d x k) := by
  unfold freeAddr
  split_ifs with hne
  · have href : ref sb (update D i x) d (i, .direct ⟨k, hk⟩) = x.addr k := ref_update_self hi hx _
    have hlt := (hmaps.range (i, .direct ⟨k, hk⟩) (by rwa [href])).2
    rw [href] at hlt
    exact (bfree_logs hsize hlt).bind fun _ _ => .pure _
  · exact .pure _

theorem itruncDirect_logs (hx : x.type ≠ 0) (hmaps : Maps sb (update D i x) d) (hk : k + n ≤ ndirect) :
    Logs sb l (itruncDirect sb n k d x) := by
  induction n generalizing k d x with
  | zero => exact .pure _
  | succ n ih =>
    have hlt : k < ndirect := by omega
    rw [itruncDirect]
    refine (freeAddr_logs hsize hi hx hmaps hlt).bind fun r hr => ?_
    rcases freeAddr_spec hi hx hmaps hlt with ⟨d1, hfree, _, hmaps1⟩
    rw [erase_freeAddr, hfree] at hr
    obtain rfl : (d1, x.setAddr k 0) = r := by simpa using hr
    exact ih (x := x.setAddr k 0) hx hmaps1 (by omega)

omit hi in
theorem itruncEntries_logs {a : Block}
    (ha : ∀ j, k ≤ j → j < k + n → a.getInt (4 * j) ≠ 0 → a.getInt (4 * j) < sb.size) :
    Logs sb l (itruncEntries sb a n k d) := by
  induction n generalizing k d with
  | zero => exact .pure _
  | succ n ih =>
    have hrest : ∀ d1, Logs sb l (itruncEntries sb a n (k + 1) d1) :=
      fun d1 => ih fun j hj hjn => ha j (by omega) (by omega)
    rw [itruncEntries]
    split_ifs with hne
    · exact (bfree_logs hsize (ha k (Nat.le_refl k) (by omega) hne)).bind fun d1 _ => hrest d1
    · exact (Logs.pure d).bind fun d1 _ => hrest d1

theorem itruncIndirect_logs (hx : x.type ≠ 0) (hmaps : Maps sb (update D i x) d) :
    Logs sb l (itruncIndirect sb d x) := by
  unfold itruncIndirect
  split_ifs with hne
  · have href : ref sb (update D i x) d (i, .indirect) = x.addr ndirect := ref_update_self hi hx _
    have hlt := (hmaps.range (i, .indirect) (by rwa [href])).2
    rw [href] at hlt
    refine (itruncEntries_logs hsize fun j _ hj hentry => ?_).bind fun d1 _ => ?_
    · rw [Nat.zero_add] at hj
      have hentry' : ref sb (update D i x) d (i, .entry ⟨j, hj⟩) = (d (x.addr ndirect)).getInt (4 * j) := by
        rw [ref_update_self hi hx, Dinode.slot, if_neg hne]
      have := (hmaps.range (i, .entry ⟨j, hj⟩) (by rwa [hentry'])).2
      rwa [hentry'] at this
    · exact (bfree_logs hsize hlt).bind fun _ _ => .pure _
  · exact .pure _

theorem itrunc_logs (hx : x.type ≠ 0) (hmaps : Maps sb (update D i x) d) (hl : sb.iblock i ∈ l) :
    Logs sb l (itrunc sb d i x) := by
  refine (itruncDirect_logs hsize hi hx hmaps (by omega)).bind ?_
  rintro ⟨d1, x1⟩ hr
  rcases itruncDirect_spec hi hx hmaps (k := 0) (n := ndirect) (by omega) with ⟨d', x', htrunc, _, hmaps1, hkept, _⟩
  rw [erase_itruncDirect, htrunc] at hr
  obtain ⟨rfl, rfl⟩ : d' = d1 ∧ x' = x1 := by simpa using hr
  have hx1 : x'.type ≠ 0 := by
    rw [hkept]
    exact hx
  exact (itruncIndirect_logs hsize hi hx1 hmaps1).bind fun _ _ => (Logs.iupdate hl).bind fun _ _ => .pure _

end Itrunc

/-! ## `writei` -/

/-- One data block for each block of the file, and the indirect block, which stays the same once it is there. -/
theorem writeLoop_leaves (src : ℕ → UInt8) (hi : i < sb.ninodes) (hx : x.type ≠ 0)
    (hmaps : Maps sb (update D i x) d) :
    Leaves (writeLoop sb turns d x off n src) fun r w =>
      (x.addr ndirect ≠ 0 → r.1.addr ndirect = x.addr ndirect) ∧ ∃ l : List ℕ, l.length ≤ (blocksOf off n).length ∧
          ∀ c ∈ w, InBitmap sb c ∨ c ∈ l ∨ (c ≠ 0 ∧ c = r.1.addr ndirect) := by
  induction turns generalizing x d off n src with
  | zero => exact Leaves.pure ⟨fun _ => rfl, [], Nat.zero_le _, fun c hc => absurd hc List.not_mem_nil⟩
  | succ turns ih =>
    rw [writeLoop]
    split_ifs with hpos
    · refine Leaves.bind (bmap_leaves hsize hmaps) ?_
      rintro ⟨b, x1, d1⟩ w1 hb h1
      rw [erase_bmap] at hb
      have hmapped := bmap_ok hi hx hmaps hb
      have hx1 : x1.type ≠ 0 := by
        rw [hmapped.kept]
        exact hx
      have hm := chunk_pos off hpos
      have hwrote := hmapped.wrote hi hx src hm (Nat.min_le_right _ _)
      refine Leaves.bind (show Logs sb [b] _ from .logWrite (.inr List.mem_cons_self)) fun _ w2 _ h2 => ?_
      refine (ih (fun k => src (min n (bsize - off % bsize) + k)) hx1 hwrote.maps).mono ?_
      rintro ⟨x', d'⟩ w3 _ ⟨hind, l, hlen, h3⟩
      refine ⟨fun hne => (hind (by rwa [hmapped.indirect hne])).trans (hmapped.indirect hne), b :: l, ?_, ?_⟩
      · rw [blocksOf_cons hpos]
        exact Nat.succ_le_succ hlen
      intro c hc
      rcases List.mem_append.1 hc with hc | hc
      · rcases h1 c hc with hbit | hblock | ⟨hne, hcx⟩
        · exact .inl hbit
        · exact .inr (.inl (hblock ▸ List.mem_cons_self))
        · exact .inr (.inr ⟨hne, hcx.trans (hind (hcx ▸ hne)).symm⟩)
      rcases List.mem_append.1 hc with hc | hc
      · rcases h2 c hc with hbit | hblock
        · exact .inl hbit
        · exact .inr (.inl (List.mem_singleton.1 hblock ▸ List.mem_cons_self))
      · exact (h3 c hc).imp_right fun h => h.imp_left (List.mem_cons_of_mem b)
    · exact Leaves.pure ⟨fun _ => rfl, [], Nat.zero_le _, fun c hc => absurd hc List.not_mem_nil⟩

omit hsize in
theorem writeSize_logs (hl : sb.iblock i ∈ l) : Logs sb l (writeSize sb i off n x d) := by
  unfold writeSize
  split_ifs
  · exact (Logs.iupdate hl).bind fun _ _ => .pure _
  · exact .pure _

theorem writei_leaves (src : ℕ → UInt8) (hi : i < sb.ninodes) (hx : x.type ≠ 0)
    (hmaps : Maps sb (update D i x) d) :
    Leaves (writei sb d i x off n src) fun _ w =>
      ∃ a l, l.length ≤ (blocksOf off n).length ∧ Covered sb (sb.iblock i :: a :: l) w := by
  have hnone : ∃ a l, l.length ≤ (blocksOf off n).length ∧ Covered sb (sb.iblock i :: a :: l) [] :=
    ⟨0, [], Nat.zero_le _, .nil⟩
  unfold writei
  split_ifs
  · exact Leaves.pure hnone
  · exact Leaves.pure hnone
  · exact Leaves.pure hnone
  refine Leaves.bind (writeLoop_leaves hsize src hi hx hmaps) ?_
  rintro ⟨x1, d1⟩ w1 _ ⟨_, l, hlen, h1⟩
  refine Leaves.bind (show Logs sb [sb.iblock i] _ from writeSize_logs List.mem_cons_self) fun _ w2 _ h2 =>
    Leaves.pure ⟨x1.addr ndirect, l, hlen, ?_⟩
  refine Covered.append (fun c hc => ?_) ((h2.mono (by simp)).append .nil)
  rcases h1 c hc with hbit | hmem | ⟨_, rfl⟩
  · exact .inl hbit
  · exact .inr (by simp [hmem])
  · exact .inr (by simp)

end Blocks

/-! ## `readi` -/

theorem bmap_silent (h : x.blockAt d n ≠ 0) : Silent (bmap sb d x n) := by
  unfold Dinode.blockAt slotOf at h
  unfold bmap
  by_cases hdirect : n < ndirect
  · have haddr : x.addr n ≠ 0 := by simpa [hdirect, Dinode.slot] using h
    rw [if_pos hdirect, if_neg haddr]
    exact .pure _
  by_cases hind : n - ndirect < nindirect
  · have hentry : x.addr ndirect ≠ 0 ∧ (d (x.addr ndirect)).getInt (4 * (n - ndirect)) ≠ 0 := by
      simpa [hdirect, hind, Dinode.slot] using h
    rw [if_neg hdirect, if_pos hind]
    have hload : Silent (loadIndirect sb d x) := by
      rw [loadIndirect, if_neg hentry.1]
      exact .pure _
    refine hload.bind fun r hr => ?_
    rw [erase_loadIndirect, Fs.loadIndirect, if_neg hentry.1] at hr
    obtain rfl : (x, d) = r := by simpa using hr
    simp only [bmapEntry, if_neg hentry.2]
    exact Silent.pure _
  · simp [hdirect, hind] at h

theorem readLoop_silent (h : ∀ k, k < n → x.blockAt d ((off + k) / bsize) ≠ 0) :
    Silent (readLoop sb turns d x off n) := by
  induction turns generalizing off n with
  | zero => exact .pure _
  | succ turns ih =>
    rw [readLoop]
    split_ifs with hpos
    · have hfirst : x.blockAt d (off / bsize) ≠ 0 := h 0 hpos
      refine (bmap_silent hfirst).bind fun r hr => ?_
      rw [erase_bmap, bmap_of_blockAt hfirst] at hr
      obtain rfl : (x.blockAt d (off / bsize), x, d) = r := by simpa using hr
      refine (ih fun k hk => ?_).bind fun _ _ => Silent.pure _
      rw [Nat.add_assoc]
      exact h _ (by omega)
    · exact .pure _

theorem readi_silent (hc : Consistent sb d) (hi : i < sb.ninodes) (hx : (din sb d i).type ≠ 0) (hoff : off < 2 ^ 32)
    (hn : n < 2 ^ 32) : Silent (readi sb d (din sb d i) off n) := by
  unfold readi
  split_ifs with hdev hfail hlong
  · exact .pure _
  · exact .pure _
  · exact (readLoop_silent fun k hk => (hc.sized i hi hx hdev).block (by omega)).bind fun _ _ => Silent.pure _
  · exact (readLoop_silent fun k hk => (hc.sized i hi hx hdev).block (by omega)).bind fun _ _ => Silent.pure _

/-! ## The inode cache -/

section Cache

variable {K : Dinode → Disk → Prop} {s : State} {dp ip : ℕ} (hg : Good K sb s)

include hg

theorem iput_logs (hsize : sb.size ≤ 2 * bpb) (hl : sb.iblock i ∈ l) : Logs sb l (iput sb s i) := by
  unfold iput
  cases hx : s.mem i with
  | none => exact (Logs.pure s).bind fun _ _ => .pure _
  | some x =>
    rcases hg.mem i x hx with ⟨hi, rfl, htype⟩
    have hmaps : Maps sb (update (din sb s.disk) i (din sb s.disk i)) s.disk := by
      rw [update_eq_self]
      exact hg.cons.maps
    simp only
    split_ifs
    · refine (itrunc_logs hsize hi htype hmaps hl).bind fun r _ => ?_
      exact (Logs.iupdate hl).bind fun d1 _ => (Logs.pure _).bind fun _ _ => .pure _
    · exact (Logs.pure s).bind fun _ _ => .pure _

theorem iput_silent (h : (din sb s.disk i).nlink ≠ 0 ∨ s.ref i ≠ 1) : Silent (iput sb s i) := by
  unfold iput
  cases hx : s.mem i with
  | none => exact (Silent.pure s).bind fun _ _ => Silent.pure _
  | some x =>
    obtain rfl := (hg.mem i x hx).2.1
    have hnot : ¬ ((din sb s.disk i).nlink = 0 ∧ s.ref i = 1) := by
      rintro ⟨hnlink, href⟩
      exact h.elim (absurd hnlink) (absurd href)
    simp only [if_neg hnot]
    exact (Silent.pure s).bind fun _ _ => Silent.pure _

theorem stateWritei_leaves (hsize : sb.size ≤ 2 * bpb) (src : ℕ → UInt8) (hlock : Locked sb s i) :
    Leaves (stateWritei sb s i off n src) fun _ w =>
      ∃ a l, l.length ≤ (blocksOf off n).length ∧ Covered sb (sb.iblock i :: a :: l) w := by
  rcases hg.of_locked hlock with ⟨hi, htype⟩
  have hmaps : Maps sb (update (din sb s.disk) i (din sb s.disk i)) s.disk := by
    rw [update_eq_self]
    exact hg.cons.maps
  unfold stateWritei
  rw [hlock.inode]
  refine Leaves.bind (writei_leaves hsize src hi htype hmaps) ?_
  rintro r w1 _ ⟨a, l, hlen, h1⟩
  exact Leaves.pure ⟨a, l, hlen, h1.append .nil⟩

/-! ## Directories -/

section Dir

variable (hlock : Locked sb s dp)

include hlock

theorem readDirent_silent (hoff : off < 2 ^ 32) : Silent (readDirent sb s dp off) := by
  rcases hg.of_locked hlock with ⟨hi, htype⟩
  have hread : Silent (stateReadi sb s dp off direntSize) := by
    unfold stateReadi
    rw [hlock.inode]
    exact (readi_silent hg.cons hi htype hoff (by decide)).bind fun _ _ => Silent.pure _
  refine hread.bind ?_
  rintro ⟨r, s1⟩ _
  cases r with
  | done bytes =>
    simp only
    split_ifs
    · exact Silent.pure _
    · exact Silent.pure _
  | fail => exact Silent.pure _
  | device => exact Silent.pure _

theorem scanDir_silent (failed : Panic) (stop : Dirent → Bool) : Silent (scanDir sb failed stop turns s dp off) := by
  induction turns generalizing off with
  | zero => exact .pure _
  | succ turns ih =>
    rw [scanDir]
    split_ifs with hmore
    · have hoff : off < 2 ^ 32 := Nat.lt_trans hmore (s.inode dp).size.toNat_lt
      refine (readDirent_silent hg hlock hoff).bind ?_
      rintro ⟨r, s1⟩ hr
      have hs1 : s1 = s := by
        rcases State.readi_unchanged hg hlock hoff (n := direntSize) (by decide) with ⟨r', hread⟩
        rw [erase_readDirent, Fs.readDirent, hread, ok_bind] at hr
        cases r' with
        | done bytes =>
          simp only at hr
          split_ifs at hr
          · exact (Prod.mk.inj (Except.ok.inj hr)).2.symm
          · exact (Prod.mk.inj (Except.ok.inj hr)).2.symm
        | fail => exact (Prod.mk.inj (Except.ok.inj hr)).2.symm
        | device => exact (Prod.mk.inj (Except.ok.inj hr)).2.symm
      subst hs1
      cases r with
      | none => exact Silent.lift _
      | some de =>
        simp only
        split_ifs
        · exact Silent.pure _
        · exact ih
    · exact .pure _

theorem dirlookup_silent (name : List UInt8) : Silent (dirlookup sb s dp name) := by
  unfold dirlookup
  split_ifs
  · exact .lift _
  refine (scanDir_silent hg hlock _ _).bind ?_
  rintro ⟨r, off, s1⟩ _
  cases r with
  | none => exact Silent.pure _
  | some de => exact Silent.pure _

theorem isdirempty_silent : Silent (isdirempty sb s dp) := (scanDir_silent hg hlock _ _).bind fun _ _ => Silent.pure _

end Dir

end Cache

end Logged
end Xv6.Fs
