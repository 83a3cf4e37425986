import Mathlib.Algebra.BigOperators.Group.List.Basic
import Mathlib.Data.List.Pairwise
import Xv6.User.Umalloc

/-!
# FreeList — what `free`, `morecore` and `malloc` do to the free list

The list begins with `base`, an empty block below all others, so that it is increasing from there on.  `free`
finds the place of a block from any element, joins it to its neighbours (`FreeList.free`), and `malloc` takes a
whole block or the upper part of one (`FreeList.take`).  What blocks cover is a set of addresses; it says which
memory has changed hands.
-/

namespace Xv6.Umalloc

open Function (update update_eq_self update_of_ne update_self)
open Common

/-! ## The list -/

/-- The free blocks are `l`, in increasing order, and no two of them overlap or touch. -/
structure FreeList (h : Heap) (l : List ℕ) : Prop where
  linked : Linked h.ptr (h.base :: l)
  apart : (h.base :: l).Pairwise fun a b => h.stop a < b
  base : h.size h.base = 0
  pos : ∀ a ∈ l, 0 < h.size a
  low : ∀ a ∈ l, h.base + headerSize ≤ a
  high : ∀ a ∈ l, h.stop a ≤ h.brk
  freep : h.freep ∈ h.base :: l

section FreeList

variable {h : Heap} {l xs ys : List ℕ} {bp p : ℕ}

theorem le_stop (h : Heap) (a : ℕ) : a ≤ h.stop a := Nat.le_add_right _ _

variable {a b n prevp : ℕ}

theorem lt_stop (ha : 0 < h.size a) : a < h.stop a := by
  simp only [Heap.stop, headerSize]
  omega

theorem FreeList.sorted (hf : FreeList h l) : (h.base :: l).Pairwise (· < ·) :=
  hf.apart.imp fun hab => Nat.lt_of_le_of_lt (le_stop h _) hab

theorem FreeList.base_le (hf : FreeList h l) (ha : a ∈ h.base :: l) : h.base ≤ a := by
  rcases List.mem_cons.1 ha with rfl | ha
  · exact Nat.le_refl _
  · exact Nat.le_trans (Nat.le_add_right _ _) (hf.low a ha)

theorem FreeList.mem_split (hsplit : h.base :: l = xs ++ p :: ys) : p ∈ h.base :: l := by
  rw [hsplit]
  exact List.mem_append_right _ List.mem_cons_self

/-- The last block points back to `base`. -/
theorem FreeList.next (hf : FreeList h l) (hsplit : h.base :: l = xs ++ p :: ys) : h.ptr p = ys.headD h.base := by
  have hlinked := hf.linked
  rw [hsplit] at hlinked
  have hnext := hlinked.head_next (by rw [← hsplit]; rfl)
  cases ys with
  | nil => simpa using hnext.symm
  | cons y ys => simpa using hnext.symm

/-- The loop of `free` can only stop in front of the place of the block. -/
theorem FreeList.fits_iff (hf : FreeList h l) (hsplit : h.base :: l = xs ++ p :: ys) (hbp : h.base < bp) :
    h.fits bp p = true ↔ p < bp ∧ ∀ y ∈ ys, bp < y := by
  have hsorted := hf.sorted
  rw [hsplit] at hsorted
  have hbase : h.base ≤ p := hf.base_le (FreeList.mem_split hsplit)
  rcases List.pairwise_cons.1 (List.pairwise_append.1 hsorted).2.1 with ⟨hp, hys⟩
  simp only [Heap.fits, hf.next hsplit, Bool.or_eq_true, Bool.and_eq_true, decide_eq_true_eq]
  cases ys with
  | nil =>
    simp only [List.headD_nil, List.not_mem_nil, false_implies, implies_true, and_true]
    omega
  | cons y ys =>
    have hpy : p < y := hp y List.mem_cons_self
    have hall : (∀ z ∈ y :: ys, bp < z) ↔ bp < y := by
      refine ⟨fun hz => hz y List.mem_cons_self, fun hy => List.forall_mem_cons.2 ⟨hy, fun z hz => ?_⟩⟩
      exact Nat.lt_trans hy ((List.pairwise_cons.1 hys).1 z hz)
    rw [hall, List.headD_cons]
    omega

theorem exists_place (hsorted : (a :: l).Pairwise (· < ·)) (ha : a < bp) :
    ∃ xs p ys, a :: l = xs ++ p :: ys ∧ p < bp ∧ ∀ y ∈ ys, bp ≤ y := by
  induction l generalizing a with
  | nil => exact ⟨[], a, [], rfl, ha, by simp⟩
  | cons b l ih =>
    rcases List.pairwise_cons.1 hsorted with ⟨_, hl⟩
    by_cases hb : b < bp
    · rcases ih hl hb with ⟨xs, p, ys, hsplit, hp, hys⟩
      exact ⟨a :: xs, p, ys, by rw [hsplit]; rfl, hp, hys⟩
    · refine ⟨[], a, b :: l, rfl, ha, fun y hy => ?_⟩
      rcases List.mem_cons.1 hy with rfl | hy
      · exact Nat.le_of_not_lt hb
      · exact Nat.le_trans (Nat.le_of_not_lt hb) (Nat.le_of_lt ((List.pairwise_cons.1 hl).1 y hy))

theorem FreeList.exists_fits (hf : FreeList h l) (hbp : h.base < bp) (hnew : bp ∉ l) :
    ∃ p ∈ h.base :: l, h.fits bp p = true := by
  rcases exists_place hf.sorted hbp with ⟨xs, p, ys, hsplit, hp, hys⟩
  refine ⟨p, FreeList.mem_split hsplit, (hf.fits_iff hsplit hbp).2 ⟨hp, fun y hy => ?_⟩⟩
  refine Nat.lt_of_le_of_ne (hys y hy) ?_
  rintro rfl
  have hmem : bp ∈ h.base :: l := by rw [hsplit]; simp [hy]
  exact hnew ((List.mem_cons.1 hmem).resolve_left hbp.ne')

theorem FreeList.place_spec (hf : FreeList h l) (hlen : l.length ≤ h.brk) (hbp : h.base < bp) (hnew : bp ∉ l) :
    ∃ xs ys, h.base :: l = xs ++ h.place bp :: ys ∧ h.place bp < bp ∧ ∀ y ∈ ys, bp < y := by
  rcases hf.linked.exists_front hf.freep with ⟨m, hr, hm⟩
  obtain ⟨p, hp, hfits⟩ := hf.exists_fits hbp hnew
  have hmlen : (h.freep :: m).length ≤ h.brk + 1 := by
    rw [← hr.perm.length_eq, List.length_cons]
    omega
  rcases hm.seek_first (h.fits bp) rfl ⟨p, hr.mem_iff.1 hp, hfits⟩ hmlen with ⟨l1, l2, hsplit, hstop, _⟩
  have hmem : h.place bp ∈ h.base :: l := by
    rw [hr.mem_iff, hsplit]
    simp [Heap.place]
  rcases List.append_of_mem hmem with ⟨xs, ys, hxs⟩
  exact ⟨xs, ys, hxs, (hf.fits_iff hxs hbp).1 hstop⟩

/-! ## `free` -/

def Heap.Within (h : Heap) (a x : ℕ) : Prop :=
  a ≤ x ∧ x < h.stop a

/-- A block that is not free. -/
structure Outside (h : Heap) (l : List ℕ) (bp : ℕ) : Prop where
  pos : 0 < h.size bp
  low : h.base + headerSize ≤ bp
  high : h.stop bp ≤ h.brk
  disjoint : ∀ a ∈ l, ∀ x, h.Within a x → ¬ h.Within bp x

/-- Two blocks without a common address lie one after the other. -/
theorem stop_le_or (ha : 0 < h.size a) (hb : 0 < h.size b) (hdisj : ∀ x, h.Within a x → ¬ h.Within b x) :
    h.stop a ≤ b ∨ h.stop b ≤ a := by
  by_contra hnot
  have hab := lt_stop ha
  have hbb := lt_stop hb
  rcases Nat.le_total a b with hle | hle
  · exact hdisj b ⟨hle, by omega⟩ ⟨Nat.le_refl _, hbb⟩
  · exact hdisj a ⟨Nat.le_refl _, hab⟩ ⟨hle, by omega⟩

theorem Outside.base_lt (hout : Outside h l bp) : h.base < bp := by
  have hlow := hout.low
  simp only [headerSize] at hlow
  omega

theorem Outside.not_mem (hout : Outside h l bp) : bp ∉ h.base :: l := by
  intro hmem
  rcases List.mem_cons.1 hmem with heq | hmem
  · exact Nat.lt_irrefl _ (heq ▸ hout.base_lt)
  · have hself : h.Within bp bp := ⟨Nat.le_refl _, lt_stop hout.pos⟩
    exact hout.disjoint bp hmem bp hself hself

/-- The block with what it has been joined to, above, and the free blocks `zs` that are left there. -/
structure Spliced (h : Heap) (xs ys zs : List ℕ) (bp p next size : ℕ) : Prop where
  eq : h.joinUpper bp p = { h with ptr := update h.ptr bp next, size := update h.size bp size }
  linked : Linked (update (update h.ptr bp next) p bp) (xs ++ p :: bp :: zs)
  suffix : zs <:+ ys
  pos : 0 < size
  below : ∀ z ∈ zs, bp + headerSize * size < z
  high : bp + headerSize * size ≤ h.brk
  total : (zs.map h.size).sum + size = (ys.map h.size).sum + h.size bp
  covers : ∀ x, (∃ a ∈ zs, h.Within a x) ∨ (bp ≤ x ∧ x < bp + headerSize * size) ↔
    (∃ a ∈ ys, h.Within a x) ∨ h.Within bp x

theorem FreeList.joinUpper (hf : FreeList h l) (hout : Outside h l bp) (hsplit : h.base :: l = xs ++ p :: ys)
    (hp : p < bp) (hys : ∀ y ∈ ys, bp < y) : ∃ zs next size, Spliced h xs ys zs bp p next size := by
  have hbase := hout.base_lt
  -- The blocks above begin after the block.
  have habove : ∀ y ∈ ys, y ∈ l ∧ h.stop bp ≤ y := by
    intro y hy
    have hlt := hys y hy
    have hmem : y ∈ h.base :: l := by rw [hsplit]; simp [hy]
    have hmem' : y ∈ l := (List.mem_cons.1 hmem).resolve_left (by omega)
    refine ⟨hmem', ?_⟩
    have hle := le_stop h y
    rcases stop_le_or (hf.pos y hmem') hout.pos (hout.disjoint y hmem') with hstop | hstop
    · omega
    · exact hstop
  have hlinked := hf.linked
  have hapart := hf.apart
  rw [hsplit] at hlinked hapart
  have hnext := hf.next hsplit
  have hnew : bp ∉ xs ++ p :: ys := by
    rw [← hsplit]
    exact hout.not_mem
  have hinsert := hlinked.insert_after hnew
  by_cases hjoin : h.stop bp = h.ptr p
  · cases ys with
    | nil =>
      -- There is nothing above.
      have hback : h.ptr p = h.base := hnext
      have hle := le_stop h bp
      omega
    | cons y ys =>
      have hy : h.ptr p = y := hnext
      rw [hy] at hjoin hinsert
      have hbpy : bp < y := hys y List.mem_cons_self
      have hyp : y ≠ p := by omega
      have hyl := (habove y List.mem_cons_self).1
      rcases List.pairwise_append.1 hapart with ⟨_, hafter, _⟩
      have hyafter := (List.pairwise_cons.1 (List.pairwise_cons.1 hafter).2).1
      have hend : bp + headerSize * (h.size bp + h.size y) = h.stop y := by
        simp only [Heap.stop] at hjoin ⊢
        rw [Nat.mul_add]
        omega
      have hremove : Linked _ ((xs ++ [p]) ++ bp :: ys) :=
        Linked.remove_after (l := xs ++ [p]) (by simpa using hinsert)
      refine ⟨ys, h.ptr y, h.size bp + h.size y, ?_, ?_, List.suffix_cons y ys, ?_, ?_, ?_, ?_, ?_⟩
      · rw [Heap.joinUpper, hy, if_pos hjoin]
        rfl
      · have hsame : xs ++ p :: bp :: ys = (xs ++ [p]) ++ bp :: ys := by simp
        rw [hsame]
        refine hremove.congr fun x _ => ?_
        by_cases hxp : x = p
        · subst hxp
          simp [hp.ne]
        · by_cases hxb : x = bp
          · subst hxb
            simp [hp.ne', hyp, hbpy.ne']
          · simp [hxp, hxb]
      · exact Nat.lt_of_lt_of_le hout.pos (Nat.le_add_right _ _)
      · intro z hz
        rw [hend]
        exact hyafter z hz
      · rw [hend]
        exact hf.high y hyl
      · rw [List.map_cons, List.sum_cons]
        omega
      · intro x
        simp only [List.mem_cons, exists_eq_or_imp]
        rw [hend]
        have hcut : (bp ≤ x ∧ x < h.stop y) ↔ h.Within y x ∨ h.Within bp x := by
          have hle := le_stop h y
          simp only [Heap.Within]
          omega
        rw [hcut, or_left_comm, or_assoc]
  · refine ⟨ys, h.ptr p, h.size bp, ?_, hinsert, List.suffix_refl ys, hout.pos, ?_, hout.high, rfl, fun x => Iff.rfl⟩
    · rw [Heap.joinUpper, if_neg hjoin, update_eq_self]
      rfl
    intro z hz
    cases ys with
    | nil => cases hz
    | cons y ys =>
      rw [hnext] at hjoin
      rcases List.pairwise_append.1 hapart with ⟨_, hafter, _⟩
      have hyafter := (List.pairwise_cons.1 (List.pairwise_cons.1 hafter).2).1
      have hfirst : h.stop bp < y := Nat.lt_of_le_of_ne (habove y List.mem_cons_self).2 hjoin
      rcases List.mem_cons.1 hz with rfl | hz
      · exact hfirst
      · exact Nat.lt_trans (Nat.lt_of_lt_of_le hfirst (le_stop h y)) (hyafter z hz)

/-- What `free` leaves: the list with one block more, or the block joined to its neighbours. -/
structure Freed (h h' : Heap) (l l' : List ℕ) (bp : ℕ) : Prop where
  list : FreeList h' l'
  brk : h'.brk = h.brk
  core : h'.core = h.core
  base : h'.base = h.base
  total : (l'.map h'.size).sum = (l.map h.size).sum + h.size bp
  covers : ∀ x, (∃ a ∈ l', h'.Within a x) ↔ (∃ a ∈ l, h.Within a x) ∨ h.Within bp x
  others : ∀ c, c ∉ h.base :: l → c ≠ bp → h'.size c = h.size c

/-- A list that begins with `base`. -/
theorem FreeList.of_ring {L : List ℕ} (hhead : L.head? = some h.base) (hlinked : Linked h.ptr L)
    (hapart : L.Pairwise fun a b => h.stop a < b) (hbase : h.size h.base = 0)
    (hblocks : ∀ a ∈ L, a ≠ h.base → 0 < h.size a ∧ h.base + headerSize ≤ a ∧ h.stop a ≤ h.brk)
    (hfreep : h.freep ∈ L) : L = h.base :: L.tail ∧ FreeList h L.tail := by
  obtain ⟨l, rfl⟩ : ∃ l, L = h.base :: l := by
    cases L with
    | nil => cases hhead
    | cons a l => exact ⟨l, by simpa using hhead⟩
  have hne : ∀ a ∈ l, a ≠ h.base := by
    rintro a ha rfl
    exact (List.nodup_cons.1 hlinked.nodup).1 ha
  refine ⟨rfl, hlinked, hapart, hbase, ?_, ?_, ?_, hfreep⟩
  · exact fun a ha => (hblocks a (List.mem_cons_of_mem _ ha) (hne a ha)).1
  · exact fun a ha => (hblocks a (List.mem_cons_of_mem _ ha) (hne a ha)).2.1
  · exact fun a ha => (hblocks a (List.mem_cons_of_mem _ ha) (hne a ha)).2.2

theorem exists_within_base (hbase : h.size h.base = 0) (x : ℕ) :
    (∃ a ∈ h.base :: l, h.Within a x) ↔ ∃ a ∈ l, h.Within a x := by
  have hnot : ¬ h.Within h.base x := by
    simp only [Heap.Within, Heap.stop, hbase]
    omega
  simp [hnot]

/-- A block in front of its place, between `xs`, `p` and `ys`. -/
structure Placed (h : Heap) (l xs ys : List ℕ) (bp p : ℕ) : Prop where
  list : FreeList h l
  outside : Outside h l bp
  split : h.base :: l = xs ++ p :: ys
  lt : p < bp
  above : ∀ y ∈ ys, bp < y

section Placed

variable {zs : List ℕ} {next size : ℕ}

theorem Placed.stop_le (hp : Placed h l xs ys bp p) : h.stop p ≤ bp := by
  have hbase := hp.outside.base_lt
  rcases List.mem_cons.1 (FreeList.mem_split hp.split) with rfl | hpl
  · simp only [Heap.stop, hp.list.base]
    omega
  have hlt := hp.lt
  have hle := lt_stop hp.outside.pos
  rcases stop_le_or (hp.list.pos p hpl) hp.outside.pos (hp.outside.disjoint p hpl) with hstop | hstop
  · exact hstop
  · omega

theorem Placed.ne_of_mem (hp : Placed h l xs ys bp p) {a : ℕ} (ha : a ∈ xs ++ p :: ys) : a ≠ bp := by
  rintro rfl
  rw [← hp.split] at ha
  exact hp.outside.not_mem ha

variable {h' : Heap}

/-- The blocks below `p` stay as they are; what counts is the list from `p` on. -/
theorem Placed.rebuild (hp : Placed h l xs ys bp p) (ws : List ℕ) (hlinked : Linked h'.ptr (xs ++ p :: ws))
    (hfreep : h'.freep = p) (heq : h'.base = h.base ∧ h'.brk = h.brk ∧ h'.core = h.core)
    (hsize : ∀ a, a ∉ p :: ys → a ≠ bp → h'.size a = h.size a) (hbase : h'.size h.base = 0) (hge : ∀ w ∈ ws, p < w)
    (hapart : (p :: ws).Pairwise fun a b => h'.stop a < b)
    (hblocks : ∀ a ∈ p :: ws, a ≠ h.base → 0 < h'.size a ∧ h.base + headerSize ≤ a ∧ h'.stop a ≤ h.brk)
    (htotal : ((p :: ws).map h'.size).sum = ((p :: ys).map h.size).sum + h.size bp)
    (hcovers : ∀ x, (∃ a ∈ p :: ws, h'.Within a x) ↔ (∃ a ∈ p :: ys, h.Within a x) ∨ h.Within bp x) :
    ∃ l', Freed h h' l l' bp := by
  have hold := hp.list.apart
  have hnodup := hp.list.linked.nodup
  rw [hp.split] at hold hnodup
  rcases List.pairwise_append.1 hold with ⟨hxs, _, hcross⟩
  have hxsize : ∀ a ∈ xs, h'.size a = h.size a := by
    intro a ha
    refine hsize a (fun hmem => ?_) (hp.ne_of_mem (List.mem_append_left _ ha))
    exact (List.nodup_append.1 hnodup).2.2 a ha a hmem rfl
  have hxstop : ∀ a ∈ xs, h'.stop a = h.stop a := fun a ha => by simp only [Heap.stop, hxsize a ha]
  have hxwithin : ∀ a ∈ xs, ∀ x, h'.Within a x ↔ h.Within a x := fun a ha x => by
    simp only [Heap.Within, hxstop a ha]
  have hhead : (xs ++ p :: ws).head? = some h'.base := by
    have hhead' : (xs ++ p :: ys).head? = some h.base := by rw [← hp.split]; rfl
    rw [heq.1, ← hhead']
    cases xs with
    | nil => rfl
    | cons x xs => rfl
  have hring : xs ++ p :: ws = h'.base :: (xs ++ p :: ws).tail ∧ FreeList h' (xs ++ p :: ws).tail := by
    refine FreeList.of_ring hhead hlinked (List.pairwise_append.2 ⟨?_, hapart, ?_⟩) ?_ ?_ (by simp [hfreep])
    · refine hxs.imp_of_mem fun {a b} ha _ hab => ?_
      rw [hxstop a ha]
      exact hab
    · intro a ha b hb
      rw [hxstop a ha]
      have hap := hcross a ha p List.mem_cons_self
      rcases List.mem_cons.1 hb with rfl | hb
      · exact hap
      · exact Nat.lt_trans hap (hge b hb)
    · rw [heq.1]
      exact hbase
    · intro a ha hne
      rw [heq.1] at hne ⊢
      rw [heq.2.1]
      rcases List.mem_append.1 ha with ha | ha
      · have hmem : a ∈ h.base :: l := by rw [hp.split]; exact List.mem_append_left _ ha
        have hal := (List.mem_cons.1 hmem).resolve_left hne
        rw [hxstop a ha, hxsize a ha]
        exact ⟨hp.list.pos a hal, hp.list.low a hal, hp.list.high a hal⟩
      · exact hblocks a ha hne
  refine ⟨(xs ++ p :: ws).tail, hring.2, heq.2.1, heq.2.2, heq.1, ?_, ?_, ?_⟩
  · have hsum : ((h'.base :: (xs ++ p :: ws).tail).map h'.size).sum = ((h.base :: l).map h.size).sum + h.size bp := by
      rw [← hring.1, hp.split, List.map_append, List.sum_append, htotal, List.map_append, List.sum_append,
        List.map_congr_left hxsize, Nat.add_assoc]
    rwa [List.map_cons, List.sum_cons, List.map_cons, List.sum_cons, heq.1, hbase, hp.list.base, Nat.zero_add,
      Nat.zero_add] at hsum
  · intro x
    have hzero : h'.size h'.base = 0 := by rw [heq.1, hbase]
    rw [← exists_within_base hzero, ← hring.1, ← exists_within_base hp.list.base, hp.split]
    simp only [List.mem_append, or_and_right, exists_or]
    rw [hcovers x, ← or_assoc]
    refine or_congr (or_congr ?_ Iff.rfl) Iff.rfl
    exact exists_congr fun a => and_congr_right fun ha => hxwithin a ha x
  · intro c hc hne
    rw [hp.split] at hc
    exact hsize c (fun hmem => hc (List.mem_append_right _ hmem)) hne

theorem Placed.mem_list (hp : Placed h l xs ys bp p) {y : ℕ} (hy : y ∈ ys) : y ∈ l := by
  have hmem : y ∈ h.base :: l := by rw [hp.split]; simp [hy]
  have hlt := hp.above y hy
  have hbase := hp.outside.base_lt
  exact (List.mem_cons.1 hmem).resolve_left (by omega)

theorem Placed.above_apart (hp : Placed h l xs ys bp p) (hs : Spliced h xs ys zs bp p next size)
    (hsize : ∀ z ∈ zs, h'.size z = h.size z) : zs.Pairwise fun a b => h'.stop a < b := by
  have hold := hp.list.apart
  rw [hp.split] at hold
  rcases List.pairwise_append.1 hold with ⟨_, hafter, _⟩
  refine ((List.pairwise_cons.1 hafter).2.sublist hs.suffix.sublist).imp_of_mem fun {a b} ha _ hab => ?_
  simp only [Heap.stop, hsize a ha] at hab ⊢
  exact hab

theorem within_congr {x : ℕ} (hsize : ∀ z ∈ zs, h'.size z = h.size z) :
    (∃ a ∈ zs, h'.Within a x) ↔ ∃ a ∈ zs, h.Within a x := by
  refine exists_congr fun a => and_congr_right fun ha => ?_
  simp only [Heap.Within, Heap.stop, hsize a ha]

theorem Placed.joined (hp : Placed h l xs ys bp p) (hs : Spliced h xs ys zs bp p next size) (hjoin : h.stop p = bp) :
    ∃ l', Freed h
      { h with
        ptr := update (update h.ptr bp next) p next
        size := update (update h.size bp size) p (h.size p + size)
        freep := p } l l' bp := by
  have hbase := hp.outside.base_lt
  have hlt := hp.lt
  have hpbase : p ≠ h.base := by
    rintro rfl
    simp only [Heap.stop, hp.list.base] at hjoin
    omega
  have hpl : p ∈ l := (List.mem_cons.1 (FreeList.mem_split hp.split)).resolve_left hpbase
  have hzs : ∀ z ∈ zs, z ∈ ys ∧ bp < z := fun z hz => ⟨hs.suffix.subset hz, hp.above z (hs.suffix.subset hz)⟩
  have hzsize : ∀ z ∈ zs, update (update h.size bp size) p (h.size p + size) z = h.size z := by
    intro z hz
    have hz' := (hzs z hz).2
    rw [update_of_ne (by omega), update_of_ne (by omega)]
  have hpstop : p + headerSize * (h.size p + size) = bp + headerSize * size := by
    rw [Nat.mul_add, ← Nat.add_assoc, ← hjoin]
    rfl
  refine hp.rebuild zs ?_ rfl ⟨rfl, rfl, rfl⟩ ?_ ?_ ?_ (List.pairwise_cons.2 ⟨?_, ?_⟩) ?_ ?_ ?_
  · -- `p` now points to where the block pointed.
    have hremove := hs.linked.remove_after
    refine hremove.congr fun x _ => ?_
    by_cases hxp : x = p
    · subst hxp
      simp [hlt.ne']
    · simp [hxp]
  · intro a ha hne
    have hap : a ≠ p := fun heq => ha (heq ▸ List.mem_cons_self)
    simp only [update_of_ne hap, update_of_ne hne]
  · simp only [update_of_ne hpbase.symm, update_of_ne hbase.ne]
    exact hp.list.base
  · intro z hz
    exact Nat.lt_trans hlt (hzs z hz).2
  · intro z hz
    simp only [Heap.stop, update_self, hpstop]
    exact hs.below z hz
  · exact hp.above_apart hs hzsize
  · intro a ha _
    rcases List.mem_cons.1 ha with rfl | ha
    · refine ⟨?_, hp.list.low a hpl, ?_⟩
      · simp only [update_self]
        exact Nat.lt_of_lt_of_le hs.pos (Nat.le_add_left _ _)
      · simp only [Heap.stop, update_self, hpstop]
        exact hs.high
    · have hal := hp.mem_list (hzs a ha).1
      simp only [Heap.stop, hzsize a ha]
      exact ⟨hp.list.pos a hal, hp.list.low a hal, hp.list.high a hal⟩
  · have htotal := hs.total
    simp only [List.map_cons, List.sum_cons, update_self, List.map_congr_left hzsize]
    omega
  · intro x
    have hcut : Heap.Within { h with
        ptr := update (update h.ptr bp next) p next
        size := update (update h.size bp size) p (h.size p + size)
        freep := p } p x ↔ h.Within p x ∨ (bp ≤ x ∧ x < bp + headerSize * size) := by
      simp only [Heap.Within, Heap.stop, update_self, hpstop] at hjoin ⊢
      omega
    simp only [List.mem_cons, exists_eq_or_imp]
    refine (or_congr hcut (within_congr hzsize)).trans ?_
    rw [or_assoc, or_assoc]
    refine or_congr Iff.rfl ?_
    rw [or_comm]
    exact hs.covers x

theorem Placed.apart (hp : Placed h l xs ys bp p) (hs : Spliced h xs ys zs bp p next size) (hjoin : h.stop p ≠ bp) :
    ∃ l', Freed h
      { h with
        ptr := update (update h.ptr bp next) p bp
        size := update h.size bp size
        freep := p } l l' bp := by
  have hbase := hp.outside.base_lt
  have hlt := hp.lt
  have hpbp : h.stop p < bp := Nat.lt_of_le_of_ne hp.stop_le hjoin
  have hzs : ∀ z ∈ zs, z ∈ ys ∧ bp < z := fun z hz => ⟨hs.suffix.subset hz, hp.above z (hs.suffix.subset hz)⟩
  have hsize : ∀ z, z ≠ bp → update h.size bp size z = h.size z := fun z hz => update_of_ne hz _ _
  have hold := hp.list.apart
  rw [hp.split] at hold
  rcases List.pairwise_append.1 hold with ⟨_, hafter, _⟩
  refine hp.rebuild (bp :: zs) hs.linked rfl ⟨rfl, rfl, rfl⟩ (fun a _ hne => hsize a hne) ?_ ?_
    (List.pairwise_cons.2 ⟨?_, List.pairwise_cons.2 ⟨?_, ?_⟩⟩) ?_ ?_ ?_
  · simp only [hsize _ hbase.ne]
    exact hp.list.base
  · intro w hw
    rcases List.mem_cons.1 hw with rfl | hw
    · exact hlt
    · exact Nat.lt_trans hlt (hzs w hw).2
  · intro w hw
    simp only [Heap.stop, hsize p hlt.ne] at hpbp ⊢
    rcases List.mem_cons.1 hw with rfl | hw
    · exact hpbp
    · exact (List.pairwise_cons.1 hafter).1 w (hzs w hw).1
  · intro z hz
    simp only [Heap.stop, update_self]
    exact hs.below z hz
  · exact hp.above_apart hs fun z hz => hsize z (hzs z hz).2.ne'
  · intro a ha hne
    rcases List.mem_cons.1 ha with rfl | ha
    · have hal := (List.mem_cons.1 (FreeList.mem_split hp.split)).resolve_left hne
      simp only [Heap.stop, hsize a hlt.ne]
      exact ⟨hp.list.pos a hal, hp.list.low a hal, hp.list.high a hal⟩
    rcases List.mem_cons.1 ha with rfl | ha
    · simp only [Heap.stop, update_self]
      exact ⟨hs.pos, hp.outside.low, hs.high⟩
    · have hal := hp.mem_list (hzs a ha).1
      simp only [Heap.stop, hsize a (hzs a ha).2.ne']
      exact ⟨hp.list.pos a hal, hp.list.low a hal, hp.list.high a hal⟩
  · have htotal := hs.total
    have hzsize : zs.map (update h.size bp size) = zs.map h.size :=
      List.map_congr_left fun z hz => hsize z (hzs z hz).2.ne'
    simp only [List.map_cons, List.sum_cons, update_self, hzsize, hsize p hlt.ne]
    omega
  · intro x
    simp only [List.mem_cons, exists_eq_or_imp]
    refine (or_congr (c := h.Within p x) ?_ (or_congr (c := bp ≤ x ∧ x < bp + headerSize * size) ?_
      (within_congr fun z hz => hsize z (hzs z hz).2.ne'))).trans ?_
    · simp only [Heap.Within, Heap.stop, hsize p hlt.ne]
    · simp only [Heap.Within, Heap.stop, update_self]
    · rw [or_assoc]
      refine or_congr Iff.rfl ?_
      rw [or_comm]
      exact hs.covers x

end Placed

theorem FreeList.free (hf : FreeList h l) (hlen : l.length ≤ h.brk) (hout : Outside h l bp) :
    ∃ l', Freed h (h.free (bp + headerSize)) l l' bp := by
  have hnot := hout.not_mem
  rcases hf.place_spec hlen hout.base_lt (fun hmem => hnot (List.mem_cons_of_mem _ hmem)) with
    ⟨xs, ys, hsplit, hlt, hys⟩
  have hp : Placed h l xs ys bp (h.place bp) := ⟨hf, hout, hsplit, hlt, hys⟩
  rcases hf.joinUpper hout hsplit hlt hys with ⟨zs, next, size, hs⟩
  have hstop : Heap.stop { h with ptr := update h.ptr bp next, size := update h.size bp size }
      (h.place bp) = h.stop (h.place bp) := by
    simp only [Heap.stop, update_of_ne hlt.ne]
  have hfree : h.free (bp + headerSize) =
      { (h.joinUpper bp (h.place bp)).joinLower bp (h.place bp) with freep := h.place bp } := by
    simp only [Heap.free, Nat.add_sub_cancel]
  rw [hfree, hs.eq, Heap.joinLower, hstop]
  split_ifs with hjoin
  · simpa [Heap.setPtr, Heap.setSize, update_of_ne hlt.ne] using hp.joined hs hjoin
  · exact hp.apart hs hjoin

/-! ## `morecore` -/

theorem FreeList.length_le (hf : FreeList h l) : l.length ≤ (l.map h.size).sum := by
  have hpos := hf.pos
  clear hf
  induction l with
  | nil => simp
  | cons a l ih =>
    have ha := hpos a List.mem_cons_self
    have hl := ih fun b hb => hpos b (List.mem_cons_of_mem _ hb)
    rw [List.length_cons, List.map_cons, List.sum_cons]
    omega

theorem FreeList.of_heap {h' : Heap} (hf : FreeList h l) (heq : h'.base = h.base ∧ h'.freep = h.freep)
    (hbrk : h.brk ≤ h'.brk) (hsame : ∀ a ∈ h.base :: l, h'.ptr a = h.ptr a ∧ h'.size a = h.size a) :
    FreeList h' l := by
  have hstop : ∀ a ∈ h.base :: l, h'.stop a = h.stop a := fun a ha => by simp only [Heap.stop, (hsame a ha).2]
  refine ⟨?_, ?_, ?_, ?_, ?_, ?_, ?_⟩
  · rw [heq.1]
    exact hf.linked.congr fun a ha => (hsame a ha).1
  · rw [heq.1]
    refine hf.apart.imp_of_mem fun {a b} ha _ hab => ?_
    rw [hstop a ha]
    exact hab
  · rw [heq.1, (hsame _ List.mem_cons_self).2]
    exact hf.base
  · intro a ha
    rw [(hsame a (List.mem_cons_of_mem _ ha)).2]
    exact hf.pos a ha
  · rw [heq.1]
    exact hf.low
  · intro a ha
    rw [hstop a (List.mem_cons_of_mem _ ha)]
    exact Nat.le_trans (hf.high a ha) hbrk
  · rw [heq.1, heq.2]
    exact hf.freep

theorem FreeList.stop_lt (hf : FreeList h l) (ha : a ∈ l) (hb : b ∈ l) (hab : a < b) : h.stop a < b := by
  have hsymm : l.Pairwise fun a b => (a < b → h.stop a < b) ∧ (b < a → h.stop b < a) := by
    refine (List.pairwise_cons.1 hf.apart).2.imp fun {a b} hR => ⟨fun _ => hR, fun hlt => ?_⟩
    have hle := le_stop h a
    omega
  have : Std.Symm fun a b : ℕ => (a < b → h.stop a < b) ∧ (b < a → h.stop b < a) := ⟨fun _ _ hR => ⟨hR.2, hR.1⟩⟩
  exact (hsymm.forall_of_forall (fun a _ => ⟨by simp, by simp⟩) ha hb).1 hab

theorem FreeList.exists_block (hf : FreeList h l) (hab : a < b) (hcov : ∀ x, a ≤ x → x < b → ∃ c ∈ l, h.Within c x) :
    ∃ c ∈ l, c ≤ a ∧ b ≤ h.stop c := by
  rcases hcov a (Nat.le_refl a) hab with ⟨c, hc, hca⟩
  refine ⟨c, hc, hca.1, ?_⟩
  by_contra hnot
  rcases hcov (h.stop c) (Nat.le_of_lt hca.2) (Nat.lt_of_not_le hnot) with ⟨d, hd, hdc⟩
  -- Another block would begin or end where this one ends.
  have hapart := (List.pairwise_cons.1 hf.apart).2
  by_cases heq : c = d
  · subst heq
    exact Nat.lt_irrefl _ hdc.2
  rcases Nat.lt_or_gt_of_ne heq with hlt | hlt
  · have hcd := hf.stop_lt hc hd hlt
    exact Nat.lt_irrefl _ (Nat.lt_of_lt_of_le hcd hdc.1)
  · have hdc' := hf.stop_lt hd hc hlt
    have hle := le_stop h c
    exact Nat.lt_irrefl _ (Nat.lt_trans hdc.2 (Nat.lt_of_lt_of_le hdc' hle))

structure Grown (h h' : Heap) (l l' : List ℕ) (nu : ℕ) : Prop where
  list : FreeList h' l'
  base : h'.base = h.base
  brk : h'.brk = h.brk + headerSize * nu
  core : h'.core = h.core + nu
  total : (l'.map h'.size).sum = (l.map h.size).sum + nu
  covers : ∀ x, (∃ a ∈ l', h'.Within a x) ↔ (∃ a ∈ l, h.Within a x) ∨ (h.brk ≤ x ∧ x < h'.brk)
  others : ∀ c, c ∉ h.base :: l → c ≠ h.brk → h'.size c = h.size c

theorem FreeList.morecore {ok : Bool} {nu : ℕ} {h' : Heap} (hf : FreeList h l) (hlen : l.length ≤ h.brk)
    (hlow : h.base + headerSize ≤ h.brk) (hnu : headerSize * nu < 2 ^ 31) (hm : h.morecore ok nu = some h') :
    ∃ l' n, nu ≤ n ∧ 0 < n ∧ Grown h h' l l' n := by
  -- The number of units that are asked for.
  obtain ⟨n, hn, hle, hpos, hsmall⟩ : ∃ n, (if nu < 4096 then 4096 else nu) = n ∧ nu ≤ n ∧ 0 < n ∧
      n * headerSize < 2 ^ 32 := by
    refine ⟨_, rfl, ?_⟩
    unfold headerSize at hnu ⊢
    split_ifs <;> omega
  simp only [Heap.morecore, hn, Nat.mod_eq_of_lt hsmall, Heap.sbrk] at hm
  split_ifs at hm with hok
  obtain rfl := Option.some.inj hm
  -- The new memory as a block that is not free yet.
  set e : Heap :=
    { h with
      size := update h.size h.brk n
      brk := h.brk + n * headerSize
      core := h.core + n } with he
  change ∃ l' m, nu ≤ m ∧ 0 < m ∧ Grown h (e.free (h.brk + headerSize)) l l' m
  have hself : e.size h.brk = n := update_self ..
  have hlt : ∀ a ∈ h.base :: l, a < h.brk := by
    intro a ha
    rcases List.mem_cons.1 ha with rfl | ha
    · unfold headerSize at hlow
      omega
    · exact Nat.lt_of_lt_of_le (lt_stop (hf.pos a ha)) (hf.high a ha)
  have hsize : ∀ a ∈ h.base :: l, e.size a = h.size a := fun a ha => update_of_ne (hlt a ha).ne _ _
  have hwithin : ∀ a ∈ l, ∀ x, e.Within a x ↔ h.Within a x := by
    intro a ha x
    simp only [Heap.Within, Heap.stop, hsize a (List.mem_cons_of_mem _ ha)]
  have hstop : e.stop h.brk = e.brk := by
    simp only [Heap.stop, hself]
    rw [Nat.mul_comm]
  have hfe : FreeList e l := hf.of_heap ⟨rfl, rfl⟩ (Nat.le_add_right _ _) fun a ha => ⟨rfl, hsize a ha⟩
  have hout : Outside e l h.brk := by
    refine ⟨by rw [hself]; exact hpos, hlow, Nat.le_of_eq hstop, fun a ha x hx hx' => ?_⟩
    have hend := hf.high a ha
    have hxa := ((hwithin a ha x).1 hx).2
    have hxb := hx'.1
    omega
  rcases hfe.free (Nat.le_trans hlen (Nat.le_add_right _ _)) hout with ⟨l', hd⟩
  refine ⟨l', n, hle, hpos, hd.list, hd.base, ?_, hd.core, ?_, ?_, ?_⟩
  · rw [hd.brk, Nat.mul_comm]
  · rw [hd.total, hself, List.map_congr_left fun a ha => hsize a (List.mem_cons_of_mem _ ha)]
  · intro x
    rw [hd.covers x, hd.brk, ← hstop]
    refine or_congr ?_ Iff.rfl
    exact exists_congr fun a => and_congr_right fun ha => hwithin a ha x
  · intro c hc hne
    rw [hd.others c hc hne]
    exact update_of_ne hne _ _

/-! ## `malloc` -/

/-- The loop of `malloc` finds a block that is large enough if there is one. -/
theorem FreeList.search_spec (hf : FreeList h l) (hlen : l.length ≤ h.brk) :
    h.search n ∈ h.base :: l ∧ (n ≤ h.size (h.ptr (h.search n)) ∨ ∀ a ∈ h.base :: l, h.size a < n) := by
  rcases hf.linked.exists_front hf.freep with ⟨m, hr, hm⟩
  have hmlen : (h.freep :: m).length ≤ h.brk + 1 := by
    rw [← hr.perm.length_eq, List.length_cons]
    omega
  -- The last block before the round is complete.
  obtain ⟨m', z, hz⟩ : ∃ m' z, h.freep :: m = m' ++ [z] :=
    ⟨_, _, (List.dropLast_append_getLast (List.cons_ne_nil _ _)).symm⟩
  have hlast : h.ptr z = h.freep := by
    have hm' := hm
    rw [hz] at hm'
    exact hm'.next_last (by rw [← hz]; rfl)
  have hzmem : z ∈ h.freep :: m := by rw [hz]; simp
  rcases hm.seek_first
      (fun prevp => decide (h.size (h.ptr prevp) ≥ n) || decide (h.ptr prevp = h.freep)) rfl
      ⟨z, hzmem, by simp [hlast]⟩ hmlen with ⟨l1, l2, hsplit, hstop, hno⟩
  have hsearch : h.search n = seek h.ptr
      (fun prevp => decide (h.size (h.ptr prevp) ≥ n) || decide (h.ptr prevp = h.freep)) h.brk h.freep := rfl
  rw [← hsearch] at hsplit hstop
  have hmem : h.search n ∈ h.freep :: m := by rw [hsplit]; simp
  refine ⟨hr.mem_iff.2 hmem, ?_⟩
  by_cases hbig : n ≤ h.size (h.ptr (h.search n))
  · exact .inl hbig
  -- The search has come back to `freep`, and everything on the way was too small.
  have hback : h.ptr (h.search n) = h.freep := by simpa [hbig] using hstop
  have hsame : h.search n = z := hm.next_inj hmem hzmem (hback.trans hlast.symm)
  have hnodup := hm.nodup
  rw [hz] at hnodup
  have hzm : z ∉ m' := fun hmem => (List.nodup_append.1 hnodup).2.2 z hmem z (by simp) rfl
  rw [hz, hsame] at hsplit
  have hl1 := eq_of_concat_eq hsplit hzm
  refine .inr fun a ha => ?_
  rcases hm.exists_next_eq (hr.mem_iff.1 ha) with ⟨x, hx, rfl⟩
  rw [hz, List.mem_append, List.mem_singleton] at hx
  rcases hx with hx | rfl
  · have hsmall := hno x (hl1 ▸ hx)
    simp only [Bool.or_eq_false_iff, decide_eq_false_iff_not] at hsmall
    omega
  · rw [hsame] at hbig
    omega

structure Carved (h h' : Heap) (l l' : List ℕ) (q n : ℕ) : Prop where
  list : FreeList h' l'
  same : h'.base = h.base ∧ h'.brk = h.brk ∧ h'.core = h.core
  size : h'.size q = n
  low : h.base + headerSize ≤ q
  total : (l'.map h'.size).sum + n = (l.map h.size).sum
  covers : ∀ x, (∃ a ∈ l, h.Within a x) ↔ (∃ a ∈ l', h'.Within a x) ∨ h'.Within q x
  disjoint : ∀ x, h'.Within q x → ∀ a ∈ l', ¬ h'.Within a x
  others : ∀ c, c ∉ h.base :: l → c ≠ q → h'.size c = h.size c

theorem FreeList.eq_of_within (hf : FreeList h l) {x : ℕ} (ha : a ∈ l) (hb : b ∈ l) (hax : h.Within a x)
    (hbx : h.Within b x) : a = b := by
  by_contra hne
  rcases Nat.lt_or_gt_of_ne hne with hlt | hlt
  · have hstop := hf.stop_lt ha hb hlt
    exact Nat.lt_irrefl _ (Nat.lt_trans hax.2 (Nat.lt_of_lt_of_le hstop hbx.1))
  · have hstop := hf.stop_lt hb ha hlt
    exact Nat.lt_irrefl _ (Nat.lt_trans hbx.2 (Nat.lt_of_lt_of_le hstop hax.1))

theorem FreeList.take_whole (hf : FreeList h l) (hsplit : h.base :: l = xs ++ prevp :: p :: ys) (hpl : p ∈ l)
    (hne : p ≠ h.base) : ∃ l', Carved h { h.setPtr prevp (h.ptr p) with freep := prevp } l l' p (h.size p) := by
  have hlinked := hf.linked
  have hapart := hf.apart
  rw [hsplit] at hlinked hapart
  have hsub : (xs ++ prevp :: ys).Sublist (xs ++ prevp :: p :: ys) :=
    (List.Sublist.refl xs).append ((List.sublist_cons_self p ys).cons_cons prevp)
  have hmem : ∀ a ∈ xs ++ prevp :: ys, a ∈ h.base :: l := fun a ha => by
    rw [hsplit]
    exact hsub.subset ha
  have hhead : (xs ++ prevp :: ys).head? = some h.base := by
    have hhead' : (xs ++ prevp :: p :: ys).head? = some h.base := by rw [← hsplit]; rfl
    rw [← hhead']
    cases xs with
    | nil => rfl
    | cons x xs => rfl
  have hring := FreeList.of_ring (h := { h.setPtr prevp (h.ptr p) with freep := prevp }) hhead hlinked.remove_after
    (hapart.sublist hsub) hf.base
    (fun a ha hne' => by
      have hal := (List.mem_cons.1 (hmem a ha)).resolve_left hne'
      exact ⟨hf.pos a hal, hf.low a hal, hf.high a hal⟩) (by simp)
  -- The other blocks are those of the list before.
  have hperm : l.Perm (p :: (xs ++ prevp :: ys).tail) := by
    have hmid : (xs ++ prevp :: p :: ys).Perm (p :: (xs ++ prevp :: ys)) := by
      have hmiddle : ((xs ++ [prevp]) ++ p :: ys).Perm (p :: ((xs ++ [prevp]) ++ ys)) := List.perm_middle
      simpa using hmiddle
    rw [← hsplit, hring.1] at hmid
    exact (hmid.trans (List.Perm.swap _ _ _)).cons_inv
  have hnodup := hperm.nodup_iff.1 (List.nodup_cons.1 hf.linked.nodup).2
  refine ⟨_, hring.2, ⟨rfl, rfl, rfl⟩, rfl, hf.low p hpl, ?_, ?_, ?_, fun c _ _ => rfl⟩
  · have hsum := (hperm.map h.size).sum_eq
    rw [List.map_cons, List.sum_cons] at hsum
    rw [hsum, Nat.add_comm]
    rfl
  · intro x
    constructor
    · rintro ⟨a, ha, hax⟩
      rcases List.mem_cons.1 (hperm.mem_iff.1 ha) with rfl | ha
      · exact .inr hax
      · exact .inl ⟨a, ha, hax⟩
    · rintro (⟨a, ha, hax⟩ | hpx)
      · exact ⟨a, hperm.mem_iff.2 (List.mem_cons_of_mem _ ha), hax⟩
      · exact ⟨p, hpl, hpx⟩
  · intro x hpx a ha hax
    have hap := hf.eq_of_within (hperm.mem_iff.2 (List.mem_cons_of_mem _ ha)) hpl hax hpx
    exact (List.nodup_cons.1 hnodup).1 (hap ▸ ha)

theorem FreeList.take_part (hf : FreeList h l) (hprev : prevp ∈ h.base :: l) (hpl : p ∈ l) (hn : n < h.size p)
    (hpos : 0 < n) :
    ∃ l', Carved h
      { (h.setSize p (h.size p - n)).setSize (p + headerSize * (h.size p - n)) n with freep := prevp } l l'
      (p + headerSize * (h.size p - n)) n := by
  set q := p + headerSize * (h.size p - n) with hq
  set h' : Heap := { (h.setSize p (h.size p - n)).setSize q n with freep := prevp } with hh'
  have hqp : p < q := by
    simp only [hq, headerSize]
    omega
  have hqstop : q + headerSize * n = h.stop p := by
    simp only [hq, Heap.stop, headerSize]
    omega
  have hplow := hf.low p hpl
  have hqnot : q ∉ h.base :: l := by
    intro hmem
    rcases List.mem_cons.1 hmem with heq | hql
    · omega
    · have hlt := hf.stop_lt hpl hql hqp
      unfold headerSize at hqstop
      omega
  have hqsize : h'.size q = n := update_self ..
  have hpsize : h'.size p = h.size p - n := by
    rw [hh']
    simp only [Heap.setSize]
    rw [update_of_ne hqp.ne, update_self]
  have hsize : ∀ c, c ≠ p → c ≠ q → h'.size c = h.size c := by
    intro c hcp hcq
    rw [hh']
    simp only [Heap.setSize]
    rw [update_of_ne hcq, update_of_ne hcp]
  have hlsize : ∀ a ∈ h.base :: l, a ≠ p → h'.size a = h.size a := fun a ha hap =>
    hsize a hap fun heq => hqnot (heq ▸ ha)
  have hpstop : h'.stop p = q := by simp only [Heap.stop, hpsize, hq]
  have hstop : ∀ a ∈ h.base :: l, a ≠ p → h'.stop a = h.stop a := fun a ha hap => by
    simp only [Heap.stop, hlsize a ha hap]
  have hle : ∀ a ∈ h.base :: l, h'.stop a ≤ h.stop a := by
    intro a ha
    by_cases hap : a = p
    · rw [hap, hpstop, ← hqstop]
      exact Nat.le_add_right _ _
    · exact Nat.le_of_eq (hstop a ha hap)
  have hbasep : h.base ≠ p := by
    unfold headerSize at hplow
    omega
  have hlist : FreeList h' l := by
    refine ⟨hf.linked, ?_, ?_, ?_, hf.low, ?_, hprev⟩
    · exact hf.apart.imp_of_mem fun {a b} ha _ hab => Nat.lt_of_le_of_lt (hle a ha) hab
    · rw [← hf.base]
      exact hlsize _ List.mem_cons_self hbasep
    · intro a ha
      by_cases hap : a = p
      · rw [hap, hpsize]
        omega
      · rw [hlsize a (List.mem_cons_of_mem _ ha) hap]
        exact hf.pos a ha
    · intro a ha
      exact Nat.le_trans (hle a (List.mem_cons_of_mem _ ha)) (hf.high a ha)
  have hwithinq : ∀ x, h'.Within q x ↔ q ≤ x ∧ x < h.stop p := fun x => by
    simp only [Heap.Within, Heap.stop, hqsize]
    rw [hqstop]
    rfl
  have hcut : ∀ x, h.Within p x ↔ h'.Within p x ∨ h'.Within q x := by
    intro x
    have hend := hle p (List.mem_cons_of_mem _ hpl)
    rw [hwithinq, Heap.Within, Heap.Within, hpstop]
    rw [hpstop] at hend
    omega
  have hother : ∀ a ∈ l, a ≠ p → ∀ x, h'.Within a x ↔ h.Within a x := fun a ha hap x => by
    simp only [Heap.Within, hstop a (List.mem_cons_of_mem _ ha) hap]
  refine ⟨l, hlist, ⟨rfl, rfl, rfl⟩, hqsize, by omega, ?_, ?_, ?_, ?_⟩
  · rcases List.append_of_mem hpl with ⟨l1, l2, rfl⟩
    have hnodup := (List.nodup_cons.1 hf.linked.nodup).2
    have hp1 : ∀ a ∈ l1, h'.size a = h.size a := by
      intro a ha
      refine hlsize a (by simp [ha]) ?_
      rintro rfl
      exact (List.nodup_append.1 hnodup).2.2 a ha a (by simp) rfl
    have hp2 : ∀ a ∈ l2, h'.size a = h.size a := by
      intro a ha
      refine hlsize a (by simp [ha]) ?_
      rintro rfl
      exact (List.nodup_cons.1 (List.nodup_append.1 hnodup).2.1).1 ha
    simp only [List.map_append, List.map_cons, List.sum_append, List.sum_cons, List.map_congr_left hp1,
      List.map_congr_left hp2, hpsize]
    omega
  · intro x
    constructor
    · rintro ⟨a, ha, hax⟩
      by_cases hap : a = p
      · subst hap
        exact ((hcut x).1 hax).imp (fun hx => ⟨a, ha, hx⟩) id
      · exact .inl ⟨a, ha, (hother a ha hap x).2 hax⟩
    rintro (⟨a, ha, hax⟩ | hqx)
    · by_cases hap : a = p
      · subst hap
        exact ⟨a, ha, (hcut x).2 (.inl hax)⟩
      · exact ⟨a, ha, (hother a ha hap x).1 hax⟩
    · exact ⟨p, hpl, (hcut x).2 (.inr hqx)⟩
  · intro x hqx a ha hax
    by_cases hap : a = p
    · subst hap
      have hxq := hax.2
      rw [hpstop] at hxq
      exact Nat.lt_irrefl _ (Nat.lt_of_lt_of_le hxq hqx.1)
    · exact hap (hf.eq_of_within ha hpl ((hother a ha hap x).1 hax) ((hcut x).2 (.inr hqx)))
  · intro c hc hcq
    exact hsize c (fun heq => hc (heq ▸ List.mem_cons_of_mem _ hpl)) hcq

theorem FreeList.take (hf : FreeList h l) (hprev : prevp ∈ h.base :: l) (hn : n ≤ h.size (h.ptr prevp)) (hpos : 0 < n) :
    ∃ l' q h', h.take n prevp (h.ptr prevp) = (q + headerSize, h') ∧ Carved h h' l l' q n := by
  rcases List.append_of_mem hprev with ⟨xs, zs, hsplit⟩
  have hnext := hf.next hsplit
  cases zs with
  | nil =>
    -- `base` is empty.
    have hback : h.ptr prevp = h.base := hnext
    rw [hback, hf.base] at hn
    omega
  | cons p ys =>
    have hp : h.ptr prevp = p := hnext
    rw [hp] at hn ⊢
    have hne : p ≠ h.base := by
      rintro rfl
      rw [hf.base] at hn
      omega
    have hmem : p ∈ h.base :: l := by rw [hsplit]; simp
    have hpl := (List.mem_cons.1 hmem).resolve_left hne
    by_cases heq : h.size p = n
    · rcases hf.take_whole hsplit hpl hne with ⟨l', hc⟩
      rw [heq] at hc
      exact ⟨l', p, _, by rw [Heap.take, if_pos heq], hc⟩
    · rcases hf.take_part hprev hpl (by omega) hpos with ⟨l', hc⟩
      refine ⟨l', _, _, ?_, hc⟩
      rw [Heap.take, if_neg heq]
      simp only [Heap.setSize, update_self]

end FreeList

end Xv6.Umalloc
