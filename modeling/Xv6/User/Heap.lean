import Xv6.User.FreeList

/-!
# Heap — the user heap over a whole run

Live blocks and free blocks share out the memory that `morecore` has obtained.
-/

namespace Xv6.Umalloc

open Common

/-- The live blocks beside the free list `l`. -/
structure Beside (h : Heap) (l : List ℕ) (live : List (ℕ × ℕ)) : Prop where
  pos : ∀ b ∈ live, 0 < h.size b.1
  inside : ∀ b ∈ live, h.base + headerSize ≤ b.1 ∧ h.stop b.1 ≤ h.brk
  room : ∀ b ∈ live, b.2 + headerSize ≤ headerSize * h.size b.1
  apart : live.Pairwise fun b c => ∀ x, h.Within b.1 x → ¬ h.Within c.1 x
  free : ∀ b ∈ live, ∀ a ∈ l, ∀ x, h.Within a x → ¬ h.Within b.1 x

structure Sound (s : State) (l : List ℕ) : Prop where
  list : FreeList s.heap l
  base : 0 < s.heap.base
  low : s.heap.base + headerSize ≤ s.heap.brk
  blocks : Beside s.heap l s.live
  total : (l.map s.heap.size).sum + (s.live.map fun b => s.heap.size b.1).sum = s.heap.core
  core : headerSize * s.heap.core ≤ s.heap.brk

section Beside

variable {h h' : Heap} {l l' : List ℕ} {live : List (ℕ × ℕ)} {b : ℕ × ℕ}

theorem Beside.outside (hb : Beside h l live) (hmem : b ∈ live) : Outside h l b.1 :=
  ⟨hb.pos b hmem, (hb.inside b hmem).1, (hb.inside b hmem).2, hb.free b hmem⟩

theorem Beside.not_mem (hb : Beside h l live) (hmem : b ∈ live) : b.1 ∉ h.base :: l := (hb.outside hmem).not_mem

/-- The live blocks in another heap, in which they have the same sizes and nothing of them has become free. -/
theorem Beside.of_heap (hb : Beside h l live) (hbase : h'.base = h.base) (hbrk : h.brk ≤ h'.brk)
    (hsize : ∀ b ∈ live, h'.size b.1 = h.size b.1)
    (hfree : ∀ b ∈ live, ∀ a ∈ l', ∀ x, h'.Within a x → ¬ h.Within b.1 x) : Beside h' l' live := by
  have hstop : ∀ b ∈ live, h'.stop b.1 = h.stop b.1 := fun b hb => by simp only [Heap.stop, hsize b hb]
  have hwithin : ∀ b ∈ live, ∀ x, h'.Within b.1 x ↔ h.Within b.1 x := fun b hb x => by
    simp only [Heap.Within, hstop b hb]
  refine ⟨?_, ?_, ?_, ?_, ?_⟩
  · intro b hmem
    rw [hsize b hmem]
    exact hb.pos b hmem
  · intro b hmem
    rw [hbase, hstop b hmem]
    exact ⟨(hb.inside b hmem).1, Nat.le_trans (hb.inside b hmem).2 hbrk⟩
  · intro b hmem
    rw [hsize b hmem]
    exact hb.room b hmem
  · refine hb.apart.imp_of_mem fun {b c} hbm hcm hR x hx => ?_
    rw [hwithin c hcm x]
    exact hR x ((hwithin b hbm x).1 hx)
  · intro b hmem a ha x hx
    rw [hwithin b hmem x]
    exact hfree b hmem a ha x hx

theorem Beside.cons (hb : Beside h l live) (hpos : 0 < h.size b.1)
    (hinside : h.base + headerSize ≤ b.1 ∧ h.stop b.1 ≤ h.brk) (hroom : b.2 + headerSize ≤ headerSize * h.size b.1)
    (hlive : ∀ c ∈ live, ∀ x, h.Within b.1 x → ¬ h.Within c.1 x)
    (hfree : ∀ a ∈ l, ∀ x, h.Within a x → ¬ h.Within b.1 x) : Beside h l (b :: live) := by
  refine ⟨?_, ?_, ?_, List.pairwise_cons.2 ⟨hlive, hb.apart⟩, ?_⟩
  · exact List.forall_mem_cons.2 ⟨hpos, hb.pos⟩
  · exact List.forall_mem_cons.2 ⟨hinside, hb.inside⟩
  · exact List.forall_mem_cons.2 ⟨hroom, hb.room⟩
  · exact List.forall_mem_cons.2 ⟨hfree, hb.free⟩

theorem Beside.perm {live' : List (ℕ × ℕ)} (hb : Beside h l live) (hp : live.Perm live') : Beside h l live' := by
  refine ⟨fun b hm => hb.pos b (hp.mem_iff.2 hm), fun b hm => hb.inside b (hp.mem_iff.2 hm),
    fun b hm => hb.room b (hp.mem_iff.2 hm), ?_, fun b hm => hb.free b (hp.mem_iff.2 hm)⟩
  refine hp.pairwise hb.apart fun {b c} hR x hx hx' => ?_
  exact hR x hx' hx

theorem Beside.stop_le_or {c : ℕ × ℕ} (hb : Beside h l live) (hbm : b ∈ live) (hcm : c ∈ live) (hne : b ≠ c) :
    h.stop b.1 ≤ c.1 ∨ h.stop c.1 ≤ b.1 := by
  have : Std.Symm fun b c : ℕ × ℕ => ∀ x, h.Within b.1 x → ¬ h.Within c.1 x := ⟨fun _ _ hR x hx hx' => hR x hx' hx⟩
  exact Umalloc.stop_le_or (hb.pos b hbm) (hb.pos c hcm) (hb.apart.forall hbm hcm hne)

end Beside

section Sound

variable {s : State} {l : List ℕ}

theorem Sound.length_le (h : Sound s l) : l.length ≤ s.heap.brk := by
  have hlen := h.list.length_le
  have htotal := h.total
  have hcore := h.core
  unfold headerSize at hcore
  omega

theorem Sound.morecore {ok : Bool} {nu : ℕ} {h' : Heap} (h : Sound s l) (hnu : headerSize * nu < 2 ^ 31)
    (hm : s.heap.morecore ok nu = some h') :
    ∃ l', Sound { s with heap := h' } l' ∧ (∃ a ∈ l', nu ≤ h'.size a) ∧
      ∀ start ≤ s.heap.brk, (∀ a ∈ l, start ≤ a) → ∀ a ∈ l', start ≤ a := by
  rcases h.list.morecore h.length_le h.low hnu hm with ⟨l', n, hle, hpos, hg⟩
  have hbrk : s.heap.brk ≤ h'.brk := by
    rw [hg.brk]
    exact Nat.le_add_right _ _
  have hsize : ∀ b ∈ s.live, h'.size b.1 = s.heap.size b.1 := by
    intro b hb
    refine hg.others b.1 (h.blocks.not_mem hb) ?_
    have hend := (h.blocks.inside b hb).2
    have hlt := lt_stop (h.blocks.pos b hb)
    omega
  refine ⟨l', ⟨hg.list, ?_, ?_, ?_, ?_, ?_⟩, ?_, ?_⟩
  · rw [hg.base]
    exact h.base
  · rw [hg.base]
    exact Nat.le_trans h.low hbrk
  · refine h.blocks.of_heap hg.base hbrk hsize fun b hb a ha x hx hbx => ?_
    rcases (hg.covers x).1 ⟨a, ha, hx⟩ with ⟨a', ha', hx'⟩ | hnew
    · exact h.blocks.free b hb a' ha' x hx' hbx
    · -- The new memory lies above.
      have hend := (h.blocks.inside b hb).2
      have hlt := hbx.2
      omega
  · have htotal := h.total
    simp only [List.map_congr_left hsize]
    rw [hg.total, hg.core]
    omega
  · have hcore := h.core
    simp only
    rw [hg.core, hg.brk, Nat.mul_add]
    omega
  · -- The new memory is in one block.
    have hlt : s.heap.brk < h'.brk := by
      rw [hg.brk, headerSize]
      omega
    rcases hg.list.exists_block hlt fun x hx hx' => (hg.covers x).2 (.inr ⟨hx, hx'⟩) with ⟨c, hc, hcb, hstop⟩
    refine ⟨c, hc, ?_⟩
    rw [hg.brk] at hstop
    simp only [Heap.stop, headerSize] at hstop
    omega
  · intro start hstart hl a ha
    rcases (hg.covers a).1 ⟨a, ha, Nat.le_refl a, lt_stop (hg.list.pos a ha)⟩ with ⟨a', ha', hx⟩ | hnew
    · exact Nat.le_trans (hl a' ha') hx.1
    · exact Nat.le_trans hstart hnew.1

theorem Sound.carve {h' : Heap} {l' : List ℕ} {q n nbytes : ℕ} (h : Sound s l) (hc : Carved s.heap h' l l' q n)
    (hpos : 0 < n) (hroom : nbytes + headerSize ≤ headerSize * n) :
    Sound { heap := h', live := (q, nbytes) :: s.live } l' := by
  rcases hc.same with ⟨hbase, hbrk, hcore⟩
  have hqself : h'.Within q q := by
    refine ⟨Nat.le_refl _, lt_stop ?_⟩
    rw [hc.size]
    exact hpos
  have hold : ∀ x, h'.Within q x → ∃ a ∈ l, s.heap.Within a x := fun x hx => (hc.covers x).2 (.inr hx)
  have hsize : ∀ b ∈ s.live, h'.size b.1 = s.heap.size b.1 := by
    intro b hb
    refine hc.others b.1 (h.blocks.not_mem hb) ?_
    rintro rfl
    rcases hold b.1 hqself with ⟨a, ha, hx⟩
    exact h.blocks.free b hb a ha b.1 hx ⟨Nat.le_refl _, lt_stop (h.blocks.pos b hb)⟩
  have hbeside : Beside h' l' s.live := by
    refine h.blocks.of_heap hbase (Nat.le_of_eq hbrk.symm) hsize fun b hb a ha x hx hbx => ?_
    rcases (hc.covers x).2 (.inl ⟨a, ha, hx⟩) with ⟨a', ha', hx'⟩
    exact h.blocks.free b hb a' ha' x hx' hbx
  refine ⟨hc.list, ?_, ?_, ?_, ?_, ?_⟩
  · rw [hbase]
    exact h.base
  · rw [hbase, hbrk]
    exact h.low
  · refine hbeside.cons (b := (q, nbytes)) ?_ ⟨?_, ?_⟩ ?_ ?_ ?_
    · rw [hc.size]
      exact hpos
    · rw [hbase]
      exact hc.low
    · -- The last address of the block was free.
      have hlt := hqself.2
      have hlast : h'.Within q (h'.stop q - 1) := ⟨by omega, by omega⟩
      rcases hold _ hlast with ⟨a, ha, hx⟩
      have hend := h.list.high a ha
      have hx' := hx.2
      simp only [hbrk]
      omega
    · rw [hc.size]
      exact hroom
    · intro c hcm x hx hcx
      have hcx' : s.heap.Within c.1 x := by simpa only [Heap.Within, Heap.stop, hsize c hcm] using hcx
      rcases hold x hx with ⟨a, ha, hax⟩
      exact h.blocks.free c hcm a ha x hax hcx'
    · intro a ha x hx hqx
      exact hc.disjoint x hqx a ha hx
  · have htotal := h.total
    have hcarved := hc.total
    simp only [List.map_cons, List.sum_cons, List.map_congr_left hsize, hc.size, hcore]
    omega
  · simp only [hcore, hbrk]
    exact h.core

theorem Sound.freed {bp nbytes : ℕ} (h : Sound s l) (hb : (bp, nbytes) ∈ s.live) :
    ∃ l', Sound { heap := s.heap.free (bp + headerSize), live := s.live.erase (bp, nbytes) } l' := by
  have hout : Outside s.heap l bp := h.blocks.outside hb
  rcases h.list.free h.length_le hout with ⟨l', hd⟩
  have hperm : s.live.Perm ((bp, nbytes) :: s.live.erase (bp, nbytes)) := List.perm_cons_erase hb
  have hblocks := h.blocks.perm hperm
  rcases List.pairwise_cons.1 hblocks.apart with ⟨hother, hrest⟩
  have hself : s.heap.Within bp bp := ⟨Nat.le_refl _, lt_stop (h.blocks.pos _ hb)⟩
  have hsize : ∀ c ∈ s.live.erase (bp, nbytes), (s.heap.free (bp + headerSize)).size c.1 = s.heap.size c.1 := by
    intro c hc
    have hcl := List.mem_of_mem_erase hc
    refine hd.others c.1 (h.blocks.not_mem hcl) fun heq => ?_
    have hcself : s.heap.Within c.1 c.1 := ⟨Nat.le_refl _, lt_stop (h.blocks.pos c hcl)⟩
    rw [heq] at hcself
    exact hother c hc bp hself (heq ▸ hcself)
  have hbeside : Beside s.heap l (s.live.erase (bp, nbytes)) :=
    ⟨fun c hc => h.blocks.pos c (List.mem_of_mem_erase hc), fun c hc => h.blocks.inside c (List.mem_of_mem_erase hc),
      fun c hc => h.blocks.room c (List.mem_of_mem_erase hc), hrest,
      fun c hc => h.blocks.free c (List.mem_of_mem_erase hc)⟩
  refine ⟨l', hd.list, ?_, ?_, ?_, ?_, ?_⟩
  · rw [hd.base]
    exact h.base
  · rw [hd.base, hd.brk]
    exact h.low
  · refine hbeside.of_heap hd.base (Nat.le_of_eq hd.brk.symm) hsize fun c hc a ha x hx hcx => ?_
    rcases (hd.covers x).1 ⟨a, ha, hx⟩ with ⟨a', ha', hx'⟩ | hbx
    · exact hbeside.free c hc a' ha' x hx' hcx
    · exact hother c hc x hbx hcx
  · have htotal := h.total
    have hsum := (hperm.map fun b => s.heap.size b.1).sum_eq
    simp only [List.map_cons, List.sum_cons] at hsum
    simp only [List.map_congr_left hsize, hd.core]
    rw [hd.total]
    omega
  · simp only [hd.core, hd.brk]
    exact h.core

structure Unused (s : State) : Prop where
  freep : s.heap.freep = 0
  base : 0 < s.heap.base
  low : s.heap.base + headerSize ≤ s.heap.brk
  core : s.heap.core = 0
  live : s.live = []

theorem nunits_spec {nbytes : ℕ} (h : nbytes < 2 ^ 31 - 15) :
    0 < Heap.nunits nbytes ∧ headerSize * Heap.nunits nbytes < 2 ^ 31 ∧
      nbytes + headerSize ≤ headerSize * Heap.nunits nbytes := by
  have hsmall : (nbytes + headerSize - 1) % 2 ^ 32 = nbytes + headerSize - 1 := by
    refine Nat.mod_eq_of_lt ?_
    unfold headerSize
    omega
  unfold Heap.nunits
  rw [hsmall]
  unfold headerSize
  omega

theorem Unused.init (h : Unused s) : Sound { s with heap := s.heap.init } [] := by
  have hinit : s.heap.init = { (s.heap.setPtr s.heap.base s.heap.base).setSize s.heap.base 0 with
      freep := s.heap.base } := by rw [Heap.init, if_pos h.freep]
  rw [hinit]
  refine ⟨⟨?_, by simp, ?_, by simp, by simp, by simp, ?_⟩, h.base, h.low, ?_, ?_, ?_⟩
  · refine Linked.cons_iff.2 ⟨by simp, ?_⟩
    simp [Heap.setSize, Heap.setPtr]
  · simp [Heap.setSize, Heap.setPtr]
  · exact List.mem_cons_self
  · rw [h.live]
    exact ⟨by simp, by simp, by simp, List.Pairwise.nil, by simp⟩
  · simp [h.live, h.core, Heap.setSize, Heap.setPtr]
  · simp [h.core, Heap.setSize, Heap.setPtr]

theorem Sound.init_eq (h : Sound s l) : s.heap.init = s.heap := by
  have hne : s.heap.freep ≠ 0 := by
    have hle := h.list.base_le h.list.freep
    have hbase := h.base
    omega
  rw [Heap.init, if_neg hne]

/-- The loop of `malloc` ends because `morecore` has failed, or with a block from the free list `l1`, which has grown
upwards if at all. -/
theorem Sound.mallocLoop {nu : ℕ} (h : Sound s l) (ok : Bool) (hpos : 0 < nu) (hsmall : headerSize * nu < 2 ^ 31) :
    Heap.mallocLoop ok nu 2 s.heap = some (0, s.heap) ∨
      ∃ h1 l1 q h' l', Heap.mallocLoop ok nu 2 s.heap = some (q + headerSize, h') ∧ Sound { s with heap := h1 } l1 ∧
        Carved h1 h' l1 l' q nu ∧ ∀ start ≤ s.heap.brk, (∀ a ∈ l, start ≤ a) → ∀ a ∈ l1, start ≤ a := by
  rw [Heap.mallocLoop]
  by_cases hbig : nu ≤ s.heap.size (s.heap.ptr (s.heap.search nu))
  · rcases h.list.take (h.list.search_spec h.length_le).1 hbig hpos with ⟨l', q, h', htake, hc⟩
    exact .inr ⟨s.heap, l, q, h', l', by rw [if_pos hbig, htake], h, hc, fun _ _ => id⟩
  simp only [ge_iff_le, if_neg hbig]
  cases hm : s.heap.morecore ok nu with
  | none => exact .inl rfl
  | some h1 =>
    -- The second round finds the new memory.
    rcases h.morecore hsmall hm with ⟨l1, hsound1, ⟨a, ha, hbig1⟩, habove⟩
    have hfound : nu ≤ h1.size (h1.ptr (h1.search nu)) := by
      rcases (hsound1.list.search_spec hsound1.length_le).2 with hfound | hnone
      · exact hfound
      · have hsmall := hnone a (List.mem_cons_of_mem _ ha)
        simp only at hsmall
        omega
    rcases hsound1.list.take (hsound1.list.search_spec hsound1.length_le).1 hfound hpos with ⟨l', q, h', htake, hc⟩
    refine .inr ⟨h1, l1, q, h', l', ?_, hsound1, hc, habove⟩
    simp only [Heap.mallocLoop, ge_iff_le, if_pos hfound]
    exact congrArg some htake

theorem Sound.malloc {nbytes : ℕ} (h : Sound s l) (ok : Bool) (hsize : nbytes < 2 ^ 31 - 15) :
    ∃ ap h', Heap.mallocLoop ok (Heap.nunits nbytes) 2 s.heap = some (ap, h') ∧
      ∃ l', Sound { heap := h', live := if ap = 0 then s.live else (ap - headerSize, nbytes) :: s.live } l' := by
  rcases nunits_spec hsize with ⟨hpos, hsmall, hroom⟩
  rcases h.mallocLoop ok hpos hsmall with heq | ⟨h1, l1, q, h', l', heq, hsound, hc, -⟩
  · exact ⟨0, s.heap, heq, l, h⟩
  · refine ⟨q + headerSize, h', heq, l', ?_⟩
    rw [if_neg (by unfold headerSize; omega), Nat.add_sub_cancel]
    exact hsound.carve hc hpos hroom

theorem Sound.write {ptr size : ℕ → ℕ} (h : Sound s l)
    (hsame : ∀ a, (∀ b ∈ s.live, a ≤ b.1 ∨ s.heap.stop b.1 ≤ a) → ptr a = s.heap.ptr a ∧ size a = s.heap.size a) :
    Sound { s with heap := { s.heap with ptr := ptr, size := size } } l := by
  have hlist : ∀ a ∈ s.heap.base :: l, ptr a = s.heap.ptr a ∧ size a = s.heap.size a := by
    intro a ha
    refine hsame a fun b hb => ?_
    rcases List.mem_cons.1 ha with rfl | ha
    · exact .inl (Nat.le_of_lt (h.blocks.outside hb).base_lt)
    · exact (stop_le_or (h.list.pos a ha) (h.blocks.pos b hb) (h.blocks.free b hb a ha)).imp
        (Nat.le_trans (le_stop _ _)) id
  have hlive : ∀ c ∈ s.live, size c.1 = s.heap.size c.1 := by
    intro c hc
    refine (hsame c.1 fun b hb => ?_).2
    by_cases hbc : b = c
    · exact .inl (Nat.le_of_eq (congrArg Prod.fst hbc.symm))
    · exact (h.blocks.stop_le_or hb hc hbc).symm.imp (Nat.le_trans (le_stop _ _)) id
  refine ⟨h.list.of_heap ⟨rfl, rfl⟩ (Nat.le_refl _) hlist, h.base, h.low, ?_, ?_, h.core⟩
  · refine h.blocks.of_heap rfl (Nat.le_refl _) hlive fun b hb a ha x hx => ?_
    refine h.blocks.free b hb a ha x ?_
    simpa only [Heap.Within, Heap.stop, (hlist a (List.mem_cons_of_mem _ ha)).2] using hx
  have htotal := h.total
  have hfree : l.map size = l.map s.heap.size :=
    List.map_congr_left fun a ha => (hlist a (List.mem_cons_of_mem _ ha)).2
  simp only [List.map_congr_left hlive, hfree]
  exact htotal

theorem Sound.grow {n : ℕ} (h : Sound s l) : Sound { s with heap := { s.heap with brk := s.heap.brk + n } } l := by
  refine ⟨h.list.of_heap ⟨rfl, rfl⟩ (Nat.le_add_right _ _) fun _ _ => ⟨rfl, rfl⟩, h.base,
    Nat.le_trans h.low (Nat.le_add_right _ _), ?_, h.total, Nat.le_trans h.core (Nat.le_add_right _ _)⟩
  exact h.blocks.of_heap rfl (Nat.le_add_right _ _) (fun _ _ => rfl) h.blocks.free

/-! ## Every run -/

def State.alloc (s : State) (nbytes : ℕ) : State :=
  match s.heap.malloc true nbytes with
  | some (ap, h) =>
    { heap := h
      live := if ap = 0 then s.live else (ap - headerSize, nbytes) :: s.live }
  | none => s

end Sound

end Xv6.Umalloc
