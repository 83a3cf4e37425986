import Mathlib.Data.List.GetD
import Xv6.Vm.Copyuvm

/-!
# Access — writing user memory through a directory: `copyout` and `uva2ka`

`copyout` writes page by page through the addresses that `uva2ka` finds.  `uva2ka` reads the entry that `walkpgdir`
points it to without looking whether it points anywhere, so for an address without page table it reads through the null
pointer; this is an outcome of its own here.

What has been written is described as the process sees it, by the byte at each virtual address.  For this the user pages
of a directory must lie in different pages of memory.
-/

namespace Xv6.Vm

open Common PageDir

/-! ## Definitions -/

/-- `bytes` are copied into a page, to the offset `off`. -/
def blit (off : ℕ) (bytes : List UInt8) (x : Page) : Page :=
  fun i => if off ≤ i ∧ i < off + bytes.length then bytes.getD (i - off) 0 else x i

/-- `uva2ka`; the physical address instead of the kernel's virtual one. -/
def uva2ka (pd : PageDir) (uva : ℕ) : Except Panic (Option ℕ) :=
  match pd.walkpgdir uva with
  | none => .error .nullPte
  | some none => .ok none
  | some (some pte) => .ok (if pte.perm.u then some pte.pa else none)

def chunk (va : ℕ) (buf : List UInt8) : ℕ := min (pgsize - (va - pgrounddown va)) buf.length

theorem chunk_pos (va : ℕ) {buf : List UInt8} (h : buf ≠ []) : 0 < chunk va buf := by
  have hlen := List.length_pos_iff.2 h
  simp only [chunk, pgrounddown, pgsize]
  omega

/-- `copyout` of the bytes `buf`, with its return value. -/
def copyout (pd : PageDir) (s : Mem) (va : ℕ) (buf : List UInt8) : Except Panic (ℤ × Mem) :=
  if _h : buf = [] then .ok (0, s)
  else
    match uva2ka pd (pgrounddown va) with
    | .error e => .error e
    | .ok none => .ok (-1, s)
    | .ok (some pa0) =>
      copyout pd (s.modifyAt pa0 (blit (va - pgrounddown va) (buf.take (chunk va buf))))
        ((pgrounddown va + pgsize) % addrSpace) (buf.drop (chunk va buf))
termination_by buf.length
decreasing_by
  have hpos := chunk_pos va _h
  have hlen := List.length_pos_iff.2 _h
  rw [List.length_drop]
  omega

/-! ## What is written -/

def Accessible (pd : PageDir) (va : ℕ) : Prop :=
  ∃ pte, pd.lookup va = some pte ∧ pte.perm.u = true

/-- The bytes from `va` on are `bytes`; no other byte has changed, and no page in which none of them lies. -/
structure Wrote (pd : PageDir) (s : Mem) (va : ℕ) (bytes : List UInt8) (s' : Mem) : Prop where
  free : s'.free = s.free
  byte : ∀ vb < kernbase, pd.byte s' vb =
    if va ≤ vb ∧ vb < va + bytes.length then some (bytes.getD (vb - va) 0) else pd.byte s vb
  page : ∀ f : Frame, (∀ vb, va ≤ vb → vb < va + bytes.length → ∀ pte, pd.lookup vb = some pte → f.1 ≠ pte.pa) →
    s'.page f = s.page f

section

variable {pd : PageDir} {s s1 s' : Mem} {va : ℕ} {xs ys : List UInt8}

theorem Accessible.lt_kernbase (h : Accessible pd va) (hsp : Space pd) (hva : va < addrSpace) : va < kernbase := by
  rcases h with ⟨pte, hpte, hu⟩
  by_contra hge
  rw [hsp.kernel va hva (Nat.not_lt.1 hge) pte hpte] at hu
  cases hu

theorem Accessible.congr {vb : ℕ} (h : Accessible pd va) (hva : va < addrSpace) (hvb : vb < addrSpace)
    (hpage : vb / pgsize = va / pgsize) : Accessible pd vb := by
  rcases h with ⟨pte, hpte, hu⟩
  exact ⟨pte, (lookup_congr hvb hva hpage).trans hpte, hu⟩

/-- A write into the page of `va`, seen from every user address. -/
theorem byte_modifyAt (hsp : Space pd) (hnd : pd.owned.Nodup) {pte : Pte} (g : Page → Page) (hva : va < kernbase)
    (hpte : pd.lookup va = some pte) {vb : ℕ} (hvb : vb < kernbase) :
    pd.byte (s.modifyAt pte.pa g) vb =
      if vb / pgsize = va / pgsize then some (g (s.pageAt pte.pa) (vb % pgsize)) else pd.byte s vb := by
  rcases hsp.frame hva hpte with ⟨f, hf, hlook⟩
  by_cases hpage : vb / pgsize = va / pgsize
  · have hlook' : pd.lookup vb = some pte := by
      rw [lookup_congr (Nat.lt_trans hvb kernbase_lt_addrSpace) (Nat.lt_trans hva kernbase_lt_addrSpace) hpage, hpte]
    rw [if_pos hpage, PageDir.byte, hlook', Option.map_some, hf, Mem.pageAt, Mem.pageAt, dif_pos f.2, dif_pos f.2,
      Mem.modifyAt_page_self]
  rw [if_neg hpage, PageDir.byte, PageDir.byte]
  cases hlook' : pd.lookup vb with
  | none => rfl
  | some pte' =>
    rcases hsp.frame hvb hlook' with ⟨g', hg', hlook''⟩
    -- Another user page lies in another page of memory.
    have hne : g'.1 ≠ pte.pa := by
      intro heq
      obtain rfl : g' = f := Subtype.ext (heq.trans hf)
      exact hpage (page_inj hnd hvb hva hlook'' hlook)
    have hsame := pageAt_congr s (s.modifyAt pte.pa g) g'.2 (Mem.modifyAt_page_of_ne hne)
    rw [Option.map_some, Option.map_some, hg', hsame]

theorem Wrote.nil (pd : PageDir) (s : Mem) (va : ℕ) : Wrote pd s va [] s where
  free := rfl
  byte vb _ := by
    rw [if_neg]
    simp only [List.length_nil]
    omega
  page _ _ := rfl

theorem Wrote.append (h : Wrote pd s va xs s1) (h' : Wrote pd s1 (va + xs.length) ys s') :
    Wrote pd s va (xs ++ ys) s' where
  free := h'.free.trans h.free
  byte vb hvb := by
    rw [h'.byte vb hvb, List.length_append]
    by_cases hys : va + xs.length ≤ vb ∧ vb < va + xs.length + ys.length
    · rw [if_pos hys, if_pos (by omega), List.getD_append_right _ _ _ _ (by omega), Nat.sub_sub]
    · rw [if_neg hys, h.byte vb hvb]
      by_cases hxs : va ≤ vb ∧ vb < va + xs.length
      · rw [if_pos hxs, if_pos (by omega), List.getD_append _ _ _ _ (by omega)]
      · rw [if_neg hxs, if_neg (by omega)]
  page f hf := by
    rw [h'.page f fun vb hlo hhi => hf vb (by omega) (by rw [List.length_append]; omega)]
    exact h.page f fun vb hlo hhi => hf vb hlo (by rw [List.length_append]; omega)

theorem Wrote.chunk (hsp : Space pd) (hnd : pd.owned.Nodup) {pte : Pte} (hva : va < kernbase)
    (hpte : pd.lookup va = some pte) (hfit : va % pgsize + xs.length ≤ pgsize) :
    Wrote pd s va xs (s.modifyAt pte.pa (blit (va % pgsize) xs)) where
  free := Mem.modifyAt_free pte.pa _
  byte vb hvb := by
    rw [byte_modifyAt hsp hnd _ hva hpte hvb]
    by_cases hin : va ≤ vb ∧ vb < va + xs.length
    · have hpage : vb / pgsize = va / pgsize := by
        simp only [pgsize] at *
        omega
      have hoff : va % pgsize ≤ vb % pgsize ∧ vb % pgsize < va % pgsize + xs.length := by
        simp only [pgsize] at *
        omega
      have hidx : vb % pgsize - va % pgsize = vb - va := by
        simp only [pgsize] at *
        omega
      rw [if_pos hpage, if_pos hin, blit, if_pos hoff, hidx]
    · rw [if_neg hin]
      by_cases hpage : vb / pgsize = va / pgsize
      · have hoff : ¬ (va % pgsize ≤ vb % pgsize ∧ vb % pgsize < va % pgsize + xs.length) := by
          simp only [pgsize] at *
          omega
        have hlook : pd.lookup vb = some pte := by
          rw [lookup_congr (Nat.lt_trans hvb kernbase_lt_addrSpace) (Nat.lt_trans hva kernbase_lt_addrSpace) hpage, hpte]
        rw [if_pos hpage, blit, if_neg hoff, PageDir.byte, hlook, Option.map_some]
      · rw [if_neg hpage]
  page f hf := by
    by_cases hnil : xs = []
    · -- Nothing is written; the page is replaced by itself.
      have hblit : blit (va % pgsize) [] = id := by
        funext x i
        rw [blit, if_neg fun h => by simp only [List.length_nil] at h; omega]
        rfl
      rw [hnil, hblit]
      by_cases hf' : f.1 = pte.pa
      · rw [← hf', Mem.modifyAt_page_self]
        rfl
      · exact Mem.modifyAt_page_of_ne hf'
    · have hlen := List.length_pos_iff.2 hnil
      exact Mem.modifyAt_page_of_ne (hf va (Nat.le_refl va) (by omega) pte hpte)

/-! ## `copyout` -/

/-- All of `buf` has been written, and the user may write there. -/
structure CopiedOut (pd : PageDir) (s : Mem) (va : ℕ) (buf : List UInt8) (s' : Mem) : Prop where
  accessible : ∀ i < buf.length, Accessible pd (va + i)
  wrote : Wrote pd s va buf s'

/-- The user may not write at `va + i`, the first such address.  The bytes of the pages before have been written, if
there is a page table for it; otherwise the null pointer is read. -/
structure StoppedAt (pd : PageDir) (s : Mem) (va : ℕ) (buf : List UInt8) (i : ℕ) (r : Except Panic (ℤ × Mem)) : Prop where
  lt : i < buf.length
  before : ∀ j < i, Accessible pd (va + j)
  stop : ¬ Accessible pd (va + i)
  range : va + i < addrSpace
  result : (pd.walkpgdir (va + i) = none ∧ r = .error .nullPte) ∨
    ((pd.walkpgdir (va + i)).isSome = true ∧ ∃ s' m, m ≤ i ∧ r = .ok (-1, s') ∧ Wrote pd s va (buf.take m) s')

theorem walkpgdir_congr {vb : ℕ} (hva : va < addrSpace) (hvb : vb < addrSpace) (h : va / pgsize = vb / pgsize) :
    pd.walkpgdir va = pd.walkpgdir vb := by
  rcases (entry_eq_iff hva hvb).2 h with ⟨hd, ht⟩
  simp only [PageDir.walkpgdir, hd, ht]

theorem pgrounddown_lt (h : va < addrSpace) : pgrounddown va < addrSpace :=
  Nat.lt_of_le_of_lt (Nat.div_mul_le_self va pgsize) h

theorem pgrounddown_div : pgrounddown va / pgsize = va / pgsize := Nat.mul_div_cancel _ (by decide)

/-- `uva2ka` at the page of `va`. -/
theorem uva2ka_cases (pd : PageDir) (hva : va < addrSpace) :
    (pd.walkpgdir va = none ∧ ¬ Accessible pd va ∧ uva2ka pd (pgrounddown va) = .error .nullPte) ∨
    ((pd.walkpgdir va).isSome = true ∧ ¬ Accessible pd va ∧ uva2ka pd (pgrounddown va) = .ok none) ∨
    (∃ pte, pd.lookup va = some pte ∧ Accessible pd va ∧ uva2ka pd (pgrounddown va) = .ok (some pte.pa)) := by
  have hwalk : pd.walkpgdir (pgrounddown va) = pd.walkpgdir va :=
    walkpgdir_congr (pgrounddown_lt hva) hva pgrounddown_div
  unfold uva2ka
  rw [hwalk]
  rcases hcase : pd.walkpgdir va with _ | _ | pte
  · exact .inl ⟨rfl, fun ⟨pte, hpte, _⟩ => by simp [PageDir.lookup, hcase] at hpte, rfl⟩
  · exact .inr (.inl ⟨rfl, fun ⟨pte, hpte, _⟩ => by simp [PageDir.lookup, hcase] at hpte, rfl⟩)
  have hlook := lookup_eq_of_walk hcase
  cases hu : pte.perm.u with
  | false =>
    refine .inr (.inl ⟨rfl, fun ⟨pte', hpte, hu'⟩ => ?_, by simp [hu]⟩)
    obtain rfl : pte = pte' := by simpa [hlook] using hpte
    rw [hu] at hu'
    cases hu'
  | true => exact .inr (.inr ⟨pte, hlook, ⟨pte, hlook, hu⟩, by simp [hu]⟩)

theorem copyout_nil (pd : PageDir) (s : Mem) (va : ℕ) : copyout pd s va [] = .ok (0, s) := by
  rw [copyout, dif_pos rfl]

theorem CopiedOut.append (h : CopiedOut pd s va xs s1) (h' : CopiedOut pd s1 (va + xs.length) ys s') :
    CopiedOut pd s va (xs ++ ys) s' where
  accessible i hi := by
    rw [List.length_append] at hi
    by_cases hlt : i < xs.length
    · exact h.accessible i hlt
    · have hacc := h'.accessible (i - xs.length) (by omega)
      rwa [show va + xs.length + (i - xs.length) = va + i by omega] at hacc
  wrote := h.wrote.append h'.wrote

theorem StoppedAt.append {i : ℕ} {r : Except Panic (ℤ × Mem)} (h' : StoppedAt pd s1 (va + xs.length) ys i r)
    (h : CopiedOut pd s va xs s1) : StoppedAt pd s va (xs ++ ys) (xs.length + i) r := by
  have haddr : va + xs.length + i = va + (xs.length + i) := Nat.add_assoc _ _ _
  refine ⟨?_, fun j hj => ?_, haddr ▸ h'.stop, haddr ▸ h'.range, ?_⟩
  · have hlt := h'.lt
    rw [List.length_append]
    omega
  · by_cases hlt : j < xs.length
    · exact h.accessible j hlt
    · have hacc := h'.before (j - xs.length) (by omega)
      rwa [show va + xs.length + (j - xs.length) = va + j by omega] at hacc
  · have hres := h'.result
    rw [haddr] at hres
    refine hres.imp_right fun ⟨htab, s2, m, hm, hr, hw⟩ => ⟨htab, s2, xs.length + m, by omega, hr, ?_⟩
    rw [List.take_length_add_append]
    exact h.wrote.append hw

theorem copyout_cases (hsp : Space pd) (hnd : pd.owned.Nodup) (s : Mem) (va : ℕ) (buf : List UInt8)
    (hva : va < addrSpace) :
    (∃ s', copyout pd s va buf = .ok (0, s') ∧ CopiedOut pd s va buf s') ∨
      ∃ i, StoppedAt pd s va buf i (copyout pd s va buf) := by
  fun_induction copyout pd s va buf with
  | case1 s va => exact .inl ⟨s, rfl, by simp, .nil pd s va⟩
  | case2 s va buf hne e herr =>
    rcases uva2ka_cases pd hva with ⟨hwalk, hstop, hres⟩ | ⟨_, _, hres⟩ | ⟨pte, _, _, hres⟩
    · obtain rfl : Panic.nullPte = e := by simpa [hres] using herr
      exact .inr ⟨0, List.length_pos_iff.2 hne, by simp, hstop, hva, .inl ⟨hwalk, rfl⟩⟩
    · simp [hres] at herr
    · simp [hres] at herr
  | case3 s va buf hne hnone =>
    rcases uva2ka_cases pd hva with ⟨_, _, hres⟩ | ⟨htab, hstop, _⟩ | ⟨pte, _, _, hres⟩
    · simp [hres] at hnone
    · exact .inr ⟨0, List.length_pos_iff.2 hne, by simp, hstop, hva, .inr ⟨htab, s, 0, Nat.le_refl 0, rfl, .nil pd s va⟩⟩
    · simp [hres] at hnone
  | case4 s va buf hne pa0 hpa ih =>
    rcases uva2ka_cases pd hva with ⟨_, _, hres⟩ | ⟨_, _, hres⟩ | ⟨pte, hpte, hacc, hres⟩
    · simp [hres] at hpa
    · simp [hres] at hpa
    obtain rfl : pte.pa = pa0 := by simpa [hres] using hpa
    have hk := hacc.lt_kernbase hsp hva
    have hpos := chunk_pos va hne
    have hoff : va - pgrounddown va = va % pgsize := by
      simp only [pgrounddown, pgsize]
      omega
    have hlen : (buf.take (Vm.chunk va buf)).length = Vm.chunk va buf := List.length_take_of_le (Nat.min_le_right _ _)
    have hfit : va % pgsize + Vm.chunk va buf ≤ pgsize := by
      simp only [Vm.chunk, hoff, pgsize]
      omega
    -- The part of `buf` that goes into this page.
    have hchunk : CopiedOut pd s va (buf.take (Vm.chunk va buf))
        (s.modifyAt pte.pa (blit (va - pgrounddown va) (buf.take (Vm.chunk va buf)))) := by
      refine ⟨fun i hi => ?_, ?_⟩
      · rw [hlen] at hi
        refine hacc.congr hva ?_ ?_
        · have := kernbase_lt_addrSpace
          simp only [kernbase, addrSpace, pgsize] at *
          omega
        · simp only [pgsize] at *
          omega
      · rw [hoff]
        exact .chunk hsp hnd hk hpte (by rw [hlen]; exact hfit)
    by_cases hall : buf.length ≤ pgsize - va % pgsize
    · have hwhole : Vm.chunk va buf = buf.length := by
        simp only [Vm.chunk, hoff]
        omega
      rw [hwhole, List.take_length] at hchunk
      rw [hwhole, List.take_length, List.drop_length, copyout_nil]
      exact .inl ⟨_, rfl, hchunk⟩
    have hnext : (pgrounddown va + pgsize) % addrSpace = va + (buf.take (Vm.chunk va buf)).length := by
      rw [hlen]
      simp only [Vm.chunk, hoff]
      simp only [pgrounddown, pgsize, kernbase, addrSpace] at *
      omega
    have hrest := ih (Nat.mod_lt _ (by decide))
    rw [hnext] at hrest ⊢
    have hsplit := List.take_append_drop (Vm.chunk va buf) buf
    rcases hrest with ⟨s', hres', hcopied⟩ | ⟨i, hstopped⟩
    · have hcopied' := hchunk.append hcopied
      rw [hsplit] at hcopied'
      exact .inl ⟨s', hres', hcopied'⟩
    · have hstopped' := hstopped.append hchunk
      rw [hsplit] at hstopped'
      exact .inr ⟨_, hstopped'⟩

end

end Xv6.Vm
