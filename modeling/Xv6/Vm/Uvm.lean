import Mathlib.Algebra.BigOperators.Fin
import Xv6.Vm.PageTable

/-!
# Uvm — user address spaces

`allocuvm`, `deallocuvm` and `freevm`, as functions on a page directory and physical memory.  Each loop is the loop of
the source; those of `mappages` and `deallocuvm` give back what they have done so far, because their callers go on with
it.

`Sized pd sz` is the agreement between a directory and a size: a user page is present exactly if it lies below
`PGROUNDUP(sz)`.  The specifications say for each function which pages are mapped afterwards and to what, which bytes
may have changed, and that the pages of the directory and the free ones are together the same as before.
-/

namespace Xv6.Vm

open Common PageDir

/-! ## Definitions -/

/-- `PTE_W|PTE_U`. -/
def userPerm : Perm := { w := true, u := true }

def zeros : Page := fun _ => 0

/-- The loop of `deallocuvm` from `a` on.  Where there is no page table it goes on with the next one. -/
def deallocLoop (oldsz : ℕ) (s : Mem) (pd : PageDir) (a : ℕ) : Except Panic (PageDir × Mem) :=
  if a < oldsz then
    match pd.walkpgdir a with
    | none => deallocLoop oldsz s pd ((a / 0x400000 + 1) * 0x400000)
    | some none => deallocLoop oldsz s pd (a + pgsize)
    | some (some pte) =>
      match s.kfreePa pte.pa with
      | .error e => .error e
      | .ok s => deallocLoop oldsz s (pd.setPte a none) (a + pgsize)
  else
    .ok (pd, s)
termination_by oldsz - a
decreasing_by
  · omega
  · simp only [pgsize]; omega
  · simp only [pgsize]; omega

def deallocuvm (s : Mem) (pd : PageDir) (oldsz newsz : ℕ) : Except Panic (ℕ × PageDir × Mem) :=
  if oldsz ≤ newsz then
    return (oldsz, pd, s)
  else do
    let (pd, s) ← deallocLoop oldsz s pd (pgroundup newsz)
    return (newsz, pd, s)

/-- `deallocuvm(pgdir, newsz, oldsz); return 0;` in `allocuvm`. -/
def allocFail (s : Mem) (pd : PageDir) (oldsz newsz : ℕ) : Except Panic (ℕ × PageDir × Mem) := do
  let (_, pd, s) ← deallocuvm s pd newsz oldsz
  return (0, pd, s)

/-- The number of turns of `for(; a < limit; a += PGSIZE)`. -/
def turns (a limit : ℕ) : ℕ := (limit - a + pgsize - 1) / pgsize

/-- The last turns of the loop of `allocuvm`, from `a` on. -/
def allocLoop (oldsz newsz : ℕ) : ℕ → Mem → PageDir → ℕ → Except Panic (ℕ × PageDir × Mem)
  | 0, s, pd, _ => return (newsz, pd, s)
  | n + 1, s, pd, a =>
    match s.kalloc with
    | none => allocFail s pd oldsz newsz
    | some (mem, s) => do
        let (ok, pd, s) ← mappages (s.fill mem zeros) pd a pgsize mem.1 userPerm
        if ok then
          allocLoop oldsz newsz n s pd (a + pgsize)
        else
          let (r, pd, s) ← allocFail s pd oldsz newsz
          return (r, pd, s.kfree mem)

@[irreducible] def allocuvm (s : Mem) (pd : PageDir) (oldsz newsz : ℕ) : Except Panic (ℕ × PageDir × Mem) :=
  if kernbase ≤ newsz then
    return (0, pd, s)
  else if newsz < oldsz then
    return (oldsz, pd, s)
  else
    allocLoop oldsz newsz (turns (pgroundup oldsz) newsz) s pd (pgroundup oldsz)

def tablePages (pd : PageDir) : List Frame :=
  (List.finRange nentries).filterMap (fun i => (pd.pde i).map PageTable.page)

def freevm (s : Mem) (pd : PageDir) : Except Panic Mem := do
  let (_, pd, s) ← deallocuvm s pd kernbase 0
  return ((tablePages pd).foldl Mem.kfree s).kfree pd.page

/-! ## Sizes -/

/-- A user page is present exactly if it lies below `PGROUNDUP(sz)`. -/
def Sized (pd : PageDir) (sz : ℕ) : Prop :=
  ∀ va < kernbase, pd.Present va ↔ va < pgroundup sz

/-- What every address space has: user pages lie in pages of `kalloc`, and the kernel's half is not for the user. -/
structure Space (pd : PageDir) : Prop where
  framed : ∀ va < kernbase, ∀ pte, pd.lookup va = some pte → IsFrame pte.pa
  kernel : ∀ va < addrSpace, kernbase ≤ va → ∀ pte, pd.lookup va = some pte → pte.perm.u = false

theorem le_pgroundup (sz : ℕ) : sz ≤ pgroundup sz := by
  simp only [pgroundup, pgsize]
  omega

variable {a b va oldsz newsz limit : ℕ} {pd pd' : PageDir} {s s' : Mem}

theorem pgroundup_mono (h : a ≤ b) : pgroundup a ≤ pgroundup b := by
  simp only [pgroundup, pgsize]
  omega

theorem pgroundup_mod (sz : ℕ) : pgroundup sz % pgsize = 0 := by
  simp only [pgroundup, pgsize]
  omega

theorem add_pgsize_mod (h : a % pgsize = 0) : (a + pgsize) % pgsize = 0 := by
  rw [Nat.add_mod_right]
  exact h

theorem pgroundup_le_kernbase {sz : ℕ} (h : sz ≤ kernbase) : pgroundup sz ≤ kernbase := by
  simp only [pgroundup, pgsize, kernbase] at *
  omega

theorem Sized.lookup_eq_none {sz : ℕ} (h : Sized pd sz) (hva : va < kernbase) (hle : pgroundup sz ≤ va) :
    pd.lookup va = none := by
  have hnot : ¬ pd.Present va := fun hp => Nat.not_lt.2 hle ((h va hva).1 hp)
  simpa [PageDir.Present] using hnot

theorem Space.frame (h : Space pd) (hva : va < kernbase) {pte : Pte} (hpte : pd.lookup va = some pte) :
    ∃ f : Frame, pte.pa = f.1 ∧ pd.lookup va = some { pa := f.1, perm := pte.perm } :=
  ⟨⟨pte.pa, h.framed va hva pte hpte⟩, rfl, hpte⟩

def PageDir.byte (pd : PageDir) (s : Mem) (va : ℕ) : Option UInt8 :=
  (pd.lookup va).map fun pte => s.pageAt pte.pa (va % pgsize)

theorem pageAt_congr (s s' : Mem) {pa : ℕ} (hframe : IsFrame pa) (h : s'.page ⟨pa, hframe⟩ = s.page ⟨pa, hframe⟩) :
    s'.pageAt pa = s.pageAt pa := by
  rw [Mem.pageAt, Mem.pageAt, dif_pos hframe, dif_pos hframe, h]

/-- A user address keeps its byte if it keeps its page and the page keeps its bytes. -/
theorem Space.byte_congr (h : Space pd) (hva : va < kernbase) (hlook : pd'.lookup va = pd.lookup va)
    (hpage : ∀ f ∈ pd.owned, s'.page f = s.page f) : pd'.byte s' va = pd.byte s va := by
  rw [PageDir.byte, PageDir.byte, hlook]
  cases hpte : pd.lookup va with
  | none => rfl
  | some pte =>
    rcases h.frame hva hpte with ⟨f, hf, hlook'⟩
    have hsame := pageAt_congr s s' f.2 (hpage f (mem_owned hva hlook'))
    rw [Option.map_some, Option.map_some, hf, hsame]

theorem not_mem_free (hnd : (pd.owned + s.free).Nodup) {f : Frame} (hf : f ∈ pd.owned) : f ∉ s.free :=
  fun hfree => Multiset.disjoint_left.1 (Multiset.nodup_add.1 hnd).2.2 hf hfree

/-! ## `deallocuvm` -/

/-- What `deallocuvm` unmaps: the pages from `a` up to `oldsz`. -/
def InSpan (a oldsz b : ℕ) : Prop := a ≤ b ∧ pgrounddown b < oldsz

instance (a oldsz b : ℕ) : Decidable (InSpan a oldsz b) := inferInstanceAs (Decidable (_ ∧ _))

theorem lookup_of_walk_none (h : pd.walkpgdir a = none) (hab : a ≤ b) (hlt : b < (a / 0x400000 + 1) * 0x400000) :
    pd.lookup b = none := by
  have hpdx : pdx b = pdx a := by
    simp only [pdx, Fin.ext_iff]
    omega
  have hpde : pd.pde (pdx a) = none := by
    simpa [PageDir.walkpgdir] using h
  simp [PageDir.lookup, PageDir.walkpgdir, hpdx, hpde]

/-- A page-aligned address and the next one, seen from any address. -/
theorem inSpan_step (ha : a % pgsize = 0) (hlt : a < oldsz) :
    InSpan a oldsz b ↔ b / pgsize = a / pgsize ∨ InSpan (a + pgsize) oldsz b := by
  simp only [InSpan, pgrounddown, pgsize] at *
  omega

/-- The pages from `a` up to `oldsz` have been unmapped and freed. -/
structure Unmapped (a oldsz : ℕ) (s : Mem) (pd : PageDir) (s' : Mem) (pd' : PageDir) : Prop where
  lookup : ∀ b < addrSpace, pd'.lookup b = if InSpan a oldsz b then none else pd.lookup b
  owned : pd'.owned + s'.free = pd.owned + s.free
  mono : ∀ f ∈ s.free, f ∈ s'.free
  freed : ∀ f ∈ s'.free, f ∈ s.free ∨ ∃ b < kernbase, InSpan a oldsz b ∧
    ∃ perm, pd.lookup b = some { pa := f.1, perm := perm }
  page : ∀ f, f ∉ s'.free → s'.page f = s.page f
  pde : ∀ j : Fin nentries, 512 ≤ j.val → pd'.pde j = pd.pde j

theorem Unmapped.refl (h : oldsz ≤ a) (ha : a % pgsize = 0) :
    Unmapped a oldsz s pd s pd where
  lookup b _ := by
    have hout : ¬ InSpan a oldsz b := by
      intro hin
      simp only [InSpan, pgrounddown, pgsize] at *
      omega
    rw [if_neg hout]
  owned := rfl
  mono _ := id
  freed _ := .inl
  page _ _ := rfl
  pde _ _ := rfl

theorem Unmapped.mono_span {a' : ℕ} (h : Unmapped a' oldsz s pd s' pd')
    (hle : ∀ b, InSpan a' oldsz b → InSpan a oldsz b)
    (hnone : ∀ b < addrSpace, InSpan a oldsz b → ¬ InSpan a' oldsz b → pd.lookup b = none) :
    Unmapped a oldsz s pd s' pd' where
  lookup b hb := by
    rw [h.lookup b hb]
    by_cases hin' : InSpan a' oldsz b
    · rw [if_pos hin', if_pos (hle b hin')]
    · rw [if_neg hin']
      by_cases hin : InSpan a oldsz b
      · rw [if_pos hin, hnone b hb hin hin']
      · rw [if_neg hin]
  owned := h.owned
  mono := h.mono
  freed f hf := by
    rcases h.freed f hf with hmem | ⟨b, hb, hin, hlook⟩
    · exact .inl hmem
    · exact .inr ⟨b, hb, hle b hin, hlook⟩
  page := h.page
  pde := h.pde

theorem Unmapped.cons {f : Frame} {perm : Perm} (ha : a % pgsize = 0) (hlt : a < oldsz) (hk : a < kernbase)
    (hlook : pd.lookup a = some { pa := f.1, perm := perm })
    (h : Unmapped (a + pgsize) oldsz (s.kfree f) (pd.setPte a none) s' pd') : Unmapped a oldsz s pd s' pd' := by
  have haddr := Nat.lt_trans hk kernbase_lt_addrSpace
  have htab := pde_of_walk (walk_of_lookup hlook)
  have hset := fun b hb => lookup_setPte (e := none) (b := b) htab haddr hb
  constructor
  case lookup =>
    intro b hb
    rw [h.lookup b hb, hset b hb]
    by_cases hpage : b / pgsize = a / pgsize
    · simp [inSpan_step ha hlt, hpage]
    · simp only [inSpan_step ha hlt, hpage, false_or, if_false]
  case owned =>
    have howned := owned_setPte (e := none) htab haddr
    rw [hlook, userFrame_some hk, userFrame_none, add_zero] at howned
    calc
      pd'.owned + s'.free = (pd.setPte a none).owned + ((f :: s.free : List Frame) : Multiset Frame) := h.owned
      _ = (pd.setPte a none).owned + {f} + s.free := by rw [← Multiset.cons_coe, ← Multiset.singleton_add, add_assoc]
      _ = pd.owned + s.free := by rw [howned]
  case mono => exact fun g hg => h.mono g (List.mem_cons_of_mem f hg)
  case freed =>
    intro g hg
    rcases h.freed g hg with hmem | ⟨b, hb, hin, perm', hlook'⟩
    · rcases List.mem_cons.1 hmem with rfl | hmem
      · exact .inr ⟨a, hk, (inSpan_step ha hlt).2 (.inl rfl), perm, hlook⟩
      · exact .inl hmem
    · refine .inr ⟨b, hb, (inSpan_step ha hlt).2 (.inr hin), perm', ?_⟩
      rw [hset b (Nat.lt_trans hb kernbase_lt_addrSpace)] at hlook'
      split_ifs at hlook'
      exact hlook'
  case page =>
    intro g hg
    have hne : g ≠ f := fun heq => hg (heq ▸ h.mono f List.mem_cons_self)
    rw [h.page g hg, Mem.kfree_page_of_ne hne]
  case pde =>
    intro j hj
    rw [h.pde j hj, setPte_pde_kernel hk hj]

theorem Space.setPte_none (h : Space pd) (ha : a < addrSpace) (htab : (pd.pde (pdx a)).isSome = true) :
    Space (pd.setPte a none) := by
  constructor
  · intro b hb pte hpte
    rw [lookup_setPte htab ha (Nat.lt_trans hb kernbase_lt_addrSpace)] at hpte
    split_ifs at hpte
    exact h.framed b hb pte hpte
  · intro b hb hle pte hpte
    rw [lookup_setPte htab ha hb] at hpte
    split_ifs at hpte
    exact h.kernel b hb hle pte hpte

theorem deallocLoop_spec (hold : oldsz ≤ kernbase) (ha : a % pgsize = 0)
    (hsp : Space pd) : Runs (deallocLoop oldsz s pd a) fun r => Unmapped a oldsz s pd r.2 r.1 := by
  have hspace := kernbase_lt_addrSpace
  fun_induction deallocLoop oldsz s pd a with
  | case1 s pd a hlt hwalk ih =>
    have hmod : (a / 0x400000 + 1) * 0x400000 % pgsize = 0 := by
      simp only [pgsize]
      omega
    refine (ih hmod hsp).mono fun r hr => hr.mono_span ?_ ?_
    · exact fun b hin => ⟨by have := hin.1; omega, hin.2⟩
    -- The skipped pages have no page table.
    intro b hb hin hout
    refine lookup_of_walk_none hwalk hin.1 ?_
    by_contra hge
    exact hout ⟨by omega, hin.2⟩
  | case2 s pd a hlt hwalk ih =>
    refine (ih (add_pgsize_mod ha) hsp).mono fun r hr => hr.mono_span ?_ ?_
    · exact fun b hin => (inSpan_step ha hlt).2 (.inr hin)
    · intro b hb hin hout
      have hpage := ((inSpan_step ha hlt).1 hin).resolve_right hout
      rw [lookup_congr hb (by omega) hpage]
      exact lookup_eq_of_walk hwalk
  | case3 s pd a hlt pte hwalk e herr =>
    -- The page is one of `kalloc`'s, so `kfree` does not complain.
    have hframe := hsp.framed a (by omega) pte (lookup_eq_of_walk hwalk)
    simp [Mem.kfreePa, hframe] at herr
  | case4 s pd a hlt pte hwalk s1 hfree ih =>
    have hk : a < kernbase := by omega
    have hlook := lookup_eq_of_walk hwalk
    have hframe := hsp.framed a hk pte hlook
    obtain rfl : s.kfree ⟨pte.pa, hframe⟩ = s1 := by simpa [Mem.kfreePa, hframe] using hfree
    have htab := pde_of_walk hwalk
    refine (ih (add_pgsize_mod ha) (hsp.setPte_none (by omega) htab)).mono fun r hr => ?_
    exact .cons ha hlt hk hlook hr
  | case5 s pd a hge => exact .ok (.refl (Nat.not_lt.1 hge) ha)

theorem Unmapped.space (h : Unmapped a oldsz s pd s' pd') (hsp : Space pd) : Space pd' := by
  constructor
  · intro b hb pte hpte
    rw [h.lookup b (Nat.lt_trans hb kernbase_lt_addrSpace)] at hpte
    split_ifs at hpte
    exact hsp.framed b hb pte hpte
  · intro b hb hle pte hpte
    rw [h.lookup b hb] at hpte
    split_ifs at hpte
    exact hsp.kernel b hb hle pte hpte

/-- Shrinking unmaps the pages above the new size and no other. -/
theorem deallocuvm_spec (hold : oldsz ≤ kernbase) (hlt : newsz < oldsz) (hsp : Space pd) :
    Runs (deallocuvm s pd oldsz newsz) fun r => r.1 = newsz ∧ Unmapped (pgroundup newsz) oldsz s pd r.2.2 r.2.1 := by
  rw [deallocuvm, if_neg (Nat.not_le.2 hlt)]
  refine (deallocLoop_spec hold (pgroundup_mod newsz) hsp).bind fun r hr => ?_
  exact .ok ⟨rfl, hr⟩

theorem Unmapped.sized (h : Unmapped (pgroundup newsz) oldsz s pd s' pd') (hle : newsz ≤ oldsz) (hsz : Sized pd oldsz) :
    Sized pd' newsz := by
  intro b hb
  rw [PageDir.Present, h.lookup b (Nat.lt_trans hb kernbase_lt_addrSpace)]
  by_cases hin : InSpan (pgroundup newsz) oldsz b
  · have hge := hin.1
    rw [if_pos hin]
    simp only [Option.isSome_none, Bool.false_eq_true, false_iff]
    omega
  · rw [if_neg hin]
    refine (hsz b hb).trans ?_
    simp only [InSpan, pgrounddown, pgroundup, pgsize] at *
    omega

/-! ## `allocuvm` -/

theorem turns_zero (h : turns a limit = 0) : limit ≤ a := by
  simp only [turns, pgsize] at h
  omega

theorem turns_succ {n : ℕ} (h : turns a limit = n + 1) : a < limit ∧ turns (a + pgsize) limit = n := by
  simp only [turns, pgsize] at *
  omega

theorem eq_pgroundup (hmod : a % pgsize = 0) (hle : a ≤ pgroundup limit) (hge : limit ≤ a) : a = pgroundup limit := by
  simp only [pgroundup, pgsize] at *
  omega

theorem add_pgsize_le (hmod : a % pgsize = 0) (hlt : a < limit) : a + pgsize ≤ pgroundup limit := by
  simp only [pgroundup, pgsize] at *
  omega

theorem mappages_page {pa : ℕ} {perm : Perm} (ha : a % pgsize = 0) :
    mappages s pd a pgsize pa perm = mapLoop perm 0 s pd a pa := by
  have hdown : pgrounddown a = a := by
    simp only [pgrounddown, pgsize] at *
    omega
  have hzero : (pgrounddown (a + pgsize - 1) - pgrounddown a) / pgsize = 0 := by
    simp only [pgrounddown, pgsize] at *
    omega
  rw [mappages, hzero, hdown]

theorem mappages_page_spec (pa : ℕ) (perm : Perm) (ha : a % pgsize = 0) (hlt : a < addrSpace)
    (hnone : pd.lookup a = none) :
    Runs (mappages s pd a pgsize pa perm) fun r =>
      (r = (false, pd, s) ∧ s.free.length < pd.missing) ∨
        (r.1 = true ∧ Mapped s pd a { pa := pa, perm := perm } r.2.2 r.2.1) := by
  rw [mappages_page ha]
  refine (mapPage_spec hlt hnone).bind fun o ho => ?_
  rcases o with _ | ⟨pd', s'⟩
  · exact .ok (.inl ⟨rfl, ho.1 rfl⟩)
  · exact .ok (.inr ⟨rfl, ho.2 pd' s' rfl⟩)

/-- The pages from `lo` up to `hi` have been added.  `want` says for each of them, by its number, what its flags and its
bytes are to be. -/
structure Added (want : ℕ → Perm × Page) (lo hi : ℕ) (s : Mem) (pd : PageDir) (s' : Mem) (pd' : PageDir) : Prop where
  outside : ∀ b < addrSpace, ¬ (lo ≤ b ∧ b < hi) → pd'.lookup b = pd.lookup b
  inside : ∀ b, lo ≤ b → b < hi → ∃ f ∈ s.free, f ∉ s'.free ∧
    pd'.lookup b = some { pa := f.1, perm := (want (b / pgsize)).1 } ∧ s'.page f = (want (b / pgsize)).2
  owned : pd'.owned + s'.free = pd.owned + s.free
  sub : s'.free ⊆ s.free
  page : ∀ f, f ∉ s.free → s'.page f = s.page f
  pde : ∀ j : Fin nentries, 512 ≤ j.val → pd'.pde j = pd.pde j

section Added

variable {want : ℕ → Perm × Page} {lo hi a oldsz newsz : ℕ} {s s1 s2 s3 : Mem} {pd pd1 pd2 : PageDir} {mem : Frame}
  {perm : Perm} {x : Page}

theorem Added.refl (want : ℕ → Perm × Page) (lo : ℕ) (s : Mem) (pd : PageDir) : Added want lo lo s pd s pd where
  outside _ _ _ := rfl
  inside _ hlo hhi := absurd hhi (Nat.not_lt.2 hlo)
  owned := rfl
  sub _ := id
  page _ _ := rfl
  pde _ _ := rfl

theorem Added.nodup (h : Added want lo hi s pd s1 pd1) (hnd : (pd.owned + s.free).Nodup) :
    (pd1.owned + s1.free).Nodup := by
  rw [h.owned]
  exact hnd

theorem nodup_free (hnd : (pd.owned + s.free).Nodup) : s.free.Nodup :=
  Multiset.coe_nodup.1 (Multiset.nodup_add.1 hnd).2.1

theorem Added.snoc (h : Added want lo a s pd s1 pd1) (hnd : (pd.owned + s.free).Nodup)
    (halloc : s1.kalloc = some (mem, s2))
    (hmap : Mapped (s2.fill mem x) pd1 a { pa := mem.1, perm := perm } s3 pd2) (hwant : want (a / pgsize) = (perm, x))
    (hmod : a % pgsize = 0) (hlo : lo ≤ a) (hk : a < kernbase) : Added want lo (a + pgsize) s pd s3 pd2 := by
  rcases Mem.kalloc_eq_some halloc with ⟨hfree, hpage⟩
  have hmem : mem ∉ s2.free := by
    have hnodup := nodup_free (h.nodup hnd)
    rw [hfree] at hnodup
    exact (List.nodup_cons.1 hnodup).1
  have hsub : s3.free ⊆ s1.free := fun f hf => by
    rw [hfree]
    exact List.mem_cons_of_mem mem (hmap.sub hf)
  have hold : ∀ f, f ≠ mem → s3.page f = s1.page f := fun f hf => by
    rw [hmap.page, Mem.fill_page_of_ne hf, hpage]
  have hin : mem ∈ s1.free := by
    rw [hfree]
    exact List.mem_cons_self
  constructor
  case outside =>
    intro b hb hout
    rw [hmap.lookup b hb, if_neg, h.outside b hb]
    · omega
    · intro hpg
      simp only [pgsize] at *
      omega
  case inside =>
    intro b hlo' hhi
    have hlt : b < addrSpace := by
      have := kernbase_lt_addrSpace
      simp only [kernbase, addrSpace, pgsize] at *
      omega
    rw [hmap.lookup b hlt]
    by_cases hpg : b / pgsize = a / pgsize
    · rw [if_pos hpg, hpg, hwant]
      refine ⟨mem, h.sub hin, fun hf => hmem (hmap.sub hf), rfl, ?_⟩
      rw [hmap.page, Mem.fill_page_self]
    have hba : b < a := by
      simp only [pgsize] at *
      omega
    rcases h.inside b hlo' hba with ⟨f, hf, hf1, hlook, hpg'⟩
    rw [if_neg hpg]
    refine ⟨f, hf, fun hf3 => hf1 (hsub hf3), hlook, ?_⟩
    rw [hold f fun heq => hf1 (heq ▸ hin), hpg']
  case owned =>
    have howned := hmap.owned
    rw [userFrame_some hk, Mem.fill_free] at howned
    calc
      pd2.owned + s3.free = pd1.owned + s2.free + {mem} := howned
      _ = pd1.owned + ({mem} + s2.free) := by rw [add_assoc, add_comm (s2.free : Multiset Frame)]
      _ = pd1.owned + s1.free := by rw [hfree, ← Multiset.cons_coe, ← Multiset.singleton_add]
      _ = pd.owned + s.free := h.owned
  case sub => exact List.Subset.trans hsub h.sub
  case page =>
    intro f hf
    rw [hold f fun heq => hf (heq ▸ h.sub hin), h.page f hf]
  case pde =>
    intro j hj
    rw [hmap.pde j fun heq => Nat.not_lt.2 hj (heq ▸ pdx_lt_of_user hk), h.pde j hj]

/-- The page that `mappages` had no use for is freed. -/
theorem Added.returned (h : Added want lo hi s pd s1 pd1) (halloc : s1.kalloc = some (mem, s2)) (x : Page) :
    Added want lo hi s pd ((s2.fill mem x).kfree mem) pd1 := by
  rcases Mem.kalloc_eq_some halloc with ⟨hfree, hpage⟩
  have hback : ((s2.fill mem x).kfree mem).free = s1.free := hfree.symm
  have hin : mem ∈ s1.free := by
    rw [hfree]
    exact List.mem_cons_self
  have hold : ∀ f, f ≠ mem → ((s2.fill mem x).kfree mem).page f = s1.page f := fun f hf => by
    rw [Mem.kfree_page_of_ne hf, Mem.fill_page_of_ne hf, hpage]
  constructor
  case outside => exact h.outside
  case inside =>
    intro b hlo hhi
    rcases h.inside b hlo hhi with ⟨f, hf, hf1, hlook, hpg⟩
    rw [hback]
    exact ⟨f, hf, hf1, hlook, (hold f fun heq => hf1 (heq ▸ hin)).trans hpg⟩
  case owned => rw [hback, h.owned]
  case sub =>
    rw [hback]
    exact h.sub
  case page =>
    intro f hf
    rw [hold f fun heq => hf (heq ▸ h.sub hin), h.page f hf]
  case pde => exact h.pde

theorem Unmapped.returned (h : Unmapped a oldsz (s2.fill mem x) pd1 s3 pd2) (halloc : s1.kalloc = some (mem, s2)) :
    Unmapped a oldsz s1 pd1 (s3.kfree mem) pd2 := by
  rcases Mem.kalloc_eq_some halloc with ⟨hfree, hpage⟩
  constructor
  case lookup => exact h.lookup
  case owned =>
    have howned := h.owned
    rw [Mem.fill_free] at howned
    calc
      pd2.owned + ((mem :: s3.free : List Frame) : Multiset Frame) = {mem} + (pd2.owned + s3.free) := by
        rw [← Multiset.cons_coe, ← Multiset.singleton_add, add_left_comm]
      _ = {mem} + (pd1.owned + s2.free) := by rw [howned]
      _ = pd1.owned + s1.free := by rw [hfree, ← Multiset.cons_coe, ← Multiset.singleton_add, add_left_comm]
  case mono =>
    intro f hf
    rw [hfree] at hf
    exact List.mem_cons.2 ((List.mem_cons.1 hf).imp_right (h.mono f))
  case freed =>
    intro f hf
    rcases List.mem_cons.1 hf with rfl | hf
    · rw [hfree]
      exact .inl List.mem_cons_self
    · rcases h.freed f hf with hmem | hspan
      · rw [hfree]
        exact .inl (List.mem_cons_of_mem mem hmem)
      · exact .inr hspan
  case page =>
    intro f hf
    rw [Mem.kfree_free, List.mem_cons, not_or] at hf
    rw [Mem.kfree_page_of_ne hf.1, h.page f hf.2, Mem.fill_page_of_ne hf.1, hpage]
  case pde => exact h.pde

/-- Unmapping what was added leaves the directory as it was, but for its page tables. -/
theorem Added.undo (h : Added want lo a s pd s1 pd1) (hu : Unmapped lo newsz s1 pd1 s2 pd2) (ha : a ≤ pgroundup newsz)
    (hnew : newsz ≤ kernbase) (hnone : ∀ b < kernbase, lo ≤ b → pd.lookup b = none) :
    Added want lo lo s pd s2 pd2 := by
  have hsub : s2.free ⊆ s.free := by
    intro f hf
    rcases hu.freed f hf with hmem | ⟨b, hb, hin, perm, hlook⟩
    · exact h.sub hmem
    by_cases hba : lo ≤ b ∧ b < a
    · rcases h.inside b hba.1 hba.2 with ⟨g, hg, _, hlook', _⟩
      rw [hlook'] at hlook
      simp only [Option.some.injEq, Pte.mk.injEq] at hlook
      exact Subtype.ext hlook.1 ▸ hg
    · rw [h.outside b (Nat.lt_trans hb kernbase_lt_addrSpace) hba, hnone b hb hin.1] at hlook
      cases hlook
  constructor
  case outside =>
    intro b hb _
    rw [hu.lookup b hb]
    by_cases hin : InSpan lo newsz b
    · have hbk : b < kernbase := by
        have hdown := hin.2
        simp only [pgrounddown, pgsize, kernbase] at *
        omega
      rw [if_pos hin, hnone b hbk hin.1]
    · rw [if_neg hin, h.outside b hb]
      simp only [InSpan, pgrounddown, pgroundup, pgsize] at *
      omega
  case inside => exact fun b hlo hhi => absurd hhi (Nat.not_lt.2 hlo)
  case owned => exact hu.owned.trans h.owned
  case sub => exact hsub
  case page =>
    intro f hf
    rw [hu.page f fun hf2 => hf (hsub hf2), h.page f hf]
  case pde => exact fun j hj => (hu.pde j hj).trans (h.pde j hj)

theorem Added.space (h : Added want lo hi s pd s1 pd1) (hhi : hi ≤ kernbase) (hsp : Space pd) : Space pd1 := by
  constructor
  · intro b hb pte hpte
    by_cases hin : lo ≤ b ∧ b < hi
    · rcases h.inside b hin.1 hin.2 with ⟨f, _, _, hlook, _⟩
      rw [hlook] at hpte
      cases hpte
      exact f.2
    · rw [h.outside b (Nat.lt_trans hb kernbase_lt_addrSpace) hin] at hpte
      exact hsp.framed b hb pte hpte
  · intro b hb hle pte hpte
    rw [h.outside b hb fun hin => by omega] at hpte
    exact hsp.kernel b hb hle pte hpte

theorem Added.sized (h : Added want (pgroundup oldsz) (pgroundup newsz) s pd s1 pd1) (hle : oldsz ≤ newsz)
    (hsz : Sized pd oldsz) : Sized pd1 newsz := by
  intro b hb
  by_cases hin : pgroundup oldsz ≤ b ∧ b < pgroundup newsz
  · rcases h.inside b hin.1 hin.2 with ⟨f, _, _, hlook, _⟩
    rw [PageDir.Present, hlook]
    exact iff_of_true rfl hin.2
  · have hmono := pgroundup_mono hle
    rw [PageDir.Present, h.outside b (Nat.lt_trans hb kernbase_lt_addrSpace) hin]
    refine (hsz b hb).trans ?_
    omega

end Added

def blank (_ : ℕ) : Perm × Page := (userPerm, zeros)

/-- The failure path of `allocuvm` removes what the loop has mapped so far. -/
theorem allocFail_spec (hnew : newsz < kernbase) (hlt : oldsz < newsz) (hsp : Space pd) :
    Runs (allocFail s pd oldsz newsz) fun r => r.1 = 0 ∧ Unmapped (pgroundup oldsz) newsz s pd r.2.2 r.2.1 := by
  refine (deallocuvm_spec (Nat.le_of_lt hnew) hlt hsp).bind fun r hr => ?_
  exact .ok ⟨rfl, hr.2⟩

theorem allocLoop_spec {n : ℕ} {s1 : Mem} {pd1 : PageDir} (hnew : newsz < kernbase)
    (hnone : ∀ b < kernbase, pgroundup oldsz ≤ b → pd.lookup b = none) (hsp : Space pd)
    (hnd : (pd.owned + s.free).Nodup) (hold : pgroundup oldsz ≤ a) (hmod : a % pgsize = 0)
    (hlast : a ≤ pgroundup newsz) (hn : turns a newsz = n) (hadd : Added blank (pgroundup oldsz) a s pd s1 pd1) :
    Runs (allocLoop oldsz newsz n s1 pd1 a) fun r =>
      (r.1 = newsz ∧ (∀ m, pd1.missing + n + m ≤ s1.free.length → r.2.1.missing + m ≤ r.2.2.free.length) ∧
          Added blank (pgroundup oldsz) (pgroundup newsz) s pd r.2.2 r.2.1) ∨
        (r.1 = 0 ∧ s1.free.length < pd1.missing + n ∧
          Added blank (pgroundup oldsz) (pgroundup oldsz) s pd r.2.2 r.2.1) := by
  induction n generalizing s1 pd1 a with
  | zero =>
    have heq : a = pgroundup newsz := eq_pgroundup hmod hlast (turns_zero hn)
    rw [← heq]
    exact .ok (.inl ⟨rfl, fun _ => id, hadd⟩)
  | succ n ih =>
    rcases turns_succ hn with ⟨hlt, hn'⟩
    have hk := Nat.lt_trans hlt hnew
    have haddr := Nat.lt_trans hk kernbase_lt_addrSpace
    have hsp1 := hadd.space (Nat.le_of_lt hk) hsp
    have hsize : oldsz < newsz := Nat.lt_of_le_of_lt (Nat.le_trans (le_pgroundup oldsz) hold) hlt
    have hnone1 : pd1.lookup a = none := by
      rw [hadd.outside a haddr fun hin => Nat.lt_irrefl a hin.2]
      exact hnone a hk hold
    simp only [allocLoop]
    cases halloc : s1.kalloc with
    | none =>
      refine (allocFail_spec hnew hsize hsp1).mono fun r hr => .inr ⟨hr.1, ?_, ?_⟩
      · rw [Mem.kalloc_eq_none halloc, List.length_nil]
        omega
      · exact hadd.undo hr.2 hlast (Nat.le_of_lt hnew) hnone
    | some r =>
      rcases r with ⟨mem, s2⟩
      have hlen : s1.free.length = s2.free.length + 1 := by
        rw [(Mem.kalloc_eq_some halloc).1, List.length_cons]
      refine (mappages_page_spec mem.1 userPerm hmod haddr hnone1).bind fun r hr => ?_
      rcases r with ⟨ok, pd2, s3⟩
      rcases hr with ⟨heq, hmiss⟩ | ⟨rfl, hmap⟩
      · simp only [Prod.mk.injEq] at heq
        rcases heq with ⟨rfl, rfl, rfl⟩
        refine (allocFail_spec hnew hsize hsp1).bind fun r hr => .ok (.inr ⟨hr.1, ?_, ?_⟩)
        · rw [Mem.fill_free] at hmiss
          omega
        · exact hadd.undo (hr.2.returned halloc) hlast (Nat.le_of_lt hnew) hnone
      have hnext := hadd.snoc hnd halloc hmap rfl hmod hold hk
      refine (ih (Nat.le_trans hold (Nat.le_add_right _ _)) (add_pgsize_mod hmod) (add_pgsize_le hmod hlt) hn'
        hnext).mono fun r hr => ?_
      have henough := hmap.enough
      rw [Mem.fill_free] at henough
      rcases hr with ⟨hr, hleft, hadd'⟩ | ⟨hr, hlt', hadd'⟩
      · refine .inl ⟨hr, fun m hm => hleft m ?_, hadd'⟩
        have := henough (n + m) (by omega)
        omega
      · refine .inr ⟨hr, ?_, hadd'⟩
        have := henough n
        omega

/-- `allocuvm` on a directory of size `oldsz` returns the new size and has made it so, or returns the old size because
it is larger, or returns 0 and has changed nothing that is mapped. -/
theorem allocuvm_spec (hnone : ∀ b < kernbase, pgroundup oldsz ≤ b → pd.lookup b = none) (hsp : Space pd)
    (hnd : (pd.owned + s.free).Nodup) :
    Runs (allocuvm s pd oldsz newsz) fun r =>
      (r.1 = newsz ∧ newsz < kernbase ∧ oldsz ≤ newsz ∧
          (∀ m, pd.missing + turns (pgroundup oldsz) newsz + m ≤ s.free.length →
            r.2.1.missing + m ≤ r.2.2.free.length) ∧
          Added blank (pgroundup oldsz) (pgroundup newsz) s pd r.2.2 r.2.1) ∨
        (r = (oldsz, pd, s) ∧ newsz < oldsz ∧ newsz < kernbase) ∨
        (r.1 = 0 ∧ (kernbase ≤ newsz ∨ s.free.length < pd.missing + turns (pgroundup oldsz) newsz) ∧
          Added blank (pgroundup oldsz) (pgroundup oldsz) s pd r.2.2 r.2.1) := by
  unfold allocuvm
  split_ifs with hbig hsmall
  · exact .ok (.inr (.inr ⟨rfl, .inl hbig, .refl _ _ _ _⟩))
  · exact .ok (.inr (.inl ⟨rfl, hsmall, Nat.not_le.1 hbig⟩))
  have hnew : newsz < kernbase := Nat.not_le.1 hbig
  have hle : oldsz ≤ newsz := Nat.not_lt.1 hsmall
  refine (allocLoop_spec hnew hnone hsp hnd (Nat.le_refl _) (pgroundup_mod oldsz) (pgroundup_mono hle) rfl
    (.refl _ _ _ _)).mono fun r hr => ?_
  rcases hr with ⟨hr, hleft, hadd⟩ | ⟨hr, hlen, hadd⟩
  · exact .inl ⟨hr, hnew, hle, hleft, hadd⟩
  · exact .inr (.inr ⟨hr, .inr hlen, hadd⟩)

/-! ## `freevm` -/

theorem foldl_kfree (l : List Frame) (s : Mem) : (l.foldl Mem.kfree s).free = l.reverse ++ s.free ∧
      ∀ f, f ∉ l → (l.foldl Mem.kfree s).page f = s.page f := by
  induction l generalizing s with
  | nil => exact ⟨rfl, fun _ _ => rfl⟩
  | cons g l ih =>
    rcases ih (s.kfree g) with ⟨hfree, hpage⟩
    rw [List.foldl_cons]
    refine ⟨?_, fun f hf => ?_⟩
    · rw [hfree, Mem.kfree_free, List.reverse_cons, List.append_assoc, List.singleton_append]
    · rw [List.mem_cons, not_or] at hf
      rw [hpage f hf.2, Mem.kfree_page_of_ne hf.1]

theorem exists_address (i j : Fin nentries) (hi : i.val < 512) : ∃ va < kernbase, pdx va = i ∧ ptx va = j := by
  have hj : j.val < 1024 := j.isLt
  refine ⟨i.val * 0x400000 + j.val * 0x1000, ?_, Fin.ext ?_, Fin.ext ?_⟩
  · simp only [kernbase]
    omega
  · simp only [pdx]
    omega
  · simp only [ptx]
    omega

theorem sum_map_toList {ι α : Type} (g : ι → Option α) (l : List ι) :
    (l.map fun i => ((g i).toList : Multiset α)).sum = (l.filterMap g : Multiset α) := by
  induction l with
  | nil => rfl
  | cons i l ih =>
    rw [List.map_cons, List.sum_cons, ih]
    cases hg : g i with
    | none =>
      rw [List.filterMap_cons_none hg]
      exact zero_add _
    | some x =>
      rw [List.filterMap_cons_some hg]
      exact Multiset.coe_add _ _

theorem owned_of_unmapped (h : ∀ b < kernbase, pd.lookup b = none) :
    pd.owned = {pd.page} + (tablePages pd : Multiset Frame) := by
  have htable : ∀ i, tableFrames i (pd.pde i) = (((pd.pde i).map PageTable.page).toList : Multiset Frame) := by
    intro i
    cases hpde : pd.pde i with
    | none => rfl
    | some t =>
      have hzero : (if i.val < 512 then ∑ j, frameOf (t.pte j) else 0) = 0 := by
        split_ifs with hi
        · refine Finset.sum_eq_zero fun j _ => ?_
          rcases exists_address i j hi with ⟨va, hva, rfl, rfl⟩
          have hnone := h va hva
          simp only [PageDir.lookup, PageDir.walkpgdir, hpde, Option.map_some, Option.join_some] at hnone
          rw [hnone, frameOf_none]
        · rfl
      rw [tableFrames, hzero, add_zero]
      rfl
  rw [owned_eq, tablePages, Finset.sum_congr rfl fun i _ => htable i, Fin.sum_univ_def, sum_map_toList]

theorem freevm_spec (s : Mem) (hsp : Space pd) : Runs (freevm s pd) fun s' =>
      (s'.free : Multiset Frame) = pd.owned + s.free ∧ ∀ f, f ∉ s'.free → s'.page f = s.page f := by
  refine (deallocuvm_spec (Nat.le_refl kernbase) (by decide) hsp).bind fun r hr => ?_
  rcases r with ⟨r, pd', s'⟩
  have hu : Unmapped (pgroundup 0) kernbase s pd s' pd' := hr.2
  have hnone : ∀ b < kernbase, pd'.lookup b = none := by
    intro b hb
    rw [hu.lookup b (Nat.lt_trans hb kernbase_lt_addrSpace), if_pos]
    refine ⟨Nat.zero_le b, Nat.lt_of_le_of_lt ?_ hb⟩
    exact Nat.div_mul_le_self b pgsize
  rcases foldl_kfree (tablePages pd') s' with ⟨hfree, hpage⟩
  refine .ok ⟨?_, fun f hf => ?_⟩
  · calc
      _ = {pd'.page} + (((tablePages pd').reverse : Multiset Frame) + (s'.free : Multiset Frame)) := by
        rw [Mem.kfree_free, hfree, ← Multiset.cons_coe, ← Multiset.singleton_add, ← Multiset.coe_add]
      _ = pd'.owned + s'.free := by rw [owned_of_unmapped hnone, Multiset.coe_reverse, add_assoc]
      _ = pd.owned + s.free := hu.owned
  · rw [Mem.kfree_free, hfree, List.mem_cons, List.mem_append, List.mem_reverse] at hf
    rw [Mem.kfree_page_of_ne fun heq => hf (.inl heq), hpage f fun hmem => hf (.inr (.inl hmem)),
      hu.page f fun hmem => hf (.inr (.inr hmem))]

end Xv6.Vm
