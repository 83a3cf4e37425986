import Xv6.Vm.Uvm

/-!
# Copyuvm — new address spaces

`setupkvm`, which makes a directory with the kernel's half mapped, `copyuvm`, which fills one with copies of another's
user pages, and `clearpteu`.  Both of the former give everything back if they run out of memory.
-/

namespace Xv6.Vm

open Common PageDir

/-! ## Definitions -/

/-- A line of `kmap`. -/
structure Kmap where
  virt : ℕ
  physStart : ℕ
  physEnd : ℕ
  perm : Perm

/-- The symbol `data`, which the linker script puts at a page boundary behind the kernel's text. -/
abbrev DataSymbol := { data : ℕ // data % pgsize = 0 ∧ 0x80100000 < data ∧ data < 0x8E000000 }

def DataSymbol.small : DataSymbol := ⟨0x80108000, by decide⟩

def kmap (data : DataSymbol) : List Kmap :=
  [{ virt := 0x80000000, physStart := 0, physEnd := 0x100000, perm := { w := true, u := false } },
   { virt := 0x80100000, physStart := 0x100000, physEnd := data - 0x80000000,
     perm := { w := false, u := false } },
   { virt := data, physStart := data - 0x80000000, physEnd := 0xE000000,
     perm := { w := true, u := false } },
   { virt := 0xFE000000, physStart := 0xFE000000, physEnd := 0, perm := { w := true, u := false } }]

/-- `k->phys_end - k->phys_start`, an unsigned difference. -/
def Kmap.size (k : Kmap) : ℕ :=
  if k.physStart ≤ k.physEnd then k.physEnd - k.physStart
  else k.physEnd + addrSpace - k.physStart

def mapKmap : List Kmap → Mem → PageDir → Except Panic (Bool × PageDir × Mem)
  | [], s, pd => return (true, pd, s)
  | k :: ks, s, pd => do
      let (ok, pd, s) ← mappages s pd k.virt k.size k.physStart k.perm
      if ok then mapKmap ks s pd else return (false, pd, s)

def setupkvm (data : DataSymbol) (s : Mem) : Except Panic (Option PageDir × Mem) :=
  match s.kalloc with
  | none => return (none, s)
  | some (page, s) => do
      let (ok, pd, s) ← mapKmap (kmap data) s (PageDir.empty page)
      if ok then
        return (some pd, s)
      else
        let s ← freevm s pd
        return (none, s)

/-- The last turns of the loop of `copyuvm`, from page `i` on; with `false` it goes to `bad`. -/
def copyLoop (src : PageDir) : ℕ → Mem → PageDir → ℕ → Except Panic (Bool × PageDir × Mem)
  | 0, s, d, _ => return (true, d, s)
  | n + 1, s, d, i =>
    match src.walkpgdir i with
    | none => .error .copyuvmPte
    | some none => .error .copyuvmPresent
    | some (some pte) =>
      match s.kalloc with
      | none => return (false, d, s)
      | some (mem, s) => do
          let (ok, d, s) ← mappages (s.fill mem (s.pageAt pte.pa)) d i pgsize mem.1 pte.perm
          if ok then copyLoop src n s d (i + pgsize) else return (false, d, s.kfree mem)

def copyuvm (data : DataSymbol) (s : Mem) (pd : PageDir) (sz : ℕ) : Except Panic (Option PageDir × Mem) := do
  match ← setupkvm data s with
  | (none, s) => return (none, s)
  | (some d, s) =>
    let (ok, d, s) ← copyLoop pd (turns 0 sz) s d 0
    if ok then
      return (some d, s)
    else
      let s ← freevm s d
      return (none, s)

def clearpteu (pd : PageDir) (uva : ℕ) : Except Panic PageDir :=
  match pd.walkpgdir uva with
  | none => .error .clearpteu
  -- An entry without `PTE_P` has no flags that matter.
  | some none => .ok pd
  | some (some pte) => .ok (pd.setPte uva (some { pte with perm := { pte.perm with u := false } }))

/-! ## `setupkvm` -/

/-- The lines of a `kmap` follow each other in the address space from `x` on, and none is for the user. -/
def Ascending : ℕ → List Kmap → Prop
  | _, [] => True
  | x, k :: ks => x ≤ k.virt ∧ k.virt % pgsize = 0 ∧ k.size % pgsize = 0 ∧ 0 < k.size ∧
      k.virt + k.size ≤ addrSpace ∧ k.perm.u = false ∧ Ascending (k.virt + k.size) ks

theorem Kmap.size_of_le {k : Kmap} (h : k.physStart ≤ k.physEnd) : k.size = k.physEnd - k.physStart :=
  if_pos h

theorem Kmap.size_of_lt {k : Kmap} (h : k.physEnd < k.physStart) : k.size = k.physEnd + addrSpace - k.physStart :=
  if_neg (Nat.not_le.2 h)

theorem kmap_cases (data : DataSymbol) {p : List Kmap → Prop}
    (h : ∀ io text mem dev : Kmap, io.virt = 0x80000000 → io.size = 0x100000 → io.perm.u = false →
      text.virt = 0x80100000 → text.size = data - 0x80100000 → text.perm.u = false →
      mem.virt = data → mem.size = 0x8E000000 - data → mem.perm.u = false →
      dev.virt = 0xFE000000 → dev.size = 0x2000000 → dev.perm.u = false → p [io, text, mem, dev]) : p (kmap data) := by
  have hdata := data.2
  refine h _ _ _ _ rfl ?_ rfl rfl ?_ rfl rfl ?_ rfl rfl ?_ rfl
  · exact Kmap.size_of_le (Nat.zero_le _)
  · rw [Kmap.size_of_le (by dsimp only; omega)]
    dsimp only
    omega
  · rw [Kmap.size_of_le (by dsimp only; omega)]
    dsimp only
    omega
  · rw [Kmap.size_of_lt (by decide)]
    rfl

theorem kmap_ascending (data : DataSymbol) : Ascending kernbase (kmap data) := by
  have hdata := data.2
  simp only [pgsize] at hdata
  refine kmap_cases data fun io text mem dev => ?_
  intro hv1 hs1 hu1 hv2 hs2 hu2 hv3 hs3 hu3 hv4 hs4 hu4
  simp only [Ascending, hv1, hs1, hu1, hv2, hs2, hu2, hv3, hs3, hu3, hv4, hs4, hu4, kernbase, addrSpace, pgsize,
    true_and, and_true]
  omega

variable {s : Mem} {pd : PageDir} {va : ℕ}

theorem mappages_range {size pa : ℕ} {perm : Perm} (hva : va % pgsize = 0) (hsize : size % pgsize = 0)
    (hpos : 0 < size) : mappages s pd va size pa perm = mapLoop perm (size / pgsize - 1) s pd va pa := by
  have hdown : pgrounddown va = va := by
    simp only [pgrounddown, pgsize] at *
    omega
  have hcount : (pgrounddown (va + size - 1) - pgrounddown va) / pgsize = size / pgsize - 1 := by
    simp only [pgrounddown, pgsize] at *
    omega
  rw [mappages, hcount, hdown]

theorem inPages_range {size : ℕ} (hva : va % pgsize = 0) (hsize : size % pgsize = 0) (hpos : 0 < size) (b : ℕ) :
    InPages va (size / pgsize - 1) b ↔ va ≤ b ∧ b < va + size := by
  simp only [InPages, pgsize] at *
  omega

/-- The lines `ks` have been mapped from `x` on; `ok` says whether there was memory for it. -/
structure KernelHalf (ks : List Kmap) (x : ℕ) (s : Mem) (pd : PageDir) (ok : Bool) (s' : Mem) (pd' : PageDir) :
    Prop where
  below : ∀ b < x, b < addrSpace → pd'.lookup b = pd.lookup b
  kernel : ∀ b < addrSpace, x ≤ b → ∀ e, pd'.lookup b = some e → e.perm.u = false
  owned : pd'.owned + s'.free = pd.owned + s.free
  sub : s'.free ⊆ s.free
  page : s'.page = s.page
  pde : ∀ j, (∀ k ∈ ks, ∀ b, k.virt ≤ b → b < k.virt + k.size → j ≠ pdx b) → pd'.pde j = pd.pde j
  enough : ∀ n, pd.missing + n ≤ s.free.length → ok = true ∧ pd'.missing + n ≤ s'.free.length

theorem mapKmap_spec {ks : List Kmap} (s : Mem) {x : ℕ} (hx : kernbase ≤ x) (hks : Ascending x ks)
    (hnone : ∀ b < addrSpace, x ≤ b → pd.lookup b = none) :
    Runs (mapKmap ks s pd) fun r => KernelHalf ks x s pd r.1 r.2.2 r.2.1 := by
  induction ks generalizing s pd x with
  | nil =>
    refine .ok ⟨fun _ _ _ => rfl, fun b hb hle e he => ?_, rfl, fun _ => id, rfl, fun _ _ => rfl,
      fun _ hn => ⟨rfl, hn⟩⟩
    rw [hnone b hb hle] at he
    cases he
  | cons k ks ih =>
    rcases hks with ⟨hk, hva, hsize, hpos, hend, hu, hrest⟩
    have hspan : k.virt + (k.size / pgsize - 1) * pgsize < addrSpace := by
      simp only [pgsize] at hsize ⊢
      omega
    have hrange := inPages_range hva hsize hpos
    rw [mapKmap, mappages_range hva hsize hpos]
    refine (mapLoop_spec s k.physStart (Nat.le_trans hx hk) hspan fun b hb hin => ?_).bind fun r hr => ?_
    · exact hnone b hb (Nat.le_trans hk ((hrange b).1 hin).1)
    rcases r with ⟨ok, pd1, s1⟩
    have hout : ∀ b < addrSpace, b < k.virt ∨ k.virt + k.size ≤ b → pd1.lookup b = pd.lookup b :=
      fun b hb h => hr.outside b hb fun hin => by
        have := (hrange b).1 hin
        omega
    have hpde : ∀ j, (∀ b, k.virt ≤ b → b < k.virt + k.size → j ≠ pdx b) → pd1.pde j = pd.pde j :=
      fun j hj => hr.pde j fun b _ hin => hj b ((hrange b).1 hin).1 ((hrange b).1 hin).2
    -- What lies above the line is not mapped yet; the line itself is not for the user.
    have hkernel : ∀ b < addrSpace, x ≤ b → ∀ e, pd1.lookup b = some e → e.perm.u = false := by
      intro b hb hle e he
      by_cases hin : k.virt ≤ b ∧ b < k.virt + k.size
      · rw [hr.perm b hb ((hrange b).2 hin) e he]
        exact hu
      · rw [hout b hb (by omega), hnone b hb hle] at he
        cases he
    cases ok with
    | false =>
      refine .ok ⟨fun b hbx hb => hout b hb (.inl (by omega)), hkernel, hr.owned, hr.sub, hr.page, ?_, hr.enough⟩
      exact fun j hj => hpde j (hj k List.mem_cons_self)
    | true =>
      have hnone1 : ∀ b < addrSpace, k.virt + k.size ≤ b → pd1.lookup b = none := by
        intro b hb hge
        rw [hout b hb (.inr hge)]
        exact hnone b hb (by omega)
      refine (ih s1 (by omega) hrest hnone1).mono fun r hr' => ?_
      constructor
      case below =>
        intro b hbx hb
        rw [hr'.below b (by omega) hb, hout b hb (.inl (by omega))]
      case kernel =>
        intro b hb hle e he
        by_cases hlater : k.virt + k.size ≤ b
        · exact hr'.kernel b hb hlater e he
        · rw [hr'.below b (by omega) hb] at he
          exact hkernel b hb hle e he
      case owned => exact hr'.owned.trans hr.owned
      case sub => exact List.Subset.trans hr'.sub hr.sub
      case page => exact hr'.page.trans hr.page
      case pde =>
        intro j hj
        rw [hr'.pde j fun k' hk' => hj k' (List.mem_cons_of_mem k hk')]
        exact hpde j (hj k List.mem_cons_self)
      case enough => exact fun n hn => hr'.enough n (hr.enough n hn).2

/-- A directory of `setupkvm`. -/
structure Fresh (s s' : Mem) (pd : PageDir) : Prop where
  user : ∀ b < kernbase, pd.lookup b = none
  kernel : ∀ b < addrSpace, kernbase ≤ b → ∀ e, pd.lookup b = some e → e.perm.u = false
  owned : pd.owned + s'.free = s.free
  sub : s'.free ⊆ s.free
  page : s'.page = s.page
  /-- There are page tables only for what is mapped. -/
  pde : ∀ va < addrSpace, va < kernbase ∨ kernbase + phystop ≤ va ∧ va < 0xFE000000 → pd.pde (pdx va) = none

theorem Fresh.space {s' : Mem} (h : Fresh s s' pd) :
    Space pd where
  framed va hva pte hpte := by
    rw [h.user va hva] at hpte
    cases hpte
  kernel := h.kernel

theorem Fresh.sized {s' : Mem} (h : Fresh s s' pd) : Sized pd 0 := by
  intro b hb
  rw [PageDir.Present, h.user b hb]
  exact iff_of_false Bool.false_ne_true (Nat.not_lt_zero b)

/-- No address outside the lines of `kmap` shares a page table with them. -/
theorem kmap_pdx (data : DataSymbol) (hva : va < addrSpace)
    (h : va < kernbase ∨ kernbase + phystop ≤ va ∧ va < 0xFE000000) :
    ∀ k ∈ kmap data, ∀ b, k.virt ≤ b → b < k.virt + k.size → pdx va ≠ pdx b := by
  have hdata := data.2
  simp only [addrSpace] at hva
  simp only [kernbase, phystop] at h
  apply kmap_cases data (p := fun ks => ∀ k ∈ ks, ∀ b, k.virt ≤ b → b < k.virt + k.size → pdx va ≠ pdx b)
  intro io text mem dev hv1 hs1 _ hv2 hs2 _ hv3 hs3 _ hv4 hs4 _
  simp only [List.forall_mem_cons, hv1, hs1, hv2, hs2, hv3, hs3, hv4, hs4, pdx, ne_eq, Fin.ext_iff]
  refine ⟨?_, ?_, ?_, ?_, by simp⟩
  all_goals
    intro b hb hb'
    omega

theorem missing_empty (page : Frame) : (PageDir.empty page).missing = nentries := by
  simp [missing_eq, PageDir.empty]

theorem setupkvm_spec (data : DataSymbol) (s : Mem) : Runs (setupkvm data s) fun r =>
      (r.1 = none → s.free.length ≤ nentries ∧ (r.2.free : Multiset Frame) = s.free ∧
        ∀ f, f ∉ s.free → r.2.page f = s.page f) ∧
      ∀ pd, r.1 = some pd → Fresh s r.2 pd ∧ ∀ n, nentries + n + 1 ≤ s.free.length → pd.missing + n ≤ r.2.free.length := by
  unfold setupkvm
  cases halloc : s.kalloc with
  | none =>
    refine .ok ⟨fun _ => ⟨?_, rfl, fun _ _ => rfl⟩, by simp⟩
    rw [Mem.kalloc_eq_none halloc]
    exact Nat.zero_le _
  | some r =>
    rcases r with ⟨page, s1⟩
    rcases Mem.kalloc_eq_some halloc with ⟨hfree, hpage⟩
    have hlen : s.free.length = s1.free.length + 1 := by rw [hfree, List.length_cons]
    have hcons : ({page} : Multiset Frame) + s1.free = s.free := by
      rw [hfree, ← Multiset.cons_coe, Multiset.singleton_add]
    refine (mapKmap_spec s1 (Nat.le_refl kernbase) (kmap_ascending data) fun b _ _ => lookup_empty page b).bind
      fun r hr => ?_
    rcases r with ⟨ok, pd, s2⟩
    have howned : pd.owned + s2.free = s.free := by
      rw [hr.owned, owned_empty, hcons]
    have hpage2 : s2.page = s.page := hr.page.trans hpage
    have hfresh : Fresh s s2 pd := by
      refine ⟨fun b hb => ?_, hr.kernel, howned, fun f hf => ?_, hpage2, fun va hva h => ?_⟩
      · rw [hr.below b hb (Nat.lt_trans hb kernbase_lt_addrSpace), lookup_empty]
      · rw [hfree]
        exact List.mem_cons_of_mem page (hr.sub hf)
      · exact hr.pde (pdx va) (kmap_pdx data hva h)
    have henough : ∀ n, nentries + n + 1 ≤ s.free.length → ok = true ∧ pd.missing + n ≤ s2.free.length := by
      intro n hn
      refine hr.enough n ?_
      rw [missing_empty]
      omega
    cases ok with
    | true =>
      refine .ok ⟨by simp, fun pd' heq => ?_⟩
      obtain rfl : pd = pd' := by simpa using heq
      exact ⟨hfresh, fun n hn => (henough n hn).2⟩
    | false =>
      refine (freevm_spec s2 hfresh.space).bind fun s3 hs3 => .ok ⟨fun _ => ⟨?_, ?_, fun f hf => ?_⟩, by simp⟩
      · by_contra hgt
        exact Bool.false_ne_true (henough 0 (by omega)).1
      · exact hs3.1.trans howned
      · have hmem : f ∉ s3.free := by
          rw [← Multiset.mem_coe, hs3.1, howned]
          exact hf
        rw [hs3.2 f hmem, hpage2]

/-! ## The first address space -/

def nframes : ℕ := 57088

theorem nframes_eq : nframes = 57088 :=
  rfl

-- The list of all pages is never to be evaluated.
attribute [irreducible] nframes

def pageAddress (i : Fin nframes) : ℕ := extmem + i.val * pgsize

theorem isFrame_pageAddress (i : Fin nframes) : IsFrame (pageAddress i) := by
  have hi : i.val < 57088 := nframes_eq ▸ i.isLt
  simp only [IsFrame, pageAddress, extmem, phystop, pgsize]
  omega

/-- All of physical memory is free, as after `kinit2`. -/
def Mem.boot : Mem :=
  { free := (List.finRange nframes).map fun i => ⟨pageAddress i, isFrame_pageAddress i⟩
    page := fun _ => zeros }

theorem Mem.boot_length : Mem.boot.free.length = nframes := by
  rw [Mem.boot, List.length_map, List.length_finRange]

theorem Mem.boot_nodup : Mem.boot.free.Nodup := by
  refine (List.nodup_finRange nframes).map fun i j hij => Fin.ext ?_
  have hval : pageAddress i = pageAddress j := congrArg Subtype.val hij
  simp only [pageAddress, pgsize] at hval
  omega

/-- Address spaces of every size that fits into physical memory can be built, and leave the other pages free. -/
theorem exists_space (data : DataSymbol) (sz n : ℕ) (hsz : sz < kernbase)
    (hmem : nentries + 1 + turns 0 sz + n ≤ nframes) :
    ∃ (s : Mem) (pd : PageDir), Sized pd sz ∧ Space pd ∧ (pd.owned + s.free).Nodup ∧ n ≤ s.free.length := by
  rcases (setupkvm_spec data Mem.boot).exists_ok fun _ => trivial with ⟨⟨_ | pd, s⟩, _, hnone, hsome⟩
  · have hlen := (hnone rfl).1
    rw [Mem.boot_length] at hlen
    omega
  rcases hsome pd rfl with ⟨hfresh, henough⟩
  rw [Mem.boot_length] at henough
  have hbound : pd.missing + (turns 0 sz + n) ≤ s.free.length := henough (turns 0 sz + n) (by omega)
  have hzero : pgroundup 0 = 0 := by decide
  have hnd : (pd.owned + s.free).Nodup := by
    rw [hfresh.owned]
    exact Mem.boot_nodup
  rcases (allocuvm_spec (fun b hb (_ : pgroundup 0 ≤ b) => hfresh.user b hb) hfresh.space
    hnd).exists_ok fun _ => trivial with ⟨r, _, ⟨_, _, _, hleft, hadd⟩ | ⟨_, hlt, _⟩ | ⟨_, hfail, _⟩⟩
  · refine ⟨r.2.2, r.2.1, hadd.sized (Nat.zero_le sz) hfresh.sized, ?_, hadd.nodup hnd, ?_⟩
    · exact hadd.space (pgroundup_le_kernbase (Nat.le_of_lt hsz)) hfresh.space
    · rw [hzero] at hleft
      exact Nat.le_trans (Nat.le_add_left _ _) (hleft n (by omega))
  · exact absurd hlt (Nat.not_lt_zero sz)
  · rw [hzero] at hfail
    omega

/-! ## `copyuvm` -/

/-- What `copyuvm` puts into its pages: the flags and the bytes of the page in the source. -/
def copied (s : Mem) (src : PageDir) (n : ℕ) : Perm × Page :=
  match src.lookup (n * pgsize) with
  | some pte => (pte.perm, s.pageAt pte.pa)
  | none => (userPerm, zeros)

theorem copied_eq {src : PageDir} {pte : Pte} (hva : va < kernbase) (h : src.lookup va = some pte) :
    copied s src (va / pgsize) = (pte.perm, s.pageAt pte.pa) := by
  have hle : va / pgsize * pgsize ≤ va := Nat.div_mul_le_self va pgsize
  have hspace := kernbase_lt_addrSpace
  have hpage : va / pgsize * pgsize / pgsize = va / pgsize := Nat.mul_div_cancel _ (by decide)
  rw [copied, lookup_congr (by omega) (by omega) hpage, h]

section Copy

variable {src : PageDir} {sz : ℕ} {s : Mem} {d : PageDir}

/-- The loop of `copyuvm` never panics on a source that has the pages it is told of, and copies page by page until there
is no memory. -/
theorem copyLoop_spec {n i : ℕ} {s1 : Mem} {d1 : PageDir} (hsz : sz < kernbase)
    (hsrc : ∀ va < pgroundup sz, src.Present va) (hsp : Space src) (hused : ∀ f ∈ src.owned, f ∉ s.free) (hnone : ∀ b < kernbase, d.lookup b = none)
    (hnd : (d.owned + s.free).Nodup) (hmod : i % pgsize = 0) (hlast : i ≤ pgroundup sz) (hn : turns i sz = n)
    (hadd : Added (copied s src) 0 i s d s1 d1) :
    Runs (copyLoop src n s1 d1 i) fun r =>
      (r.1 = false → s1.free.length < d1.missing + n) ∧
        ∃ hi ≤ pgroundup sz, (r.1 = true → hi = pgroundup sz) ∧ Added (copied s src) 0 hi s d r.2.2 r.2.1 := by
  induction n generalizing s1 d1 i with
  | zero =>
    have heq : i = pgroundup sz := eq_pgroundup hmod hlast (turns_zero hn)
    exact .ok ⟨by simp, i, hlast, fun _ => heq, hadd⟩
  | succ n ih =>
    rcases turns_succ hn with ⟨hlt, hn'⟩
    have hk := Nat.lt_trans hlt hsz
    have haddr := Nat.lt_trans hk kernbase_lt_addrSpace
    -- Page `i` lies below the size, so it is present in the source.
    have hpres : src.Present i := hsrc i (Nat.lt_of_lt_of_le hlt (le_pgroundup sz))
    rcases Option.isSome_iff_exists.1 hpres with ⟨pte, hpte⟩
    rcases hsp.frame hk hpte with ⟨f, hf, hlook⟩
    have hnone1 : d1.lookup i = none := by
      rw [hadd.outside i haddr fun hin => Nat.lt_irrefl i hin.2]
      exact hnone i hk
    simp only [copyLoop, walk_of_lookup hpte]
    cases halloc : s1.kalloc with
    | none =>
      refine .ok ⟨fun _ => ?_, i, hlast, by simp, hadd⟩
      rw [Mem.kalloc_eq_none halloc, List.length_nil]
      omega
    | some r =>
      rcases r with ⟨mem, s2⟩
      rcases Mem.kalloc_eq_some halloc with ⟨hfree, hpage⟩
      have hlen : s1.free.length = s2.free.length + 1 := by rw [hfree, List.length_cons]
      -- What has been allocated so far was free, so the source still has its bytes.
      have hbytes : s2.pageAt pte.pa = s.pageAt pte.pa := by
        have hnot : f ∉ s.free := hused f (mem_owned hk hlook)
        have hsame : s2.page f = s.page f := by rw [hpage, hadd.page f hnot]
        rw [hf]
        exact pageAt_congr _ _ f.2 hsame
      have hwant : copied s src (i / pgsize) = (pte.perm, s2.pageAt pte.pa) := by
        rw [copied_eq hk hpte, hbytes]
      refine (mappages_page_spec mem.1 pte.perm hmod haddr hnone1).bind fun r hr => ?_
      rcases r with ⟨ok, d2, s3⟩
      rcases hr with ⟨heq, hmiss⟩ | ⟨rfl, hmap⟩
      · simp only [Prod.mk.injEq] at heq
        rcases heq with ⟨rfl, rfl, rfl⟩
        refine .ok ⟨fun _ => ?_, i, hlast, by simp, hadd.returned halloc _⟩
        rw [Mem.fill_free] at hmiss
        omega
      have hnext := hadd.snoc hnd halloc hmap hwant hmod (Nat.zero_le i) hk
      refine (ih (add_pgsize_mod hmod) (add_pgsize_le hmod hlt) hn' hnext).mono
        fun r hr => ⟨fun hfalse => ?_, hr.2⟩
      have henough := hmap.enough n
      rw [Mem.fill_free] at henough
      have hlt' := hr.1 hfalse
      omega

end Copy

/-- A copy of the user pages of `src` below `PGROUNDUP(sz)`, in pages that were free. -/
structure Copied (s s' : Mem) (src : PageDir) (sz : ℕ) (d : PageDir) : Prop where
  absent : ∀ b < kernbase, pgroundup sz ≤ b → d.lookup b = none
  present : ∀ b < pgroundup sz, ∀ pte, src.lookup b = some pte → ∃ f ∈ s.free, f ∉ s'.free ∧
    d.lookup b = some { pa := f.1, perm := pte.perm } ∧ s'.page f = s.pageAt pte.pa
  space : Space d
  owned : d.owned + s'.free = s.free
  page : ∀ f, f ∉ s.free → s'.page f = s.page f

/-- `copyuvm` copies, or fails and leaves the free pages as they were. -/
theorem copyuvm_spec (data : DataSymbol) {src : PageDir} {sz : ℕ} (hsz : sz < kernbase)
    (hsrc : ∀ va < pgroundup sz, src.Present va) (hsp : Space src) (hnd : (src.owned + s.free).Nodup) :
    Runs (copyuvm data s src sz) fun r =>
      (r.1 = none → s.free.length < nentries + 1 + turns 0 sz ∧ (r.2.free : Multiset Frame) = s.free ∧
        ∀ f, f ∉ s.free → r.2.page f = s.page f) ∧
      ∀ d, r.1 = some d → Copied s r.2 src sz d := by
  refine (setupkvm_spec data s).bind fun r hr => ?_
  rcases r with ⟨_ | d, s1⟩
  · rcases hr.1 rfl with ⟨hlen, hfree, hpage⟩
    exact .ok ⟨fun _ => ⟨by omega, hfree, hpage⟩, by simp⟩
  rcases hr.2 d rfl with ⟨hfresh, henough⟩
  have hnd1 : (d.owned + s1.free).Nodup := by
    rw [hfresh.owned]
    exact (Multiset.nodup_add.1 hnd).2.1
  have hused : ∀ f ∈ src.owned, f ∉ s.free := fun f hf => not_mem_free hnd hf
  have hsame : ∀ pa, s1.pageAt pa = s.pageAt pa := fun pa => by
    rw [Mem.pageAt, Mem.pageAt, hfresh.page]
  have hround := pgroundup_le_kernbase (Nat.le_of_lt hsz)
  refine (copyLoop_spec hsz hsrc hsp (fun f hf hfree => hused f hf (hfresh.sub hfree)) hfresh.user hnd1 rfl
    (Nat.zero_le _) rfl (.refl _ _ _ _)).bind fun r hr => ?_
  rcases r with ⟨ok, d', s2⟩
  rcases hr with ⟨hmiss, hi, hle, htrue, hadd⟩
  have hspace : Space d' := hadd.space (Nat.le_trans hle hround) hfresh.space
  have hpage : ∀ f, f ∉ s.free → s2.page f = s.page f := fun f hf => by
    rw [hadd.page f fun hmem => hf (hfresh.sub hmem), hfresh.page]
  cases ok with
  | true =>
    refine .ok ⟨by simp, fun d'' heq => ?_⟩
    obtain rfl : d' = d'' := by simpa using heq
    obtain rfl : hi = pgroundup sz := htrue rfl
    refine ⟨fun b hb hge => ?_, fun b hlt pte hpte => ?_, hspace, ?_, hpage⟩
    · rw [hadd.outside b (Nat.lt_trans hb kernbase_lt_addrSpace) fun hin => Nat.not_lt.2 hge hin.2]
      exact hfresh.user b hb
    · rcases hadd.inside b (Nat.zero_le b) hlt with ⟨f, hf, hf', hlook, hbytes⟩
      rw [copied_eq (Nat.lt_of_lt_of_le hlt hround) hpte] at hlook hbytes
      exact ⟨f, hfresh.sub hf, hf', hlook, hbytes.trans (hsame pte.pa)⟩
    · exact hadd.owned.trans hfresh.owned
  | false =>
    refine (freevm_spec s2 hspace).bind fun s3 hs3 => .ok ⟨fun _ => ⟨?_, ?_, fun f hf => ?_⟩, by simp⟩
    · have hlt := hmiss rfl
      by_contra hge
      have hbound := henough (turns 0 sz) (by omega)
      omega
    · exact hs3.1.trans (hadd.owned.trans hfresh.owned)
    · have hmem : f ∉ s3.free := by
        rw [← Multiset.mem_coe, hs3.1, hadd.owned, hfresh.owned]
        exact hf
      rw [hs3.2 f hmem, hpage f hf]

/-! ## `clearpteu` -/

/-- The page at `a` is taken from the user, and nothing else happens. -/
structure Guarded (a : ℕ) (pd pd' : PageDir) : Prop where
  lookup : ∀ b < addrSpace, pd'.lookup b =
    if b / pgsize = a / pgsize then (pd.lookup b).map fun e => { e with perm := { e.perm with u := false } }
    else pd.lookup b
  owned : pd'.owned = pd.owned
  pde : ∀ j : Fin nentries, 512 ≤ j.val → pd'.pde j = pd.pde j

theorem clearpteu_spec {a : ℕ} (hk : a < kernbase) (hpres : pd.Present a) :
    Runs (clearpteu pd a) fun pd' => Guarded a pd pd' := by
  have ha := Nat.lt_trans hk kernbase_lt_addrSpace
  rcases Option.isSome_iff_exists.1 hpres with ⟨pte, hpte⟩
  have hwalk := walk_of_lookup hpte
  have htab := pde_of_walk hwalk
  simp only [clearpteu, hwalk]
  refine .ok ⟨fun b hb => ?_, ?_, fun j hj => ?_⟩
  · rw [lookup_setPte htab ha hb]
    by_cases hpage : b / pgsize = a / pgsize
    · rw [if_pos hpage, if_pos hpage, lookup_congr hb ha hpage, hpte]
      rfl
    · rw [if_neg hpage, if_neg hpage]
  · have howned := owned_setPte (e := some { pte with perm := { pte.perm with u := false } }) htab ha
    have hframe : userFrame a (some { pte with perm := { pte.perm with u := false } }) = userFrame a (some pte) := rfl
    rw [hpte, hframe] at howned
    exact add_right_cancel howned
  · exact setPte_pde_kernel hk hj

end Xv6.Vm
