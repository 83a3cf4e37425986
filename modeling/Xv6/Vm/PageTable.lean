import Mathlib.Algebra.BigOperators.Group.Finset.Basic
import Mathlib.Data.Fintype.BigOperators
import Mathlib.Tactic.SplitIfs
import Xv6.Common.Outcome
import Xv6.Common.Refs
import Xv6.Param

/-!
# PageTable — physical pages, page directories, `walkpgdir` and `mappages`

A page directory has 1024 entries, each absent or a page table of 1024 entries.  Directories and page tables remember
the page of physical memory they occupy, so that `freevm` can give it back; what these pages hold is the tables
themselves.  `Mem` is the rest of physical memory: the free list of `kalloc.c` and the bytes of every page.

`owned` are the pages that belong to a directory: its own, those of its page tables, and those that its entries below
`KERNBASE` refer to.  Pages are neither made nor lost: what a function takes from the free list it puts into the
directory, and what it takes out of the directory it puts on the free list.

`kalloc` fails exactly if the free list is empty.  The functions here stop at the first failure, and the length of the
list decides which `kalloc` that is.

Addresses are natural numbers below `2 ^ 32`.
-/

namespace Xv6.Vm

open Function (update update_of_ne update_self)
open Common

/-! ## Addresses -/

def kernbase : ℕ := 0x80000000

/-- `EXTMEM`, where the kernel is loaded. -/
def extmem : ℕ := 0x100000

def phystop : ℕ := 0xE000000

def addrSpace : ℕ := 0x100000000

def nentries : ℕ := 1024

def pdx (va : ℕ) : Fin nentries := ⟨va / 0x400000 % 1024, Nat.mod_lt _ (by decide)⟩

def ptx (va : ℕ) : Fin nentries := ⟨va / 0x1000 % 1024, Nat.mod_lt _ (by decide)⟩

def pgroundup (sz : ℕ) : ℕ := (sz + pgsize - 1) / pgsize * pgsize

def pgrounddown (a : ℕ) : ℕ := a / pgsize * pgsize

theorem kernbase_lt_addrSpace : kernbase < addrSpace := by
  decide

variable {a : ℕ}

/-- Two addresses use the same entry exactly if they lie in the same page. -/
theorem entry_eq_iff {b : ℕ} (ha : a < addrSpace) (hb : b < addrSpace) :
    (pdx a = pdx b ∧ ptx a = ptx b) ↔ a / pgsize = b / pgsize := by
  simp only [addrSpace] at ha hb
  simp only [pdx, ptx, pgsize, Fin.ext_iff]
  omega

theorem pdx_lt_iff (ha : a < addrSpace) : (pdx a).val < 512 ↔ a < kernbase := by
  simp only [addrSpace] at ha
  simp only [pdx, kernbase]
  omega

theorem pdx_lt_of_user (ha : a < kernbase) : (pdx a).val < 512 :=
  (pdx_lt_iff (Nat.lt_trans ha kernbase_lt_addrSpace)).2 ha

/-! ## Physical memory -/

/-- The pages that `kfree` accepts.  Its bound `end` is known to the linker only; the pages between `EXTMEM` and `end`
hold the kernel, and nobody hands them out. -/
def IsFrame (pa : ℕ) : Prop :=
  pa % pgsize = 0 ∧ extmem ≤ pa ∧ pa < phystop

instance (pa : ℕ) : Decidable (IsFrame pa) :=
  inferInstanceAs (Decidable (_ ∧ _ ∧ _))

/-- A page of physical memory that `kalloc` may hand out, by its physical address. -/
abbrev Frame := { pa : ℕ // IsFrame pa }

abbrev Page := ℕ → UInt8

structure Mem where
  /-- `kmem.freelist` -/
  free : List Frame
  page : Frame → Page

/-- The messages of `panic` in `vm.c`, `kalloc.c` and `file.c`, and reads through null pointers. -/
inductive Panic
  | remap
  /-- "loaduvm: addr must be page aligned" -/
  | loaduvmAligned
  /-- "loaduvm: address should exist" -/
  | loaduvm
  | kfree
  | clearpteu
  /-- "copyuvm: pte should exist" -/
  | copyuvmPte
  /-- "copyuvm: page not present" -/
  | copyuvmPresent
  | filedup
  /-- `uva2ka` reads through the null pointer. -/
  | nullPte
  /-- The directory of a process that has none is used. -/
  | nullPgdir
  deriving DecidableEq, Repr

/-- The function returns, with a result that has `Q`. -/
abbrev Runs {α : Type} (m : Except Panic α) (Q : α → Prop) : Prop :=
  Ensures (fun _ => True) m Q

namespace Mem

def kalloc (s : Mem) : Option (Frame × Mem) :=
  match s.free with
  | [] => none
  | f :: free => some (f, { s with free := free })

def fill (s : Mem) (f : Frame) (x : Page) : Mem :=
  { s with page := update s.page f x }

/-- Fill with junk to catch dangling refs. -/
def kfree (s : Mem) (f : Frame) : Mem :=
  { free := f :: s.free
    page := update s.page f fun _ => 1 }

def kfreePa (s : Mem) (pa : ℕ) : Except Panic Mem :=
  if h : IsFrame pa then .ok (s.kfree ⟨pa, h⟩) else .error .kfree

def pageAt (s : Mem) (pa : ℕ) : Page :=
  if h : IsFrame pa then s.page ⟨pa, h⟩ else fun _ => 0

/-- Bytes of the page at a physical address are written. -/
def modifyAt (s : Mem) (pa : ℕ) (g : Page → Page) : Mem :=
  if h : IsFrame pa then s.fill ⟨pa, h⟩ (g (s.page ⟨pa, h⟩)) else s

variable {s : Mem} {f : Frame}

theorem kalloc_eq_none (h : s.kalloc = none) : s.free = [] := by
  unfold kalloc at h
  split at h
  next hfree => exact hfree
  next => cases h

theorem kalloc_eq_some {s' : Mem} (h : s.kalloc = some (f, s')) : s.free = f :: s'.free ∧ s'.page = s.page := by
  unfold kalloc at h
  split at h
  next => cases h
  next f' free hfree =>
      simp only [Option.some.injEq, Prod.mk.injEq] at h
      rcases h with ⟨rfl, rfl⟩
      exact ⟨hfree, rfl⟩

theorem fill_page_of_ne {g : Frame} {x : Page} (h : g ≠ f) : (s.fill f x).page g = s.page g := update_of_ne h _ _

@[simp] theorem fill_page_self (x : Page) : (s.fill f x).page f = x := update_self _ _ _

@[simp] theorem fill_free (x : Page) : (s.fill f x).free = s.free := rfl

theorem modifyAt_page_of_ne {pa : ℕ} {g : Page → Page} (h : f.1 ≠ pa) : (s.modifyAt pa g).page f = s.page f := by
  unfold modifyAt
  split_ifs with hpa
  · exact fill_page_of_ne fun heq => h (congrArg Subtype.val heq)
  · rfl

theorem modifyAt_page_self (s : Mem) (f : Frame) (g : Page → Page) : (s.modifyAt f.1 g).page f = g (s.page f) := by
  rw [modifyAt, dif_pos f.2, fill_page_self]

@[simp] theorem modifyAt_free (pa : ℕ) (g : Page → Page) : (s.modifyAt pa g).free = s.free := by
  unfold modifyAt
  split_ifs <;> rfl

theorem kfree_page_of_ne {g : Frame} (h : g ≠ f) : (s.kfree f).page g = s.page g := update_of_ne h _ _

@[simp] theorem kfree_free (s : Mem) (f : Frame) : (s.kfree f).free = f :: s.free := rfl

end Mem

/-! ## Tables -/

/-- The flags of an entry besides `PTE_P`. -/
structure Perm where
  w : Bool
  u : Bool
  /-- The other flag bits, which the hardware sets. -/
  rest : ℕ := 0
  deriving DecidableEq, Repr

/-- An entry that has `PTE_P` set. -/
structure Pte where
  pa : ℕ
  perm : Perm
  deriving DecidableEq

structure PageTable where
  page : Frame
  pte : Fin nentries → Option Pte

structure PageDir where
  page : Frame
  pde : Fin nentries → Option PageTable

def frameOf (o : Option Pte) : Multiset Frame :=
  match o with
  | none => 0
  | some e => if h : IsFrame e.pa then {⟨e.pa, h⟩} else 0

@[simp] theorem frameOf_none : frameOf none = 0 :=
  rfl

theorem frameOf_some (f : Frame) (perm : Perm) : frameOf (some { pa := f.1, perm := perm }) = {f} := dif_pos f.2

def tableFrames (i : Fin nentries) (o : Option PageTable) : Multiset Frame :=
  match o with
  | none => 0
  | some t => {t.page} + if i.val < 512 then ∑ j, frameOf (t.pte j) else 0

namespace PageDir

/-- `walkpgdir` with `alloc = 0`: the entry for `va`, if there is a page table for it. -/
def walkpgdir (pd : PageDir) (va : ℕ) : Option (Option Pte) :=
  (pd.pde (pdx va)).map (fun pgtab => pgtab.pte (ptx va))

/-- `walkpgdir` with `alloc = 1`: afterwards there is a page table for `va`. -/
def walkpgdirAlloc (s : Mem) (pd : PageDir) (va : ℕ) : Option (PageDir × Mem) :=
  match pd.pde (pdx va) with
  | some _ => some (pd, s)
  | none =>
    match s.kalloc with
    | none => none
    | some (page, s) =>
      some ({ pd with
        pde := update pd.pde (pdx va) (some { page := page, pte := fun _ => none }) }, s)

/-- `*pte = e` for the entry of `va`. -/
def setPte (pd : PageDir) (va : ℕ) (e : Option Pte) : PageDir :=
  { pd with
    pde := update pd.pde (pdx va) ((pd.pde (pdx va)).map (fun pgtab =>
      { pgtab with pte := update pgtab.pte (ptx va) e })) }

def lookup (pd : PageDir) (va : ℕ) : Option Pte := (pd.walkpgdir va).join

def Present (pd : PageDir) (va : ℕ) : Prop := (pd.lookup va).isSome = true

def empty (page : Frame) : PageDir := { page := page, pde := fun _ => none }

def owned (pd : PageDir) : Multiset Frame :=
  {pd.page} + ∑ i, tableFrames i (pd.pde i)

def missing (pd : PageDir) : ℕ :=
  ∑ i, bif (pd.pde i).isNone then 1 else 0

theorem lookup_empty (page : Frame) (va : ℕ) : (empty page).lookup va = none := rfl

theorem owned_eq (pd : PageDir) : pd.owned = {pd.page} + ∑ i, tableFrames i (pd.pde i) := rfl

theorem missing_eq (pd : PageDir) : pd.missing = ∑ i, bif (pd.pde i).isNone then 1 else 0 := rfl

-- A sum over 1024 entries is never to be evaluated.
attribute [irreducible] owned missing

theorem page_mem_owned (pd : PageDir) : pd.page ∈ pd.owned := by
  rw [owned_eq, Multiset.mem_add]
  exact .inl (Multiset.mem_singleton_self pd.page)

theorem owned_empty (page : Frame) : (empty page).owned = {page} := by
  simp [owned_eq, empty, tableFrames]

variable {pd pd' : PageDir} {a b n : ℕ} {e : Option Pte} {perm : Perm} {s s' : Mem}

theorem lookup_congr (ha : a < addrSpace) (hb : b < addrSpace) (h : a / pgsize = b / pgsize) :
    pd.lookup a = pd.lookup b := by
  rcases (entry_eq_iff ha hb).2 h with ⟨hd, ht⟩
  simp only [lookup, walkpgdir, hd, ht]

theorem lookup_eq_of_walk (h : pd.walkpgdir a = some e) : pd.lookup a = e := by
  simp [lookup, h]

theorem pde_of_walk (h : pd.walkpgdir a = some e) : (pd.pde (pdx a)).isSome = true := by
  cases hpde : pd.pde (pdx a) with
  | some pgtab => rfl
  | none => simp [walkpgdir, hpde] at h

theorem walk_of_lookup {e : Pte} (h : pd.lookup a = some e) : pd.walkpgdir a = some (some e) := by
  unfold lookup at h
  cases hwalk : pd.walkpgdir a with
  | none => simp [hwalk] at h
  | some o =>
    rw [hwalk] at h
    exact congrArg some h

/-- Writing an entry changes the mapping of its page only. -/
theorem lookup_setPte (htab : (pd.pde (pdx a)).isSome = true) (ha : a < addrSpace) (hb : b < addrSpace) :
    (pd.setPte a e).lookup b = if b / pgsize = a / pgsize then e else pd.lookup b := by
  rcases Option.isSome_iff_exists.1 htab with ⟨pgtab, hpde⟩
  by_cases hpage : b / pgsize = a / pgsize
  · rcases (entry_eq_iff hb ha).2 hpage with ⟨hd, ht⟩
    simp [lookup, walkpgdir, setPte, hd, ht, hpde, hpage]
  have hentry : ¬ (pdx b = pdx a ∧ ptx b = ptx a) := fun h => hpage ((entry_eq_iff hb ha).1 h)
  rw [if_neg hpage]
  by_cases hd : pdx b = pdx a
  · have ht : ptx b ≠ ptx a := fun ht => hentry ⟨hd, ht⟩
    simp [lookup, walkpgdir, setPte, hd, ht, hpde]
  · simp [lookup, walkpgdir, setPte, hd]

theorem setPte_pde_kernel {j : Fin nentries} (ha : a < kernbase) (hj : 512 ≤ j.val) :
    (pd.setPte a e).pde j = pd.pde j := by
  have hne : j ≠ pdx a := fun heq => Nat.not_lt.2 hj (heq ▸ pdx_lt_of_user ha)
  exact update_of_ne hne _ _

/-! ## The pages of a directory -/

/-- The frames that an entry for `a` adds to those of its directory. -/
def userFrame (a : ℕ) (o : Option Pte) : Multiset Frame :=
  if a < kernbase then frameOf o else 0

@[simp] theorem userFrame_none : userFrame a none = 0 := by
  simp [userFrame]

theorem userFrame_some (h : a < kernbase) (f : Frame) : userFrame a (some { pa := f.1, perm := perm }) = {f} := by
  rw [userFrame, if_pos h, frameOf_some]

theorem userFrame_kernel (h : kernbase ≤ a) (o : Option Pte) : userFrame a o = 0 :=
  if_neg (Nat.not_lt.2 h)

theorem owned_update (pd : PageDir) (i : Fin nentries) (o : Option PageTable) :
    ({ pd with pde := update pd.pde i o } : PageDir).owned + tableFrames i (pd.pde i) =
      pd.owned + tableFrames i o := by
  have hsum := sum_update_add tableFrames pd.pde i o
  simp only [owned_eq, add_assoc]
  rw [hsum]

theorem missing_update (pd : PageDir) (i : Fin nentries) (o : Option PageTable) :
    ({ pd with pde := update pd.pde i o } : PageDir).missing + (bif (pd.pde i).isNone then 1 else 0) =
      pd.missing + bif o.isNone then 1 else 0 := by
  rw [missing_eq, missing_eq]
  exact sum_update_add (fun _ (o : Option PageTable) => bif o.isNone then 1 else 0) pd.pde i o

theorem missing_setPte : (pd.setPte a e).missing = pd.missing := by
  have hmiss := missing_update pd (pdx a) ((pd.pde (pdx a)).map fun pgtab =>
    { pgtab with pte := update pgtab.pte (ptx a) e })
  rw [Option.isNone_map] at hmiss
  exact Nat.add_right_cancel hmiss

theorem owned_setPte (htab : (pd.pde (pdx a)).isSome = true) (ha : a < addrSpace) :
    (pd.setPte a e).owned + userFrame a (pd.lookup a) = pd.owned + userFrame a e := by
  rcases Option.isSome_iff_exists.1 htab with ⟨pgtab, hpde⟩
  have hlook : pd.lookup a = pgtab.pte (ptx a) := by simp [lookup, walkpgdir, hpde]
  have howned := owned_update pd (pdx a) (some { pgtab with pte := update pgtab.pte (ptx a) e })
  have hset : (pd.setPte a e).owned + tableFrames (pdx a) (some pgtab) = pd.owned +
      tableFrames (pdx a) (some { pgtab with pte := update pgtab.pte (ptx a) e }) := by
    simpa only [setPte, hpde, Option.map_some] using howned
  by_cases hk : a < kernbase
  · have hi : (pdx a).val < 512 := (pdx_lt_iff ha).2 hk
    have hsum := sum_update_add (fun _ => frameOf) pgtab.pte (ptx a) e
    simp only [tableFrames, hi, if_true] at hset
    simp only [userFrame, hk, if_true, hlook]
    -- The table's own page and its other entries are on both sides.
    refine add_right_cancel (b := {pgtab.page} + ∑ j, frameOf (pgtab.pte j)) ?_
    calc
      (pd.setPte a e).owned + frameOf (pgtab.pte (ptx a)) + ({pgtab.page} + ∑ j, frameOf (pgtab.pte j))
          = (pd.setPte a e).owned + ({pgtab.page} + ∑ j, frameOf (pgtab.pte j)) + frameOf (pgtab.pte (ptx a)) := by
            abel
      _ = pd.owned + ({pgtab.page} + ∑ j, frameOf (update pgtab.pte (ptx a) e j)) +
            frameOf (pgtab.pte (ptx a)) := by rw [hset]
      _ = pd.owned + {pgtab.page} + (∑ j, frameOf (update pgtab.pte (ptx a) e j) +
            frameOf (pgtab.pte (ptx a))) := by abel
      _ = pd.owned + frameOf e + ({pgtab.page} + ∑ j, frameOf (pgtab.pte j)) := by
            rw [hsum]
            abel
  · have hi : ¬ (pdx a).val < 512 := fun h => hk ((pdx_lt_iff ha).1 h)
    simp only [tableFrames, hi, if_false, add_zero] at hset
    simp only [userFrame, hk, if_false, add_zero]
    exact add_right_cancel hset

/-- A user page of a directory is one of its pages. -/
theorem mem_owned {f : Frame} (ha : a < kernbase) (h : pd.lookup a = some { pa := f.1, perm := perm }) :
    f ∈ pd.owned := by
  have haddr := Nat.lt_trans ha kernbase_lt_addrSpace
  have htab := pde_of_walk (walk_of_lookup h)
  have howned := owned_setPte (e := none) htab haddr
  rw [h, userFrame_some ha, userFrame_none, add_zero] at howned
  rw [← howned]
  simp

theorem page_inj {f : Frame} {perm' : Perm} (hnodup : pd.owned.Nodup) (ha : a < kernbase) (hb : b < kernbase)
    (hfa : pd.lookup a = some { pa := f.1, perm := perm }) (hfb : pd.lookup b = some { pa := f.1, perm := perm' }) :
    a / pgsize = b / pgsize := by
  by_contra hne
  have haddr := Nat.lt_trans ha kernbase_lt_addrSpace
  have htab := pde_of_walk (walk_of_lookup hfa)
  have howned := owned_setPte (e := none) htab haddr
  rw [hfa, userFrame_some ha, userFrame_none, add_zero] at howned
  -- Without the entry for `a` the page is still there, for `b`.
  have hlook : (pd.setPte a none).lookup b = some { pa := f.1, perm := perm' } := by
    rw [lookup_setPte htab haddr (Nat.lt_trans hb kernbase_lt_addrSpace), if_neg (Ne.symm hne)]
    exact hfb
  have hmem := mem_owned hb hlook
  rw [← howned, Multiset.nodup_add] at hnodup
  exact Multiset.disjoint_left.1 hnodup.2.2 hmem (Multiset.mem_singleton_self f)

/-! ## `walkpgdir` -/

/-- Making a page table maps nothing. -/
structure Walked (s : Mem) (pd : PageDir) (va : ℕ) (s' : Mem) (pd' : PageDir) : Prop where
  table : (pd'.pde (pdx va)).isSome = true
  lookup : ∀ b, pd'.lookup b = pd.lookup b
  owned : pd'.owned + s'.free = pd.owned + s.free
  sub : s'.free ⊆ s.free
  page : s'.page = s.page
  pde : ∀ j, j ≠ pdx va → pd'.pde j = pd.pde j
  enough : ∀ n, pd.missing + n ≤ s.free.length → pd'.missing + n ≤ s'.free.length

theorem walkpgdirAlloc_spec {va : ℕ} (h : walkpgdirAlloc s pd va = some (pd', s')) : Walked s pd va s' pd' := by
  unfold walkpgdirAlloc at h
  cases hpde : pd.pde (pdx va) with
  | some pgtab =>
    have heq : pd = pd' ∧ s = s' := by simpa [hpde] using h
    rcases heq with ⟨rfl, rfl⟩
    exact ⟨by simp [hpde], fun _ => rfl, rfl, fun _ => id, rfl, fun _ _ => rfl, fun _ => id⟩
  | none =>
    cases halloc : s.kalloc with
    | none => simp [hpde, halloc] at h
    | some r =>
      rcases r with ⟨page, s1⟩
      simp only [hpde, halloc, Option.some.injEq, Prod.mk.injEq] at h
      rcases h with ⟨rfl, rfl⟩
      rcases Mem.kalloc_eq_some halloc with ⟨hfree, hpage⟩
      refine ⟨by simp, fun b => ?_, ?_, ?_, hpage, fun j hj => update_of_ne hj _ _, fun n hn => ?_⟩
      · by_cases hb : pdx b = pdx va
        · simp [PageDir.lookup, walkpgdir, hb, hpde]
        · simp [PageDir.lookup, walkpgdir, hb]
      · have howned := owned_update pd (pdx va) (some { page := page, pte := fun _ => none })
        have hnew : tableFrames (pdx va) (some { page := page, pte := fun _ => none }) = {page} := by
          simp [tableFrames]
        rw [hnew, hpde, show tableFrames (pdx va) none = 0 from rfl, add_zero] at howned
        rw [howned, hfree, ← Multiset.cons_coe, ← Multiset.singleton_add, add_assoc]
      · rw [hfree]
        exact List.subset_cons_self page s1.free
      · have hmiss := missing_update pd (pdx va) (some { page := page, pte := fun _ => none })
        have hlen : s.free.length = s1.free.length + 1 := by rw [hfree, List.length_cons]
        rw [hpde] at hmiss
        simp only [Option.isNone_none, cond_true, Option.isNone_some, cond_false, add_zero] at hmiss
        omega

theorem walkpgdirAlloc_none {va : ℕ} (h : walkpgdirAlloc s pd va = none) : s.free.length < pd.missing := by
  unfold walkpgdirAlloc at h
  cases hpde : pd.pde (pdx va) with
  | some pgtab => simp [hpde] at h
  | none =>
    cases halloc : s.kalloc with
    | some r => simp [hpde, halloc] at h
    | none =>
      have hmiss := missing_update pd (pdx va) (some { page := pd.page, pte := fun _ => none })
      rw [hpde] at hmiss
      simp only [Option.isNone_none, cond_true, Option.isNone_some, cond_false, add_zero] at hmiss
      rw [Mem.kalloc_eq_none halloc, List.length_nil]
      omega

/-! ## `mappages` -/

/-- One turn of the loop of `mappages`; `none` if there is no page for a page table. -/
def mapPage (s : Mem) (pd : PageDir) (a : ℕ) (pte : Pte) : Except Panic (Option (PageDir × Mem)) :=
  match walkpgdirAlloc s pd a with
  | none => .ok none
  | some (pd, s) =>
    match pd.lookup a with
    | some _ => .error .remap
    | none => .ok (some (pd.setPte a (some pte), s))

/-- The loop of `mappages`, which maps `n + 1` pages from `a` on.  The flag says whether all of them
could be mapped. -/
def mapLoop (perm : Perm) : ℕ → Mem → PageDir → ℕ → ℕ → Except Panic (Bool × PageDir × Mem)
  | 0, s, pd, a, pa => do
      match ← mapPage s pd a { pa := pa, perm := perm } with
      | none => return (false, pd, s)
      | some (pd, s) => return (true, pd, s)
  | n + 1, s, pd, a, pa => do
      match ← mapPage s pd a { pa := pa, perm := perm } with
      | none => return (false, pd, s)
      | some (pd, s) => mapLoop perm n s pd (a + pgsize) (pa + pgsize)

/-- `mappages`, with `false` for the return value -1. -/
@[irreducible] def mappages (s : Mem) (pd : PageDir) (va size pa : ℕ) (perm : Perm) :
    Except Panic (Bool × PageDir × Mem) :=
  mapLoop perm ((pgrounddown (va + size - 1) - pgrounddown va) / pgsize) s pd (pgrounddown va) pa

/-- The page of `a` has been mapped. -/
structure Mapped (s : Mem) (pd : PageDir) (a : ℕ) (pte : Pte) (s' : Mem) (pd' : PageDir) : Prop where
  lookup : ∀ b < addrSpace, pd'.lookup b = if b / pgsize = a / pgsize then some pte else pd.lookup b
  owned : pd'.owned + s'.free = pd.owned + s.free + userFrame a (some pte)
  sub : s'.free ⊆ s.free
  page : s'.page = s.page
  pde : ∀ j, j ≠ pdx a → pd'.pde j = pd.pde j
  enough : ∀ n, pd.missing + n ≤ s.free.length → pd'.missing + n ≤ s'.free.length

/-- A page that is not present is mapped, unless there is no memory; then nothing has changed. -/
theorem mapPage_spec {pte : Pte} (ha : a < addrSpace) (hnone : pd.lookup a = none) :
    Runs (mapPage s pd a pte) fun o =>
      (o = none → s.free.length < pd.missing) ∧ ∀ pd' s', o = some (pd', s') → Mapped s pd a pte s' pd' := by
  unfold mapPage
  cases hwalk : walkpgdirAlloc s pd a with
  | none => exact .ok ⟨fun _ => walkpgdirAlloc_none hwalk, by simp⟩
  | some r =>
    rcases r with ⟨pd1, s1⟩
    have hw := walkpgdirAlloc_spec hwalk
    have hlook : pd1.lookup a = none := (hw.lookup a).trans hnone
    simp only [hlook]
    refine .ok ⟨by simp, fun pd' s' heq => ?_⟩
    simp only [Option.some.injEq, Prod.mk.injEq] at heq
    rcases heq with ⟨rfl, rfl⟩
    have howned := owned_setPte (e := some pte) hw.table ha
    rw [hlook, userFrame_none, add_zero] at howned
    refine ⟨fun b hb => ?_, ?_, hw.sub, hw.page, fun j hj => ?_, fun n hn => ?_⟩
    · rw [lookup_setPte hw.table ha hb, hw.lookup b]
    · rw [howned, ← hw.owned]
      abel
    · rw [← hw.pde j hj]
      exact update_of_ne hj _ _
    · rw [missing_setPte]
      exact hw.enough n hn

/-- The page of `b` is one of the `n + 1` pages from `a` on. -/
def InPages (a n b : ℕ) : Prop := a / pgsize ≤ b / pgsize ∧ b / pgsize ≤ a / pgsize + n

theorem inPages_zero : InPages a 0 b ↔ b / pgsize = a / pgsize := by
  simp only [InPages]
  omega

theorem inPages_succ : InPages a (n + 1) b ↔ b / pgsize = a / pgsize ∨ InPages (a + pgsize) n b := by
  simp only [InPages, pgsize]
  omega

/-- Pages of the kernel's half have been mapped; `ok` says whether there was memory for it. -/
structure KernelMapped (perm : Perm) (a n : ℕ) (s : Mem) (pd : PageDir) (ok : Bool) (s' : Mem) (pd' : PageDir) :
    Prop where
  outside : ∀ b < addrSpace, ¬ InPages a n b → pd'.lookup b = pd.lookup b
  perm : ∀ b < addrSpace, InPages a n b → ∀ e, pd'.lookup b = some e → e.perm = perm
  owned : pd'.owned + s'.free = pd.owned + s.free
  sub : s'.free ⊆ s.free
  page : s'.page = s.page
  pde : ∀ j, (∀ b < addrSpace, InPages a n b → j ≠ pdx b) → pd'.pde j = pd.pde j
  enough : ∀ n, pd.missing + n ≤ s.free.length → ok = true ∧ pd'.missing + n ≤ s'.free.length

theorem KernelMapped.fail (hnone : ∀ b < addrSpace, InPages a n b → pd.lookup b = none)
    (hlen : s.free.length < pd.missing) :
    KernelMapped perm a n s pd false s pd where
  outside _ _ _ := rfl
  perm b hb hin e he := by
    rw [hnone b hb hin] at he
    cases he
  owned := rfl
  sub _ := id
  page := rfl
  pde _ _ := rfl
  enough n hn := by omega

theorem KernelMapped.single {pa : ℕ} (ha : a < addrSpace) (hk : kernbase ≤ a)
    (h : Mapped s pd a { pa := pa, perm := perm } s' pd') :
    KernelMapped perm a 0 s pd true s' pd' where
  outside b hb hout := by
    rw [h.lookup b hb, if_neg fun heq => hout (inPages_zero.2 heq)]
  perm b hb hin e he := by
    rw [h.lookup b hb, if_pos (inPages_zero.1 hin)] at he
    cases he
    rfl
  owned := by rw [h.owned, userFrame_kernel hk, add_zero]
  sub := h.sub
  page := h.page
  pde j hj := h.pde j (hj a ha (inPages_zero.2 rfl))
  enough n hn := ⟨rfl, h.enough n hn⟩

theorem KernelMapped.cons {pa : ℕ} {s1 : Mem} {pd1 : PageDir} {ok : Bool} (ha : a < addrSpace) (hk : kernbase ≤ a)
    (h : Mapped s pd a { pa := pa, perm := perm } s1 pd1) (hrest : KernelMapped perm (a + pgsize) n s1 pd1 ok s' pd') :
    KernelMapped perm a (n + 1) s pd ok s' pd' where
  outside b hb hout := by
    rw [inPages_succ, not_or] at hout
    rw [hrest.outside b hb hout.2, h.lookup b hb, if_neg hout.1]
  perm b hb hin e he := by
    by_cases hlater : InPages (a + pgsize) n b
    · exact hrest.perm b hb hlater e he
    · rw [hrest.outside b hb hlater, h.lookup b hb, if_pos ((inPages_succ.1 hin).resolve_right hlater)] at he
      cases he
      rfl
  owned := by rw [hrest.owned, h.owned, userFrame_kernel hk, add_zero]
  sub := List.Subset.trans hrest.sub h.sub
  page := hrest.page.trans h.page
  pde j hj := by
    rw [hrest.pde j fun b hb hin => hj b hb (inPages_succ.2 (.inr hin))]
    exact h.pde j (hj a ha (inPages_succ.2 (.inl rfl)))
  enough n hn := hrest.enough n (h.enough n hn)

/-- `mappages` in the kernel's half, where nothing is mapped yet. -/
theorem mapLoop_spec (s : Mem) (pa : ℕ) (hk : kernbase ≤ a) (ha : a + n * pgsize < addrSpace)
    (hnone : ∀ b < addrSpace, InPages a n b → pd.lookup b = none) :
    Runs (mapLoop perm n s pd a pa) fun r => KernelMapped perm a n s pd r.1 r.2.2 r.2.1 := by
  induction n generalizing s pd a pa with
  | zero =>
    have ha' : a < addrSpace := by omega
    refine (mapPage_spec ha' (hnone a ha' (inPages_zero.2 rfl))).bind fun o ho => ?_
    rcases o with _ | ⟨pd', s'⟩
    · exact .ok (.fail hnone (ho.1 rfl))
    · exact .ok (.single ha' hk (ho.2 pd' s' rfl))
  | succ n ih =>
    have ha' : a < addrSpace := by omega
    have hnext : a + pgsize + n * pgsize < addrSpace := by
      rw [Nat.add_mul, Nat.one_mul] at ha
      omega
    refine (mapPage_spec ha' (hnone a ha' (inPages_succ.2 (.inl rfl)))).bind fun o ho => ?_
    rcases o with _ | ⟨pd1, s1⟩
    · exact .ok (.fail hnone (ho.1 rfl))
    have hmap := ho.2 pd1 s1 rfl
    refine (ih s1 (pa + pgsize) (Nat.le_trans hk (Nat.le_add_right _ _)) hnext fun b hb hin => ?_).mono
      fun r hr => .cons ha' hk hmap hr
    -- The page of `a` is not one of the later ones.
    have hdiff : b / pgsize ≠ a / pgsize := by
      have hle := hin.1
      simp only [pgsize] at hle ⊢
      omega
    rw [hmap.lookup b hb, if_neg hdiff]
    exact hnone b hb (inPages_succ.2 (.inr hin))

end PageDir

end Xv6.Vm
