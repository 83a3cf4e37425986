import Xv6.Vm.Uvm

/-!
# Dealloc — the loop of `deallocuvm`

The loop in the 32-bit arithmetic of the source, with the number of turns it may take, next to a loop that visits
every page.  A jump over a region without a page table ends at the next region, so the two do the same: they free the
present pages one by one and clear their entries.
-/

namespace Xv6.Vm

open PageDir
open Function (update_eq_self)

def wordSize : ℕ := 2 ^ 32

def pgaddr (d : ℕ) : ℕ :=
  d * 0x400000 % wordSize

def nextPage (a : ℕ) : ℕ :=
  (a + pgsize) % wordSize

/-- The loop of `deallocuvm`; nothing if the turns do not suffice. -/
def deallocLoop32 (oldsz : ℕ) : ℕ → Mem → PageDir → ℕ → Option (Except Panic (PageDir × Mem))
  | 0, _, _, _ => none
  | n + 1, s, pd, a =>
    if a < oldsz then
      match pd.walkpgdir a with
      | none =>
        let a := (pgaddr ((pdx a).val + 1) + wordSize - pgsize) % wordSize
        deallocLoop32 oldsz n s pd (nextPage a)
      | some none => deallocLoop32 oldsz n s pd (nextPage a)
      | some (some pte) =>
        match s.kfreePa pte.pa with
        | .error e => some (.error e)
        | .ok s => deallocLoop32 oldsz n s (pd.setPte a none) (nextPage a)
    else
      some (.ok (pd, s))

def deallocuvm32 (n : ℕ) (s : Mem) (pd : PageDir) (oldsz newsz : ℕ) :
    Option (Except Panic (ℕ × PageDir × Mem)) :=
  if oldsz ≤ newsz then some (.ok (oldsz, pd, s))
  else
    (deallocLoop32 oldsz n s pd ((newsz + pgsize - 1) % wordSize / pgsize * pgsize)).map fun r =>
      r.map fun x => (newsz, x.1, x.2)

/-! ## Page by page -/

def visit (x : PageDir × Mem) (a : ℕ) : Except Panic (PageDir × Mem) :=
  match x.1.lookup a with
  | none => return x
  | some pte => do
    let s ← x.2.kfreePa pte.pa
    return (x.1.setPte a none, s)

def pages (a oldsz : ℕ) : List ℕ :=
  List.range' a (turns a oldsz) pgsize

def presentPages (pd : PageDir) (a oldsz : ℕ) : List ℕ :=
  (pages a oldsz).filterMap fun va => (pd.lookup va).map Pte.pa

def cleared (pd : PageDir) (a oldsz : ℕ) : PageDir :=
  (pages a oldsz).foldl (fun pd va => pd.setPte va none) pd

variable {a b oldsz newsz : ℕ} {pd : PageDir} {s : Mem}

theorem ok_bind {α β : Type} (x : α) (f : α → Except Panic β) : (Except.ok x >>= f) = f x := rfl

theorem error_bind {α β : Type} (e : Panic) (f : α → Except Panic β) : (Except.error e >>= f) = .error e := rfl

theorem pages_of_le (h : oldsz ≤ a) : pages a oldsz = [] := by
  rw [pages, turns, Nat.sub_eq_zero_of_le h]
  rfl

theorem pages_of_lt (h : a < oldsz) : pages a oldsz = a :: pages (a + pgsize) oldsz := by
  have hturns : turns a oldsz = turns (a + pgsize) oldsz + 1 := by
    simp only [turns, pgsize]
    omega
  rw [pages, hturns, List.range'_succ, pages]

/-! ## The loops agree -/

/-- Below `KERNBASE` no sum wraps around, and each turn gets further. -/
theorem deallocLoop32_eq (hold : oldsz ≤ kernbase) (n : ℕ) (hn : oldsz < a + n) (hpos : 0 < n) :
    deallocLoop32 oldsz n s pd a = some (deallocLoop oldsz s pd a) := by
  induction n generalizing s pd a with
  | zero => exact absurd hpos (Nat.lt_irrefl 0)
  | succ n ih =>
    rw [deallocLoop32, deallocLoop]
    split
    case isFalse => rfl
    case isTrue hlt =>
      have hnext : nextPage a = a + pgsize := by
        simp only [nextPage, wordSize, pgsize, kernbase] at *
        omega
      have hjump : nextPage ((pgaddr ((pdx a).val + 1) + wordSize - pgsize) % wordSize) =
          (a / 0x400000 + 1) * 0x400000 := by
        simp only [nextPage, pgaddr, pdx, wordSize, pgsize, kernbase] at *
        omega
      have hsize : 0 < pgsize := by decide
      simp only [hnext, hjump]
      cases pd.walkpgdir a with
      | none => exact ih (by omega) (by omega)
      | some e =>
        cases e with
        | none => exact ih (by omega) (by omega)
        | some pte =>
          cases hfree : s.kfreePa pte.pa with
          | error e => simp only [hfree]
          | ok s =>
            simp only [hfree]
            exact ih (by omega) (by omega)

theorem visit_none (h : pd.lookup a = none) : visit (pd, s) a = pure (pd, s) := by
  rw [visit, h]

theorem visit_ok {pte : Pte} {s' : Mem} (h : pd.lookup a = some pte) (hfree : s.kfreePa pte.pa = .ok s') :
    visit (pd, s) a = pure (pd.setPte a none, s') := by
  rw [visit, h]
  simp only [hfree]
  rfl

theorem visit_error {pte : Pte} {e : Panic} (h : pd.lookup a = some pte) (hfree : s.kfreePa pte.pa = .error e) :
    visit (pd, s) a = .error e := by
  rw [visit, h]
  simp only [hfree]
  rfl

theorem visit_skip (k : ℕ) (hb : b = a + k * pgsize) (h : ∀ c, a ≤ c → c < b → pd.lookup c = none) :
    (pages a oldsz).foldlM visit (pd, s) = (pages b oldsz).foldlM visit (pd, s) := by
  induction k generalizing a with
  | zero => rw [hb, Nat.zero_mul, Nat.add_zero]
  | succ k ih =>
    rw [Nat.succ_mul] at hb
    have hpos : 0 < pgsize := by decide
    rcases Nat.lt_or_ge a oldsz with hlt | hge
    · have hnone : pd.lookup a = none := h a (Nat.le_refl a) (by omega)
      rw [pages_of_lt hlt, List.foldlM_cons, visit_none hnone, pure_bind]
      exact ih (by omega) fun c hc => h c (by omega)
    · rw [pages_of_le hge, pages_of_le (by omega)]

theorem deallocLoop_eq (ha : a % pgsize = 0) : deallocLoop oldsz s pd a = (pages a oldsz).foldlM visit (pd, s) := by
  fun_induction deallocLoop oldsz s pd a with
  | case1 s pd a hlt hwalk ih =>
    rw [ih (by simp only [pgsize]; omega)]
    symm
    refine visit_skip (1024 - a / pgsize % 1024) ?_ fun c hc => lookup_of_walk_none hwalk hc
    simp only [pgsize] at *
    omega
  | case2 s pd a hlt hwalk ih =>
    rw [ih (add_pgsize_mod ha), pages_of_lt hlt, List.foldlM_cons, visit_none (lookup_eq_of_walk hwalk), pure_bind]
  | case3 s pd a hlt pte hwalk e hfree =>
    rw [pages_of_lt hlt, List.foldlM_cons, visit_error (lookup_eq_of_walk hwalk) hfree]
    rfl
  | case4 s pd a hlt pte hwalk s1 hfree ih =>
    rw [ih (add_pgsize_mod ha), pages_of_lt hlt, List.foldlM_cons, visit_ok (lookup_eq_of_walk hwalk) hfree, pure_bind]
  | case5 s pd a hge =>
    rw [pages_of_le (Nat.not_lt.1 hge)]
    rfl

/-! ## What is freed and cleared -/

theorem setPte_of_lookup_none (h : pd.lookup a = none) : pd.setPte a none = pd := by
  refine congrArg (PageDir.mk pd.page) ?_
  rw [lookup, walkpgdir] at h
  cases hpde : pd.pde (pdx a) with
  | none => rw [Option.map_none, ← hpde, update_eq_self]
  | some pgtab =>
    rw [hpde] at h
    have hpte : pgtab.pte (ptx a) = none := h
    rw [Option.map_some, ← hpte, update_eq_self, ← hpde, update_eq_self]

theorem lookup_setPte_none (ha : a < addrSpace) (hb : b < addrSpace) :
    (pd.setPte a none).lookup b = if b / pgsize = a / pgsize then none else pd.lookup b := by
  cases hlook : pd.lookup a with
  | some pte => exact lookup_setPte (pde_of_walk (walk_of_lookup hlook)) ha hb
  | none =>
    rw [setPte_of_lookup_none hlook]
    split
    case isTrue hpage => rw [lookup_congr hb ha hpage, hlook]
    case isFalse => rfl

theorem mem_pages (hb : b ∈ pages a oldsz) : a ≤ b ∧ b < oldsz ∧ (b - a) % pgsize = 0 := by
  obtain ⟨i, hi, rfl⟩ := List.mem_range'.mp hb
  simp only [turns, pgsize] at *
  omega

theorem visit_eq (hold : oldsz ≤ kernbase) (n : ℕ) (hn : turns a oldsz = n) (ha : a % pgsize = 0) :
    (pages a oldsz).foldlM visit (pd, s) =
      (presentPages pd a oldsz).foldlM Mem.kfreePa s >>= fun s => pure (cleared pd a oldsz, s) := by
  induction n generalizing s pd a with
  | zero =>
    rw [presentPages, cleared, pages_of_le (turns_zero hn), List.filterMap_nil, List.foldlM_nil, List.foldlM_nil,
      List.foldl_nil, pure_bind]
  | succ n ih =>
    obtain ⟨hlt, hn⟩ := turns_succ hn
    have ih := fun s pd => @ih (a + pgsize) pd s hn (add_pgsize_mod ha)
    rw [presentPages, cleared, pages_of_lt hlt, List.foldlM_cons, List.filterMap_cons, List.foldl_cons, ← cleared]
    cases hlook : pd.lookup a with
    | none =>
      rw [setPte_of_lookup_none hlook, visit_none hlook, pure_bind]
      exact ih s pd
    | some pte =>
      have hrest : (pages (a + pgsize) oldsz).filterMap (fun va => (pd.lookup va).map Pte.pa) =
          presentPages (pd.setPte a none) (a + pgsize) oldsz := by
        refine List.filterMap_congr fun b hb => ?_
        have hspace := kernbase_lt_addrSpace
        obtain ⟨hle, hlt', -⟩ := mem_pages hb
        rw [lookup_setPte_none (by omega) (by omega), if_neg]
        simp only [pgsize] at *
        omega
      rw [Option.map_some, List.foldlM_cons, hrest]
      cases hfree : s.kfreePa pte.pa with
      | error e => rw [visit_error hlook hfree, error_bind, error_bind, error_bind]
      | ok s' => rw [visit_ok hlook hfree, pure_bind, ih, ok_bind]

theorem lookup_cleared (hold : oldsz ≤ kernbase) (n : ℕ) (hn : turns a oldsz = n) (ha : a % pgsize = 0)
    (hb : b < addrSpace) : (cleared pd a oldsz).lookup b = if InSpan a oldsz b then none else pd.lookup b := by
  induction n generalizing pd a with
  | zero =>
    have hle := turns_zero hn
    have hout : ¬ InSpan a oldsz b := by
      simp only [InSpan, pgrounddown, pgsize] at *
      omega
    rw [cleared, pages_of_le hle, List.foldl_nil, if_neg hout]
  | succ n ih =>
    obtain ⟨hlt, hn⟩ := turns_succ hn
    have haddr : a < addrSpace := (hlt.trans_le hold).trans kernbase_lt_addrSpace
    rw [cleared, pages_of_lt hlt, List.foldl_cons, ← cleared, ih hn (add_pgsize_mod ha), lookup_setPte_none haddr hb]
    simp only [inSpan_step ha hlt]
    split_ifs <;> first | rfl | tauto

/-- `deallocuvm` ends, and does what a loop over all pages does: it frees the present pages from `PGROUNDUP(newsz)` up
to `oldsz`, each once, and clears their entries and no other.  Only a page that `kfree` refuses stops it. -/
theorem deallocuvm32_eq (s : Mem) (pd : PageDir) (oldsz newsz : ℕ) (hold : oldsz ≤ kernbase) :
    (∃ n, ∀ m ≥ n, deallocuvm32 m s pd oldsz newsz = some (if oldsz ≤ newsz then .ok (oldsz, pd, s)
        else ((pages (pgroundup newsz) oldsz).foldlM visit (pd, s)).map fun x => (newsz, x.1, x.2))) ∧
    (pages (pgroundup newsz) oldsz).foldlM visit (pd, s) =
      ((presentPages pd (pgroundup newsz) oldsz).foldlM Mem.kfreePa s >>= fun s =>
        pure (cleared pd (pgroundup newsz) oldsz, s)) ∧
    ∀ b < addrSpace, (cleared pd (pgroundup newsz) oldsz).lookup b =
      if InSpan (pgroundup newsz) oldsz b then none else pd.lookup b := by
  have hmod := pgroundup_mod newsz
  refine ⟨⟨oldsz + 1, fun m hm => ?_⟩, visit_eq hold _ rfl hmod, fun b => lookup_cleared hold _ rfl hmod⟩
  rw [deallocuvm32]
  split
  case isTrue => rfl
  case isFalse hlt =>
    have hround : (newsz + pgsize - 1) % wordSize / pgsize * pgsize = pgroundup newsz := by
      rw [pgroundup, Nat.mod_eq_of_lt]
      simp only [wordSize, pgsize, kernbase] at *
      omega
    rw [hround, deallocLoop32_eq hold m (by omega) (by omega), deallocLoop_eq hmod]
    rfl

theorem deallocuvm32_empty : ∃ (s : Mem) (pd : PageDir) (n : ℕ), ∀ m ≥ n, deallocuvm32 m s pd kernbase 0 =
    some (((pages (pgroundup 0) kernbase).foldlM visit (pd, s)).map fun x => (0, x.1, x.2)) := by
  refine ⟨⟨[], fun _ => zeros⟩, PageDir.empty ⟨extmem, by decide⟩, ?_⟩
  simpa [kernbase] using (deallocuvm32_eq ⟨[], fun _ => zeros⟩ (PageDir.empty ⟨extmem, by decide⟩) kernbase 0 le_rfl).1

end Xv6.Vm
