import Xv6.Exec.Load

/-!
# Stack — the stack of the new program

Above the program lie two pages: one that the user may not touch and one for the stack.  The strings of `argv` are
written from the top of the stack page downwards, and below them the vector of their addresses.

There is no check that they fit.  But a piece that is pushed ends where the one before it begins, or at most three bytes
below, so that one that begins below the stack page reaches into the guard page, and `copyout` fails there.  Only if the
stack pointer wraps below zero `copyout` may come to an address without page table.
-/

namespace Xv6.Exec

open Common Vm PageDir

/-! ## The guard page -/

/-- An address in the page below the stack. -/
def InGuard (top va : ℕ) : Prop := top - 2 * pgsize ≤ va ∧ va < top - pgsize

/-- A directory with a guard page and a stack page at its top. -/
structure Stacked (s₀ s : Mem) (pd : PageDir) (top : ℕ) : Prop extends Built s₀ s pd top where
  two : 2 * pgsize ≤ top
  aligned : top % pgsize = 0
  guard : ∀ va, InGuard top va → ¬ Accessible pd va
  user : ∀ va < top, ¬ InGuard top va → Accessible pd va

section

variable {s₀ s s' : Mem} {pd pd' : PageDir} {sz top : ℕ} {bad : Panic → Prop} {va a sp : ℕ} {buf : List UInt8}
  {argv : List CString} {ptrs : List ℕ}

theorem inGuard_page (htwo : 2 * pgsize ≤ top) (hmod : top % pgsize = 0) (h : InGuard top va) :
    va / pgsize = (top - 2 * pgsize) / pgsize := by
  simp only [InGuard, pgsize] at *
  omega

theorem Building.guard (h : Building s₀ s pd top) (htwo : 2 * pgsize ≤ top) (hmod : top % pgsize = 0)
    (hg : Guarded (top - 2 * pgsize) pd pd') : Stacked s₀ s pd' top where
  lt := h.lt
  sized va hva := by
    refine Iff.trans ?_ (h.sized va hva)
    rw [PageDir.Present, PageDir.Present, hg.lookup va (Nat.lt_trans hva kernbase_lt_addrSpace)]
    split_ifs
    · rw [Option.isSome_map]
    · rfl
  space := by
    constructor
    · intro va hva pte hpte
      rw [hg.lookup va (Nat.lt_trans hva kernbase_lt_addrSpace)] at hpte
      split_ifs at hpte
      · rcases Option.map_eq_some_iff.1 hpte with ⟨pte', hpte', rfl⟩
        exact h.space.framed va hva pte' hpte'
      · exact h.space.framed va hva pte hpte
    intro va hva hle pte hpte
    rw [hg.lookup va hva] at hpte
    split_ifs at hpte
    · rcases Option.map_eq_some_iff.1 hpte with ⟨pte', _, rfl⟩
      rfl
    · exact h.space.kernel va hva hle pte hpte
  owned := by rw [hg.owned, h.owned]
  page := h.page
  tables va hlo hhi := by rw [hg.pde _ (pdx_kernel hlo hhi), h.tables va hlo hhi]
  two := htwo
  aligned := hmod
  guard va hin := by
    rintro ⟨pte, hpte, hu⟩
    have hlt := h.lt
    have hva : va < addrSpace := by
      have := kernbase_lt_addrSpace
      have := hin.2
      omega
    rw [hg.lookup va hva, if_pos (inGuard_page htwo hmod hin)] at hpte
    rcases Option.map_eq_some_iff.1 hpte with ⟨pte', _, rfl⟩
    cases hu
  user va hva hout := by
    have hlt := h.lt
    have hspace := kernbase_lt_addrSpace
    have hround := le_pgroundup top
    have hpage : ¬ va / pgsize = (top - 2 * pgsize) / pgsize := by
      simp only [InGuard, pgsize] at *
      omega
    rcases Option.isSome_iff_exists.1 ((h.sized va (by omega)).2 (by omega)) with ⟨pte, hpte⟩
    refine ⟨pte, ?_, h.user va (by omega) pte hpte⟩
    rw [hg.lookup va (by omega), if_neg hpage, hpte]

/-- `clearpteu` makes the guard page. -/
theorem Building.clear (h : Building s₀ s pd top) (htwo : 2 * pgsize ≤ top) (hmod : top % pgsize = 0) :
    Runs (clearpteu pd (top - 2 * pgsize)) fun pd' => Guarded (top - 2 * pgsize) pd pd' ∧ Stacked s₀ s pd' top := by
  have hlt := h.lt
  have hround := le_pgroundup top
  have hpg : pgsize = 4096 := rfl
  have hpres : pd.Present (top - 2 * pgsize) := (h.sized _ (by omega)).2 (by omega)
  exact (clearpteu_spec (by omega) hpres).mono fun pd' hg => ⟨hg, h.guard htwo hmod hg⟩

theorem Stacked.wrote (h : Stacked s₀ s pd top) {bytes : List UInt8} (hva : va + bytes.length ≤ kernbase)
    (hw : Wrote pd s va bytes s') : Stacked s₀ s' pd top :=
  { h.toBuilt.wrote hva hw with two := h.two, aligned := h.aligned, guard := h.guard, user := h.user }

theorem accessible_range {n : ℕ} (hsp : Space pd) (hva : va < addrSpace) (h : ∀ i < n, Accessible pd (va + i)) :
    ∀ i < n, va + i < kernbase := by
  intro i
  induction i with
  | zero =>
    intro hi
    exact (h 0 hi).lt_kernbase hsp hva
  | succ i ih =>
    intro hi
    have hprev := ih (by omega)
    have hspace := kernbase_lt_addrSpace
    exact (h (i + 1) hi).lt_kernbase hsp (by omega)

/-- `copyout` into a directory with a stack: it writes everything or a part.  It reads the null pointer only if it comes
to an address that is not below `top`. -/
theorem Stacked.copyout (h : Stacked s₀ s pd top) (hnd : s₀.free.Nodup) (hva : va < addrSpace)
    (hnull : bad .nullPte → va + buf.length ≤ top) :
    Ensures bad (copyout pd s va buf) fun r => Stacked s₀ r.2 pd top ∧
      ((r.1 = 0 ∧ CopiedOut pd s va buf r.2) ∨ r.1 = -1) := by
  have hkeep : ∀ m s', (∀ j < m, Accessible pd (va + j)) → m ≤ buf.length → Wrote pd s va (buf.take m) s' →
      Stacked s₀ s' pd top := by
    intro m s' hacc hm hw
    have hlen : (buf.take m).length = m := List.length_take_of_le hm
    by_cases hzero : m = 0
    · obtain rfl := hzero
      have hnil : Wrote pd s 0 [] s' := by
        refine ⟨hw.free, fun vb hvb => ?_, fun f hf => hw.page f ?_⟩
        · rw [hw.byte vb hvb, hlen, if_neg (by omega), if_neg (by simp)]
        · intro vb hlo hhi
          rw [hlen] at hhi
          omega
      exact h.wrote (by simp) hnil
    · have hlast := accessible_range h.space hva hacc (m - 1) (by omega)
      exact h.wrote (by omega) hw
  rcases copyout_cases h.space (h.nodup_owned hnd) s va buf hva with ⟨s', hres, hc⟩ | ⟨i, hstop⟩
  · rw [hres]
    refine .ok ⟨?_, .inl ⟨rfl, hc⟩⟩
    exact hkeep buf.length s' hc.accessible (Nat.le_refl _) (by rw [List.take_length]; exact hc.wrote)
  have hlt := hstop.lt
  rcases hstop.result with ⟨hwalk, hres⟩ | ⟨_, s', m, hm, hres, hw⟩
  · rw [hres]
    refine .error fun hb => ?_
    -- Below `top` there is a page table.
    have htop := hnull hb
    have hbound := h.lt
    have hround := le_pgroundup top
    have hpres := (h.sized (va + i) (by omega)).2 (by omega)
    simp [PageDir.Present, PageDir.lookup, hwalk] at hpres
  · rw [hres]
    exact .ok ⟨hkeep m s' (fun j hj => hstop.before j (by omega)) (by omega) hw, .inr rfl⟩

/-- What is pushed lies in the stack page: it ends at most three bytes below `old`, so if it began below the page it would
reach into the guard page. -/
theorem Stacked.pushed (h : Stacked s₀ s pd top) {old r : ℕ} (hva : va < addrSpace) (hc : CopiedOut pd s va buf s')
    (hpos : 0 < buf.length) (hlo : top - pgsize ≤ old) (hhi : old ≤ top) (hr : r < 4)
    (hsum : (va + buf.length + r) % addrSpace = old) : top - pgsize ≤ va ∧ va + buf.length + r = old := by
  have hlast := accessible_range h.space hva hc.accessible (buf.length - 1) (by omega)
  have hlt := h.lt
  have heq : va + buf.length + r = old := by
    simp only [kernbase, addrSpace] at *
    omega
  refine ⟨?_, heq⟩
  by_contra hbelow
  have htwo := h.two
  have hpg : pgsize = 4096 := rfl
  -- The last byte is in the guard page, or the one just below the stack page is.
  by_cases hend : va + buf.length ≤ top - pgsize
  · refine h.guard (va + (buf.length - 1)) ⟨by omega, by omega⟩ (hc.accessible _ (by omega))
  · have hacc := hc.accessible (top - pgsize - 1 - va) (by omega)
    rw [show va + (top - pgsize - 1 - va) = top - pgsize - 1 by omega] at hacc
    exact h.guard _ ⟨by omega, by omega⟩ hacc

/-! ## Strings -/

theorem subU_lt (a b : ℕ) : subU a b < addrSpace := Nat.mod_lt _ (by decide)

theorem subU_add {b : ℕ} (ha : a < addrSpace) : (subU a b + b) % addrSpace = a := by
  simp only [subU, addrSpace] at *
  omega

theorem subU_eq {b : ℕ} (ha : a < addrSpace) (h : b ≤ a) : subU a b = a - b := by
  simp only [subU, addrSpace] at *
  omega

def BytesAt (pd : PageDir) (s : Mem) (va : ℕ) (bytes : List UInt8) : Prop :=
  ∀ i < bytes.length, pd.byte s (va + i) = some (bytes.getD i 0)

/-- The strings of `argv` lie at `ptrs`, each below the one before; the first one below `hi`, the last one at `sp`. -/
def Laid (pd : PageDir) (s : Mem) : ℕ → List CString → List ℕ → ℕ → Prop
  | hi, [], [], sp => sp = hi
  | hi, arg :: argv, p :: ptrs, sp =>
    p + (arg.1.length + 1) ≤ hi ∧ BytesAt pd s p (arg.1 ++ [0]) ∧ Laid pd s p argv ptrs sp
  | _, _, _, _ => False

theorem bytesAt_of_copiedOut (hc : CopiedOut pd s va buf s') (hva : va + buf.length ≤ kernbase) :
    BytesAt pd s' va buf := by
  intro i hi
  rw [hc.wrote.byte (va + i) (by omega), if_pos (by omega), Nat.add_sub_cancel_left]

/-- What `pushStrings` has done from `sp` down to `sp'`. -/
structure Strings (s : Mem) (pd : PageDir) (top sp : ℕ) (argv : List CString) (new : List ℕ) (s' : Mem) (sp' : ℕ) :
    Prop where
  laid : Laid pd s' sp argv new sp'
  above : top - pgsize ≤ sp'
  le : sp' ≤ sp
  aligned : sp' % 4 = 0
  other : ∀ vb < kernbase, vb < sp' ∨ sp ≤ vb → pd.byte s' vb = pd.byte s vb

theorem Strings.cons {s1 : Mem} {p sp' : ℕ} {arg : CString} {new : List ℕ}
    (hnew : Strings s1 pd top p argv new s' sp') (hc : CopiedOut pd s p (arg.1 ++ [0]) s1)
    (hend : p + (arg.1.length + 1) ≤ sp) (hk : sp ≤ kernbase) :
    Strings s pd top sp (arg :: argv) (p :: new) s' sp' := by
  have hlen : (arg.1 ++ [0]).length = arg.1.length + 1 := by simp
  have hle := hnew.le
  refine ⟨⟨hend, fun i hi => ?_, hnew.laid⟩, hnew.above, by omega, hnew.aligned, fun vb hvb hout => ?_⟩
  · -- The later strings are below.
    rw [hnew.other (p + i) (by omega) (.inr (Nat.le_add_right p i))]
    exact bytesAt_of_copiedOut hc (by omega) i hi
  · rw [hnew.other vb hvb (by omega), hc.wrote.byte vb hvb, hlen, if_neg (by omega)]

theorem pushStrings_spec (hnd : s₀.free.Nodup) (h : Stacked s₀ s pd top) (hlo : top - pgsize ≤ sp) (hhi : sp ≤ top)
    (hmod : sp % 4 = 0) (hmax : ptrs.length ≤ maxarg)
    (hnull : bad .nullPte → ∀ arg ∈ argv, arg.1.length + 1 ≤ top - pgsize) :
    Ensures bad (pushStrings pd argv s sp ptrs) fun r => Stacked s₀ r.2 pd top ∧
      ∀ sp' ptrs', r.1 = some (sp', ptrs') →
        ptrs'.length ≤ maxarg ∧ ∃ new, ptrs' = ptrs ++ new ∧ Strings s pd top sp argv new r.2 sp' := by
  induction argv generalizing s sp ptrs with
  | nil =>
    refine .ok ⟨h, fun sp' ptrs' heq => ?_⟩
    obtain ⟨rfl, rfl⟩ : sp = sp' ∧ ptrs = ptrs' := by simpa using heq
    exact ⟨hmax, [], by simp, rfl, hlo, Nat.le_refl _, hmod, fun _ _ _ => rfl⟩
  | cons arg argv ih =>
    rw [pushStrings]
    by_cases hfull : maxarg ≤ ptrs.length
    · rw [if_pos hfull]
      exact .ok ⟨h, by simp⟩
    rw [if_neg hfull]
    have hlt := h.lt
    have hspace := kernbase_lt_addrSpace
    have hlen : (arg.1 ++ [0]).length = arg.1.length + 1 := by simp
    have hva : subU sp (arg.1.length + 1) / 4 * 4 < addrSpace :=
      Nat.lt_of_le_of_lt (Nat.div_mul_le_self _ _) (subU_lt _ _)
    refine (h.copyout hnd hva fun hb => ?_).bind fun r hr => ?_
    · -- A string that is not too long starts below `sp`.
      have hshort := hnull hb arg List.mem_cons_self
      rw [subU_eq (by omega) (by omega), hlen]
      omega
    rcases r with ⟨r, s1⟩
    rcases hr with ⟨hs1, ⟨rfl, hc⟩ | rfl⟩
    · simp only [Int.lt_irrefl, if_false]
      have hsum : (subU sp (arg.1.length + 1) / 4 * 4 + (arg.1 ++ [0]).length +
          subU sp (arg.1.length + 1) % 4) % addrSpace = sp := by
        have hadd := subU_add (b := arg.1.length + 1) (show sp < addrSpace by omega)
        have hsplit := Nat.div_add_mod' (subU sp (arg.1.length + 1)) 4
        rw [hlen, Nat.add_right_comm, hsplit]
        exact hadd
      rcases h.pushed hva hc (by omega) hlo hhi (Nat.mod_lt _ (by decide)) hsum with ⟨habove, hend⟩
      rw [hlen] at hend
      have hmax' : (ptrs ++ [subU sp (arg.1.length + 1) / 4 * 4]).length ≤ maxarg := by
        rw [List.length_append, List.length_singleton]
        omega
      refine (ih hs1 habove (by omega) (Nat.mul_mod_left _ 4) hmax' fun hb arg' harg' =>
        hnull hb arg' (List.mem_cons_of_mem arg harg')).mono fun r hr => ⟨hr.1, fun sp' ptrs' heq => ?_⟩
      rcases hr.2 sp' ptrs' heq with ⟨hlen', new, rfl, hnew⟩
      refine ⟨hlen', _ :: new, by rw [List.append_assoc, List.singleton_append], ?_⟩
      exact hnew.cons hc (by omega) (by omega)
    · exact .ok ⟨hs1, by simp⟩

/-! ## The whole stack -/

/-- The stack of a program with the arguments `argv`: from `esp` on a return address, `argc`, a pointer to the vector of
the addresses `ptrs` and this vector, followed by 0; above it the strings, which do not overlap. -/
structure StackFrame (pd : PageDir) (s : Mem) (top esp : ℕ) (argv : List CString) (ptrs : List ℕ) : Prop where
  length : ptrs.length = argv.length
  above : top - pgsize ≤ esp
  below : esp + 4 * (argv.length + 4) ≤ top
  words : BytesAt pd s esp (([0xffffffff, argv.length, esp + 12] ++ ptrs ++ [0]).flatMap wordBytes)
  strings : ∀ ap ∈ argv.zip ptrs, esp + 4 * (argv.length + 4) ≤ ap.2 ∧ ap.2 + (ap.1.1.length + 1) ≤ top ∧
    BytesAt pd s ap.2 (ap.1.1 ++ [0])
  disjoint : (argv.zip ptrs).Pairwise fun ap aq => aq.2 + (aq.1.1.length + 1) ≤ ap.2

theorem Laid.zip {hi : ℕ} (h : Laid pd s hi argv ptrs sp) :
    ptrs.length = argv.length ∧ sp ≤ hi ∧
      (∀ ap ∈ argv.zip ptrs, sp ≤ ap.2 ∧ ap.2 + (ap.1.1.length + 1) ≤ hi ∧ BytesAt pd s ap.2 (ap.1.1 ++ [0])) ∧
      (argv.zip ptrs).Pairwise fun ap aq => aq.2 + (aq.1.1.length + 1) ≤ ap.2 := by
  induction argv generalizing ptrs hi with
  | nil =>
    cases ptrs with
    | nil => exact ⟨rfl, Nat.le_of_eq h, by simp, .nil⟩
    | cons p ptrs => exact h.elim
  | cons arg argv ih =>
    cases ptrs with
    | nil => exact h.elim
    | cons p ptrs =>
      rcases h with ⟨hp, hbytes, hrest⟩
      rcases ih hrest with ⟨hlen, hsp, hall, hpair⟩
      rw [List.zip_cons_cons]
      refine ⟨by simp [hlen], by omega, fun ap hap => ?_, List.pairwise_cons.2 ⟨fun aq haq => ?_, hpair⟩⟩
      · rcases List.mem_cons.1 hap with rfl | hap
        · exact ⟨hsp, hp, hbytes⟩
        · rcases hall ap hap with ⟨h1, h2, h3⟩
          exact ⟨h1, by omega, h3⟩
      · exact (hall aq haq).2.1

theorem length_wordBytes (ws : List ℕ) : (ws.flatMap wordBytes).length = 4 * ws.length := by
  induction ws with
  | nil => rfl
  | cons w ws ih =>
    rw [List.flatMap_cons, List.length_append, ih, List.length_cons]
    simp only [wordBytes, List.length_cons, List.length_nil]
    omega

theorem Strings.frame {s1 : Mem} (h : Strings s pd top top argv ptrs s1 sp) (hst : Stacked s₀ s1 pd top) {esp : ℕ}
    (hesp : top - pgsize ≤ esp) (hend : esp + 4 * (ptrs.length + 4) = sp)
    (hc : CopiedOut pd s1 esp ((ustack sp ptrs).flatMap wordBytes) s') : StackFrame pd s' top esp argv ptrs := by
  rcases h.laid.zip with ⟨hlen, hsp, hall, hpair⟩
  have hlt := hst.lt
  have hspace := kernbase_lt_addrSpace
  have hvec : ustack sp ptrs = [0xffffffff, argv.length, esp + 12] ++ ptrs ++ [0] := by
    rw [ustack, ← hlen, subU_eq (by omega) (by omega), show sp - (ptrs.length + 1) * 4 = esp + 12 by omega]
  have hsize : ((ustack sp ptrs).flatMap wordBytes).length = 4 * (ptrs.length + 4) := by
    rw [length_wordBytes]
    simp only [ustack, List.length_append, List.length_cons, List.length_nil]
    omega
  refine ⟨hlen, hesp, by omega, ?_, fun ap hap => ?_, hpair⟩
  · rw [← hvec]
    exact bytesAt_of_copiedOut hc (by omega)
  rcases hall ap hap with ⟨h1, h2, h3⟩
  refine ⟨by omega, h2, fun i hi => ?_⟩
  have hlen' : (ap.1.1 ++ [0]).length = ap.1.1.length + 1 := by simp
  rw [hc.wrote.byte _ (by omega), if_neg (by omega)]
  exact h3 i hi

theorem byte_guarded (hg : Guarded a pd pd') (s : Mem) (hva : va < addrSpace) : pd'.byte s va = pd.byte s va := by
  rw [PageDir.byte, PageDir.byte, hg.lookup va hva]
  split_ifs
  · rw [Option.map_map]
    rfl
  · rfl

theorem BytesAt.congr {bytes : List UInt8} (h : BytesAt pd s va bytes) (hva : va + bytes.length ≤ kernbase)
    (hsame : ∀ vb < kernbase, pd.byte s' vb = pd.byte s vb) : BytesAt pd s' va bytes := by
  intro i hi
  rw [hsame (va + i) (by omega)]
  exact h i hi

theorem StackFrame.congr {esp : ℕ} (h : StackFrame pd s top esp argv ptrs) (htop : top ≤ kernbase)
    (hsame : ∀ vb < kernbase, pd.byte s' vb = pd.byte s vb) :
    StackFrame pd s' top esp argv ptrs where
  length := h.length
  above := h.above
  below := h.below
  words := by
    refine h.words.congr ?_ hsame
    have hlen := h.length
    have hbelow := h.below
    rw [length_wordBytes]
    simp only [List.length_append, List.length_cons, List.length_nil]
    omega
  strings ap hap := by
    rcases h.strings ap hap with ⟨hlo, hhi, hbytes⟩
    refine ⟨hlo, hhi, hbytes.congr ?_ hsame⟩
    rw [List.length_append, List.length_singleton]
    omega
  disjoint := h.disjoint

theorem pgroundup_of_mod (h : a % pgsize = 0) : pgroundup a = a :=
  (eq_pgroundup h (le_pgroundup a) (Nat.le_refl a)).symm

theorem stackTop_mod (sz : ℕ) : (pgroundup sz + 2 * pgsize) % pgsize = 0 := by
  rw [Nat.add_mul_mod_self_right, pgroundup_mod]

/-- The guard page and the stack page, or no memory for them. -/
theorem Building.allocStack (h : Building s₀ s pd sz) (hnd : s₀.free.Nodup) :
    Runs (allocuvm s pd (pgroundup sz) (pgroundup sz + 2 * pgsize)) fun r =>
      (r.1 = 0 ∧ (kernbase ≤ pgroundup sz + 2 * pgsize ∨ s.free.length < pd.missing + 2) ∧
          Building s₀ r.2.2 r.2.1 sz) ∨
        (r.1 = pgroundup sz + 2 * pgsize ∧ Building s₀ r.2.2 r.2.1 r.1 ∧
          ∀ va < pgroundup sz, r.2.1.byte r.2.2 va = pd.byte s va) := by
  have hround := pgroundup_of_mod (pgroundup_mod sz)
  have hnone : ∀ b < kernbase, pgroundup (pgroundup sz) ≤ b → pd.lookup b = none := fun b hb hle =>
    h.sized.lookup_eq_none hb (hround ▸ hle)
  refine (allocuvm_spec hnone h.space (h.nodup hnd)).mono fun r hr => ?_
  rw [hround] at hr
  have hturns : turns (pgroundup sz) (pgroundup sz + 2 * pgsize) = 2 := by
    simp only [turns, pgsize]
    omega
  rw [hturns] at hr
  rcases hr with ⟨heq, hlt, _, _, hadd⟩ | ⟨_, hlt, _⟩ | ⟨heq, hreason, hadd⟩
  · have hle := le_pgroundup sz
    refine .inr ⟨heq, ?_, fun va hva => ?_⟩
    · rw [heq]
      exact h.grow (by omega) hlt hadd
    refine h.space.byte_congr (by omega) ?_ fun f hf => hadd.page f (not_mem_free (h.nodup hnd) hf)
    have hspace := kernbase_lt_addrSpace
    exact hadd.outside va (by omega) fun hin => by omega
  · omega
  · exact .inl ⟨heq, hreason, h.grow (Nat.le_refl sz) h.lt hadd⟩

theorem buildStack_spec (hnd : s₀.free.Nodup) (h : Building s₀ s pd sz)
    (hnull : bad .nullPte → ∀ arg ∈ argv, arg.1.length + 1 ≤ pgroundup sz + pgsize) :
    Ensures bad (buildStack s pd sz argv) fun r => (∃ sz', Built s₀ r.2.2 r.2.1 sz') ∧
      ∀ top esp, r.1 = some (top, esp) → top = pgroundup sz + 2 * pgsize ∧ Stacked s₀ r.2.2 r.2.1 top ∧
        (∀ va < pgroundup sz, r.2.1.byte r.2.2 va = pd.byte s va) ∧
        ∃ ptrs, StackFrame r.2.1 r.2.2 top esp argv ptrs := by
  refine ((h.allocStack hnd).weaken fun _ _ => trivial).bind fun r hr => ?_
  rcases r with ⟨top, pd1, s1⟩
  have hpg : pgsize = 4096 := rfl
  dsimp only at hr ⊢
  by_cases hzero : top = 0
  · rw [if_pos hzero]
    rcases hr with ⟨_, _, hb⟩ | ⟨_, hb, _⟩
    · exact .ok ⟨⟨_, hb.toBuilt⟩, by simp⟩
    · exact .ok ⟨⟨_, hb.toBuilt⟩, by simp⟩
  rw [if_neg hzero]
  rcases hr with ⟨hz, _⟩ | ⟨htop, hb, hbytes⟩
  · exact absurd hz hzero
  have hmod := stackTop_mod sz
  rw [← htop] at hmod
  have hlt := hb.lt
  refine ((hb.clear (by omega) hmod).weaken fun _ _ => trivial).bind fun pd2 ⟨hg, hst⟩ => ?_
  have hfour : top % 4 = 0 := by
    simp only [pgsize] at hmod
    omega
  refine (pushStrings_spec hnd hst (Nat.sub_le _ _) (Nat.le_refl _) hfour (Nat.zero_le _) fun hbad arg harg => ?_).bind
    fun r hr => ?_
  · have := hnull hbad arg harg
    omega
  rcases r with ⟨_ | ⟨sp, ptrs⟩, s2⟩
  · exact .ok ⟨⟨_, hr.1.toBuilt⟩, by simp⟩
  rcases hr with ⟨hst2, hptrs⟩
  rcases hptrs sp ptrs rfl with ⟨hmax, new, hnew, hstr⟩
  rw [List.nil_append] at hnew
  rw [← hnew] at hstr
  have habove := hstr.above
  have hle := hstr.le
  have hsize : ((ustack sp ptrs).flatMap wordBytes).length = 4 * (ptrs.length + 4) := by
    rw [length_wordBytes]
    simp only [ustack, List.length_append, List.length_cons, List.length_nil]
    omega
  have hspace := kernbase_lt_addrSpace
  dsimp only
  refine (hst2.copyout hnd (subU_lt _ _) fun hbad => ?_).bind fun r hr => ?_
  · -- The vector is at most 144 bytes long and starts below the last string.
    simp only [maxarg] at hmax
    rw [subU_eq (by omega) (by omega), hsize]
    omega
  rcases r with ⟨r, s3⟩
  rcases hr with ⟨hst3, ⟨rfl, hc⟩ | rfl⟩
  · refine .ok ⟨⟨_, hst3.toBuilt⟩, fun top' esp heq => ?_⟩
    obtain ⟨rfl, rfl⟩ : top = top' ∧ subU sp ((3 + ptrs.length + 1) * 4) = esp := by simpa using heq
    have hsum : (subU sp ((3 + ptrs.length + 1) * 4) + ((ustack sp ptrs).flatMap wordBytes).length + 0) % addrSpace =
        sp := by
      rw [hsize, Nat.add_zero, show 4 * (ptrs.length + 4) = (3 + ptrs.length + 1) * 4 by omega]
      exact subU_add (by omega)
    rcases hst2.pushed (subU_lt _ _) hc (by omega) habove (by omega) (by decide) hsum with ⟨hesp, hend⟩
    refine ⟨htop, hst3, fun va hva => ?_, ptrs, hstr.frame hst2 hesp (by omega) hc⟩
    dsimp only
    rw [hc.wrote.byte va (by omega), if_neg (by omega), hstr.other va (by omega) (.inl (by omega)),
      byte_guarded hg s1 (by omega), hbytes va hva]
  · exact .ok ⟨⟨_, hst3.toBuilt⟩, by simp⟩

end

end Xv6.Exec
