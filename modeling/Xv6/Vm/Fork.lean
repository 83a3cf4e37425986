import Xv6.Vm.Kernel

/-!
# Fork — a copy of an address space, or no trace

`copyuvm` copies the pages below `PGROUNDUP(sz)`, and those only: where a thread that shares the directory has grown it,
the pages above the parent's own size are not copied.  What is copied lies in pages that were free, so that the two
address spaces have no page in common.  If there is no memory for the copy, `fork` leaves the parent, the free pages and
all other slots as they were.
-/

namespace Xv6.Vm

open Common PageDir
open Process (Slot ProcState)

def Mem.store (s : Mem) (pd : PageDir) (va : ℕ) (b : UInt8) : Mem :=
  match pd.lookup va with
  | none => s
  | some pte => s.modifyAt pte.pa fun x => Function.update x (va % pgsize) b

/-! ## Copies -/

/-- `d` has the user pages of `pd` below `PGROUNDUP(sz)`, with their flags and bytes, in pages that were free. -/
structure CopyOf (s s' : Mem) (pd : PageDir) (sz : ℕ) (d : PageDir) : Prop where
  pages : ∀ va < kernbase, d.Present va ↔ va < pgroundup sz
  flags : ∀ va < pgroundup sz, (d.lookup va).map Pte.perm = (pd.lookup va).map Pte.perm
  bytes : ∀ va < pgroundup sz, d.byte s' va = pd.byte s va
  fresh : ∀ va < kernbase, ∀ pte, d.lookup va = some pte → ∃ f ∈ s.free, pte.pa = f.1
  distinct : ∀ va < kernbase, ∀ va' < kernbase, ∀ pte pte', d.lookup va = some pte → d.lookup va' = some pte' →
    pte.pa = pte'.pa → va / pgsize = va' / pgsize

/-- What is written through one directory is not seen through the other. -/
structure Apart (s : Mem) (pd d : PageDir) : Prop where
  left : ∀ va < kernbase, ∀ b, ∀ va' < kernbase, d.byte (s.store pd va b) va' = d.byte s va'
  right : ∀ va < kernbase, ∀ b, ∀ va' < kernbase, pd.byte (s.store d va b) va' = pd.byte s va'

section Copies

variable {s s' : Mem} {pd d : PageDir} {sz : ℕ}

theorem Copied.nodup (h : Copied s s' pd sz d) (hnd : (pd.owned + s.free).Nodup) : d.owned.Nodup := by
  have hfree := (Multiset.nodup_add.1 hnd).2.1
  rw [← h.owned] at hfree
  exact (Multiset.nodup_add.1 hfree).1

theorem Copied.copyOf (h : Copied s s' pd sz d) (hsz : sz < kernbase) (hpres : ∀ va < pgroundup sz, pd.Present va)
    (hnd : (pd.owned + s.free).Nodup) : CopyOf s s' pd sz d := by
  have hround := pgroundup_le_kernbase (Nat.le_of_lt hsz)
  have hcopy : ∀ va < pgroundup sz, ∃ pte f, pd.lookup va = some pte ∧ f ∈ s.free ∧
      d.lookup va = some { pa := f.1, perm := pte.perm } ∧ s'.page f = s.pageAt pte.pa := by
    intro va hva
    rcases Option.isSome_iff_exists.1 (hpres va hva) with ⟨pte, hpte⟩
    rcases h.present va hva pte hpte with ⟨f, hf, _, hlook, hpage⟩
    exact ⟨pte, f, hpte, hf, hlook, hpage⟩
  have hbelow : ∀ va < kernbase, ∀ pte, d.lookup va = some pte → va < pgroundup sz := by
    intro va hva pte hpte
    by_contra hge
    rw [h.absent va hva (Nat.not_lt.1 hge)] at hpte
    cases hpte
  have hfresh : ∀ va < kernbase, ∀ pte, d.lookup va = some pte → ∃ f ∈ s.free, pte.pa = f.1 := by
    intro va hva pte hpte
    rcases hcopy va (hbelow va hva pte hpte) with ⟨_, f, _, hf, hlook, _⟩
    rw [hlook] at hpte
    cases hpte
    exact ⟨f, hf, rfl⟩
  constructor
  case pages =>
    intro va hva
    constructor
    · intro hp
      rcases Option.isSome_iff_exists.1 hp with ⟨pte, hpte⟩
      exact hbelow va hva pte hpte
    · intro hlt
      rcases hcopy va hlt with ⟨_, _, _, _, hlook, _⟩
      rw [PageDir.Present, hlook]
      rfl
  case flags =>
    intro va hva
    rcases hcopy va hva with ⟨pte, f, hpte, _, hlook, _⟩
    rw [hpte, hlook]
    rfl
  case bytes =>
    intro va hva
    rcases hcopy va hva with ⟨pte, f, hpte, _, hlook, hpage⟩
    rw [PageDir.byte, PageDir.byte, hpte, hlook, Option.map_some, Option.map_some, Mem.pageAt, dif_pos f.2, hpage]
  case fresh => exact hfresh
  case distinct =>
    intro va hva va' hva' pte pte' hpte hpte' heq
    rcases h.space.frame hva hpte with ⟨f, hf, hlook⟩
    rcases h.space.frame hva' hpte' with ⟨g, hg, hlook'⟩
    obtain rfl : f = g := Subtype.ext (hf.symm.trans (heq.trans hg))
    exact page_inj (h.nodup hnd) hva hva' hlook hlook'

theorem store_page {f : Frame} {va : ℕ} (b : UInt8) (h : ∀ pte, d.lookup va = some pte → f.1 ≠ pte.pa) :
    (s.store d va b).page f = s.page f := by
  unfold Mem.store
  cases hpte : d.lookup va with
  | none => rfl
  | some pte => exact Mem.modifyAt_page_of_ne (h pte hpte)

/-- A store through a directory whose user pages are not those of `pd`. -/
theorem byte_store (hsp : Space pd) (hdisj : ∀ va < kernbase, ∀ pte, d.lookup va = some pte →
    ∀ f ∈ pd.owned, f.1 ≠ pte.pa) {va va' : ℕ} (hva : va < kernbase) (hva' : va' < kernbase) (b : UInt8) :
    pd.byte (s.store d va b) va' = pd.byte s va' :=
  hsp.byte_congr hva' rfl fun f hf => store_page b fun pte hpte => hdisj va hva pte hpte f hf

theorem Copied.apart (h : Copied s s' pd sz d) (hsp : Space pd) (hnd : (pd.owned + s.free).Nodup) : Apart s' pd d := by
  have hdisj : ∀ f ∈ d.owned, f ∉ pd.owned := by
    intro f hf hf'
    have hmem : f ∈ (s.free : Multiset Frame) := by
      rw [← h.owned]
      exact Multiset.mem_add.2 (.inl hf)
    exact not_mem_free hnd hf' hmem
  constructor
  · intro va hva b va' hva'
    refine byte_store h.space (fun va hva pte hpte f hf heq => ?_) hva hva' b
    rcases hsp.frame hva hpte with ⟨g, hg, hlook⟩
    obtain rfl : f = g := Subtype.ext (heq.trans hg)
    exact hdisj f hf (mem_owned hva hlook)
  intro va hva b va' hva'
  refine byte_store hsp (fun va hva pte hpte f hf heq => ?_) hva hva' b
  rcases h.space.frame hva hpte with ⟨g, hg, hlook⟩
  obtain rfl : f = g := Subtype.ext (heq.trans hg)
  exact hdisj f (mem_owned hva hlook) hf

theorem CopyOf.of_kalloc {s1 : Mem} {f : Frame} (h : CopyOf s1 s' pd sz d) (halloc : s.kalloc = some (f, s1)) : CopyOf s s' pd sz d := by
  rcases Mem.kalloc_eq_some halloc with ⟨hfree, hpage⟩
  refine ⟨h.pages, h.flags, fun va hva => ?_, fun va hva pte hpte => ?_, h.distinct⟩
  · rw [h.bytes va hva]
    simp only [PageDir.byte, Mem.pageAt, hpage]
  · rcases h.fresh va hva pte hpte with ⟨g, hg, heq⟩
    rw [hfree]
    exact ⟨g, List.mem_cons_of_mem f hg, heq⟩

end Copies

/-! ## `fork` -/

namespace Kernel

def fork (data : DataSymbol) (k : Kernel) (cur : Slot) : Except Panic (Int32 × Kernel) :=
  match k.allocproc with
  | (none, k) => return (-1, k)
  | (some (np, kstack), k) =>
    match (k.proc cur).pgdir.bind k.dirs with
    | none => .error .nullPgdir
    | some pd => do
        match ← copyuvm data k.mem pd (k.proc cur).sz with
        | (none, mem) =>
          return (-1, { k with mem := mem.kfree kstack }.set np fun q =>
            { q with pgdir := none, kstack := none, state := .unused })
        | (some d, mem) =>
          let k := { k with mem := mem, dirs := Function.update k.dirs d.page (some d) }.set np fun q =>
            { q with
              pgdir := some d.page
              sz := (k.proc cur).sz
              parent := some cur
              tf := { (k.proc cur).tf with eax := 0 } }
          let k ← k.finish cur np
          return ((k.proc np).pid, k)

/-- A process that may fork: its directory has the pages below its size.  No directory has a free page. -/
structure Parent (k : Kernel) (cur : Slot) (pd : PageDir) : Prop where
  state : (k.proc cur).state ≠ .unused
  pgdir : (k.proc cur).pgdir.bind k.dirs = some pd
  lt : (k.proc cur).sz < kernbase
  present : ∀ va < pgroundup (k.proc cur).sz, pd.Present va
  space : Space pd
  page : ∀ f q, k.dirs f = some q → q.page = f
  apart : ∀ f q, k.dirs f = some q → (q.owned + k.mem.free).Nodup

variable {data : DataSymbol} {k k' : Kernel} {cur np p : Slot} {pd : PageDir}

theorem Parent.nodup (h : k.Parent cur pd) : (pd.owned + k.mem.free).Nodup := by
  rcases Option.bind_eq_some_iff.1 h.pgdir with ⟨f, _, hf⟩
  exact h.apart f pd hf

/-- A process that `fork` has made. -/
structure Forked (k : Kernel) (cur : Slot) (pd : PageDir) (r : Int32) (k' : Kernel) : Prop where
  child : ∃ np d, k.findUnused = some np ∧ (k'.proc np).pgdir = some d.page ∧ k'.dirs d.page = some d ∧
    (k'.proc np).sz = (k.proc cur).sz ∧ (k'.proc np).pid = r ∧ (k'.proc np).state = .runnable ∧
    CopyOf k.mem k'.mem pd (k.proc cur).sz d ∧ Apart k'.mem pd d ∧
    ∀ f q, k.dirs f = some q → k'.dirs f = some q ∧ ∀ g ∈ d.owned, g ∉ q.owned
  parent : ∀ va < kernbase, pd.byte k'.mem va = pd.byte k.mem va
  other : ∀ p, k.findUnused ≠ some p → k'.proc p = k.proc p

/-- Only `np` has changed, and not its memory. -/
structure Filled (np : Slot) (k k' : Kernel) : Prop where
  mem : k'.mem = k.mem
  dirs : k'.dirs = k.dirs
  other : ∀ p, p ≠ np → k'.proc p = k.proc p
  pgdir : (k'.proc np).pgdir = (k.proc np).pgdir
  sz : (k'.proc np).sz = (k.proc np).sz
  pid : (k'.proc np).pid = (k.proc np).pid

theorem Filled.refl (np : Slot) (k : Kernel) : Filled np k k :=
  ⟨rfl, rfl, fun _ _ => rfl, rfl, rfl, rfl⟩

theorem Filled.trans {k1 : Kernel} (h : Filled np k k1) (h' : Filled np k1 k') : Filled np k k' :=
  ⟨h'.mem.trans h.mem, h'.dirs.trans h.dirs, fun p hp => (h'.other p hp).trans (h.other p hp), h'.pgdir.trans h.pgdir,
    h'.sz.trans h.sz, h'.pid.trans h.pid⟩

theorem Filled.set {g : Proc → Proc} (hpgdir : (g (k.proc np)).pgdir = (k.proc np).pgdir)
    (hsz : (g (k.proc np)).sz = (k.proc np).sz) (hpid : (g (k.proc np)).pid = (k.proc np).pid) :
    Filled np k (k.set np g) := by
  refine ⟨rfl, rfl, fun p hp => set_proc_of_ne hp, ?_, ?_, ?_⟩
  all_goals rw [set_proc_self]
  · exact hpgdir
  · exact hsz
  · exact hpid

theorem dupFiles_spec (is : List (Fin nofile)) (k : Kernel) :
    Ensures (· ≠ Panic.filedup) (dupFiles cur np is k) (Filled np k) := by
  induction is generalizing k with
  | nil => exact .ok (.refl np k)
  | cons i is ih =>
    rw [dupFiles]
    cases hf : (k.proc cur).ofile i with
    | none => exact ih k
    | some f =>
      have hdup : Ensures (· ≠ Panic.filedup) (k.filedup f) (Filled np k) := by
        unfold filedup
        split_ifs
        · exact .error (by simp)
        · exact .ok ⟨rfl, rfl, fun _ _ => rfl, rfl, rfl, rfl⟩
      refine hdup.bind fun k1 hk1 => (ih _).mono fun k2 hk2 => hk1.trans (.trans (.set ?_ ?_ ?_) hk2)
      all_goals rfl

theorem finish_spec :
    Ensures (· ≠ Panic.filedup) (k.finish cur np) fun k' => Filled np k k' ∧ (k'.proc np).state = .runnable := by
  refine (dupFiles_spec (List.finRange nofile) k).bind fun k1 hk1 => .ok ⟨?_, ?_⟩
  · have hdup : Filled np k1 (k1.idup (k1.proc cur).cwd) := ⟨rfl, rfl, fun _ _ => rfl, rfl, rfl, rfl⟩
    exact hk1.trans (hdup.trans (.trans (.set rfl rfl rfl) (.set rfl rfl rfl)))
  · rw [set_proc_self]

theorem fork_spec (h : k.Parent cur pd) : Ensures (· ≠ Panic.filedup) (k.fork data cur) fun r =>
      Forked k cur pd r.1 r.2 ∨ (r.1 = -1 ∧ Restored k r.2) := by
  rcases allocproc_spec k with ⟨hnone, hsome⟩
  unfold fork
  rcases halloc : k.allocproc with ⟨_ | ⟨np, kstack⟩, k1⟩
  · rw [halloc] at hnone
    exact .ok (.inr ⟨rfl, hnone rfl⟩)
  rw [halloc] at hsome
  have ha : Alloced k np kstack k1 := hsome np kstack rfl
  rcases Mem.kalloc_eq_some ha.kalloc with ⟨hfree, hpage⟩
  have hcur : k1.proc cur = k.proc cur := ha.other cur fun heq => h.state (heq ▸ findUnused_state ha.found)
  have hne : cur ≠ np := fun heq => h.state (heq ▸ findUnused_state ha.found)
  have hmem : (k.mem.free : Multiset Frame) = {kstack} + k1.mem.free := by
    rw [hfree, ← Multiset.cons_coe, Multiset.singleton_add]
  have hnd1 : ∀ f q, k.dirs f = some q → (q.owned + k1.mem.free).Nodup := by
    intro f q hq
    refine Multiset.nodup_of_le ?_ (h.apart f q hq)
    rw [hmem, add_left_comm]
    exact Multiset.le_add_left _ _
  have hnd : (pd.owned + k1.mem.free).Nodup := by
    rcases Option.bind_eq_some_iff.1 h.pgdir with ⟨f, _, hf⟩
    exact hnd1 f pd hf
  simp only [hcur, ha.dirs, h.pgdir]
  refine Ensures.bind ((copyuvm_spec data h.lt h.present h.space hnd).weaken fun _ _ => trivial) fun r hr => ?_
  rcases r with ⟨_ | d, mem⟩
  · rcases hr.1 rfl with ⟨_, hfree', hpage'⟩
    refine .ok (.inr ⟨rfl, ?_, fun f hf => ?_, rfl, fun p hp => ?_, fun p hp => ?_⟩)
    · rw [hmem, ← hfree', set_mem, Mem.kfree_free, ← Multiset.cons_coe, Multiset.singleton_add]
    · rw [hfree, List.mem_cons, not_or] at hf
      rw [set_mem, Mem.kfree_page_of_ne hf.1, hpage' f hf.2, hpage]
    · have hne' : p ≠ np := fun heq => hp (heq ▸ ha.found)
      rw [set_proc_of_ne hne']
      exact ha.other p hne'
    · obtain rfl : np = p := by simpa [ha.found] using hp
      rw [set_proc_self]
  have hc : Copied k1.mem mem pd (k.proc cur).sz d := hr.2 d rfl
  have hdfree : ∀ g ∈ d.owned, g ∈ k1.mem.free := by
    intro g hg
    rw [← Multiset.mem_coe, ← hc.owned]
    exact Multiset.mem_add.2 (.inl hg)
  refine finish_spec.bind fun k2 hk2 => .ok (.inl ?_)
  rcases hk2 with ⟨hfill, hrun⟩
  have hmem2 : k2.mem = mem := hfill.mem
  refine ⟨⟨np, d, ha.found, ?_, ?_, ?_, rfl, hrun, ?_, ?_, fun f q hq => ⟨?_, fun g hg hg' => ?_⟩⟩, fun va hva => ?_,
    fun p hp => ?_⟩
  · rw [hfill.pgdir, set_proc_self]
  · rw [hfill.dirs]
    exact Function.update_self _ _ _
  · rw [hfill.sz, set_proc_self]
  · rw [hmem2]
    exact (hc.copyOf h.lt h.present hnd).of_kalloc ha.kalloc
  · rw [hmem2]
    exact hc.apart h.space hnd
  · -- The page of the new directory was free, so no other directory lies there.
    have hne' : f ≠ d.page := by
      intro heq
      have hown : d.page ∈ q.owned := by
        rw [← heq, ← h.page f q hq]
        exact page_mem_owned q
      exact not_mem_free (hnd1 f q hq) hown (hdfree d.page (page_mem_owned d))
    rw [hfill.dirs]
    exact (Function.update_of_ne hne' _ _).trans hq
  · exact not_mem_free (hnd1 f q hq) hg' (hdfree g hg)
  · rw [hmem2]
    refine h.space.byte_congr hva rfl fun f hf => ?_
    rw [hc.page f (not_mem_free hnd hf), hpage]
  · have hne' : p ≠ np := fun heq => hp (heq ▸ ha.found)
    rw [hfill.other p hne', set_proc_of_ne hne']
    exact ha.other p hne'

/-- What `copyuvm` returns for the directory `pd` of `cur`: 0 with the free pages as they were, or a copy in pages that
no directory has. -/
structure Duplicate (k : Kernel) (cur : Slot) (pd : PageDir) (r : Option PageDir × Mem) : Prop where
  failed : r.1 = none → (r.2.free : Multiset Frame) = k.mem.free ∧ ∀ f, f ∉ k.mem.free → r.2.page f = k.mem.page f
  copy : ∀ d, r.1 = some d → CopyOf k.mem r.2 pd (k.proc cur).sz d ∧ Apart r.2 pd d
  parent : ∀ d, r.1 = some d → ∀ va < kernbase, pd.byte r.2 va = pd.byte k.mem va
  fresh : ∀ d, r.1 = some d → ∀ f q, k.dirs f = some q → ∀ g ∈ d.owned, g ∉ q.owned

theorem copyuvm_duplicate (h : k.Parent cur pd) :
    Runs (copyuvm data k.mem pd (k.proc cur).sz) (k.Duplicate cur pd) := by
  refine (copyuvm_spec data h.lt h.present h.space h.nodup).mono fun r hr => ?_
  refine ⟨fun hnone => (hr.1 hnone).2, fun d hd => ?_, fun d hd va hva => ?_, fun d hd f q hq g hg hg' => ?_⟩
  all_goals have hc := hr.2 d hd
  · exact ⟨hc.copyOf h.lt h.present h.nodup, hc.apart h.space h.nodup⟩
  · exact h.space.byte_congr hva rfl fun f hf => hc.page f (not_mem_free h.nodup hf)
  · refine not_mem_free (h.apart f q hq) hg' ?_
    rw [← Multiset.mem_coe, ← hc.owned]
    exact Multiset.mem_add.2 (.inl hg)

/-- `copyuvm` copies the pages of a process below its size, into pages that no directory has, or fails and leaves the
free pages as they were.  `fork` makes a child with such a copy, or returns -1 and leaves no trace. -/
theorem fork_copies_or_restores (h : k.Parent cur pd) :
    Runs (copyuvm data k.mem pd (k.proc cur).sz) (k.Duplicate cur pd) ∧
      Ensures (· ≠ Panic.filedup) (k.fork data cur) fun r => Forked k cur pd r.1 r.2 ∨ (r.1 = -1 ∧ Restored k r.2) :=
  ⟨copyuvm_duplicate h, fork_spec h⟩

/-! ## A parent -/

/-- A kernel with one process, of size `sz` and with the directory `pd`. -/
def single (s : Mem) (pd : PageDir) (sz : ℕ) : Kernel :=
  { mem := s
    dirs := fun f => if f = pd.page then some pd else none
    proc := fun p =>
      { sz := sz
        pgdir := some pd.page
        kstack := none
        threadstack := 0
        state := if p.val = 0 then .running else .unused
        pid := 1
        parent := none
        tf := { eax := 0, ebp := 0, eip := 0, esp := 0, rest := fun _ => 0 }
        ofile := fun _ => none
        cwd := ⟨0, ninode_pos⟩
        name := []
        mlfq :=
          { priority := 0
            timeSlices := 0
            waitTime := 0
            ticksInQueue := 0
            totalTicks := 0
            arrivalTime := 0
            firstRunTime := 0
            timesScheduled := 0 } }
    nextpid := 2
    ticks := 0
    fileRef := fun _ => 0
    inodeRef := fun _ => 1 }

theorem single_parent {s : Mem} {sz top : ℕ} (hle : sz ≤ top) (htop : top < kernbase) (hsized : Sized pd top)
    (hspace : Space pd) (hnd : (pd.owned + s.free).Nodup) : (single s pd sz).Parent ⟨0, nproc_pos⟩ pd where
  state := by simp [single]
  pgdir := by simp [single]
  lt := Nat.lt_of_le_of_lt hle htop
  present va hva := by
    have hmono := pgroundup_mono hle
    have hround := pgroundup_le_kernbase (Nat.le_of_lt htop)
    have hva' : va < pgroundup sz := hva
    exact (hsized va (by omega)).2 (by omega)
  space := hspace
  page f q hq := by
    by_cases hf : f = pd.page
    · obtain rfl : pd = q := by simpa [single, hf] using hq
      exact hf.symm
    · simp [single, hf] at hq
  apart f q hq := by
    by_cases hf : f = pd.page
    · obtain rfl : pd = q := by simpa [single, hf] using hq
      exact hnd
    · simp [single, hf] at hq

/-- A process with one page, in a directory that a thread has grown to two, and enough memory to copy it. -/
theorem exists_parent : ∃ (k : Kernel) (cur : Slot) (pd : PageDir), k.Parent cur pd ∧ (k.proc cur).sz = pgsize ∧
    Sized pd (2 * pgsize) ∧ nentries + 2 ≤ k.mem.free.length := by
  have hturns : turns 0 (2 * pgsize) = 2 := by decide
  have hframes := nframes_eq
  rcases exists_space .small (2 * pgsize) (nentries + 2) (by decide)
    (by rw [hturns, hframes]; decide) with ⟨s, pd, hsized, hspace, hnd, hlen⟩
  refine ⟨single s pd pgsize, ⟨0, nproc_pos⟩, pd, ?_, rfl, hsized, hlen⟩
  exact single_parent (by decide) (by decide) hsized hspace hnd

/-- A process with one page forks. -/
theorem fork_copies_or_restores_onePage : ∃ (k : Kernel) (cur : Slot) (pd : PageDir), k.Parent cur pd ∧
    (k.proc cur).sz = pgsize ∧ Ensures (· ≠ Panic.filedup) (k.fork .small cur) fun r =>
      Forked k cur pd r.1 r.2 ∨ (r.1 = -1 ∧ Restored k r.2) := by
  rcases exists_parent with ⟨k, cur, pd, h, hsz, _, _⟩
  exact ⟨k, cur, pd, h, hsz, (fork_copies_or_restores h).2⟩

/-- The page by which a thread has grown the directory is not copied. -/
theorem copyuvm_omits_above : ∃ (k : Kernel) (cur : Slot) (pd d : PageDir) (s : Mem), k.Parent cur pd ∧
    copyuvm .small k.mem pd (k.proc cur).sz = .ok (some d, s) ∧
    ∃ va < kernbase, pd.Present va ∧ ¬ d.Present va := by
  rcases exists_parent with ⟨k, cur, pd, h, hsz, hsized, hlen⟩
  rcases (copyuvm_spec .small h.lt h.present h.space h.nodup).exists_ok fun _ => trivial with
    ⟨⟨_ | d, s⟩, hres, hnone, hsome⟩
  · have hfew := (hnone rfl).1
    have hturns : turns 0 pgsize = 1 := by decide
    rw [hsz, hturns] at hfew
    omega
  · refine ⟨k, cur, pd, d, s, h, hres, pgsize, by decide, ?_, ?_⟩
    · exact (hsized pgsize (by decide)).2 (by decide)
    · rw [PageDir.Present, (hsome d rfl).absent pgsize (by decide) (by rw [hsz]; decide)]
      exact Bool.false_ne_true

end Kernel

end Xv6.Vm
