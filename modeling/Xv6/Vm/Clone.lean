import Xv6.Vm.Fork

/-!
# Clone — the stores of `clone` into the new thread's stack

`sys_clone` fetches four integers from the user's stack and hands them to `clone` unchecked.  `clone` writes three words
into the page at `stack`, wherever that is.  The stores stay in the memory of the caller exactly if the whole page does,
or if the call fails before it comes to them.
-/

namespace Xv6.Vm
namespace Kernel

open Common PageDir
open Process (Slot ProcState)

/-! ## System call arguments -/

/-- A byte of user memory, as the kernel reads it on the page table of `cur`. -/
def userByte (k : Kernel) (cur : Slot) (va : ℕ) : UInt8 :=
  (((k.proc cur).pgdir.bind k.dirs).bind fun pd => pd.byte k.mem va).getD 0

def userWord (k : Kernel) (cur : Slot) (va : ℕ) : UInt32 :=
  (k.userByte cur va).toUInt32 ||| (k.userByte cur (va + 1)).toUInt32 <<< 8 |||
    (k.userByte cur (va + 2)).toUInt32 <<< 16 ||| (k.userByte cur (va + 3)).toUInt32 <<< 24

def fetchint (k : Kernel) (cur : Slot) (addr : UInt32) : Option UInt32 :=
  if (k.proc cur).sz ≤ addr.toNat ∨ (k.proc cur).sz < (addr + 4).toNat then none
  else some (k.userWord cur addr.toNat)

def argint (k : Kernel) (cur : Slot) (n : UInt32) : Option UInt32 :=
  k.fetchint cur ((k.proc cur).tf.esp + 4 + 4 * n)

/-! ## `clone` -/

/-- A word that the kernel writes at `base + offset`. -/
structure Store where
  base : UInt32
  offset : ℕ
  value : UInt32

/-- The word lies inside `[0, sz)`, computed without wrap-around. -/
def Store.Inside (sz : ℕ) (st : Store) : Prop := st.base.toNat + st.offset + 4 ≤ sz

/-- `clone`, with the words it writes into the new stack and how it ends. -/
def clone (k : Kernel) (cur : Slot) (fcn arg1 arg2 stack : UInt32) : List Store × Except Panic (Int32 × Kernel) :=
  match k.allocproc with
  | (none, k) => ([], .ok (-1, k))
  | (some (np, _), k) =>
    let k := k.set np fun q =>
      { q with
        pgdir := (k.proc cur).pgdir
        sz := (k.proc cur).sz
        parent := some cur
        tf := { (k.proc cur).tf with eax := 0, ebp := stack + 4084, eip := fcn, esp := stack + 4084 }
        threadstack := stack }
    ([{ base := stack, offset := pgsize - 3 * 4, value := 0xFFFFFFF },
      { base := stack, offset := pgsize - 2 * 4, value := arg1 },
      { base := stack, offset := pgsize - 1 * 4, value := arg2 }],
     do
      let k ← k.finish cur np
      return ((k.proc np).pid, k))

def sysClone (k : Kernel) (cur : Slot) : List Store × Except Panic (Int32 × Kernel) :=
  match k.argint cur 0, k.argint cur 1, k.argint cur 2, k.argint cur 3 with
  | some fcn, some arg1, some arg2, some stack => k.clone cur fcn arg1 arg2 stack
  | _, _, _, _ => ([], .ok (-1, k))

def ArgsFetched (k : Kernel) (cur : Slot) : Prop :=
  ∀ n ∈ [(0 : UInt32), 1, 2, 3], (k.argint cur n).isSome = true

def StackFits (k : Kernel) (cur : Slot) (stack : UInt32) : Prop := stack.toNat + pgsize ≤ (k.proc cur).sz

/-- Every word is written into the memory of `cur`; if the stack does not allow that, the call returns -1 and creates no
process. -/
structure Confined (k : Kernel) (cur : Slot) (r : List Store × Except Panic (Int32 × Kernel)) : Prop where
  inside : ∀ st ∈ r.1, st.Inside (k.proc cur).sz
  refused : ∀ stack, k.argint cur 3 = some stack → ¬ k.StackFits cur stack →
    ∃ k', r.2 = .ok (-1, k') ∧ ∀ p, (k'.proc p).state = .unused ↔ (k.proc p).state = .unused

variable {k k' : Kernel} {cur : Slot} {fcn arg1 arg2 stack : UInt32}

theorem confined_of_refused (h : ∀ p, (k'.proc p).state = .unused ↔ (k.proc p).state = .unused) :
    Confined k cur ([], .ok (-1, k')) where
  inside _ hst := absurd hst List.not_mem_nil
  refused _ _ _ := ⟨k', rfl, h⟩

theorem Restored.unused_iff (h : Restored k k') (p : Slot) :
    (k'.proc p).state = .unused ↔ (k.proc p).state = .unused := by
  by_cases hp : k.findUnused = some p
  · exact iff_of_true (h.tried p hp) (findUnused_state hp)
  · rw [h.other p hp]

/-- Without a slot or a page `allocproc` fails. -/
theorem allocproc_eq_none (h : k.findUnused = none ∨ k.mem.free = []) : k.allocproc.1 = none := by
  unfold allocproc
  cases hfind : k.findUnused with
  | none => rfl
  | some np =>
    have hfree : k.mem.free = [] := h.resolve_left (by simp [hfind])
    have hnone : k.mem.kalloc = none := by rw [Mem.kalloc, hfree]
    simp only [hnone]

theorem clone_of_allocproc_none (h : k.allocproc.1 = none) :
    k.clone cur fcn arg1 arg2 stack = ([], .ok (-1, k.allocproc.2)) := by
  unfold clone
  rcases halloc : k.allocproc with ⟨_ | r, k1⟩
  · rfl
  · rw [halloc] at h
    cases h

theorem clone_stores (h : k.allocproc.1 ≠ none) {st : Store} : st ∈ (k.clone cur fcn arg1 arg2 stack).1 ↔
      st = { base := stack, offset := pgsize - 3 * 4, value := 0xFFFFFFF } ∨
      st = { base := stack, offset := pgsize - 2 * 4, value := arg1 } ∨
      st = { base := stack, offset := pgsize - 1 * 4, value := arg2 } := by
  unfold clone
  rcases halloc : k.allocproc with ⟨_ | r, k1⟩
  · rw [halloc] at h
    exact absurd rfl h
  · simp

theorem allocproc_ne_none (hfind : k.findUnused ≠ none) (hfree : k.mem.free ≠ []) : k.allocproc.1 ≠ none := by
  unfold allocproc
  cases hf : k.findUnused with
  | none => exact absurd hf hfind
  | some np =>
    cases halloc : k.mem.kalloc with
    | none => exact absurd (Mem.kalloc_eq_none halloc) hfree
    | some r => simp

theorem sysClone_cases (k : Kernel) (cur : Slot) : (¬ k.ArgsFetched cur ∧ k.sysClone cur = ([], .ok (-1, k))) ∨
      (k.ArgsFetched cur ∧ ∃ fcn arg1 arg2 stack, k.argint cur 3 = some stack ∧
        k.sysClone cur = k.clone cur fcn arg1 arg2 stack) := by
  simp only [ArgsFetched, List.forall_mem_cons, sysClone]
  rcases k.argint cur 0 with _ | fcn
  · exact .inl ⟨by simp, rfl⟩
  rcases k.argint cur 1 with _ | arg1
  · exact .inl ⟨by simp, rfl⟩
  rcases k.argint cur 2 with _ | arg2
  · exact .inl ⟨by simp, rfl⟩
  rcases k.argint cur 3 with _ | stack
  · exact .inl ⟨by simp, rfl⟩
  · exact .inr ⟨by simp, fcn, arg1, arg2, stack, rfl, rfl⟩

/-- `sys_clone` writes inside the memory of its caller or is refused exactly if the page at `stack` lies there or the
call fails before it writes: an argument cannot be fetched, there is no UNUSED slot, or no page for a kernel stack. -/
theorem sysClone_confined_iff (k : Kernel) (cur : Slot) :
    Confined k cur (k.sysClone cur) ↔ ¬ k.ArgsFetched cur ∨ k.findUnused = none ∨ k.mem.free = [] ∨
      ∀ stack, k.argint cur 3 = some stack → k.StackFits cur stack := by
  rcases k.sysClone_cases cur with ⟨hargs, hcall⟩ | ⟨hargs, fcn, arg1, arg2, stack, harg, hcall⟩
  · rw [hcall]
    exact iff_of_true (confined_of_refused fun _ => Iff.rfl) (.inl hargs)
  rw [hcall]
  constructor
  · intro h
    by_contra hcond
    simp only [not_or, not_not] at hcond
    rcases hcond with ⟨_, hfind, hfree, hfits⟩
    -- The last word is written, and with it the page ends.
    have hlast := h.inside _ ((clone_stores (allocproc_ne_none hfind hfree)).2 (.inr (.inr rfl)))
    refine hfits fun stack' harg' => ?_
    obtain rfl : stack = stack' := by simpa [harg] using harg'
    simp only [Store.Inside, pgsize] at hlast
    simp only [StackFits, pgsize]
    omega
  intro hcond
  by_cases hnone : k.allocproc.1 = none
  · rw [clone_of_allocproc_none hnone]
    exact confined_of_refused (k.allocproc_spec.1 hnone).unused_iff
  have hfits : k.StackFits cur stack := by
    rcases hcond with h | h | h | h
    · exact absurd hargs h
    · exact absurd (allocproc_eq_none (.inl h)) hnone
    · exact absurd (allocproc_eq_none (.inr h)) hnone
    · exact h stack harg
  refine ⟨fun st hst => ?_, fun stack' harg' hnot => ?_⟩
  · simp only [StackFits, pgsize] at hfits
    rcases (clone_stores hnone).1 hst with rfl | rfl | rfl
    all_goals
      simp only [Store.Inside, pgsize]
      omega
  · obtain rfl : stack = stack' := by simpa [harg] using harg'
    exact absurd hfits hnot

/-! ## A stack in the kernel -/

def Mem.pointers (s : Mem) : Mem := { s with page := fun _ i => if i % 4 = 3 then 0x80 else 0 }

theorem pointers_userByte {s : Mem} {pd : PageDir} (hsized : Sized pd pgsize) (hspace : Space pd) (va : ℕ)
    (hva : va < pgsize) :
    (single (Mem.pointers s) pd pgsize).userByte ⟨0, nproc_pos⟩ va = if va % 4 = 3 then 0x80 else 0 := by
  have hk : va < kernbase := Nat.lt_trans hva (by decide)
  rcases Option.isSome_iff_exists.1 ((hsized va hk).2 (Nat.lt_of_lt_of_le hva (le_pgroundup pgsize))) with ⟨pte, hpte⟩
  have hframe := hspace.framed va hk pte hpte
  simp [userByte, single, PageDir.byte, hpte, Mem.pageAt, hframe, Mem.pointers, Nat.mod_eq_of_lt hva]

theorem pointers_argint {s : Mem} {pd : PageDir} (hsized : Sized pd pgsize) (hspace : Space pd) :
    ∀ n ∈ [(0 : UInt32), 1, 2, 3], (single (Mem.pointers s) pd pgsize).argint ⟨0, nproc_pos⟩ n = some 0x80000000 := by
  have hfetch : ∀ addr : UInt32, addr.toNat + 4 ≤ pgsize → addr.toNat % 4 = 0 →
      (single (Mem.pointers s) pd pgsize).fetchint ⟨0, nproc_pos⟩ addr = some 0x80000000 := by
    intro addr haddr hmod
    have hin : ¬ (pgsize ≤ addr.toNat ∨ pgsize < (addr + 4).toNat) := by
      have hfour : (4 : UInt32).toNat = 4 := rfl
      rw [UInt32.toNat_add, hfour]
      omega
    have hbyte := fun va => pointers_userByte (s := s) hsized hspace va
    refine (if_neg hin).trans (congrArg some ?_)
    rw [userWord, hbyte _ (by omega), hbyte _ (by omega), hbyte _ (by omega), hbyte _ (by omega), if_neg (by omega),
      if_neg (by omega), if_neg (by omega), if_pos (by omega)]
    decide
  intro n hn
  simp only [List.mem_cons, List.not_mem_nil, or_false] at hn
  rcases hn with rfl | rfl | rfl | rfl
  all_goals exact hfetch (0 + 4 + 4 * _) (by decide) (by decide)

/-- A process whose memory is full of words `0x80000000` calls `clone`: the thread is created, and its frame is written
into the kernel. -/
theorem sysClone_not_confined_kernbase : ∃ (k : Kernel) (cur : Slot) (pd : PageDir), k.Parent cur pd ∧
    Sized pd (k.proc cur).sz ∧ k.argint cur 3 = some 0x80000000 ∧ ¬ Confined k cur (k.sysClone cur) := by
  have hturns : turns 0 pgsize = 1 := by decide
  have hframes := nframes_eq
  rcases exists_space .small pgsize 1 (by decide) (by rw [hturns, hframes]; decide) with
    ⟨s, pd, hsized, hspace, hnd, hlen⟩
  have hparent : (single (Mem.pointers s) pd pgsize).Parent ⟨0, nproc_pos⟩ pd :=
    single_parent (Nat.le_refl _) (by decide) hsized hspace hnd
  have hargs := pointers_argint (s := s) hsized hspace
  refine ⟨_, _, pd, hparent, hsized, hargs 3 (by decide), fun hconf => ?_⟩
  have hunused : (single (Mem.pointers s) pd pgsize).findUnused ≠ none := by
    intro hnone
    have hslot := Process.Table.first_eq_none_iff.1 hnone ⟨1, by decide⟩
    simp [single] at hslot
  have hfree : (single (Mem.pointers s) pd pgsize).mem.free ≠ [] := List.ne_nil_of_length_pos hlen
  rcases sysClone_cases (single (Mem.pointers s) pd pgsize) ⟨0, nproc_pos⟩ with
    ⟨hnot, _⟩ | ⟨_, fcn, arg1, arg2, stack, harg, hcall⟩
  · exact hnot fun n hn => by rw [hargs n hn]; rfl
  · obtain rfl : 0x80000000 = stack := by simpa [hargs 3 (by decide)] using harg
    rw [hcall] at hconf
    have hlast := hconf.inside _ ((clone_stores (allocproc_ne_none hunused hfree)).2 (.inl rfl))
    exact absurd (show (0x80000000 : UInt32).toNat + (pgsize - 3 * 4) + 4 ≤ pgsize from hlast) (by decide)

end Kernel
end Xv6.Vm
