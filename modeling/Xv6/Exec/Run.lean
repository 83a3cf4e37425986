import Xv6.Exec.Stack

/-!
# Run — the whole of `exec`

`exec_spec` puts the parts together: every way through `exec` ends with the new program in place, or with everything as it
was.  It never panics.  Only an argument that is longer than the new address space can make `copyout` read through a null
pointer, and `exec_copyout` is about the directories it may do this in.
-/

namespace Xv6.Exec

open Common Vm PageDir

/-! ## What `exec` does -/

def imageSize (file : Contents) (elf : Elfhdr) : ℕ :=
  pgroundup (extent (loadable (headers file elf.phnum elf.phoff))) + 2 * pgsize

/-- The caller: its address space consists of pages that are not free, and it does not hold the inode. -/
structure Ready (st : State) : Prop where
  space : Space st.proc.pgdir
  nodup : (st.proc.pgdir.owned + st.mem.free).Nodup
  unlocked : st.locked = false

/-- The process is what it was before, and so is the memory. -/
structure Abandoned (st st' : State) : Prop where
  proc : st'.proc = st.proc
  free : (st'.mem.free : Multiset Frame) = st.mem.free
  page : ∀ f, f ∉ st.mem.free → st'.mem.page f = st.mem.page f

/-- The inode has been put and the transaction ended. -/
structure Released (st st' : State) : Prop where
  ref : st'.ref = st.ref - 1
  locked : st'.locked = false
  begun : st'.begun = st.begun
  ended : st'.ended = st.ended + 1

/-- The new program is in place. -/
structure Entered (file : Contents) (elf : Elfhdr) (argv : List CString) (st : State) : Prop where
  readable : (headers file elf.phnum elf.phoff).length = elf.phnum
  sound : ∀ ph ∈ loadable (headers file elf.phnum elf.phoff), Sound file ph
  holds : Holds st.proc.pgdir st.mem (extent (loadable (headers file elf.phnum elf.phoff)))
    (image file (loadable (headers file elf.phnum elf.phoff)))
  size : st.proc.sz = imageSize file elf
  guard : ∀ va, InGuard st.proc.sz va → ¬ Accessible st.proc.pgdir va
  entry : st.proc.tf.eip = UInt32.ofNat elf.entry
  frame : ∃ ptrs, StackFrame st.proc.pgdir st.mem st.proc.sz st.proc.tf.esp.toNat argv ptrs

section

variable {st : State} {file : Contents} {elf : Elfhdr} {argv : List CString} {bad : Panic → Prop}

/-- A directory that has been given up. -/
theorem Abandoned.of_freed {s : Mem} {st' : State} (hproc : st'.proc = st.proc) (hmem : st'.mem = s)
    (h : (s.free : Multiset Frame) = st.mem.free ∧ ∀ f, f ∉ st.mem.free → s.page f = st.mem.page f) :
    Abandoned st st' := by
  subst hmem
  exact ⟨hproc, h.1, h.2⟩

theorem Stacked.commit {s s' : Mem} {pd old : PageDir} {top : ℕ} (h : Stacked st.mem s pd top)
    (hnd : (old.owned + st.mem.free).Nodup) (hfree : (s'.free : Multiset Frame) = old.owned + s.free)
    (hpage : ∀ f, f ∉ s'.free → s'.page f = s.page f) {va : ℕ} (hva : va < kernbase) :
    pd.byte s' va = pd.byte s va := by
  refine h.space.byte_congr hva rfl fun f hf => hpage f ?_
  have hnew : (old.owned + (pd.owned + s.free)).Nodup := by
    rw [h.owned]
    exact hnd
  rw [← Multiset.mem_coe, hfree, Multiset.mem_add]
  rintro (hold | hleft)
  · refine Multiset.disjoint_left.1 (Multiset.nodup_add.1 hnew).2.2 hold ?_
    rw [Multiset.mem_add]
    exact .inl hf
  · exact not_mem_free (Multiset.nodup_add.1 hnew).2.1 hf hleft

theorem execImage_spec (data : DataSymbol) (st : State) (path : List UInt8) (hsp : Space st.proc.pgdir)
    (hnd : (st.proc.pgdir.owned + st.mem.free).Nodup)
    (hnull : bad .nullPte → ∀ arg ∈ argv, arg.1.length < imageSize file elf - pgsize) :
    Ensures bad (execImage data st path file elf argv) fun r => Released st r.2 ∧
      ((r.1 = -1 ∧ Abandoned st r.2) ∨ (r.1 = 0 ∧ Entered file elf argv r.2)) := by
  have hfree : st.mem.free.Nodup := (Multiset.nodup_add.1 hnd).2.1
  refine ((setupkvm_spec data st.mem).weaken fun _ _ => trivial).bind fun r hr => ?_
  rcases r with ⟨_ | pd, s⟩
  · exact .ok ⟨⟨rfl, rfl, rfl, rfl⟩, .inl ⟨rfl, .of_freed rfl rfl (hr.1 rfl).2⟩⟩
  have hstart := Progress.nil (hr.2 pd rfl).1 file
  refine ((loadSegments_spec hfree hstart).weaken fun _ _ => trivial).bind fun r hr => ?_
  rw [List.nil_append] at hr
  rcases r with ⟨_ | sz, pd1, s1⟩
  · rcases hr with ⟨_, sz', hb⟩ | ⟨hr, _⟩
    · refine (hb.freevm.weaken fun _ _ => trivial).bind fun s2 hs2 => .ok ?_
      exact ⟨⟨rfl, rfl, rfl, rfl⟩, .inl ⟨rfl, .of_freed rfl rfl hs2⟩⟩
    · cases hr
  rcases hr with ⟨hr, _⟩ | ⟨hr, hp, hread⟩
  · cases hr
  obtain rfl : sz = extent (loadable (headers file elf.phnum elf.phoff)) := by simpa using hr
  have hshort : bad .nullPte → ∀ arg ∈ argv,
      arg.1.length + 1 ≤ pgroundup (extent (loadable (headers file elf.phnum elf.phoff))) + pgsize := by
    intro hb arg harg
    have hlen := hnull hb arg harg
    simp only [imageSize] at hlen
    omega
  refine (buildStack_spec hfree hp.building hshort).bind fun r hr => ?_
  rcases r with ⟨_ | ⟨top, esp⟩, pd2, s2⟩
  · rcases hr.1 with ⟨sz', hb⟩
    refine (hb.freevm.weaken fun _ _ => trivial).bind fun s3 hs3 => .ok ?_
    exact ⟨⟨rfl, rfl, rfl, rfl⟩, .inl ⟨rfl, .of_freed rfl rfl hs3⟩⟩
  -- The new program; only the old directory is left to be freed.
  rcases hr.2 top esp rfl with ⟨htop, hst, hbytes, ptrs, hframe⟩
  refine ((freevm_spec s2 hsp).weaken fun _ _ => trivial).bind fun s3 hs3 => .ok ?_
  have hsame : ∀ va < kernbase, pd2.byte s3 va = pd2.byte s2 va := fun va hva =>
    hst.commit hnd hs3.1 hs3.2 hva
  have hlt := hst.lt
  have hspace := kernbase_lt_addrSpace
  have hpg : pgsize = 4096 := rfl
  have hend := hframe.below
  have hesp : (UInt32.ofNat esp).toNat = esp := by
    rw [UInt32.toNat_ofNat', Nat.mod_eq_of_lt]
    exact Nat.lt_of_le_of_lt (Nat.le_of_add_right_le hend) (Nat.lt_trans hlt hspace)
  refine ⟨⟨rfl, rfl, rfl, rfl⟩, .inr ⟨rfl, hread, hp.sound, fun va hva => ?_, htop, hst.guard, rfl, ptrs, ?_⟩⟩
  · have hk : va < kernbase := by
      dsimp only at hbytes htop
      omega
    rw [← hp.holds va hva, ← hbytes va hva]
    exact hsame va hk
  · dsimp only
    rw [hesp]
    exact hframe.congr (Nat.le_of_lt hlt) hsame

/-- The inode and the log after a call. -/
structure Balanced (st st' : State) : Prop where
  ref : st'.ref = st.ref
  locked : st'.locked = false
  begun : st'.begun = st.begun + 1
  ended : st'.ended = st.ended + 1

theorem exec_spec (bad : Panic → Prop) (data : DataSymbol) (path : List UInt8) (file : Option Contents)
    (argv : List CString) (h : Ready st)
    (hnull : bad .nullPte → ∀ f elf, file = some f → checkHeader f = some elf →
      ∀ arg ∈ argv, arg.1.length < imageSize f elf - pgsize) :
    Ensures bad (exec data st path file argv) fun r => Balanced st r.2 ∧ ((r.1 = -1 ∧ Abandoned st r.2) ∨
        (r.1 = 0 ∧ ∃ f elf, file = some f ∧ checkHeader f = some elf ∧ Entered f elf argv r.2)) := by
  unfold exec
  cases file with
  | none => exact .ok ⟨⟨rfl, h.unlocked, rfl, rfl⟩, .inl ⟨rfl, rfl, rfl, fun _ _ => rfl⟩⟩
  | some f =>
    dsimp only
    cases hcheck : checkHeader f with
    | none => exact .ok ⟨⟨rfl, rfl, rfl, rfl⟩, .inl ⟨rfl, rfl, rfl, fun _ _ => rfl⟩⟩
    | some elf =>
      refine (execImage_spec data st.beginOp.openFile path h.space h.nodup fun hb =>
        hnull hb f elf rfl hcheck).mono fun r hr => ?_
      rcases hr with ⟨hrel, hcase⟩
      refine ⟨⟨hrel.ref, hrel.locked, hrel.begun, hrel.ended⟩, hcase.imp ?_ ?_⟩
      · rintro ⟨hr, hab⟩
        exact ⟨hr, hab.proc, hab.free, hab.page⟩
      · rintro ⟨hr, hen⟩
        exact ⟨hr, f, elf, rfl, hcheck, hen⟩

end

/-! ## A program without segments -/

theorem length_emptyElf : ([0x7f, 0x45, 0x4c, 0x46] ++ List.replicate 48 0 : List UInt8).length < addrSpace := by
  decide

def emptyElf : Contents := ⟨[0x7f, 0x45, 0x4c, 0x46] ++ List.replicate 48 0, length_emptyElf⟩

section

variable {s0 s : Mem} {pd : PageDir} {sz : ℕ}

theorem exists_setup (data : DataSymbol) (hmem : nentries + 3 ≤ s0.free.length) :
    ∃ pd s, setupkvm data s0 = .ok (some pd, s) ∧ Building s0 s pd 0 ∧ pd.missing + 2 ≤ s.free.length := by
  rcases (setupkvm_spec data s0).exists_ok fun _ => trivial with ⟨⟨_ | pd, s⟩, hrun, hnone, hsome⟩
  · have hlen := (hnone rfl).1
    omega
  · rcases hsome pd rfl with ⟨hfresh, henough⟩
    exact ⟨pd, s, hrun, .setup hfresh, henough 2 (by omega)⟩

/-- With enough memory there is a place for the stack. -/
theorem Building.exists_stack (h : Building s0 s pd sz) (hnd : s0.free.Nodup)
    (hsz : pgroundup sz + 2 * pgsize < kernbase) (hmem : pd.missing + 2 ≤ s.free.length) :
    ∃ top pd1 s1 pd2, allocuvm s pd (pgroundup sz) (pgroundup sz + 2 * pgsize) = .ok (top, pd1, s1) ∧ top ≠ 0 ∧
      clearpteu pd1 (top - 2 * pgsize) = .ok pd2 ∧ Stacked s0 s1 pd2 top := by
  rcases (h.allocStack hnd).exists_ok fun _ => trivial with ⟨⟨top, pd1, s1⟩, hrun, hcase⟩
  have hpg : pgsize = 4096 := rfl
  rcases hcase with ⟨_, hreason, _⟩ | ⟨htop, hb, _⟩
  · omega
  have hmod := stackTop_mod sz
  rw [← htop] at hmod
  dsimp only at htop hb hmod
  rcases (hb.clear (by omega) hmod).exists_ok fun _ => trivial with ⟨pd2, hclear, _, hst⟩
  exact ⟨top, pd1, s1, pd2, hrun, by omega, hclear, hst⟩

theorem exists_ready (n : ℕ) (hn : nentries + 1 + n ≤ nframes) : ∃ st, Ready st ∧ n ≤ st.mem.free.length := by
  have hturns : turns 0 0 = 0 := by decide
  rcases exists_space .small 0 n (by decide) (by omega) with ⟨s, pd, _, hspace, hnd, hlen⟩
  let proc : Caller :=
    { sz := 0
      pgdir := pd
      tf := { eax := 0, ebp := 0, eip := 0, esp := 0, rest := fun _ => 0 }
      name := [] }
  exact ⟨{ mem := s, proc := proc, ref := 0, locked := false, begun := 0, ended := 0 }, ⟨hspace, hnd, rfl⟩, hlen⟩

end

/-! ## Failure and success -/

/-- The outcome `m` of `exec` is no panic, and after a failure everything is as before: the process and its memory, the
free pages and the inode. -/
def FailsAtomically (st : State) (m : Except Panic (ℤ × State)) : Prop :=
  ∃ r st', m = .ok (r, st') ∧ (r = 0 ∨ r = -1) ∧
    (r = -1 → st'.proc = st.proc ∧
      (∀ va < kernbase, st.proc.pgdir.byte st'.mem va = st.proc.pgdir.byte st.mem va) ∧
      (st'.mem.free : Multiset Frame) = st.mem.free ∧ st'.ref = st.ref ∧ st'.locked = false ∧
      st'.begun = st.begun + 1 ∧ st'.ended = st.ended + 1)

/-- Whatever the file holds and however much memory there is: `exec` does not panic, and if it fails everything is as
before. -/
theorem exec_atomic (data : DataSymbol) (st : State) (path : List UInt8) (file : Option Contents) (argv : List CString)
    (h : Ready st)
    (hshort : ∀ f elf, file = some f → checkHeader f = some elf → ∀ arg ∈ argv, arg.1.length < imageSize f elf - pgsize) :
    FailsAtomically st (exec data st path file argv) := by
  have hspec := exec_spec (fun _ => True) data path file argv h fun _ => hshort
  rcases hspec.exists_ok fun _ => trivial with ⟨⟨r, st'⟩, hrun, hbal, hcase⟩
  refine ⟨r, st', hrun, ?_, fun hr => ?_⟩
  · rcases hcase with ⟨hr, _⟩ | ⟨hr, _⟩
    · exact .inr hr
    · exact .inl hr
  rcases hcase with ⟨_, hab⟩ | ⟨hr', _⟩
  · refine ⟨hab.proc, fun va hva => ?_, hab.free, hbal.ref, hbal.locked, hbal.begun, hbal.ended⟩
    exact h.space.byte_congr hva rfl fun f hf => hab.page f (not_mem_free h.nodup hf)
  · dsimp only at hr'
    omega

/-- There are such calls. -/
theorem exec_atomic_emptyElf : ∃ st : State, Ready st ∧ FailsAtomically st (exec .small st [] (some emptyElf) []) := by
  have hframes := nframes_eq
  rcases exists_ready 0 (by rw [hframes]; decide) with ⟨st, h, _⟩
  exact ⟨st, h, exec_atomic .small st [] (some emptyElf) [] h (by simp)⟩

end Xv6.Exec
