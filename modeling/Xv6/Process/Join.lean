import Xv6.Process.Records

/-!
# Join — does `join` hand back the stack of the thread?

`clone` keeps the stack it is given in `np->threadstack`, and `join` is to store it at the address that is its
argument.  But `sys_join` passes on the result of `argint` instead of the argument, and `stack = p->threadstack` in
`join` assigns the parameter.  So user memory stays as it is while `join` runs; whatever else the machine does may
write it.
-/

namespace Xv6.Process

open Common

/-- User memory, and what `clone` and `join` were called with. -/
structure Program where
  /-- The words of an address space. -/
  mem : Pgdir → ℕ → ℕ
  /-- The stack that `clone` was given for the thread in a slot. -/
  stack : Slot → Option ℕ
  /-- The address that is the argument of the last `join`. -/
  dest : Slot → ℕ

/-- An action, with what user code decides. -/
structure Move (ncpu : ℕ) where
  act : Kernel.Action ncpu
  /-- The argument of `join`. -/
  arg : ℕ
  /-- User memory after the action. -/
  mem : Pgdir → ℕ → ℕ

namespace Kernel

variable {ncpu : ℕ} {s t : Kernel ncpu} {c : Fin ncpu} {p r : Slot} {a : Move ncpu} {x y : Kernel ncpu × Program}

def noteStack (s : Kernel ncpu) (a : Action ncpu) (stack : Slot → Option ℕ) : Slot → Option ℕ :=
  match a with
  | .fork _ | .clone _ _ =>
    match s.proc.findUnused with
    | some np => Function.update stack np none
    | none => stack
  | .cloneFill c =>
    match (s.inCall c).map fun p => (s.proc p).call with
    | some (.cloneShare np k) => Function.update stack np (some k)
    | _ => stack
  | a =>
    match s.joining a with
    | some (_, r) => Function.update stack r none
    | none => stack

def noteDest (s : Kernel ncpu) (a : Move ncpu) (dest : Slot → ℕ) : Slot → ℕ :=
  match a.act with
  | .join c =>
    match s.caller c with
    | some p => Function.update dest p a.arg
    | none => dest
  | _ => dest

def noteMem (a : Move ncpu) (mem : Pgdir → ℕ → ℕ) : Pgdir → ℕ → ℕ :=
  match a.act with
  -- the loop of `join` runs
  | .join _ | .resume _ => mem
  | _ => a.mem

def noteProgram (s : Kernel ncpu) (a : Move ncpu) (m : Program) : Program where
  mem := noteMem a m.mem
  stack := noteStack s a.act m.stack
  dest := noteDest s a m.dest

def programs (ncpu : ℕ) : System (Kernel ncpu × Program) (Move ncpu) :=
  .ofStep (fun x => (machine ncpu).init x.1 ∧ ∀ r, x.2.stack r = none)
    (System.observeStep (fun s a => step s a.act) noteProgram)

/-- The kernel remembers the stacks. -/
def Remembers (x : Kernel ncpu × Program) : Prop :=
  ∀ r k, x.2.stack r = some k → (x.1.proc r).threadstack = k

theorem remembers_update {np : Slot} {o : Option ℕ} {q : Record} {m : Slot → Option ℕ} {m' : Program}
    (h : ∀ r k, m r = some k → (s.proc r).threadstack = k)
    (hrec : t.proc.records = Function.update s.proc.records np q) (hstack : m'.stack = Function.update m np o)
    (hq : ∀ k, o = some k → q.threadstack = k) : Remembers (t, m') := by
  intro r k hk
  show (t.proc.records r).threadstack = k
  rw [hstack] at hk
  rw [hrec]
  by_cases hr : r = np
  · subst hr
    rw [Function.update_self] at hk ⊢
    exact hq k hk
  · rw [Function.update_of_ne hr] at hk ⊢
    exact h r k hk

theorem Remembers.step (hx : Remembers x) (h : (programs ncpu).tr x a y) : Remembers y := by
  rcases System.observeStep_eq_some.1 h with ⟨hst, hnote⟩
  have hstack : y.2.stack = noteStack x.1 a.act x.2.stack := by
    rw [hnote]
    rfl
  -- a step that changes one record, but not the stack in it
  have hkeep : ∀ {p : Slot} {q : Record}, y.2.stack = x.2.stack →
      y.1.proc.records = Function.update x.1.proc.records p q → q.threadstack = (x.1.proc.records p).threadstack →
      Remembers y := by
    intro p q hsame hrec hq
    refine remembers_update hx hrec (o := x.2.stack p) ?_ (fun k hk => hq.trans (hx p k hk))
    rw [hsame, Function.update_eq_self]
  have hquiet : y.2.stack = x.2.stack → y.1.proc.records = x.1.proc.records → Remembers y := by
    intro hsame hrec
    refine hkeep (p := ⟨0, by decide⟩) hsame ?_ rfl
    rw [hrec, Function.update_eq_self]
  generalize ha : a.act = b at hst hstack
  generalize ht : y.1 = t at hst
  cases recorded_step hst with
  | quiet b t hb hq =>
    refine hquiet (hstack.trans ?_) (ht ▸ hq.records)
    cases b with
    | fork c =>
      have hnone : x.1.proc.findUnused = none := hb
      simp [noteStack, hnone]
    | clone c k =>
      have hnone : x.1.proc.findUnused = none := hb
      simp [noteStack, hnone]
    | cloneFill c => exact hb.elim
    | join c =>
      have hnone : x.1.joining (.join c) = none := hb
      simp [noteStack, hnone]
    | resume c =>
      have hnone : x.1.joining (.resume c) = none := hb
      simp [noteStack, hnone]
    | _ => rfl
  | pass c =>
    cases hpick : x.1.countPass.proc.pick with
    | none =>
      refine hquiet hstack ?_
      rw [ht]
      simpa [schedPass, hpick] using records_countPass x.1
    | some p =>
      refine hkeep (p := p) (q := (x.1.proc.records p).dispatch x.1.ticks) hstack ?_ rfl
      rw [ht]
      simpa [schedPass, hpick] using records_dispatch x.1 c p
  | timer c t hq => exact hquiet hstack (ht ▸ hq.records.trans (records_tick x.1 c))
  | mlfq c p hc htrap =>
    by_cases hrun : (x.1.proc p).state = .running
    · exact hkeep (p := p) (q := (x.1.proc.records p).interrupt) hstack (ht ▸ records_mlfq hrun) rfl
    · exact hquiet hstack (ht ▸ (quiet_mlfq hrun).records)
  | alloc b c p np next hb hnp =>
    refine remembers_update (o := none) hx (ht ▸ records_allocproc p next hnp) (hstack.trans ?_)
      (fun k hk => by cases hk)
    rcases hb with rfl | ⟨k, rfl⟩ <;> simp [noteStack, hnp]
  | fill c p np k hc hcall =>
    refine remembers_update (o := some k) hx (ht ▸ records_cloneFill x.1 p np k) (hstack.trans ?_)
      (fun k' hk => Option.some.inj hk)
    simp [noteStack, hc, hcall]
  | join b p r t hb hrec hticks hglobal =>
    refine remembers_update (o := none) hx (ht ▸ hrec) (hstack.trans ?_) (fun k hk => by cases hk)
    cases b with
    | join c => simp [noteStack, hb]
    | resume c => simp [noteStack, hb]
    | _ => cases hb

/-! ## The stack in user memory -/

end Kernel
end Xv6.Process
