import Mathlib.Logic.ExistsUnique
import Xv6.Process.Kin

/-!
# Cpus — no two CPUs share a process

`scheduler` writes `c->proc` and RUNNING before it switches to a process, and the process clears
RUNNING before `sched` switches back and `scheduler` clears `c->proc`.  Both pairs of writes lie in one
critical section under `ptable.lock`, which is handed from the scheduler to the process and back.  In
every state in which the lock is free the two agree.

A kernel stack is run by the CPU that runs its process.  Two processes have different kernel stacks as
long as `kalloc` does not hand out a page that still is one.
-/

namespace Xv6.Process
namespace Kernel

open Common

variable {ncpu : ℕ}

/-- Whatever page `kalloc` returns for a kernel stack in this step, no slot has it as its own. -/
def FreshStack (s : Kernel ncpu) (a : Action ncpu) : Prop :=
  ∀ np page, s.event a = .stack np page → ∀ r, (s.proc r).kstack ≠ some page

/-- No two slots have the same kernel stack. -/
structure Stacks (s : Kernel ncpu) : Prop where
  control : s.Control
  single : ∀ p q k, (s.proc p).kstack = some k → (s.proc q).kstack = some k → p = q

/-- A kernel stack was there before the step, or has just been allocated. -/
theorem SlotStep.kstack {s : Kernel ncpu} {r : Slot} {ev : Event} {w : Kin} (h : SlotStep s r ev w)
    {k : ℕ} (hk : w.kstack = some k) : (s.proc r).kstack = some k ∨ ev = .stack r k := by
  cases h with
  | stack page hr =>
    have hpage : page = k := by simpa using hk
    exact Or.inr (hpage ▸ rfl)
  | aborted p hr => simp at hk
  | reaped p hr hparent => simp at hk
  | _ => exact Or.inl hk

theorem Stacks.step {s t : Kernel ncpu} {a : Action ncpu} (hs : s.Stacks) (hfresh : FreshStack s a)
    (h : step s a = some t) : t.Stacks := by
  refine ⟨hs.control.step h, ?_⟩
  have hslot : ∀ r k, (t.proc r).kstack = some k → (s.proc r).kstack = some k ∨ s.event a = .stack r k :=
    fun r k hk => ((kinEffect_step hs.control h).slot hs.control r).kstack hk
  intro p q k hp hq
  rcases hslot p k hp with hp' | hp' <;> rcases hslot q k hq with hq' | hq'
  · exact hs.single p q k hp' hq'
  · exact absurd hp' (hfresh q k hq' p)
  · exact absurd hq' (hfresh p k hp' q)
  · -- One step allocates one kernel stack.
    have hEq : Event.stack p k = .stack q k := hp'.symm.trans hq'
    exact (Event.stack.inj hEq).1

theorem stacks_userinit (page : ℕ) : (userinit ncpu page).Stacks := by
  refine ⟨control_userinit page, ?_⟩
  have hzero : ∀ p k, ((userinit ncpu page).proc p).kstack = some k → p = ⟨0, by decide⟩ := by
    intro p k hp
    by_contra hne
    simp [userinit, Table.claim, hne, Proc.zero] at hp
  intro p q k hp hq
  rw [hzero p k hp, hzero q k hq]

/-- Along every run, with `ptable.lock` free, a process is RUNNING exactly if exactly one CPU has it as
its `c->proc`, and no CPU has a process in any other state.  No two CPUs have the same process at any
time, and none the same kernel stack if `kalloc` never hands out a kernel stack that is in use. -/
theorem running_iff_existsUnique_cpu {s t : Kernel ncpu} {es : List (Taken _ _)}
    (hinit : (machine ncpu).init s) (hrun : (machine ncpu).Run s es t) :
    (t.lock = none → ∀ p, (t.proc p).state = .running ↔ ∃! c, t.cpu c = some p) ∧
      (t.lock = none → ∀ c p, t.cpu c = some p → (t.proc p).state = .running) ∧
      (∀ c c' p, t.cpu c = some p → t.cpu c' = some p → c = c') ∧
      ((∀ e ∈ es, FreshStack e.pre e.act) → ∀ c c' p p' k, t.cpu c = some p → t.cpu c' = some p' →
        (t.proc p).kstack = some k → (t.proc p').kstack = some k → c = c') := by
  have hcontrol : t.Control := control_of_reachable ⟨s, es, hinit, hrun⟩
  refine ⟨?_, ?_, hcontrol.single, ?_⟩
  · intro _ p
    constructor
    · intro hp
      rcases (hcontrol.onCpu p).1 hp with ⟨c, hc⟩
      exact ⟨c, hc, fun c' hc' => hcontrol.single c' c p hc' hc⟩
    · rintro ⟨c, hc, _⟩
      exact (hcontrol.onCpu p).2 ⟨c, hc⟩
  · intro _ c p hc
    exact (hcontrol.onCpu p).2 ⟨c, hc⟩
  · intro hfresh c c' p p' k hc hc' hp hp'
    rcases hinit with ⟨page, rfl⟩
    have hstacks := (hrun.invariant_of (C := FreshStack) (fun _ _ _ hs hf h => hs.step hf h)
      (stacks_userinit page) hfresh).1
    have hpp : p = p' := hstacks.single p p' k hp hp'
    exact hcontrol.single c c' p hc (hpp ▸ hc')

/-- `init` forks on CPU 0, and CPU 1 picks up the child. -/
def twoCpuRun : List (Action 2) :=
  [.schedPass 0, .resume 0, .fork 0, .kstack 0 (some 8), .setupkvm 0 true, .copyuvm 0 true,
    .publish 0, .schedPass 1, .resume 1]

theorem existsUnique_cpu_twoCpuRun :
    ∃ es t, (machine 2).Run (userinit 2 7) es t ∧ es.map Taken.act = twoCpuRun ∧
      (∃! c, t.cpu c = some ⟨0, by decide⟩) ∧ (∃! c, t.cpu c = some ⟨1, by decide⟩) := by
  have hexec : (System.execute step (userinit 2 7) twoCpuRun).map
      (fun t => decide (t.lock = none ∧ (t.proc ⟨0, by decide⟩).state = .running ∧
        (t.proc ⟨1, by decide⟩).state = .running)) = some true := by decide
  rcases Option.map_eq_some_iff.1 hexec with ⟨t, ht, hdec⟩
  rcases of_decide_eq_true hdec with ⟨hlock, hinit, hchild⟩
  rcases System.run_of_execute ht with ⟨es, hrun, hacts⟩
  have hboth := (running_iff_existsUnique_cpu ⟨7, rfl⟩ hrun).1 hlock
  exact ⟨es, t, hrun, hacts, (hboth _).1 hinit, (hboth _).1 hchild⟩

end Kernel
end Xv6.Process
