import Xv6.Process.Mlfq

/-!
# RoundRobin — who is served next at one priority level

The comment in `scheduler` announces "Round-robin among processes at the same priority level".  Every
pass of the scan, however, starts again at slot 0.  Of two processes that stay at one level the one
in the earlier slot is dispatched whenever it is RUNNABLE; the other one waits until the earlier one
blocks.

`roundRobin_iff` says this about all segments of runs on one CPU, from any process table: `p` never
gets the CPU twice while `q` is waiting for it exactly if the slot of `q` comes first.
-/

namespace Xv6.Process

open Common

namespace Table

theorem pickAt_of_pickFrom {t : Table} {n : ℕ} {prio : ℤ} {p : Slot}
    (h : t.pickFrom n prio = some p) : ∃ prio', t.pickAt prio' = some p := by
  induction n generalizing prio with
  | zero => cases h
  | succ n ih =>
    simp only [pickFrom] at h
    cases hat : t.pickAt prio with
    | some q =>
      have hqp : some q = some p := by simpa [hat] using h
      exact ⟨prio, hat.trans hqp⟩
    | none => exact ih (by simpa [hat] using h)

theorem pick_ne_of_lt {t : Table} {p q : Slot} (hlt : q < p) (hq : (t q).state = .runnable)
    (hprio : (t p).priority = (t q).priority) : t.pick ≠ some p := by
  intro hpick
  rcases pickAt_of_pickFrom hpick with ⟨prio, hat⟩
  rcases pickAt_eq_some.1 hat with ⟨⟨_, hlevel⟩, hfirst⟩
  exact hfirst q hlt hq (hprio.symm.trans hlevel)

end Table

namespace Kernel

variable {ncpu : ℕ}

/-! ## Segments in which one process waits for another -/

def isDispatch (r : Slot) (e : Taken (Kernel ncpu) (Action ncpu)) : Bool :=
  match e.act with
  | .schedPass _ => decide ((e.pre.proc r).state = .runnable ∧ (e.post.proc r).state = .running)
  | _ => false

/-- Throughout the segment `p` and `q` have equal priorities, and `q` is RUNNABLE until it is
dispatched. -/
structure Contends (p q : Slot) (es : List (Taken (Kernel ncpu) (Action ncpu))) : Prop where
  level : ∀ e ∈ es, (e.pre.proc p).priority = (e.pre.proc q).priority ∧
    (e.post.proc p).priority = (e.post.proc q).priority
  waiting : ∀ l e l', es = l ++ e :: l' → (∀ e' ∈ l, isDispatch q e' = false) →
    (e.pre.proc q).state = .runnable

/-- Whenever `p` is dispatched twice in a segment in which `q` contends with it, `q` has been
dispatched in between. -/
def RoundRobin (ncpu : ℕ) (p q : Slot) : Prop :=
  ∀ (s t : Kernel ncpu) (e₁ e₂ : Taken (Kernel ncpu) (Action ncpu))
    (l : List (Taken (Kernel ncpu) (Action ncpu))),
    (machine ncpu).Run s (e₁ :: (l ++ [e₂])) t → Contends p q (e₁ :: (l ++ [e₂])) →
    isDispatch p e₁ = true → isDispatch p e₂ = true → ∃ e ∈ l, isDispatch q e = true

/-! ## The earlier slot waits for nobody -/

theorem priority_countPass_eq {s : Kernel ncpu} {p q : Slot} (hp : (s.proc p).state ≠ .unused)
    (hq : (s.proc q).state ≠ .unused) (h : (s.proc p).priority = (s.proc q).priority) :
    (s.countPass.proc p).priority = (s.countPass.proc q).priority := by
  unfold countPass
  split
  · simp [Table.boostAllPriorities, hp, hq]
  · exact h

theorem isDispatch_of_step {s t : Kernel ncpu} {a : Action ncpu} {r : Slot} (h : step s a = some t)
    (hr : isDispatch r { pre := s, act := a, post := t } = true) :
    ∃ c, a = .schedPass c ∧ s.countPass.proc.pick = some r := by
  cases a with
  | schedPass c =>
    have ht : t = s.schedPass c := by
      rcases step_cases h with ⟨_, hcase⟩
      cases hcase with
      | schedPass c hc hl => rfl
      | start c p a t hc h => cases h
      | call c p a t hc h => cases h
    subst ht
    have hdis : (s.proc r).state = .runnable ∧ ((s.schedPass c).proc r).state = .running := of_decide_eq_true hr
    exact ⟨c, rfl, dispatched_schedPass.1 hdis⟩
  | _ => cases hr

theorem roundRobin_of_lt {p q : Slot} (hlt : q < p) : RoundRobin ncpu p q := by
  intro s t e1 e2 l hrun hcont hp _
  -- Already the first dispatch of `p` is impossible: `q` is RUNNABLE and is found before it.
  cases hrun with
  | @cons _ u _ a _ hstep _ =>
    rcases isDispatch_of_step hstep hp with ⟨c, _, hpick⟩
    have hq : (s.proc q).state = .runnable := hcont.waiting [] _ _ rfl (by simp)
    have hprunnable : (s.proc p).state = .runnable := by
      simpa [state_countPass] using Table.pick_runnable hpick
    have hprio := (hcont.level _ List.mem_cons_self).1
    have hprio' := priority_countPass_eq (by simp [hprunnable]) (by simp [hq]) hprio
    exact absurd hpick (Table.pick_ne_of_lt hlt ((state_countPass q).trans hq) hprio')

/-! ## The later slot waits for ever -/

/-- A process that has been made RUNNABLE and has not run yet. -/
def ready : Proc := { Proc.zero with state := .runnable }

/-- Slot `p` holds `x`, slot `q` a process that is ready, and all other slots are UNUSED. -/
def duel (p q : Slot) (x : Proc) (cpu : Option Slot) (lock : Option (Fin 1)) (passes ticks : UInt32) :
    Kernel 1 :=
  { userinit 1 0 with
    proc := fun r => if r = p then x else if r = q then ready else Proc.zero
    cpu := fun _ => cpu
    lock := lock
    globalTicks := passes
    ticks := ticks }

section Duel

variable {p q : Slot} {x : Proc} {cpu : Option Slot} {lock : Option (Fin 1)} {passes ticks : UInt32}

theorem duel_proc_self : (duel p q x cpu lock passes ticks).proc p = x := by
  simp [duel]

theorem duel_proc_other (hne : p ≠ q) : (duel p q x cpu lock passes ticks).proc q = ready := by
  simp [duel, hne.symm]

theorem duel_set (f : Proc → Proc) :
    (duel p q x cpu lock passes ticks).set p f = duel p q (f x) cpu lock passes ticks := by
  have hproc : (duel p q x cpu lock passes ticks).proc.modify p f = (duel p q (f x) cpu lock passes ticks).proc := by
    funext r
    by_cases hr : r = p
    · subst hr
      simp [duel]
    · simp [duel, hr]
  simp only [set, hproc]
  rfl

/-- Nobody sleeps, so the tick wakes nobody. -/
theorem duel_tick (hx : x.state ≠ .sleeping) :
    (duel p q x cpu lock passes ticks).tick 0 = duel p q x cpu lock passes (ticks + 1) := by
  have hproc : (duel p q x cpu lock passes ticks).proc.wakeup1 .ticks =
      (duel p q x cpu lock passes (ticks + 1)).proc := by
    funext r
    by_cases hr : r = p
    · subst hr
      simp [duel, Table.wakeup1, hx]
    · by_cases hrq : r = q
      · subst hrq
        simp [duel, Table.wakeup1, hr, ready]
      · simp [duel, Table.wakeup1, hr, hrq, Proc.zero]
  simp only [tick, Fin.val_zero, if_true, wakeup]
  exact congrArg (fun t => { duel p q x cpu lock passes (ticks + 1) with proc := t }) hproc

theorem duel_pick (hlt : p < q) (hrun : x.state = .runnable) (hprio : x.priority = 0) :
    (duel p q x cpu lock passes ticks).proc.pick = some p := by
  have hzero : ∀ r, ((duel p q x cpu lock passes ticks).proc r).priority = 0 := by
    intro r
    by_cases hr : r = p
    · simp [duel, hr, hprio]
    · by_cases hrq : r = q
      · simp [duel, hrq, hlt.ne', ready, Proc.zero]
      · simp [duel, hr, hrq, Proc.zero]
  refine (Table.pick_eq_some_iff ?_).2 ⟨?_, ?_, ?_⟩
  · intro r
    rw [hzero]
    decide
  · simpa [duel_proc_self] using hrun
  · intro r _
    rw [hzero, hzero]
  · intro r hr hrr
    have hrp : r ≠ p := hr.ne
    have hrq : r ≠ q := (hr.trans hlt).ne
    simp [duel, hrp, hrq, Proc.zero] at hrr

theorem duel_schedPass (hlt : p < q) (hrun : x.state = .runnable) (hprio : x.priority = 0)
    (hpass : ¬ boostInterval ≤ passes + 1) :
    (duel p q x none none passes ticks).schedPass 0 = duel p q
        { x with
          state := .running
          timeSlices := 0
          timesScheduled := x.timesScheduled + 1
          firstRunTime := if x.firstRunTime = 0 then ticks else x.firstRunTime }
        (some p) (some 0) (passes + 1) ticks := by
  have hcount : (duel p q x none none passes ticks).countPass = duel p q x none none (passes + 1) ticks := by
    simp only [countPass]
    exact if_neg hpass
  have hcpu : Function.update (duel p q x none none (passes + 1) ticks).cpu 0 (some p) = fun _ => some p := by
    funext c
    rw [Subsingleton.elim c 0]
    simp
  simp only [schedPass, hcount, duel_pick hlt hrun hprio, dispatch, duel_set, hcpu]
  rfl

theorem duel_yield (next : Trap) : (duel p q x cpu lock passes ticks).yield 0 p next =
      duel p q { x with state := .runnable, resume := .yield, trap := next } none none passes ticks := by
  have hcpu : Function.update (duel p q x cpu lock passes ticks).cpu 0 none = fun _ => none := by
    funext c
    rw [Subsingleton.elim c 0]
    simp
  simp only [yield, duel_set, sched]
  exact congrArg (fun f => { duel p q { x with state := .runnable, resume := .yield, trap := next }
    none none passes ticks with cpu := f }) hcpu

/-- A timer interrupt of `p`. -/
theorem duel_timer (htrap : x.trap = .none) (hstate : x.state ≠ .sleeping) :
    step (duel p q x (some p) none passes ticks) (.timer 0) =
      some (duel p q { x with trap := .mlfq } (some p) none passes (ticks + 1)) := by
  have hstep : step (duel p q x (some p) none passes ticks) (.timer 0) =
      if ((duel p q x (some p) none passes ticks).proc p).trap = .none then
        some (((duel p q x (some p) none passes ticks).tick 0).set p
          (fun r => { r with trap := .mlfq }))
      else none := rfl
  rw [hstep, duel_proc_self, if_pos htrap, duel_tick hstate, duel_set]

theorem duel_mlfq (htrap : x.trap = .mlfq) (hstate : x.state = .running)
    (hslice : ¬ maxTimeSlice ≤ x.timeSlices + 1) :
    step (duel p q x (some p) none passes ticks) (.trap 0) = some (duel p q
        { x with
          totalTicks := x.totalTicks + 1
          timeSlices := x.timeSlices + 1
          trap := .tail }
        (some p) none passes ticks) := by
  have hstep : step (duel p q x (some p) none passes ticks) (.trap 0) =
      (duel p q x (some p) none passes ticks).trapStep 0 p := rfl
  simp only [hstep, trapStep, duel_proc_self, htrap, mlfq, hstate, hslice, if_true, if_false, duel_set]

theorem duel_trapYield (htrap : x.trap = .tail) (hstate : x.state = .running)
    (hkilled : x.killed = false) :
    step (duel p q x (some p) none passes ticks) (.trap 0) =
      some (duel p q { x with state := .runnable, resume := .yield, trap := .post } none none passes
        ticks) := by
  have hstep : step (duel p q x (some p) none passes ticks) (.trap 0) =
      (duel p q x (some p) none passes ticks).trapStep 0 p := rfl
  have hlock : (duel p q x (some p) none passes ticks).lock = none := rfl
  simp only [hstep, trapStep, duel_proc_self, htrap, hkilled, hstate, hlock, duel_yield, false_and,
    Bool.false_eq_true, if_true, if_false]

end Duel

def dispatchedOnce : Proc := { ready with state := .running, timesScheduled := 1 }

def ticked : Proc := { dispatchedOnce with totalTicks := 1, timeSlices := 1, trap := .tail }

def yielded : Proc := { ticked with state := .runnable, resume := .yield, trap := .post }

theorem duel_contends {p q : Slot} (hne : p ≠ q) {x y : Proc} {cpu cpu' : Option Slot}
    {lock lock' : Option (Fin 1)} {passes passes' ticks ticks' : UInt32} (hx : x.priority = 0)
    (hy : y.priority = 0) {e : Taken (Kernel 1) (Action 1)}
    (hpre : e.pre = duel p q x cpu lock passes ticks)
    (hpost : e.post = duel p q y cpu' lock' passes' ticks') :
    ((e.pre.proc p).priority = (e.pre.proc q).priority ∧
      (e.post.proc p).priority = (e.post.proc q).priority) ∧ (e.pre.proc q).state = .runnable := by
  rw [hpre, hpost, duel_proc_self, duel_proc_self, duel_proc_other hne, duel_proc_other hne, hx, hy]
  exact ⟨⟨rfl, rfl⟩, rfl⟩

/-- Between two dispatches of `p` there is one timer interrupt, and `q` is RUNNABLE all the time. -/
theorem not_roundRobin_of_lt {p q : Slot} (hlt : p < q) : ¬ RoundRobin 1 p q := by
  have hne : p ≠ q := hlt.ne
  let s0 := duel p q ready none none 0 0
  let s1 := duel p q dispatchedOnce (some p) (some 0) 1 0
  let s2 := duel p q dispatchedOnce (some p) none 1 0
  let s3 := duel p q { dispatchedOnce with trap := .mlfq } (some p) none 1 1
  let s4 := duel p q ticked (some p) none 1 1
  let s5 := duel p q yielded none none 1 1
  let s6 := duel p q { yielded with state := .running, timeSlices := 0, timesScheduled := 2,
                                    firstRunTime := 1 } (some p) (some 0) 2 1
  have h1 : step s0 (.schedPass 0) = some s1 := congrArg some (duel_schedPass hlt rfl rfl (by decide))
  have h2 : step s1 (.resume 0) = some s2 := by
    have hresume : (s1.proc p).resume = .forkret := by
      rw [duel_proc_self]
      rfl
    have hstep : step s1 (.resume 0) = some (s1.resume 0 p) := rfl
    simp only [hstep, resume, hresume]
    rfl
  have h3 : step s2 (.timer 0) = some s3 := duel_timer rfl (by decide)
  have h4 : step s3 (.trap 0) = some s4 := duel_mlfq rfl rfl (by decide)
  have h5 : step s4 (.trap 0) = some s5 := duel_trapYield rfl rfl rfl
  have h6 : step s5 (.schedPass 0) = some s6 := congrArg some (duel_schedPass hlt rfl rfl (by decide))
  intro hrr
  let e1 : Taken (Kernel 1) (Action 1) := ⟨s0, .schedPass 0, s1⟩
  let e2 : Taken (Kernel 1) (Action 1) := ⟨s5, .schedPass 0, s6⟩
  let l : List (Taken (Kernel 1) (Action 1)) :=
    [⟨s1, .resume 0, s2⟩, ⟨s2, .timer 0, s3⟩, ⟨s3, .trap 0, s4⟩, ⟨s4, .trap 0, s5⟩]
  have hrun : (machine 1).Run s0 (e1 :: (l ++ [e2])) s6 :=
    .cons h1 (.cons h2 (.cons h3 (.cons h4 (.cons h5 (.cons h6 (.nil s6))))))
  have hall : ∀ e ∈ e1 :: (l ++ [e2]), ((e.pre.proc p).priority = (e.pre.proc q).priority ∧
      (e.post.proc p).priority = (e.post.proc q).priority) ∧ (e.pre.proc q).state = .runnable := by
    intro e he
    simp only [l, List.cons_append, List.nil_append, List.mem_cons, List.not_mem_nil, or_false] at he
    rcases he with rfl | rfl | rfl | rfl | rfl | rfl <;> exact duel_contends hne rfl rfl rfl rfl
  have hcont : Contends p q (e1 :: (l ++ [e2])) := by
    refine ⟨fun e he => (hall e he).1, ?_⟩
    intro k e k' hk _
    exact (hall e (by rw [hk]; simp)).2
  have hd1 : isDispatch p e1 = true := by
    simp [isDispatch, e1, s0, s1, duel_proc_self, ready, dispatchedOnce]
  have hd2 : isDispatch p e2 = true := by
    simp [isDispatch, e2, s5, s6, duel_proc_self, yielded]
  rcases hrr s0 s6 e1 e2 l hrun hcont hd1 hd2 with ⟨e, he, hdis⟩
  simp only [l, List.mem_cons, List.not_mem_nil, or_false] at he
  rcases he with rfl | rfl | rfl | rfl <;> cases hdis

/-- On one CPU, round-robin holds for exactly the pairs in which the waiting process has the earlier
slot. -/
theorem roundRobin_iff {p q : Slot} (hne : p ≠ q) : RoundRobin 1 p q ↔ q < p := by
  constructor
  · intro hrr
    rcases lt_or_gt_of_ne hne with hlt | hgt
    · exact absurd hrr (not_roundRobin_of_lt hlt)
    · exact hgt
  · exact roundRobin_of_lt

theorem roundRobin_one_zero : RoundRobin 1 ⟨1, by decide⟩ ⟨0, by decide⟩ := (roundRobin_iff (by decide)).2 (by decide)

/-- `init` (slot 0) forks a child (slot 1) and gives up the CPU at the next tick. -/
def forkRun : List (Action 1) :=
  [.schedPass 0, .resume 0, .fork 0, .kstack 0 (some 8), .setupkvm 0 true, .copyuvm 0 true,
    .publish 0, .timer 0, .trap 0, .trap 0]

/-- From there on: `init` is dispatched, returns to user space, and is dispatched again after the
next tick. -/
def overtakingRun : List (Action 1) :=
  [.schedPass 0, .resume 0, .trap 0, .timer 0, .trap 0, .trap 0, .schedPass 0]

/-- The child is RUNNABLE at the same priority all the time and is not dispatched. -/
theorem overtaken_forkRun : ∃ s es t, (machine 1).Reachable s ∧ (machine 1).Run s es t ∧
      es.map Taken.act = overtakingRun ∧
      Contends ⟨0, by decide⟩ ⟨1, by decide⟩ es ∧ es.countP (isDispatch ⟨0, by decide⟩) = 2 ∧
      es.countP (isDispatch ⟨1, by decide⟩) = 0 := by
  have hcheck : (System.execute step (userinit 1 7) forkRun).bind (fun s =>
      (System.trace step s overtakingRun).map (fun r =>
        decide (r.1.map Taken.act = overtakingRun ∧
          (∀ e ∈ r.1, ((e.pre.proc ⟨0, by decide⟩).priority = (e.pre.proc ⟨1, by decide⟩).priority ∧
            (e.post.proc ⟨0, by decide⟩).priority = (e.post.proc ⟨1, by decide⟩).priority) ∧
            (e.pre.proc ⟨1, by decide⟩).state = .runnable) ∧
          r.1.countP (isDispatch ⟨0, by decide⟩) = 2 ∧
          r.1.countP (isDispatch ⟨1, by decide⟩) = 0))) = some true := by
    decide
  rcases Option.bind_eq_some_iff.1 hcheck with ⟨s, hs, hrest⟩
  rcases Option.map_eq_some_iff.1 hrest with ⟨r, hr, hall⟩
  rcases of_decide_eq_true hall with ⟨hacts, hcont, htwice, hnever⟩
  rcases System.run_of_execute hs with ⟨es₀, hrun₀, _⟩
  refine ⟨s, r.1, r.2, ⟨_, es₀, ⟨7, rfl⟩, hrun₀⟩, System.run_of_trace hr, hacts, ?_, htwice, hnever⟩
  refine ⟨fun e he => (hcont e he).1, ?_⟩
  intro l e l' hl _
  exact (hcont e (by rw [hl]; simp)).2

end Kernel
end Xv6.Process
