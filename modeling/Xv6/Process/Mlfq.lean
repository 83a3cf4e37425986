import Xv6.Process.Sched

/-!
# Mlfq — what the scheduler selects, and who is demoted

Two results about whole runs of the machine, on any number of CPUs:

* `schedPass_selects` — every slot has its priority in `[0, NPRIO)`, and a pass of `scheduler`
  dispatches exactly one process if one is RUNNABLE, of the best priority there is;
* `not_demoted` — a process that has used up `MAX_TIME_SLICE` ticks stays where it is.  The counter
  `time_slices` is reset by `scheduler` at every dispatch, and the `yield()` at the end of `trap`
  makes every tick the last one before the next dispatch.
-/

namespace Xv6.Process

open Common

/-! ## One slot -/

variable {q q' : Proc}

theorem SchedStep.inRange (h : SchedStep q q') (hq : 0 ≤ q.priority ∧ q.priority < nprio) :
    0 ≤ q'.priority ∧ q'.priority < nprio := by
  have hzero : (0 : ℤ) ≤ 0 ∧ (0 : ℤ) < nprio := by decide
  cases h with
  | same h => simpa [h.priority] using hq
  | reset hprio hslice htrap hstate => simpa [hprio] using hzero
  | dispatch hprio hslice htrap =>
    rcases hprio with hprio | hprio
    · simpa [hprio] using hq
    · simpa [hprio] using hzero
  | stop hprio htrap hstate => simpa [hprio] using hq
  | timer hprio hslice hold htrap hstate => simpa [hprio] using hq
  | tick hprio htrap => simpa [hprio] using hq
  | demote hold hrun hslice hprio =>
    rw [hprio]
    split_ifs
    · omega
    · exact hq
  | handler hprio hslice htrap hstate => simpa [hprio] using hq

/-- The process is not inside the `yield()` of the MLFQ logic, and if it is RUNNING it has used no
tick since it was dispatched, unless it is about to give up the CPU for it. -/
structure Proc.Fresh (q : Proc) : Prop where
  trap : q.trap ≠ .demoted
  slices : q.state = .running → q.trap = .none ∨ q.trap = .mlfq ∨ q.trap = .post → q.timeSlices = 0

/-- A process that is `Fresh` does not find its time slice used up. -/
theorem Proc.Fresh.not_used_up (hq : q.Fresh) (htrap : q.trap = .mlfq) (hrun : q.state = .running) :
    ¬ maxTimeSlice ≤ q.timeSlices + 1 := by
  have hzero : q.timeSlices = 0 := hq.slices hrun (Or.inr (Or.inl htrap))
  rw [hzero]
  decide

theorem SchedStep.fresh (h : SchedStep q q') (hq : q.Fresh) : q'.Fresh := by
  cases h with
  | same h =>
    refine ⟨by simpa [h.trap] using hq.trap, ?_⟩
    intro hrun htrap
    rw [h.timeSlices]
    exact hq.slices (h.state hrun) (by simpa [h.trap] using htrap)
  | reset hprio hslice htrap hstate => exact ⟨by simpa [htrap] using hq.trap, fun _ _ => hslice⟩
  | dispatch hprio hslice htrap => exact ⟨by simpa [htrap] using hq.trap, fun _ _ => hslice⟩
  | stop hprio htrap hstate =>
    refine ⟨?_, fun hrun => absurd hrun hstate⟩
    rcases htrap with htrap | htrap
    · simpa [htrap] using hq.trap
    · exact htrap
  | timer hprio hslice hold htrap hstate =>
    refine ⟨by simp [htrap], ?_⟩
    intro hrun _
    rw [hslice]
    exact hq.slices (hstate hrun) (Or.inl hold)
  | tick hprio htrap => exact ⟨by simp [htrap], by simp [htrap]⟩
  | demote hold hrun hslice hprio => exact absurd hslice (hq.not_used_up hold hrun)
  | handler hprio hslice htrap hstate =>
    rcases htrap with htrap | htrap | ⟨hold, htrap⟩
    · exact ⟨by simp [htrap], by simp [htrap]⟩
    · exact ⟨by simp [htrap], by simp [htrap]⟩
    -- back from the final `yield()`, so dispatched since
    refine ⟨by simp [htrap], ?_⟩
    intro hrun _
    rw [hslice]
    exact hq.slices (hstate hrun) (Or.inr (Or.inr hold))

theorem SchedStep.priority_of_fresh (h : SchedStep q q') (hq : q.Fresh) :
    q'.priority = q.priority ∨ q'.priority = 0 := by
  cases h with
  | same h => exact Or.inl h.priority
  | reset hprio hslice htrap hstate => exact Or.inr hprio
  | dispatch hprio hslice htrap => exact hprio
  | stop hprio htrap hstate => exact Or.inl hprio
  | timer hprio hslice hold htrap hstate => exact Or.inl hprio
  | tick hprio htrap => exact Or.inl hprio
  | demote hold hrun hslice hprio => exact absurd hslice (hq.not_used_up hold hrun)
  | handler hprio hslice htrap hstate => exact Or.inl hprio

namespace Kernel

variable {ncpu : ℕ}

/-! ## Whole runs -/

theorem userinit_sched (page : ℕ) (p : Slot) :
    ((userinit ncpu page).proc p).priority = 0 ∧ ((userinit ncpu page).proc p).Fresh := by
  by_cases h0 : p = ⟨0, by decide⟩
  · subst h0
    refine ⟨?_, ?_, ?_⟩ <;> simp [userinit, Table.claim, Proc.zero]
  · refine ⟨?_, ?_, ?_⟩ <;> simp [userinit, Table.claim, h0, Proc.zero]

/-- What holds of the scheduling fields in every reachable state. -/
structure Scheduled (s : Kernel ncpu) : Prop where
  control : s.Control
  inRange : s.proc.InRange
  fresh : ∀ p, (s.proc p).Fresh

variable {s : Kernel ncpu}

theorem Scheduled.step {t : Kernel ncpu} {a : Action ncpu} (hs : s.Scheduled) (h : step s a = some t) : t.Scheduled :=
  have hslot := schedStep_step hs.control h
  ⟨hs.control.step h, fun p => (hslot p).inRange (hs.inRange p), fun p => (hslot p).fresh (hs.fresh p)⟩

theorem scheduled_of_reachable (h : (machine ncpu).Reachable s) : s.Scheduled := by
  refine h.invariant ?_ ?_
  · rintro s ⟨page, rfl⟩
    refine ⟨control_userinit page, ?_, fun p => (userinit_sched page p).2⟩
    intro p
    rw [(userinit_sched page p).1]
    decide
  · intro s a t hs hst
    exact hs.step hst

/-- Along any stretch of a run a priority only ever changes back to the top level. -/
theorem Scheduled.priority_of_run {t : Kernel ncpu} {es : List (Taken (Kernel ncpu) (Action ncpu))}
    (hs : s.Scheduled) (h : (machine ncpu).Run s es t) (p : Slot) :
    (t.proc p).priority = (s.proc p).priority ∨ (t.proc p).priority = 0 := by
  have hinv := h.invariant (P := fun u => u.Scheduled ∧
    ((u.proc p).priority = (s.proc p).priority ∨ (u.proc p).priority = 0)) ?_ ⟨hs, Or.inl rfl⟩
  · exact hinv.1.2
  intro u a v hu hst
  refine ⟨hu.1.step hst, ?_⟩
  rcases (schedStep_step hu.1.control hst p).priority_of_fresh (hu.1.fresh p) with hprio | hprio
  · rw [hprio]
    exact hu.2
  · exact Or.inr hprio

/-! ## What a pass of the scheduler selects -/

def Dispatched (s t : Kernel ncpu) (p : Slot) : Prop :=
  (s.proc p).state = .runnable ∧ (t.proc p).state = .running

theorem state_countPass (p : Slot) :
    (s.countPass.proc p).state = (s.proc p).state := by
  unfold countPass
  split
  · by_cases h : (s.proc p).state = .unused <;> simp [Table.boostAllPriorities, h]
  · rfl

theorem inRange_countPass (h : s.proc.InRange) : s.countPass.proc.InRange := by
  intro p
  rcases schedStep_countPass s p with hsame | ⟨hprio, _⟩
  · simpa [hsame.priority] using h p
  · rw [hprio]
    decide

/-- A pass switches to the process the nested scan finds, and to no other. -/
theorem dispatched_schedPass {c : Fin ncpu} {p : Slot} :
    Dispatched s (s.schedPass c) p ↔ s.countPass.proc.pick = some p := by
  cases hpick : s.countPass.proc.pick with
  | none =>
    have hsame : s.schedPass c = s.countPass := by simp [schedPass, hpick]
    simp only [Dispatched, hsame, state_countPass, reduceCtorEq, iff_false]
    rintro ⟨hrunnable, hrunning⟩
    simp [hrunnable] at hrunning
  | some q =>
    have hpass : s.schedPass c = s.countPass.dispatch c q := by simp [schedPass, hpick]
    have hq : (s.proc q).state = .runnable := by
      simpa [state_countPass] using Table.pick_runnable hpick
    by_cases hp : p = q
    · subst hp
      simp [Dispatched, hpass, dispatch, set, hq]
    · have hqp : some q ≠ some p := fun hEq => hp (Option.some.inj hEq).symm
      simp only [Dispatched, hpass, dispatch, set, Table.modify_of_ne _ hp, state_countPass, hqp, iff_false]
      rintro ⟨hrunnable, hrunning⟩
      simp [hrunnable] at hrunning

/-- In every reachable state all priorities lie in `[0, NPRIO)`, and a pass of `scheduler` dispatches
exactly one process if some process is RUNNABLE and none otherwise; no RUNNABLE process has a
smaller priority value than the dispatched one, after the boost if there is one. -/
theorem schedPass_selects {s : Kernel ncpu} (hs : (machine ncpu).Reachable s) :
    (∀ p, 0 ≤ (s.proc p).priority ∧ (s.proc p).priority < nprio) ∧
    ∀ c t, step s (.schedPass c) = some t → ((∃ q, (s.proc q).state = .runnable) → ∃! p, Dispatched s t p) ∧
      ((∀ q, (s.proc q).state ≠ .runnable) → ∀ p, ¬ Dispatched s t p) ∧
      ∀ p, Dispatched s t p → t.cpu c = some p ∧ ∀ q, (s.proc q).state = .runnable →
        (s.countPass.proc p).priority ≤ (s.countPass.proc q).priority := by
  have hrange := (scheduled_of_reachable hs).inRange
  have hrange' := inRange_countPass hrange
  refine ⟨hrange, ?_⟩
  intro c t hstep
  have ht : t = s.schedPass c := by
    rcases step_cases hstep with ⟨_, hcase⟩
    cases hcase with
    | schedPass c hc hl => rfl
    | start c p a t hc h => cases h
    | call c p a t hc h => cases h
  subst ht
  refine ⟨?_, ?_, ?_⟩
  · rintro ⟨q, hq⟩
    cases hpick : s.countPass.proc.pick with
    | none => exact absurd ((state_countPass q).trans hq) ((Table.pick_eq_none_iff hrange').1 hpick q)
    | some p =>
      refine ⟨p, dispatched_schedPass.2 hpick, ?_⟩
      intro r hr
      exact Option.some.inj ((dispatched_schedPass.1 hr).symm.trans hpick)
  · intro hnone p hp
    exact hnone p hp.1
  · intro p hp
    have hpick := dispatched_schedPass.1 hp
    refine ⟨by simp [schedPass, hpick, dispatch], ?_⟩
    intro q hq
    exact ((Table.pick_eq_some_iff hrange').1 hpick).best q ((state_countPass q).trans hq)

theorem schedPass_selects_userinit : (machine 1).Reachable (userinit 1 7) ∧
      ∃! p, Dispatched (userinit 1 7) ((userinit 1 7).schedPass 0) p := by
  have hinit : (machine 1).Reachable (userinit 1 7) := System.Reachable.of_init ⟨7, rfl⟩
  exact ⟨hinit, ((schedPass_selects hinit).2 0 _ rfl).1 ⟨⟨0, by decide⟩, rfl⟩⟩

/-! ## Demotion -/

def isTick (p : Slot) (e : Taken (Kernel ncpu) (Action ncpu)) : Bool :=
  match e.act with
  | .trap c => decide (e.pre.current c = some p ∧ (e.pre.proc p).state = .running ∧
      (e.pre.proc p).trap = .mlfq)
  | _ => false

def isBoost (e : Taken (Kernel ncpu) (Action ncpu)) : Bool :=
  match e.act with
  | .schedPass _ => decide (boostInterval ≤ e.pre.globalTicks + 1)
  | _ => false

/-- From `s`, where `p` is at priority `k` above the lowest level, the steps `es` bring `p`
`MAX_TIME_SLICE` timer interrupts while it is RUNNING, the last one as their last step; meanwhile `p`
does not sleep and there is no boost. -/
structure FullSlice (p : Slot) (k : ℤ) (s : Kernel ncpu)
    (es : List (Taken (Kernel ncpu) (Action ncpu))) : Prop where
  level : (s.proc p).priority = k
  notLowest : k < nprio - 1
  ticks : (es.countP (isTick p) : ℤ) = maxTimeSlice
  last : es.getLast?.any (isTick p) = true
  awake : ∀ e ∈ es, (e.pre.proc p).state = .running → (e.post.proc p).state ≠ .sleeping
  noBoost : ∀ e ∈ es, isBoost e = false

/-- A process that uses up its time slice is not demoted, in no run at all. -/
theorem not_demoted {s t : Kernel ncpu} {es : List (Taken (Kernel ncpu) (Action ncpu))}
    {p : Slot} {k : ℤ} (hs : (machine ncpu).Reachable s) (h : (machine ncpu).Run s es t)
    (hslice : FullSlice p k s es) : ¬ k + 1 ≤ (t.proc p).priority := by
  have hsched := scheduled_of_reachable hs
  have hk := hslice.level
  have hnonneg := (hsched.inRange p).1
  rcases hsched.priority_of_run h p with hprio | hprio <;> omega

/-- One timer interrupt of the only process: it is counted, `trap` yields, and `scheduler` switches
back at once. -/
def tickRound : List (Action 1) :=
  [.timer 0, .trap 0, .trap 0, .schedPass 0, .resume 0, .trap 0]

/-- `init` runs until its fourth tick has been counted. -/
def fourTicks : List (Action 1) :=
  [.schedPass 0, .resume 0] ++ tickRound ++ tickRound ++ tickRound ++ [.timer 0, .trap 0]

theorem fullSlice_fourTicks :
    ∃ es t, System.trace step (userinit 1 7) fourTicks = some (es, t) ∧
      FullSlice ⟨0, by decide⟩ 0 (userinit 1 7) es ∧ (t.proc ⟨0, by decide⟩).priority = 0 := by
  have hcheck : (System.trace step (userinit 1 7) fourTicks).map (fun r =>
      decide (((userinit 1 7).proc ⟨0, by decide⟩).priority = 0 ∧
        (r.1.countP (isTick ⟨0, by decide⟩) : ℤ) = maxTimeSlice ∧
        r.1.getLast?.any (isTick ⟨0, by decide⟩) = true ∧
        (∀ e ∈ r.1, (e.pre.proc ⟨0, by decide⟩).state = .running → (e.post.proc ⟨0, by decide⟩).state ≠ .sleeping) ∧
        (∀ e ∈ r.1, isBoost e = false) ∧ (r.2.proc ⟨0, by decide⟩).priority = 0)) = some true := by
    decide
  rcases Option.map_eq_some_iff.1 hcheck with ⟨r, hr, hall⟩
  rcases of_decide_eq_true hall with ⟨hlevel, hticks, hlast, hawake, hboost, hprio⟩
  exact ⟨r.1, r.2, hr, ⟨hlevel, by decide, hticks, hlast, hawake, hboost⟩, hprio⟩

theorem not_demoted_fourTicks :
    ∃ es t, (machine 1).Run (userinit 1 7) es t ∧ FullSlice ⟨0, by decide⟩ 0 (userinit 1 7) es ∧
      ¬ (0 : ℤ) + 1 ≤ (t.proc ⟨0, by decide⟩).priority := by
  rcases fullSlice_fourTicks with ⟨es, t, htrace, hslice, _⟩
  have hrun : (machine 1).Run (userinit 1 7) es t := System.run_of_trace htrace
  exact ⟨es, t, hrun, hslice, not_demoted (System.Reachable.of_init ⟨7, rfl⟩) hrun hslice⟩

/-- The fourth tick leaves the process at priority 0. -/
theorem priority_fourTicks :
    ∃ es t, (machine 1).Run (userinit 1 7) es t ∧ FullSlice ⟨0, by decide⟩ 0 (userinit 1 7) es ∧
      (t.proc ⟨0, by decide⟩).priority < 0 + 1 := by
  rcases fullSlice_fourTicks with ⟨es, t, htrace, hslice, hprio⟩
  exact ⟨es, t, System.run_of_trace htrace, hslice, by rw [hprio]; decide⟩

end Kernel
end Xv6.Process
