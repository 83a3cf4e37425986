import Xv6.Process.Effect

/-!
# Sched — priorities and time slices

`SchedStep` lists what a step can do to the fields of one slot that the scheduler and the MLFQ logic
of `trap` work with.  Two invariants follow from it, each by one look at a single slot:

* priorities stay in `[0, NPRIO)`, so that no RUNNABLE process is invisible to the nested scan of
  `scheduler` (`schedPass_selects`);
* a RUNNING process that is not past the MLFQ logic of its interrupt has `time_slices = 0`, because
  `scheduler` resets the counter at every dispatch and `trap` gives up the CPU at every tick.  So
  `time_slices` never reaches `MAX_TIME_SLICE` and nobody is ever demoted (`not_demoted`).
-/

namespace Xv6.Process

/-! ## What a step does to one slot -/

/-- The scheduling fields are untouched, and the process does not start to run. -/
structure SchedSame (q q' : Proc) : Prop where
  priority : q'.priority = q.priority
  timeSlices : q'.timeSlices = q.timeSlices
  trap : q'.trap = q.trap
  state : q'.state = .running → q.state = .running

inductive SchedStep (q q' : Proc) : Prop
  | same (h : SchedSame q q')
  /-- `allocproc` or `boost_all_priorities`. -/
  | reset (hprio : q'.priority = 0) (hslice : q'.timeSlices = 0) (htrap : q'.trap = q.trap)
      (hstate : q'.state = .running → q.state = .running)
  /-- `scheduler` switches to the process. -/
  | dispatch (hprio : q'.priority = q.priority ∨ q'.priority = 0) (hslice : q'.timeSlices = 0)
      (htrap : q'.trap = q.trap)
  /-- The process is not RUNNING afterwards. -/
  | stop (hprio : q'.priority = q.priority) (htrap : q'.trap = q.trap ∨ q'.trap ≠ .demoted)
      (hstate : q'.state ≠ .running)
  /-- A timer interrupt. -/
  | timer (hprio : q'.priority = q.priority) (hslice : q'.timeSlices = q.timeSlices)
      (hold : q.trap = .none) (htrap : q'.trap = .mlfq)
      (hstate : q'.state = .running → q.state = .running)
  /-- The MLFQ logic counts a tick. -/
  | tick (hprio : q'.priority = q.priority) (htrap : q'.trap = .tail)
  /-- The MLFQ logic finds the time slice used up. -/
  | demote (hold : q.trap = .mlfq) (hrun : q.state = .running)
      (hslice : maxTimeSlice ≤ q.timeSlices + 1)
      (hprio : q'.priority = if q.priority < nprio - 1 then q.priority + 1 else q.priority)
  /-- Another part of `trap`. -/
  | handler (hprio : q'.priority = q.priority) (hslice : q'.timeSlices = q.timeSlices)
      (htrap : q'.trap = .tail ∨ q'.trap = .exit ∨ (q.trap = .post ∧ q'.trap = .none))
      (hstate : q'.state = .running → q.state = .running)

theorem SchedSame.refl (q : Proc) : SchedSame q q := ⟨rfl, rfl, rfl, id⟩

variable {q1 q2 q3 : Proc}

theorem SchedSame.trans (h : SchedSame q1 q2) (h' : SchedSame q2 q3) : SchedSame q1 q3 :=
  ⟨h'.priority.trans h.priority, h'.timeSlices.trans h.timeSlices, h'.trap.trans h.trap,
    fun hr => h.state (h'.state hr)⟩

theorem SchedStep.trans_same (h : SchedStep q1 q2) (h' : SchedSame q2 q3) : SchedStep q1 q3 := by
  cases h with
  | same h => exact .same (h.trans h')
  | reset hprio hslice htrap hstate =>
    exact .reset (h'.priority.trans hprio) (h'.timeSlices.trans hslice) (h'.trap.trans htrap)
      (fun hr => hstate (h'.state hr))
  | dispatch hprio hslice htrap =>
    exact .dispatch (by rwa [h'.priority]) (h'.timeSlices.trans hslice) (h'.trap.trans htrap)
  | stop hprio htrap hstate =>
    exact .stop (h'.priority.trans hprio) (by rwa [h'.trap]) (fun hr => hstate (h'.state hr))
  | timer hprio hslice hold htrap hstate =>
    exact .timer (h'.priority.trans hprio) (h'.timeSlices.trans hslice) hold (h'.trap.trans htrap)
      (fun hr => hstate (h'.state hr))
  | tick hprio htrap => exact .tick (h'.priority.trans hprio) (h'.trap.trans htrap)
  | demote hold hrun hslice hprio => exact .demote hold hrun hslice (h'.priority.trans hprio)
  | handler hprio hslice htrap hstate =>
    exact .handler (h'.priority.trans hprio) (h'.timeSlices.trans hslice) (by rwa [h'.trap])
      (fun hr => hstate (h'.state hr))

theorem SchedSame.trans_step (h : SchedSame q1 q2) (h' : SchedStep q2 q3) : SchedStep q1 q3 := by
  cases h' with
  | same h' => exact .same (h.trans h')
  | reset hprio hslice htrap hstate =>
    exact .reset hprio hslice (htrap.trans h.trap) (fun hr => h.state (hstate hr))
  | dispatch hprio hslice htrap =>
    exact .dispatch (by rwa [← h.priority]) hslice (htrap.trans h.trap)
  | stop hprio htrap hstate => exact .stop (hprio.trans h.priority) (by rwa [← h.trap]) hstate
  | timer hprio hslice hold htrap hstate =>
    exact .timer (hprio.trans h.priority) (hslice.trans h.timeSlices) (h.trap ▸ hold) htrap
      (fun hr => h.state (hstate hr))
  | tick hprio htrap => exact .tick (hprio.trans h.priority) htrap
  | demote hold hrun hslice hprio =>
    exact .demote (h.trap ▸ hold) (h.state hrun) (h.timeSlices ▸ hslice) (h.priority ▸ hprio)
  | handler hprio hslice htrap hstate =>
    exact .handler (hprio.trans h.priority) (hslice.trans h.timeSlices) (by rwa [← h.trap])
      (fun hr => h.state (hstate hr))

namespace Table

theorem schedSame_wake (q : Proc) (_ : q.state = .sleeping) : SchedSame q { q with state := .runnable } :=
  ⟨rfl, rfl, rfl, by simp⟩

theorem schedSame_wakeup1 (t : Table) (ch : Chan) (r : Slot) : SchedSame (t r) (t.wakeup1 ch r) :=
  wakeup1_rel SchedSame.refl schedSame_wake ch r

theorem schedSame_abandon (t : Table) (p curproc initproc r : Slot) :
    SchedSame (t r) ((t.wakeupParent p).abandon curproc initproc r) :=
  (wakeupParent_rel SchedSame.refl schedSame_wake p r).trans
    (abandon_rel SchedSame.refl schedSame_wake (fun _ _ _ => SchedSame.trans) (fun _ _ => ⟨rfl, rfl, rfl, id⟩) r)

theorem schedStep_modify {t : Table} {p : Slot} {f : Proc → Proc} (h : SchedStep (t p) (f (t p)))
    (r : Slot) : SchedStep (t r) (t.modify p f r) :=
  modify_rel (fun q => .same (SchedSame.refl q)) h r

theorem schedSame_modify {t : Table} {p : Slot} {f : Proc → Proc} (h : SchedSame (t p) (f (t p)))
    (r : Slot) : SchedSame (t r) (t.modify p f r) :=
  modify_rel SchedSame.refl h r

end Table

namespace Kernel

variable {ncpu : ℕ}

/-! ## One slot of the machine -/

variable {s t : Kernel ncpu} {p : Slot} {f : Proc → Proc} {c : Fin ncpu} {a : Action ncpu}

theorem schedStep_set (h : SchedStep (s.proc p) (f (s.proc p))) (r : Slot) :
    SchedStep (s.proc r) ((s.set p f).proc r) :=
  Table.schedStep_modify h r

theorem schedSame_set (h : SchedSame (s.proc p) (f (s.proc p))) (r : Slot) :
    SchedSame (s.proc r) ((s.set p f).proc r) :=
  Table.schedSame_modify h r

theorem schedStep_of_proc (hproc : t.proc = s.proc.modify p f) (h : SchedStep (s.proc p) (f (s.proc p))) (r : Slot) :
    SchedStep (s.proc r) (t.proc r) :=
  hproc ▸ Table.schedStep_modify h r

theorem schedSame_setEax (v : Int32) (r : Slot) : SchedSame (s.proc r) ((s.setEax p v).proc r) :=
  schedSame_set (s := s) ⟨rfl, rfl, rfl, id⟩ r

theorem schedSame_ret (v : Int32) (r : Slot) : SchedSame (s.proc r) ((s.ret p v).proc r) :=
  schedSame_set (s := s) ⟨rfl, rfl, rfl, id⟩ r

theorem schedStep_countPass (s : Kernel ncpu) (r : Slot) : SchedSame (s.proc r) (s.countPass.proc r) ∨
      ((s.countPass.proc r).priority = 0 ∧ (s.countPass.proc r).timeSlices = 0 ∧
        (s.countPass.proc r).trap = (s.proc r).trap ∧
        (s.countPass.proc r).state = (s.proc r).state) := by
  unfold countPass
  split
  · by_cases h : (s.proc r).state = .unused
    · exact Or.inl (by simpa [Table.boostAllPriorities, h] using SchedSame.refl (s.proc r))
    · exact Or.inr (by simp [Table.boostAllPriorities, h])
  · exact Or.inl (SchedSame.refl _)

theorem schedStep_schedPass (s : Kernel ncpu) (c : Fin ncpu) (r : Slot) :
    SchedStep (s.proc r) ((s.schedPass c).proc r) := by
  have hcount : SchedStep (s.proc r) (s.countPass.proc r) := by
    rcases schedStep_countPass s r with h | ⟨hprio, hslice, htrap, hstate⟩
    · exact .same h
    · exact .reset hprio hslice htrap (fun hr => hstate ▸ hr)
  unfold schedPass
  cases s.countPass.proc.pick with
  | none => exact hcount
  | some p =>
    by_cases hr : r = p
    · subst hr
      rcases schedStep_countPass s r with h | ⟨hprio, _, htrap, _⟩
      · exact .dispatch (Or.inl (by simp [dispatch, set, h.priority])) (by simp [dispatch, set])
          (by simp [dispatch, set, h.trap])
      · exact .dispatch (Or.inr (by simp [dispatch, set, hprio])) (by simp [dispatch, set])
          (by simp [dispatch, set, htrap])
    · simpa [dispatch, set, hr] using hcount

theorem schedStep_yield {next : Trap}
    (hnext : next ≠ .demoted) (r : Slot) : SchedStep (s.proc r) ((s.yield c p next).proc r) := by
  have hproc : (s.yield c p next).proc =
      s.proc.modify p (fun q => { q with state := .runnable, resume := .yield, trap := next }) := rfl
  exact schedStep_of_proc hproc (.stop rfl (Or.inr hnext) (by simp)) r

theorem schedStep_sleep (s : Kernel ncpu) (c : Fin ncpu) (p : Slot) (ch : Chan) (next : Resume)
    (r : Slot) : SchedStep (s.proc r) ((s.sleep c p ch next).proc r) := by
  have hproc : (s.sleep c p ch next).proc =
      s.proc.modify p (fun q => { q with chan := some ch, state := .sleeping, resume := next }) := rfl
  exact schedStep_of_proc hproc (.stop rfl (Or.inl rfl) (by simp)) r

theorem schedStep_wait (h : WaitCase s c p t) (r : Slot) : SchedStep (s.proc r) (t.proc r) := by
  cases h with
  | panic z hz hd => exact .same (SchedSame.refl _)
  | fail hz => exact .same (schedSame_setEax _ r)
  | sleep hz => exact schedStep_sleep s c p _ _ r
  | reap z d hz hd =>
    have hfirst := schedSame_set (s := s) (p := z) (f := fun q => { q with kstack := none })
      ⟨rfl, rfl, rfl, id⟩ r
    refine .same (hfirst.trans (SchedSame.trans ?_ (schedSame_setEax _ r)))
    exact schedSame_set ⟨rfl, rfl, rfl, by simp⟩ r

theorem schedStep_join (h : JoinCase s c p t) (r : Slot) : SchedStep (s.proc r) (t.proc r) := by
  cases h with
  | fail hz => exact .same (schedSame_setEax _ r)
  | sleep hz => exact schedStep_sleep s c p _ _ r
  | reap z hz =>
    refine .same (SchedSame.trans ?_ (schedSame_setEax _ r))
    exact schedSame_set ⟨rfl, rfl, rfl, by simp⟩ r

theorem schedStep_resume (h : ResumeCase s c p t) (r : Slot) : SchedStep (s.proc r) (t.proc r) := by
  have hchan := schedSame_set (s := s) (p := p) (f := fun q => { q with chan := none })
    ⟨rfl, rfl, rfl, id⟩ r
  cases h with
  | release hr => exact .same (SchedSame.refl _)
  | sleep hr => exact .same hchan
  | wait t hr h => exact hchan.trans_step (schedStep_wait h r)
  | join t hr h => exact hchan.trans_step (schedStep_join h r)

theorem schedSame_tick (s : Kernel ncpu) (c : Fin ncpu) (r : Slot) : SchedSame (s.proc r) ((s.tick c).proc r) := by
  unfold tick
  split
  · exact Table.schedSame_wakeup1 s.proc .ticks r
  · exact SchedSame.refl _

theorem schedStep_mlfq (ht : (s.proc p).trap = .mlfq) (r : Slot) : SchedStep (s.proc r) ((s.mlfq p).proc r) := by
  unfold mlfq
  split_ifs with hrun hslice
  · exact schedStep_set (.demote ht hrun hslice rfl) r
  · exact schedStep_set (.tick rfl rfl) r
  · exact schedStep_set (.tick rfl rfl) r

theorem schedStep_exitStart {caller : Trap} (hcaller : caller = (s.proc p).trap ∨ caller = .exit) (r : Slot) :
    SchedStep (s.proc r) ((s.exitStart p caller).proc r) := by
  unfold exitStart
  split_ifs
  · exact .same (SchedSame.refl _)
  · refine schedStep_set ?_ r
    rcases hcaller with h | h
    · exact .same ⟨rfl, rfl, h, id⟩
    · exact .handler rfl rfl (Or.inr (Or.inl h)) id

theorem schedStep_trap (h : TrapCase s c p t) (r : Slot) : SchedStep (s.proc r) (t.proc r) := by
  cases h with
  | mlfq ht => exact schedStep_mlfq ht r
  | demoted ht hl => exact schedStep_yield (by simp) r
  | tail ht hstate hl => exact schedStep_yield (by simp) r
  | skip ht hstate => exact schedStep_set (.stop rfl (Or.inr (by simp)) hstate) r
  | exit ht hcall => exact schedStep_exitStart (Or.inr rfl) r
  | done ht => exact schedStep_set (.handler rfl rfl (Or.inr (Or.inr ⟨ht, rfl⟩)) id) r

theorem schedStep_allocproc (next : Slot → Call) (r : Slot) : SchedStep (s.proc r) ((s.allocproc p next).proc r) := by
  unfold allocproc
  cases s.proc.findUnused with
  | none => exact .same (schedSame_setEax _ r)
  | some np =>
    have hclaim : SchedStep (s.proc r) (s.proc.claim np s.nextpid s.ticks r) :=
      Table.schedStep_modify (.reset rfl rfl rfl (by simp)) r
    refine hclaim.trans_same ?_
    exact Table.schedSame_modify (p := p) (f := fun q => { q with call := next np })
      ⟨rfl, rfl, rfl, id⟩ r

theorem schedSame_kill (pid : Int32) (r : Slot) : SchedSame (s.proc r) ((s.kill p pid).proc r) := by
  unfold kill
  cases s.proc.findPid pid with
  | none => exact schedSame_setEax _ r
  | some z =>
    refine SchedSame.trans ?_ (schedSame_setEax _ r)
    refine schedSame_set (s := s) ⟨rfl, rfl, rfl, ?_⟩ r
    by_cases hz : (s.proc z).state = .sleeping <;> simp [hz]

theorem schedStep_start (h : StartCase s c p a t) (r : Slot) : SchedStep (s.proc r) (t.proc r) := by
  cases h with
  | fork hl => exact schedStep_allocproc _ r
  | clone stack hl => exact schedStep_allocproc _ r
  | exec =>
    exact schedStep_of_proc (p := p) (f := fun q => { q with call := .exec s.nextDir }) rfl
      (.same ⟨rfl, rfl, rfl, id⟩) r
  | execFail => exact .same (schedSame_setEax _ r)
  | growFail => exact .same (schedSame_setEax _ r)
  | grow sz =>
    refine .same (SchedSame.trans ?_ (schedSame_setEax _ r))
    exact schedSame_set (s := s) ⟨rfl, rfl, rfl, id⟩ r
  | wait t hl h => exact schedStep_wait h r
  | join t hl h => exact schedStep_join h r
  | kill pid hl => exact .same (schedSame_kill pid r)

theorem schedStep_call (h : CallCase s c p a t) (hs : s.Control) (r : Slot) : SchedStep (s.proc r) (t.proc r) := by
  have hkstack : ∀ {np : Slot} {k next : Call} (page : Option ℕ), (s.proc p).call = k →
      k.claims = some np → SchedStep (s.proc r) ((s.kstackFor p np page next).proc r) := by
    intro np k next page hcall hclaims
    -- The slot being built is EMBRYO, so it may be changed in the middle of a handler.
    have hnp : (s.proc np).state ≠ .running := hs.not_running (hcall ▸ hclaims)
    cases page with
    | none =>
      have hfirst := schedSame_set (s := s) (p := np)
        (f := fun q => { q with kstack := none, state := .unused }) ⟨rfl, rfl, rfl, by simp⟩ r
      exact .same (hfirst.trans (schedSame_ret _ r))
    | some b =>
      have hfirst := schedStep_set (s := s) (p := np)
        (f := fun q => { q with kstack := some b, resume := .forkret, trap := .none })
        (.stop rfl (Or.inr (by simp)) hnp) r
      exact hfirst.trans_same (schedSame_set ⟨rfl, rfl, rfl, id⟩ r)
  cases h with
  | forkStack np page hcall => exact hkstack page hcall rfl
  | cloneStack np stack page hcall => exact hkstack page hcall rfl
  | forkSetup np hcall =>
    exact schedStep_of_proc (p := p) (f := fun q => { q with call := .forkCopy np s.nextDir }) rfl
      (.same ⟨rfl, rfl, rfl, id⟩) r
  | forkSetupFail np hcall =>
    refine .same (SchedSame.trans ?_ (schedSame_ret _ r))
    exact schedSame_set ⟨rfl, rfl, rfl, by simp⟩ r
  | forkCopy np d hcall =>
    refine .same (SchedSame.trans ?_ (schedSame_set ⟨rfl, rfl, rfl, id⟩ r))
    exact schedSame_set ⟨rfl, rfl, rfl, id⟩ r
  | forkCopyFail np d hcall =>
    refine .same (SchedSame.trans ?_ (schedSame_ret _ r))
    exact schedSame_set (s := s.freevm d none) ⟨rfl, rfl, rfl, by simp⟩ r
  | cloneFill np stack hcall =>
    have hfill := schedSame_set (s := s) (p := np) (f := fun q =>
      { q with
        pgdir := (s.proc p).pgdir
        sz := (s.proc p).sz
        parent := some p
        threadstack := stack
        eax := 0
        call := .user }) ⟨rfl, rfl, rfl, id⟩ r
    exact .same (hfill.trans (Table.schedSame_modify (p := p)
      (f := fun q => { q with call := .cloneRun np }) ⟨rfl, rfl, rfl, id⟩ r))
  | forkRun np pid hcall hl =>
    refine .same (SchedSame.trans ?_ (schedSame_set ⟨rfl, rfl, rfl, id⟩ r))
    exact schedSame_set ⟨rfl, rfl, rfl, by simp⟩ r
  | cloneRun np hcall hl =>
    refine .same (SchedSame.trans ?_ (schedSame_set ⟨rfl, rfl, rfl, id⟩ r))
    exact schedSame_set ⟨rfl, rfl, rfl, by simp⟩ r
  | cloneRet np hcall => exact .same (schedSame_ret _ r)
  | execBad d hcall => exact .same (schedSame_ret _ r)
  | execCommit d sz hcall =>
    unfold execCommit
    cases (s.proc p).pgdir with
    | none => exact .same (SchedSame.refl _)
    | some old =>
      have hcommit := schedSame_set (s := s) (p := p)
        (f := fun q => { q with pgdir := some d, sz := sz }) ⟨rfl, rfl, rfl, id⟩ r
      exact .same (hcommit.trans (schedSame_ret _ r))
  | exitZombie hcall hl =>
    exact .same ((s.proc.schedSame_abandon p p s.initproc r).trans (Table.schedSame_modify (p := p)
      (f := fun q => { q with state := .zombie }) ⟨rfl, rfl, rfl, by simp⟩ r))

theorem schedStep_step (hs : s.Control) (h : step s a = some t) (r : Slot) : SchedStep (s.proc r) (t.proc r) := by
  rcases step_cases h with ⟨_, hcase⟩
  cases hcase with
  | schedPass c hc hl => exact schedStep_schedPass s c r
  | resume c p t hc hl h => exact schedStep_resume h r
  | idleTimer c hc => exact .same (schedSame_tick s c r)
  | timer c p hc ht =>
    by_cases hr : r = p
    · subst hr
      have htick := schedSame_tick s c r
      exact .timer (by simpa [set] using htick.priority) (by simpa [set] using htick.timeSlices) ht
        (by simp [set]) (by simpa [set] using htick.state)
    · simpa [set, hr] using SchedStep.same (schedSame_tick s c r)
  | trap c p t hc h => exact schedStep_trap h r
  | fault c p hc ht hcall => exact schedStep_set (.handler rfl rfl (Or.inl rfl) id) r
  | exit c p hc ht hcall => exact schedStep_exitStart (Or.inl ht.symm) r
  | sleep c p ch hc hl => exact schedStep_sleep s c p ch _ r
  | wakeup ch hl => exact .same (Table.schedSame_wakeup1 s.proc ch r)
  | start c p a t hc h => exact schedStep_start h r
  | call c p a t hc h => exact schedStep_call h hs r

end Kernel

end Xv6.Process
