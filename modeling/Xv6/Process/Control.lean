import Xv6.Process.Steps

/-!
# Control — who runs where, and who builds which slot

Two facts about the machine carry everything else:

* a process is RUNNING exactly if one CPU has it as `c->proc`;
* a slot that `allocproc` has claimed stays EMBRYO until the one `fork` or `clone` that claimed it
  gives it up or makes it RUNNABLE.

`CpuEffect` and `Effect` say what a step does to the CPUs and to the slots.  A slot is seen through
its `View`, which forgets everything the scheduler, the interrupt handler, `sleep`, `wakeup` and
`kill` change: for them a live process is a live process.
-/

namespace Xv6.Process

/-! ## Views -/

/-- The stages of a slot's use. -/
inductive Life
  | free
  | claimed
  | alive
  | dead
  deriving DecidableEq, Repr

def ProcState.life : ProcState → Life
  | .unused => .free
  | .embryo => .claimed
  | .zombie => .dead
  | .sleeping | .runnable | .running => .alive

structure View where
  life : Life
  call : Call
  pgdir : Option Pgdir

def Proc.view (q : Proc) : View :=
  { life := q.state.life
    call := q.call
    pgdir := q.pgdir }

/-- Slots with different values of a field are different slots. -/
theorem ne_of_field {α β : Type} (f : α → β) {k : Slot → α} {p q : Slot} {a b : β} (hp : f (k p) = a) (hq : f (k q) = b)
    (h : a ≠ b := by simp) : p ≠ q := by
  rintro rfl
  exact h (hp.symm.trans hq)

namespace Call

def claims : Call → Option Slot
  | .forkStack np | .forkSetup np | .forkCopy np _ | .forkRun np _ | .cloneStack np _
  | .cloneShare np _ | .cloneRun np => some np
  | .user | .cloneRet _ | .exec _ | .exiting => none

def fills : Call → Option Slot
  | .forkRun np _ | .cloneRun np => some np
  | _ => none

def dir : Call → Option Pgdir
  | .forkCopy _ d | .exec d => some d
  | _ => none

/-- A call that builds neither a slot nor a directory. -/
def Plain (k : Call) : Prop := k.claims = none ∧ k.dir = none

theorem claims_of_fills {k : Call} {np : Slot} (h : k.fills = some np) : k.claims = some np := by
  cases k <;> simp_all [fills, claims]

theorem fills_of_plain {k : Call} (h : k.Plain) : k.fills = none := by
  cases k <;> simp_all [Plain, fills, claims]

end Call

namespace Table

def view (t : Table) (r : Slot) : View := (t r).view

theorem view_modify (t : Table) (p : Slot) (f : Proc → Proc) :
    (t.modify p f).view = Function.update t.view p (f (t p)).view :=
  comp_modify Proc.view f

theorem view_modify_of_eq (t : Table) (p : Slot) (f : Proc → Proc) (h : (f (t p)).view = (t p).view) :
    (t.modify p f).view = t.view :=
  funext (modify_rel (R := fun q q' => q'.view = q.view) (fun _ => rfl) h)

theorem view_wake (q : Proc) (h : q.state = .sleeping) : { q with state := .runnable : Proc }.view = q.view := by
  simp [Proc.view, h, ProcState.life]

@[simp] theorem view_wakeup1 (t : Table) (ch : Chan) : (t.wakeup1 ch).view = t.view :=
  funext (wakeup1_rel (R := fun q q' => q'.view = q.view) (fun _ => rfl) view_wake ch)

@[simp] theorem view_wakeupParent (t : Table) (p : Slot) : (t.wakeupParent p).view = t.view :=
  funext (wakeupParent_rel (R := fun q q' => q'.view = q.view) (fun _ => rfl) view_wake p)

@[simp] theorem view_boostAllPriorities (t : Table) : t.boostAllPriorities.view = t.view :=
  funext (boostAllPriorities_rel (R := fun q q' => q'.view = q.view) (fun _ => rfl) fun _ => rfl)

@[simp] theorem view_abandon (t : Table) (curproc initproc : Slot) : (t.abandon curproc initproc).view = t.view :=
  funext (abandon_rel (R := fun q q' => q'.view = q.view) (fun _ => rfl) view_wake (fun _ _ _ h h' => h'.trans h)
    fun _ _ => rfl)

theorem running_wake (q : Proc) (h : q.state = .sleeping) :
    { q with state := .runnable : Proc }.state = .running ↔ q.state = .running := by
  simp [h]

theorem running_wakeup1 (t : Table) (ch : Chan) (r : Slot) :
    (t.wakeup1 ch r).state = .running ↔ (t r).state = .running :=
  wakeup1_rel (R := fun q q' => q'.state = .running ↔ q.state = .running) (fun _ => Iff.rfl) running_wake ch r

theorem running_wakeupParent (t : Table) (p r : Slot) :
    (t.wakeupParent p r).state = .running ↔ (t r).state = .running :=
  wakeupParent_rel (R := fun q q' => q'.state = .running ↔ q.state = .running) (fun _ => Iff.rfl) running_wake p r

theorem running_boostAllPriorities (t : Table) (r : Slot) :
    (t.boostAllPriorities r).state = .running ↔ (t r).state = .running :=
  boostAllPriorities_rel (R := fun q q' => q'.state = .running ↔ q.state = .running) (fun _ => Iff.rfl)
    (fun _ => Iff.rfl) r

theorem running_abandon (t : Table) (curproc initproc r : Slot) :
    (t.abandon curproc initproc r).state = .running ↔ (t r).state = .running :=
  abandon_rel (R := fun q q' => q'.state = .running ↔ q.state = .running) (fun _ => Iff.rfl) running_wake
    (fun _ _ _ h h' => h'.trans h) (fun _ _ => Iff.rfl) r

end Table

namespace Kernel

variable {ncpu : ℕ}

def view (s : Kernel ncpu) : Slot → View := s.proc.view

def Running (s : Kernel ncpu) (p : Slot) : Prop := (s.proc p).state = .running

/-! ## The invariant -/

/-- Who builds which slot: a builder is alive, its slot is claimed, and it is the only one. -/
structure Builds (v : Slot → View) : Prop where
  building : ∀ p np, (v p).call.claims = some np → (v p).life = .alive ∧ (v np).life = .claimed
  builder : ∀ p q np, (v p).call.claims = some np → (v q).call.claims = some np → p = q

structure Control (s : Kernel ncpu) : Prop where
  onCpu : ∀ p, s.Running p ↔ ∃ c, s.cpu c = some p
  single : ∀ c c' p, s.cpu c = some p → s.cpu c' = some p → c = c'
  builds : Builds s.view

variable {s t : Kernel ncpu} {c : Fin ncpu} {p : Slot} {f : Proc → Proc}

theorem Control.running (h : s.Control) (hc : s.current c = some p) : s.Running p :=
  (h.onCpu p).2 ⟨c, (current_eq_some.1 hc).2⟩

theorem Running.alive (h : s.Running p) : (s.view p).life = .alive := by
  have hstate : (s.proc p).state = .running := h
  simp [view, Table.view, Proc.view, hstate, ProcState.life]

/-! ## What a step does to the CPUs -/

inductive CpuEffect (s t : Kernel ncpu) : Prop
  | same (hcpu : t.cpu = s.cpu) (hrun : ∀ r, t.Running r ↔ s.Running r)
  | dispatch (c : Fin ncpu) (p : Slot) (hc : s.cpu c = none) (hp : ¬ s.Running p)
      (hcpu : t.cpu = Function.update s.cpu c (some p))
      (hrun : ∀ r, t.Running r ↔ r = p ∨ s.Running r)
  | leave (c : Fin ncpu) (p : Slot) (hc : s.cpu c = some p)
      (hcpu : t.cpu = Function.update s.cpu c none)
      (hrun : ∀ r, t.Running r ↔ r ≠ p ∧ s.Running r)

theorem running_set (h : (f (s.proc p)).state = .running ↔ (s.proc p).state = .running) (r : Slot) :
    (s.set p f).Running r ↔ s.Running r := by
  by_cases hr : r = p
  · subst hr
    simpa [Running, set] using h
  · simp [Running, set, hr]

theorem running_ret (v : Int32) (r : Slot) : (s.ret p v).Running r ↔ s.Running r := running_set Iff.rfl r

theorem running_setEax (v : Int32) (r : Slot) : (s.setEax p v).Running r ↔ s.Running r := running_set Iff.rfl r

theorem running_set_setEax {q : Slot} {v : Int32} (h : (f (s.proc p)).state = .running ↔ (s.proc p).state = .running)
    (r : Slot) : ((s.set p f).setEax q v).Running r ↔ s.Running r :=
  (running_setEax _ r).trans (running_set h r)

theorem running_set_ret {q : Slot} {v : Int32} (h : (f (s.proc p)).state = .running ↔ (s.proc p).state = .running)
    (r : Slot) : ((s.set p f).ret q v).Running r ↔ s.Running r :=
  (running_ret _ r).trans (running_set h r)

/-- Leaving the CPU in any state but RUNNING. -/
theorem CpuEffect.of_sched (hc : s.cpu c = some p) (hcpu : t.cpu = s.cpu)
    (hrun : ∀ r, t.Running r ↔ r ≠ p ∧ s.Running r) : CpuEffect s (t.sched c) :=
  .leave c p hc (by simp [sched, hcpu]) hrun

theorem running_set_stop (h : (f (s.proc p)).state ≠ .running) (r : Slot) :
    (s.set p f).Running r ↔ r ≠ p ∧ s.Running r := by
  by_cases hr : r = p
  · subst hr
    simpa [Running, set] using h
  · simp [Running, set, hr]

theorem cpuEffect_yield (hc : s.cpu c = some p) (next : Trap) : CpuEffect s (s.yield c p next) :=
  CpuEffect.of_sched hc rfl (running_set_stop (by simp))

theorem cpuEffect_sleep (hc : s.cpu c = some p) (ch : Chan) (next : Resume) : CpuEffect s (s.sleep c p ch next) :=
  CpuEffect.of_sched hc rfl (running_set_stop (by simp))

theorem running_countPass (s : Kernel ncpu) (r : Slot) : s.countPass.Running r ↔ s.Running r := by
  unfold countPass
  split
  · exact Table.running_boostAllPriorities s.proc r
  · exact Iff.rfl

theorem cpu_countPass (s : Kernel ncpu) : s.countPass.cpu = s.cpu := by
  unfold countPass
  split <;> rfl

theorem cpuEffect_schedPass (hc : s.cpu c = none) : CpuEffect s (s.schedPass c) := by
  unfold schedPass
  cases hpick : s.countPass.proc.pick with
  | none => exact .same (cpu_countPass s) (running_countPass s)
  | some p =>
    have hrunnable := Table.pick_runnable hpick
    refine .dispatch c p hc ?_ ?_ ?_
    · intro hp
      have hrun : (s.countPass.proc p).state = .running := (running_countPass s p).2 hp
      simp [hrunnable] at hrun
    · simp [dispatch, cpu_countPass]
    intro r
    have hr := running_countPass s r
    by_cases hrp : r = p
    · subst hrp
      simp [Running, dispatch, set]
    · simpa [Running, dispatch, set, hrp] using hr

theorem cpuEffect_wait (h : WaitCase s c p t) (hc : s.cpu c = some p) : CpuEffect s t := by
  cases h with
  | panic r hz hd => exact .same rfl (fun _ => Iff.rfl)
  | fail hz => exact .same rfl (running_setEax _)
  | sleep hz => exact cpuEffect_sleep hc _ _
  | reap r d hz hd =>
    have hdead := (Table.findZombie_eq_some hz).2
    refine .same rfl ?_
    intro q
    refine (running_set_setEax ?_ q).trans (running_set Iff.rfl q)
    simp [set, freevm, hdead]

theorem cpuEffect_join (h : JoinCase s c p t) (hc : s.cpu c = some p) : CpuEffect s t := by
  cases h with
  | fail hz => exact .same rfl (running_setEax _)
  | sleep hz => exact cpuEffect_sleep hc _ _
  | reap r hz =>
    have hdead := (Table.findZombieThread_eq_some hz).2
    refine .same rfl ?_
    intro q
    exact running_set_setEax (by simp [hdead]) q

theorem CpuEffect.of_same {u : Kernel ncpu} (h : CpuEffect t u) (hcpu : t.cpu = s.cpu)
    (hrun : ∀ r, t.Running r ↔ s.Running r) : CpuEffect s u := by
  cases h with
  | same hcpu' hrun' => exact .same (hcpu'.trans hcpu) (fun r => (hrun' r).trans (hrun r))
  | dispatch c p hc hp hcpu' hrun' =>
    refine .dispatch c p (hcpu ▸ hc) ?_ (by rw [hcpu', hcpu]) ?_
    · simpa [hrun p] using hp
    · intro r
      rw [hrun' r, hrun r]
  | leave c p hc hcpu' hrun' =>
    refine .leave c p (hcpu ▸ hc) (by rw [hcpu', hcpu]) ?_
    intro r
    rw [hrun' r, hrun r]

theorem cpuEffect_resume (hc : s.cpu c = some p) (h : ResumeCase s c p t) : CpuEffect s t := by
  have hchan : ∀ r, (s.set p (fun q => { q with chan := none })).Running r ↔ s.Running r := running_set Iff.rfl
  cases h with
  | release hr => exact .same rfl (fun _ => Iff.rfl)
  | sleep hr => exact .same rfl hchan
  | wait t hr h => exact (cpuEffect_wait h hc).of_same rfl hchan
  | join t hr h => exact (cpuEffect_join h hc).of_same rfl hchan

theorem cpu_tick : (s.tick c).cpu = s.cpu := by
  unfold tick
  split <;> rfl

theorem running_tick (r : Slot) : (s.tick c).Running r ↔ s.Running r := by
  unfold tick
  split
  · exact Table.running_wakeup1 s.proc .ticks r
  · exact Iff.rfl

theorem cpuEffect_mlfq : CpuEffect s (s.mlfq p) := by
  unfold mlfq
  split_ifs
  · exact .same rfl (running_set Iff.rfl)
  · exact .same rfl (running_set Iff.rfl)
  · exact .same rfl (running_set Iff.rfl)

theorem cpuEffect_exitStart (caller : Trap) : CpuEffect s (s.exitStart p caller) := by
  unfold exitStart
  split_ifs
  · exact .same rfl (fun _ => Iff.rfl)
  · exact .same rfl (running_set Iff.rfl)

theorem cpuEffect_exitZombie (hc : s.cpu c = some p) : CpuEffect s (s.exitZombie c p) := by
  refine CpuEffect.of_sched hc rfl ?_
  intro r
  by_cases hr : r = p
  · subst hr
    simp [Running]
  · simp only [Running, Table.modify_of_ne _ hr, ne_eq, hr, not_false_eq_true, true_and]
    exact (Table.running_abandon _ _ _ r).trans (Table.running_wakeupParent _ _ r)

theorem cpuEffect_allocproc (next : Slot → Call) : CpuEffect s (s.allocproc p next) := by
  unfold allocproc
  cases hnp : s.proc.findUnused with
  | none => exact .same rfl (running_setEax _)
  | some np =>
    have hfree := Table.findUnused_eq_some hnp
    refine .same rfl ?_
    intro r
    have hclaim : ∀ r, (s.proc.claim np s.nextpid s.ticks r).state = .running ↔ (s.proc r).state = .running := by
      intro r
      by_cases hr : r = np
      · subst hr
        simp [Table.claim, hfree]
      · simp [Table.claim, hr]
    by_cases hr : r = p
    · subst hr
      simpa [Running] using hclaim r
    · simpa [Running, hr] using hclaim r

theorem cpuEffect_kill (pid : Int32) : CpuEffect s (s.kill p pid) := by
  unfold kill
  cases s.proc.findPid pid with
  | none => exact .same rfl (running_setEax _)
  | some r =>
    refine .same rfl ?_
    intro q
    refine running_set_setEax ?_ q
    by_cases h : (s.proc r).state = .sleeping <;> simp [h]

theorem Control.not_running (h : s.Control) {np : Slot} (hp : (s.proc p).call.claims = some np) :
    (s.proc np).state ≠ .running := by
  intro hrun
  have hclaimed := (h.builds.building p np hp).2
  have halive : (s.view np).life = .alive := Running.alive hrun
  simp [hclaimed] at halive

theorem cpuEffect_call {a : Action ncpu} (hs : s.Control) (hc : s.cpu c = some p) (h : CallCase s c p a t) :
    CpuEffect s t := by
  have hnot : ∀ {np : Slot} {k : Call}, (s.proc p).call = k → k.claims = some np → (s.proc np).state ≠ .running := by
    intro np k hk hclaims
    exact hs.not_running (hk ▸ hclaims)
  have hkstack : ∀ {np : Slot} {k next : Call} (page : Option ℕ), (s.proc p).call = k →
      k.claims = some np → CpuEffect s (s.kstackFor p np page next) := by
    intro np k next page hk hclaims
    have hnp := hnot hk hclaims
    cases page with
    | none => exact .same rfl (running_set_ret (by simp [hnp]))
    | some b =>
      refine .same rfl ?_
      intro r
      exact (running_set Iff.rfl r).trans (running_set Iff.rfl r)
  cases h with
  | forkStack np page hcall => exact hkstack page hcall rfl
  | cloneStack np stack page hcall => exact hkstack page hcall rfl
  | forkSetup np hcall => exact .same rfl (running_set Iff.rfl)
  | forkSetupFail np hcall =>
    have hnp := hnot hcall rfl
    exact .same rfl (running_set_ret (by simp [hnp]))
  | forkCopy np d hcall =>
    refine .same rfl ?_
    intro r
    exact (running_set Iff.rfl r).trans (running_set Iff.rfl r)
  | forkCopyFail np d hcall =>
    have hnp := hnot hcall rfl
    exact .same rfl (running_set_ret (s := s.freevm d none) (by simp [freevm, hnp]))
  | cloneFill np stack hcall =>
    refine .same rfl ?_
    intro r
    exact (running_set Iff.rfl r).trans (running_set Iff.rfl r)
  | forkRun np pid hcall hl =>
    have hnp := hnot hcall rfl
    refine .same rfl ?_
    intro r
    exact (running_set Iff.rfl r).trans (running_set (by simp [hnp]) r)
  | cloneRun np hcall hl =>
    have hnp := hnot hcall rfl
    refine .same rfl ?_
    intro r
    exact (running_set Iff.rfl r).trans (running_set (by simp [hnp]) r)
  | cloneRet np hcall => exact .same rfl (running_ret _)
  | execBad d hcall => exact .same rfl (running_ret _)
  | execCommit d sz hcall =>
    unfold execCommit
    cases (s.proc p).pgdir with
    | none => exact .same rfl (fun _ => Iff.rfl)
    | some old =>
      refine .same rfl ?_
      intro r
      exact (running_ret _ r).trans (running_set Iff.rfl r)
  | exitZombie hcall hl => exact cpuEffect_exitZombie hc

theorem cpuEffect_step {a : Action ncpu} (hs : s.Control) (h : step s a = some t) : CpuEffect s t := by
  rcases step_cases h with ⟨_, hcase⟩
  cases hcase with
  | schedPass c hc hl => exact cpuEffect_schedPass hc
  | resume c p t hc hl h => exact cpuEffect_resume hc h
  | idleTimer c hc => exact .same cpu_tick running_tick
  | timer c p hc ht =>
    refine .same cpu_tick ?_
    intro r
    exact (running_set Iff.rfl r).trans (running_tick r)
  | trap c p t hc h =>
    have hcpu := (current_eq_some.1 hc).2
    cases h with
    | mlfq ht => exact cpuEffect_mlfq
    | demoted ht hl => exact cpuEffect_yield hcpu _
    | tail ht hstate hl => exact cpuEffect_yield hcpu _
    | skip ht hstate => exact .same rfl (running_set Iff.rfl)
    | exit ht hcall => exact cpuEffect_exitStart _
    | done ht => exact .same rfl (running_set Iff.rfl)
  | fault c p hc ht hcall => exact .same rfl (running_set Iff.rfl)
  | exit c p hc ht hcall => exact cpuEffect_exitStart _
  | sleep c p ch hc hl => exact cpuEffect_sleep (current_eq_some.1 hc).2 _ _
  | wakeup ch hl => exact .same rfl (Table.running_wakeup1 s.proc ch)
  | start c p a t hc h =>
    have hcpu := (current_eq_some.1 (caller_eq_some.1 hc).1).2
    cases h with
    | fork hl => exact cpuEffect_allocproc _
    | clone stack hl => exact cpuEffect_allocproc _
    | exec => exact .same rfl (running_set Iff.rfl)
    | execFail => exact .same rfl (running_setEax _)
    | growFail => exact .same rfl (running_setEax _)
    | grow sz => exact .same rfl (running_set_setEax Iff.rfl)
    | wait t hl h => exact cpuEffect_wait h hcpu
    | join t hl h => exact cpuEffect_join h hcpu
    | kill pid hl => exact cpuEffect_kill pid
  | call c p a t hc h =>
    exact cpuEffect_call hs (current_eq_some.1 (inCall_eq_some.1 hc).1).2 h

theorem CpuEffect.control (h : CpuEffect s t) (hs : s.Control) : (∀ p, t.Running p ↔ ∃ c, t.cpu c = some p) ∧
      ∀ c c' p, t.cpu c = some p → t.cpu c' = some p → c = c' := by
  cases h with
  | same hcpu hrun =>
    refine ⟨?_, ?_⟩
    · intro p
      simpa [hcpu, hrun p] using hs.onCpu p
    · simpa [hcpu] using hs.single
  | dispatch c p hc hp hcpu hrun =>
    have hother : ∀ c', s.cpu c' = some p → False := fun c' hc' => hp ((hs.onCpu p).2 ⟨c', hc'⟩)
    refine ⟨?_, ?_⟩
    · intro q
      rw [hrun q, hs.onCpu q, hcpu]
      constructor
      · rintro (rfl | ⟨c', hc'⟩)
        · exact ⟨c, by simp⟩
        · have hne : c' ≠ c := fun hEq => by simp [hEq, hc] at hc'
          exact ⟨c', by simpa [hne] using hc'⟩
      rintro ⟨c', hc'⟩
      by_cases hEq : c' = c
      · subst hEq
        have hpq : p = q := by simpa using hc'
        exact Or.inl hpq.symm
      · exact Or.inr ⟨c', by simpa [hEq] using hc'⟩
    · intro c1 c2 q h1 h2
      rw [hcpu] at h1 h2
      by_cases hE1 : c1 = c <;> by_cases hE2 : c2 = c
      · rw [hE1, hE2]
      · have hpq : p = q := by simpa [hE1] using h1
        exact absurd (by simpa [hE2, hpq] using h2) (hother c2)
      · have hpq : p = q := by simpa [hE2] using h2
        exact absurd (by simpa [hE1, hpq] using h1) (hother c1)
      · exact hs.single c1 c2 q (by simpa [hE1] using h1) (by simpa [hE2] using h2)
  | leave c p hc hcpu hrun =>
    refine ⟨?_, ?_⟩
    · intro q
      rw [hrun q, hs.onCpu q, hcpu]
      constructor
      · rintro ⟨hqp, c', hc'⟩
        have hne : c' ≠ c := by
          intro hEq
          have hpq : p = q := by simpa [hEq, hc] using hc'
          exact hqp hpq.symm
        exact ⟨c', by simpa [hne] using hc'⟩
      rintro ⟨c', hc'⟩
      by_cases hEq : c' = c
      · simp [hEq] at hc'
      · have hc'' : s.cpu c' = some q := by simpa [hEq] using hc'
        refine ⟨?_, c', hc''⟩
        intro hqp
        exact hEq (hs.single c' c p (hqp ▸ hc'') hc)
    · intro c1 c2 q h1 h2
      rw [hcpu] at h1 h2
      by_cases hE1 : c1 = c
      · simp [hE1] at h1
      · by_cases hE2 : c2 = c
        · simp [hE2] at h2
        · exact hs.single c1 c2 q (by simpa [hE1] using h1) (by simpa [hE2] using h2)

end Kernel
end Xv6.Process
