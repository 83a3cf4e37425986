import Xv6.Process.Kin

/-!
# Records — what the kernel writes down about a process

Three statistics and the stack that `clone` was given, together with the two clocks of the machine.  Few steps
touch them: `recorded_step` lists these, and says of all others that they are `Quiet`.
-/

namespace Xv6.Process

structure Record where
  timesScheduled : Int32
  totalTicks : UInt32
  firstRunTime : UInt32
  threadstack : ℕ

def Proc.record (q : Proc) : Record where
  timesScheduled := q.timesScheduled
  totalTicks := q.totalTicks
  firstRunTime := q.firstRunTime
  threadstack := q.threadstack

/-- What `scheduler` writes when it switches to the process. -/
def Record.dispatch (q : Record) (ticks : UInt32) : Record :=
  { q with
    timesScheduled := q.timesScheduled + 1
    firstRunTime := if q.firstRunTime = 0 then ticks else q.firstRunTime }

def Record.interrupt (q : Record) : Record :=
  { q with totalTicks := q.totalTicks + 1 }

namespace Table

def records (t : Table) (r : Slot) : Record := (t r).record

theorem records_modify (t : Table) (p : Slot) (f : Proc → Proc) :
    (t.modify p f).records = Function.update t.records p (f (t p)).record :=
  comp_modify Proc.record f

theorem records_modify_of_eq (t : Table) (p : Slot) (f : Proc → Proc) (h : (f (t p)).record = (t p).record) :
    (t.modify p f).records = t.records :=
  funext (modify_rel (R := fun q q' => q'.record = q.record) (fun _ => rfl) h)

theorem records_wakeup1 (t : Table) (ch : Chan) : (t.wakeup1 ch).records = t.records :=
  funext (wakeup1_rel (R := fun q q' => q'.record = q.record) (fun _ => rfl) (fun _ _ => rfl) ch)

theorem records_boostAllPriorities (t : Table) : t.boostAllPriorities.records = t.records :=
  funext (boostAllPriorities_rel (R := fun q q' => q'.record = q.record) (fun _ => rfl) fun _ => rfl)

theorem records_abandon (t : Table) (p curproc initproc : Slot) :
    ((t.wakeupParent p).abandon curproc initproc).records = t.records :=
  (funext (abandon_rel (R := fun q q' => q'.record = q.record) (fun _ => rfl) (fun _ _ => rfl)
    (fun _ _ _ h h' => h'.trans h) fun _ _ => rfl)).trans
    (funext (wakeupParent_rel (R := fun q q' => q'.record = q.record) (fun _ => rfl) (fun _ _ => rfl) p))

end Table

namespace Kernel

variable {ncpu : ℕ} {s t u : Kernel ncpu} {c : Fin ncpu} {p np r : Slot} {a : Action ncpu} {f : Proc → Proc}

/-- The clocks and all records are as before. -/
structure Quiet (s t : Kernel ncpu) : Prop where
  records : t.proc.records = s.proc.records
  ticks : t.ticks = s.ticks
  globalTicks : t.globalTicks = s.globalTicks

theorem Quiet.refl (s : Kernel ncpu) : Quiet s s := ⟨rfl, rfl, rfl⟩

theorem Quiet.trans (h : Quiet s t) (h' : Quiet t u) : Quiet s u :=
  ⟨h'.records.trans h.records, h'.ticks.trans h.ticks, h'.globalTicks.trans h.globalTicks⟩

theorem quiet_set (h : (f (s.proc p)).record = (s.proc p).record) : Quiet s (s.set p f) :=
  ⟨s.proc.records_modify_of_eq p f h, rfl, rfl⟩

theorem quiet_setEax (v : Int32) : Quiet s (s.setEax p v) := quiet_set rfl

theorem quiet_ret (v : Int32) : Quiet s (s.ret p v) := quiet_set rfl

theorem quiet_freevm (d : Pgdir) (r : Option Slot) : Quiet s (s.freevm d r) := ⟨rfl, rfl, rfl⟩

theorem Quiet.congr (h : Quiet s t) (hproc : u.proc = t.proc) (hticks : u.ticks = t.ticks)
    (hglobal : u.globalTicks = t.globalTicks) : Quiet s u :=
  ⟨by rw [hproc, h.records], hticks.trans h.ticks, hglobal.trans h.globalTicks⟩

/-! ## Steps that touch nothing -/

theorem quiet_sleep (ch : Chan) (next : Resume) : Quiet s (s.sleep c p ch next) :=
  ⟨s.proc.records_modify_of_eq p _ rfl, rfl, rfl⟩

theorem quiet_yield (next : Trap) : Quiet s (s.yield c p next) := ⟨s.proc.records_modify_of_eq p _ rfl, rfl, rfl⟩

theorem quiet_wait (h : WaitCase s c p t) : Quiet s t := by
  cases h with
  | panic r hz hd => exact (Quiet.refl s).congr rfl rfl rfl
  | fail hz => exact (quiet_setEax _).congr rfl rfl rfl
  | sleep hz => exact quiet_sleep _ _
  | reap r d hz hd =>
    have hfree : Quiet s ((s.set r fun q => { q with kstack := none }).freevm d (some r)) :=
      (quiet_set rfl).trans (quiet_freevm d _)
    exact (hfree.trans ((quiet_set rfl).trans (quiet_setEax _))).congr rfl rfl rfl

theorem quiet_exitStart (caller : Trap) : Quiet s (s.exitStart p caller) := by
  unfold exitStart
  split_ifs
  · exact (Quiet.refl s).congr rfl rfl rfl
  · exact quiet_set rfl

theorem quiet_kill (pid : Int32) : Quiet s (s.kill p pid) := by
  unfold kill
  cases s.proc.findPid pid with
  | none => exact quiet_setEax _
  | some r => exact (quiet_set rfl).trans (quiet_setEax _)

theorem quiet_forkFail : Quiet s (s.forkFail p np) := (quiet_set rfl).trans (quiet_ret _)

theorem quiet_kstackFor (page : Option ℕ) (next : Call) : Quiet s (s.kstackFor p np page next) := by
  cases page with
  | none => exact (quiet_set rfl).trans (quiet_ret _)
  | some k => exact (quiet_set rfl).trans (quiet_set rfl)

theorem quiet_execCommit (d : Pgdir) (sz : ℕ) : Quiet s (s.execCommit p d sz) := by
  unfold execCommit
  cases (s.proc p).pgdir with
  | none => exact (Quiet.refl s).congr rfl rfl rfl
  | some old => exact (quiet_set rfl).trans ((quiet_freevm old none).trans (quiet_ret 0))

theorem quiet_exitZombie : Quiet s (s.exitZombie c p) := by
  refine ⟨?_, rfl, rfl⟩
  exact (Table.records_modify_of_eq _ p (fun q => { q with state := .zombie }) rfl).trans
    (s.proc.records_abandon p p s.initproc)

/-! ## Steps that write a record -/

theorem records_countPass (s : Kernel ncpu) : s.countPass.proc.records = s.proc.records := by
  unfold countPass
  split
  · exact s.proc.records_boostAllPriorities
  · rfl

theorem ticks_countPass : s.countPass.ticks = s.ticks := by
  unfold countPass
  split <;> rfl

theorem records_dispatch (s : Kernel ncpu) (c : Fin ncpu) (p : Slot) : (s.countPass.dispatch c p).proc.records =
      Function.update s.proc.records p ((s.proc.records p).dispatch s.ticks) := by
  refine (s.countPass.proc.records_modify p _).trans ?_
  show Function.update s.countPass.proc.records p ((s.countPass.proc.records p).dispatch s.countPass.ticks) = _
  rw [records_countPass, ticks_countPass]

theorem records_tick (s : Kernel ncpu) (c : Fin ncpu) : (s.tick c).proc.records = s.proc.records := by
  unfold tick
  split
  · exact s.proc.records_wakeup1 .ticks
  · rfl

theorem records_mlfq (hrun : (s.proc p).state = .running) :
    (s.mlfq p).proc.records = Function.update s.proc.records p (s.proc.records p).interrupt := by
  unfold mlfq
  rw [if_pos hrun]
  split_ifs
  · exact s.proc.records_modify p _
  · exact s.proc.records_modify p _

theorem quiet_mlfq (hrun : (s.proc p).state ≠ .running) : Quiet s (s.mlfq p) := by
  unfold mlfq
  rw [if_neg hrun]
  exact quiet_set rfl

theorem records_allocproc (p : Slot) (next : Slot → Call) (hnp : s.proc.findUnused = some np) :
    (s.allocproc p next).proc.records = Function.update s.proc.records np
      { s.proc.records np with timesScheduled := 0, totalTicks := 0, firstRunTime := 0 } := by
  simp only [allocproc, hnp]
  exact (Table.records_modify_of_eq _ p _ rfl).trans (s.proc.records_modify np _)

theorem records_cloneFill (s : Kernel ncpu) (p np : Slot) (stack : ℕ) : (s.cloneFill p np stack).proc.records =
      Function.update s.proc.records np { s.proc.records np with threadstack := stack } :=
  (Table.records_modify_of_eq _ p _ rfl).trans (s.proc.records_modify np _)

/-! ## All steps -/

def joining (s : Kernel ncpu) : Action ncpu → Option (Slot × Slot)
  | .join c => (s.caller c).bind fun p => (s.proc.findZombieThread p).map fun r => (p, r)
  | .resume c => (s.cpu c).bind fun p =>
    if (s.proc p).resume = .join then (s.proc.findZombieThread p).map fun r => (p, r) else none
  | _ => none

/-- An action that leaves clocks and records alone. -/
def Silent (s : Kernel ncpu) : Action ncpu → Prop
  | .schedPass _ | .timer _ | .cloneFill _ => False
  | .trap c => ∀ p, s.current c = some p → (s.proc p).trap ≠ .mlfq
  | .fork _ | .clone _ _ => s.proc.findUnused = none
  | .join c => s.joining (.join c) = none
  | .resume c => s.joining (.resume c) = none
  | _ => True

/-- What a step does to clocks and records. -/
inductive Recorded (s : Kernel ncpu) : Action ncpu → Kernel ncpu → Prop
  | quiet (a : Action ncpu) (t : Kernel ncpu) (ha : s.Silent a) (h : Quiet s t) : Recorded s a t
  | pass (c : Fin ncpu) : Recorded s (.schedPass c) (s.schedPass c)
  | timer (c : Fin ncpu) (t : Kernel ncpu) (h : Quiet (s.tick c) t) : Recorded s (.timer c) t
  | mlfq (c : Fin ncpu) (p : Slot) (hc : s.current c = some p) (ht : (s.proc p).trap = .mlfq) :
      Recorded s (.trap c) (s.mlfq p)
  | alloc (a : Action ncpu) (c : Fin ncpu) (p np : Slot) (next : Slot → Call)
      (ha : a = .fork c ∨ ∃ stack, a = .clone c stack) (hnp : s.proc.findUnused = some np) :
      Recorded s a (s.allocproc p next)
  | fill (c : Fin ncpu) (p np : Slot) (stack : ℕ) (hc : s.inCall c = some p)
      (hcall : (s.proc p).call = .cloneShare np stack) : Recorded s (.cloneFill c) (s.cloneFill p np stack)
  | join (a : Action ncpu) (p r : Slot) (t : Kernel ncpu) (ha : s.joining a = some (p, r))
      (hrec : t.proc.records = Function.update s.proc.records r { s.proc.records r with threadstack := 0 })
      (hticks : t.ticks = s.ticks) (hglobal : t.globalTicks = s.globalTicks) : Recorded s a t

/-- The loop of `join`, in a state that differs from `s` in nothing that counts. -/
theorem recorded_join (hu : Quiet s u) (h : JoinCase u c p t) (hnone : u.proc.findZombieThread p = none → s.Silent a)
    (hsome : ∀ r, u.proc.findZombieThread p = some r → s.joining a = some (p, r)) : Recorded s a t := by
  cases h with
  | fail hz => exact .quiet a _ (hnone hz) ((hu.trans (quiet_setEax _)).congr rfl rfl rfl)
  | sleep hz => exact .quiet a _ (hnone hz) (hu.trans (quiet_sleep _ _))
  | reap r hz =>
    refine .join a p r _ (hsome r hz) ?_ hu.ticks hu.globalTicks
    rw [← hu.records]
    exact (quiet_setEax _).records.trans (u.proc.records_modify r _)

theorem recorded_resume (h : ResumeCase s c p t) (hc : s.cpu c = some p) : Recorded s (.resume c) t := by
  have hchan : Quiet s (s.set p fun q => { q with chan := none }) := quiet_set rfl
  have hother : (s.proc p).resume ≠ .join → s.Silent (.resume c) := by
    intro hr
    simp [Silent, joining, hc, hr]
  cases h with
  | release hr =>
    exact .quiet _ _ (hother (by rcases hr with hr | hr <;> simp [hr])) ((Quiet.refl s).congr rfl rfl rfl)
  | sleep hr => exact .quiet _ _ (hother (by simp [hr])) (hchan.congr rfl rfl rfl)
  | wait t hr h => exact .quiet _ _ (hother (by simp [hr])) (hchan.trans (quiet_wait h))
  | join t hr h =>
    refine recorded_join hchan h (fun hz => ?_) (fun r hz => ?_)
    · rw [findZombieThread_set_chan] at hz
      simp [Silent, joining, hc, hr, hz]
    · rw [findZombieThread_set_chan] at hz
      simp [joining, hc, hr, hz]

theorem recorded_start (hc : s.caller c = some p) (h : StartCase s c p a t) : Recorded s a t := by
  cases h with
  | fork hl =>
    cases hnp : s.proc.findUnused with
    | none => exact .quiet _ _ hnp (by simpa [allocproc, hnp] using quiet_setEax _)
    | some np => exact .alloc _ c p np _ (.inl rfl) hnp
  | clone stack hl =>
    cases hnp : s.proc.findUnused with
    | none => exact .quiet _ _ hnp (by simpa [allocproc, hnp] using quiet_setEax _)
    | some np => exact .alloc _ c p np _ (.inr ⟨stack, rfl⟩) hnp
  | exec => exact .quiet _ _ trivial ⟨s.proc.records_modify_of_eq p _ rfl, rfl, rfl⟩
  | execFail => exact .quiet _ _ trivial (quiet_setEax _)
  | growFail => exact .quiet _ _ trivial (quiet_setEax _)
  | grow sz => exact .quiet _ _ trivial ((quiet_set rfl).trans (quiet_setEax 0))
  | wait t hl h => exact .quiet _ _ trivial (quiet_wait h)
  | join t hl h =>
    exact recorded_join (Quiet.refl s) h (fun hz => by simp [Silent, joining, hc, hz]) (fun r hz => by simp [joining, hc, hz])
  | kill pid hl => exact .quiet _ _ trivial (quiet_kill pid)

theorem recorded_call (hc : s.inCall c = some p) (h : CallCase s c p a t) : Recorded s a t := by
  cases h with
  | forkStack np page hcall => exact .quiet _ _ trivial (quiet_kstackFor page _)
  | cloneStack np stack page hcall => exact .quiet _ _ trivial (quiet_kstackFor page _)
  | forkSetup np hcall => exact .quiet _ _ trivial ⟨s.proc.records_modify_of_eq p _ rfl, rfl, rfl⟩
  | forkSetupFail np hcall => exact .quiet _ _ trivial quiet_forkFail
  | forkCopy np d hcall => exact .quiet _ _ trivial ((quiet_set rfl).trans (quiet_set rfl))
  | forkCopyFail np d hcall => exact .quiet _ _ trivial ((quiet_freevm d none).trans quiet_forkFail)
  | cloneFill np stack hcall => exact .fill c p np stack hc hcall
  | forkRun np pid hcall hl => exact .quiet _ _ trivial ((quiet_set rfl).trans (quiet_set rfl))
  | cloneRun np hcall hl => exact .quiet _ _ trivial ((quiet_set rfl).trans (quiet_set rfl))
  | cloneRet np hcall => exact .quiet _ _ trivial (quiet_ret _)
  | execBad d hcall => exact .quiet _ _ trivial ((quiet_freevm d none).trans (quiet_ret _))
  | execCommit d sz hcall => exact .quiet _ _ trivial (quiet_execCommit d sz)
  | exitZombie hcall hl => exact .quiet _ _ trivial quiet_exitZombie

theorem recorded_trap (hc : s.current c = some p) (h : TrapCase s c p t) : Recorded s (.trap c) t := by
  have hsilent : (s.proc p).trap ≠ .mlfq → s.Silent (.trap c) := by
    intro ht q hq
    obtain rfl : p = q := Option.some.inj (hc.symm.trans hq)
    exact ht
  cases h with
  | mlfq ht => exact .mlfq c p hc ht
  | demoted ht hl => exact .quiet _ _ (hsilent (by simp [ht])) (quiet_yield _)
  | tail ht hstate hl => exact .quiet _ _ (hsilent (by simp [ht])) (quiet_yield _)
  | skip ht hstate => exact .quiet _ _ (hsilent (by simp [ht])) (quiet_set rfl)
  | exit ht hcall => exact .quiet _ _ (hsilent (by rcases ht with ht | ht <;> simp [ht])) (quiet_exitStart _)
  | done ht => exact .quiet _ _ (hsilent (by simp [ht])) (quiet_set rfl)

theorem recorded_step (h : step s a = some t) : Recorded s a t := by
  rcases step_cases h with ⟨_, hcase⟩
  cases hcase with
  | schedPass c hc hl => exact .pass c
  | resume c p t hc hl h => exact recorded_resume h hc
  | idleTimer c hc => exact .timer c _ (Quiet.refl _)
  | timer c p hc ht => exact .timer c _ (quiet_set rfl)
  | trap c p t hc h => exact recorded_trap hc h
  | fault c p hc ht hcall => exact .quiet _ _ trivial (quiet_set rfl)
  | exit c p hc ht hcall => exact .quiet _ _ trivial (quiet_exitStart _)
  | sleep c p ch hc hl => exact .quiet _ _ trivial (quiet_sleep ch _)
  | wakeup ch hl => exact .quiet _ _ trivial ⟨s.proc.records_wakeup1 ch, rfl, rfl⟩
  | start c p a t hc h => exact recorded_start hc h
  | call c p a t hc h => exact recorded_call hc h

end Kernel

end Xv6.Process
