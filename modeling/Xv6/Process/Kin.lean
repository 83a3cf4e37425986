import Xv6.Process.Effect

/-!
# Kin — parents, children, pids and `killed` flags

`Kin` is what `wait`, `join`, `kill` and the two callers of `allocproc` see of a slot.  `event` names
what a step means for the family of processes, and `KinEffect` says what each event does to the table:
a slot is claimed, given back, filled in or made RUNNABLE, a process exits and leaves its children to
`initproc`, is reaped, killed, or kills itself by a fault.  `kinEffect_step` shows that nothing else
happens.
-/

namespace Xv6.Process

open Function (update update_eq_self)

/-! ## Views -/

structure Kin where
  life : Life
  call : Call
  parent : Option Slot
  pid : Int32
  killed : Bool
  kstack : Option ℕ

def Proc.kin (q : Proc) : Kin :=
  { life := q.state.life
    call := q.call
    parent := q.parent
    pid := q.pid
    killed := q.killed
    kstack := q.kstack }

/-- A slot after the exit of `p`, whose children go to `initproc`. -/
def Kin.adopt (k : Kin) (p initproc : Slot) : Kin :=
  { k with parent := if k.parent = some p then some initproc else k.parent }

attribute [local simp] Proc.kin ProcState.life

namespace Table

def kin (t : Table) (r : Slot) : Kin := (t r).kin

theorem kin_modify (t : Table) (p : Slot) (f : Proc → Proc) :
    (t.modify p f).kin = update t.kin p (f (t p)).kin :=
  comp_modify Proc.kin f

theorem kin_modify_of_eq (t : Table) (p : Slot) (f : Proc → Proc) (h : (f (t p)).kin = (t p).kin) :
    (t.modify p f).kin = t.kin :=
  funext (modify_rel (R := fun q q' => q'.kin = q.kin) (fun _ => rfl) h)

theorem kin_wake (q : Proc) (h : q.state = .sleeping) : { q with state := .runnable : Proc }.kin = q.kin := by
  simp [h]

@[simp] theorem kin_wakeup1 (t : Table) (ch : Chan) : (t.wakeup1 ch).kin = t.kin :=
  funext (wakeup1_rel (R := fun q q' => q'.kin = q.kin) (fun _ => rfl) kin_wake ch)

@[simp] theorem kin_wakeupParent (t : Table) (p : Slot) : (t.wakeupParent p).kin = t.kin :=
  funext (wakeupParent_rel (R := fun q q' => q'.kin = q.kin) (fun _ => rfl) kin_wake p)

@[simp] theorem kin_boostAllPriorities (t : Table) : t.boostAllPriorities.kin = t.kin :=
  funext (boostAllPriorities_rel (R := fun q q' => q'.kin = q.kin) (fun _ => rfl) fun _ => rfl)

theorem kin_abandon (t : Table) (curproc initproc : Slot) :
    (t.abandon curproc initproc).kin = fun r => (t.kin r).adopt curproc initproc := by
  have hparent : ∀ t' : Table, (∀ p, t' p =
      if (t p).parent = some curproc then { t p with parent := some initproc } else t p) →
      t'.kin = fun r => (t.kin r).adopt curproc initproc := by
    intro t' ht'
    funext r
    by_cases h : (t r).parent = some curproc <;> simp [kin, ht', h, Kin.adopt]
  unfold abandon
  cases t.findZombie curproc with
  | none => exact hparent _ (fun _ => rfl)
  | some q => exact (kin_wakeup1 _ _).trans (hparent _ (fun _ => rfl))

theorem findPid_eq_some {t : Table} {pid : Int32} {r : Slot} (h : t.findPid pid = some r) : (t r).pid = pid := by
  simpa using (first_eq_some_iff.1 h).1

end Table

namespace Kernel

variable {ncpu : ℕ}

def kin (s : Kernel ncpu) : Slot → Kin := s.proc.kin

/-! ## Events -/

/-- What a step means for the family of processes. -/
inductive Event
  | quiet
  /-- `allocproc` claims `np` for `p`. -/
  | claim (p np : Slot)
  /-- `np` gets its kernel stack. -/
  | stack (np : Slot) (page : ℕ)
  /-- An allocation fails and `p` gives `np` back. -/
  | abort (p np : Slot)
  /-- A `wait` or `join` of `p` finds the ZOMBIE `r`. -/
  | reap (p r : Slot)
  /-- `kill` finds `r`. -/
  | kill (r : Slot)
  /-- `p` misbehaves in user space. -/
  | fault (p : Slot)
  deriving DecidableEq, Repr

/-- The ZOMBIE child that the loop of `wait` frees. -/
def waitEvent (s : Kernel ncpu) (p : Slot) : Event :=
  match s.proc.findZombie p with
  | none => .quiet
  | some r =>
    match (s.proc r).pgdir with
    | none => .quiet
    | some _ => .reap p r

/-- The ZOMBIE thread that the loop of `join` frees. -/
def joinEvent (s : Kernel ncpu) (p : Slot) : Event :=
  match s.proc.findZombieThread p with
  | none => .quiet
  | some r => .reap p r

/-- The slot that `allocproc` claims for `p`. -/
def claimEvent (s : Kernel ncpu) (p : Slot) : Event :=
  match s.proc.findUnused with
  | none => .quiet
  | some np => .claim p np

/-- The slot that `p` gives back when an allocation fails. -/
def abortEvent (s : Kernel ncpu) (p : Slot) : Event :=
  match (s.proc p).call.claims with
  | none => .quiet
  | some np => .abort p np

def stackEvent (s : Kernel ncpu) (p : Slot) (page : ℕ) : Event :=
  match (s.proc p).call.claims with
  | none => .quiet
  | some np => .stack np page

/-- The event of a step of the process on a CPU, if there is one. -/
def eventOf (p : Option Slot) (f : Slot → Event) : Event :=
  match p with
  | none => .quiet
  | some p => f p

def event (s : Kernel ncpu) : Action ncpu → Event
  | .fork c | .clone c _ => eventOf (s.caller c) s.claimEvent
  | .kstack c none | .setupkvm c false | .copyuvm c false => eventOf (s.inCall c) s.abortEvent
  | .kstack c (some page) => eventOf (s.inCall c) (fun p => s.stackEvent p page)
  | .wait c => eventOf (s.caller c) s.waitEvent
  | .join c => eventOf (s.caller c) s.joinEvent
  | .resume c => eventOf (s.cpu c) (fun p =>
    match (s.proc p).resume with
    | .wait => s.waitEvent p
    | .join => s.joinEvent p
    | _ => .quiet)
  | .kill _ pid =>
    match s.proc.findPid pid with
    | none => .quiet
    | some r => .kill r
  | .fault c => eventOf (s.current c) .fault
  | _ => .quiet

def waiter (s : Kernel ncpu) : Action ncpu → Option Slot
  | .wait c | .join c => s.caller c
  | .resume c =>
    match s.cpu c with
    | none => none
    | some p =>
      if (s.proc p).resume = .wait ∨ (s.proc p).resume = .join then some p else none
  | _ => none

/-- Which action an event can come from. -/
inductive EventCase (s : Kernel ncpu) : Action ncpu → Event → Prop
  | quiet (a : Action ncpu) : EventCase s a .quiet
  | claim (a : Action ncpu) (p np : Slot) : EventCase s a (.claim p np)
  | stack (a : Action ncpu) (np : Slot) (page : ℕ) : EventCase s a (.stack np page)
  | abort (a : Action ncpu) (p np : Slot) : EventCase s a (.abort p np)
  | reap (a : Action ncpu) (p r : Slot) (hp : s.waiter a = some p) : EventCase s a (.reap p r)
  | kill (c : Fin ncpu) (pid : Int32) (r : Slot) (hfind : s.proc.findPid pid = some r) :
      EventCase s (.kill c pid) (.kill r)
  | fault (a : Action ncpu) (p : Slot) : EventCase s a (.fault p)

variable {s t : Kernel ncpu} {a : Action ncpu} {p np : Slot} {c : Fin ncpu} {ev : Event}

theorem eventCase_of {q : Option Slot} {f : Slot → Event} (h : ∀ p, q = some p → EventCase s a (f p)) :
    EventCase s a (eventOf q f) := by
  cases q with
  | none => exact .quiet a
  | some p => exact h p rfl

theorem event_case (s : Kernel ncpu) (a : Action ncpu) : EventCase s a (s.event a) := by
  have hwait : ∀ a p, s.waiter a = some p → EventCase s a (s.waitEvent p) := by
    intro a p hp
    unfold waitEvent
    split
    · exact .quiet a
    · split
      · exact .quiet a
      · exact .reap a p _ hp
  have hjoin : ∀ a p, s.waiter a = some p → EventCase s a (s.joinEvent p) := by
    intro a p hp
    unfold joinEvent
    split
    · exact .quiet a
    · exact .reap a p _ hp
  have hclaim : ∀ a p, EventCase s a (s.claimEvent p) := by
    intro a p
    unfold claimEvent
    split
    · exact .quiet a
    · exact .claim a p _
  have habort : ∀ a p, EventCase s a (s.abortEvent p) := by
    intro a p
    unfold abortEvent
    split
    · exact .quiet a
    · exact .abort a p _
  have hstack : ∀ a p page, EventCase s a (s.stackEvent p page) := by
    intro a p page
    unfold stackEvent
    split
    · exact .quiet a
    · exact .stack a _ page
  cases a with
  | fork c => exact eventCase_of (fun p _ => hclaim _ p)
  | clone c stack => exact eventCase_of (fun p _ => hclaim _ p)
  | kstack c page =>
    cases page with
    | none => exact eventCase_of (fun p _ => habort _ p)
    | some b => exact eventCase_of (fun p _ => hstack _ p b)
  | setupkvm c ok =>
    cases ok with
    | true => exact .quiet _
    | false => exact eventCase_of (fun p _ => habort _ p)
  | copyuvm c ok =>
    cases ok with
    | true => exact .quiet _
    | false => exact eventCase_of (fun p _ => habort _ p)
  | wait c => exact eventCase_of (fun p hp => hwait _ p hp)
  | join c => exact eventCase_of (fun p hp => hjoin _ p hp)
  | resume c =>
    refine eventCase_of (fun p hp => ?_)
    split
    next hres => exact hwait _ p (by simp [waiter, hp, hres])
    next hres => exact hjoin _ p (by simp [waiter, hp, hres])
    next => exact .quiet _
  | kill c pid =>
    simp only [event]
    split
    · exact .quiet _
    next r hfind => exact .kill c pid r hfind
  | fault c => exact eventCase_of (fun p _ => .fault _ p)
  | _ => exact .quiet _

/-! ## Effects -/

/-- What a step does to the family. -/
inductive KinEffect (s t : Kernel ncpu) : Event → Prop
  | quiet (hv : t.kin = s.kin) (hn : t.nextpid = s.nextpid) : KinEffect s t .quiet
  /-- A call starts or goes on that concerns no other slot. -/
  | move (p : Slot) (k : Call) (hp : (s.kin p).life = .alive)
      (hk : (s.kin p).call.claims = none ∧ ∀ np, (s.kin p).call ≠ .cloneRet np)
      (hk' : k.claims = none ∧ ∀ np, k ≠ .cloneRet np) (hinit : k = .exiting → p ≠ s.initproc)
      (hv : t.kin = update s.kin p { s.kin p with call := k })
      (hn : t.nextpid = s.nextpid) : KinEffect s t .quiet
  /-- `return np->pid` in `clone`. -/
  | ret (p np : Slot) (hp : (s.kin p).life = .alive) (hk : (s.kin p).call = .cloneRet np)
      (heax : (t.proc p).eax = (s.kin np).pid)
      (hv : t.kin = update s.kin p { s.kin p with call := .user })
      (hn : t.nextpid = s.nextpid) : KinEffect s t .quiet
  | claim (p np : Slot) (k : Call) (hp : (s.kin p).life = .alive) (hk : (s.kin p).call = .user)
      (hnp : (s.kin np).life = .free) (hk' : k.claims = some np ∧ k.fills = none)
      (hv : t.kin = update
        (update s.kin np { s.kin np with life := .claimed, pid := s.nextpid })
        p { s.kin p with call := k })
      (hn : t.nextpid = s.nextpid + 1) : KinEffect s t (.claim p np)
  | stack (p np : Slot) (page : ℕ) (k : Call)
      (hk : (s.kin p).call.claims = some np ∧ (s.kin p).call.fills = none)
      (hk' : k.claims = some np ∧ k.fills = none)
      (hv : t.kin = update
        (update s.kin np { s.kin np with kstack := some page })
        p { s.kin p with call := k })
      (hn : t.nextpid = s.nextpid) : KinEffect s t (.stack np page)
  /-- `setupkvm` has made a directory. -/
  | advance (p np : Slot) (k : Call)
      (hk : (s.kin p).call.claims = some np ∧ (s.kin p).call.fills = none)
      (hk' : k.claims = some np ∧ k.fills = none)
      (hv : t.kin = update s.kin p { s.kin p with call := k })
      (hn : t.nextpid = s.nextpid) : KinEffect s t .quiet
  | abort (p np : Slot) (hk : (s.kin p).call.claims = some np ∧ (s.kin p).call.fills = none)
      (heax : (t.proc p).eax = -1)
      (hv : t.kin = update
        (update s.kin np { s.kin np with life := .free, kstack := none })
        p { s.kin p with call := .user })
      (hn : t.nextpid = s.nextpid) : KinEffect s t (.abort p np)
  /-- The address space of `np` is there; `np->parent` is written now. -/
  | fill (p np : Slot) (k : Call)
      (hk : (s.kin p).call.claims = some np ∧ (s.kin p).call.fills = none)
      (hk' : k = .forkRun np (s.kin np).pid ∨ k = .cloneRun np)
      (hv : t.kin = update
        (update s.kin np { s.kin np with call := .user, parent := some p })
        p { s.kin p with call := k })
      (hn : t.nextpid = s.nextpid) : KinEffect s t .quiet
  | publish (p np : Slot) (k : Call)
      (hk : (∃ pid, (s.kin p).call = .forkRun np pid ∧ k = .user ∧ (t.proc p).eax = pid) ∨
        ((s.kin p).call = .cloneRun np ∧ k = .cloneRet np))
      (hv : t.kin = update (update s.kin np { s.kin np with life := .alive })
        p { s.kin p with call := k })
      (hn : t.nextpid = s.nextpid) : KinEffect s t .quiet
  | exit (p : Slot) (hp : (s.kin p).life = .alive) (hk : (s.kin p).call = .exiting)
      (hv : t.kin = update (fun r => (s.kin r).adopt p s.initproc)
        p { (s.kin p).adopt p s.initproc with life := .dead })
      (hn : t.nextpid = s.nextpid) : KinEffect s t .quiet
  | reap (p r : Slot) (hp : (s.kin p).life = .alive) (hr : (s.kin r).life = .dead)
      (hparent : (s.kin r).parent = some p) (heax : (t.proc p).eax = (s.kin r).pid)
      (hv : t.kin = update s.kin r
        { s.kin r with life := .free, parent := none, pid := 0, killed := false, kstack := none })
      (hn : t.nextpid = s.nextpid) : KinEffect s t (.reap p r)
  | kill (r : Slot) (hv : t.kin = update s.kin r { s.kin r with killed := true })
      (hn : t.nextpid = s.nextpid) : KinEffect s t (.kill r)
  | fault (p : Slot) (hp : (s.kin p).life = .alive)
      (hv : t.kin = update s.kin p { s.kin p with killed := true })
      (hn : t.nextpid = s.nextpid) : KinEffect s t (.fault p)

theorem kin_apply (r : Slot) : s.kin r = (s.proc r).kin := rfl

theorem kin_set (f : Proc → Proc) : (s.set p f).kin = update s.kin p (f (s.proc p)).kin := s.proc.kin_modify p f

theorem kin_set_of_eq {f : Proc → Proc} (h : (f (s.proc p)).kin = (s.proc p).kin) : (s.set p f).kin = s.kin :=
  s.proc.kin_modify_of_eq p f h

theorem kin_setEax (v : Int32) : (s.setEax p v).kin = s.kin := kin_set_of_eq rfl

theorem kin_ret (v : Int32) : (s.ret p v).kin = update s.kin p { s.kin p with call := .user } := kin_set _

theorem kin_set_set (hne : p ≠ np) (f g : Proc → Proc) : ((s.set np f).set p g).kin = update
      (update s.kin np (f (s.proc np)).kin) p (g (s.proc p)).kin := by
  rw [kin_set, kin_set]
  simp [set, hne]

theorem kin_countPass : s.countPass.kin = s.kin := by
  unfold countPass
  split
  · exact s.proc.kin_boostAllPriorities
  · rfl

theorem kin_tick : (s.tick c).kin = s.kin := by
  unfold tick
  split
  · exact s.proc.kin_wakeup1 .ticks
  · rfl

/-! ## Events of the steps -/

theorem kinEffect_schedPass : KinEffect s (s.schedPass c) .quiet := by
  have hn : s.countPass.nextpid = s.nextpid := by
    unfold countPass
    split <;> rfl
  unfold schedPass
  cases hpick : s.countPass.proc.pick with
  | none => exact .quiet kin_countPass hn
  | some p =>
    refine .quiet ?_ hn
    refine Eq.trans ?_ kin_countPass
    -- RUNNABLE and RUNNING look the same.
    refine kin_set_of_eq (s := s.countPass) ?_
    simp [Table.pick_runnable hpick]

theorem kin_sleep (hp : s.Running p) (ch : Chan) (next : Resume) : (s.sleep c p ch next).kin = s.kin := by
  have hrun : (s.proc p).state = .running := hp
  refine kin_set_of_eq ?_
  simp [hrun]

attribute [local simp] kin_apply Call.claims Call.fills

/-- The loop of `wait`, after a change nobody in the family sees. -/
theorem kinEffect_wait {u : Kernel ncpu} (hv : u.kin = s.kin) (hn : u.nextpid = s.nextpid) (h : WaitCase u c p t)
    (hp : u.Running p) : KinEffect s t (u.waitEvent p) := by
  cases h with
  | panic r hz hd =>
    simp only [waitEvent, hz, hd]
    exact .quiet hv hn
  | fail hz =>
    simp only [waitEvent, hz]
    exact .quiet ((kin_setEax _).trans hv) hn
  | sleep hz =>
    simp only [waitEvent, hz]
    exact .quiet ((kin_sleep hp _ _).trans hv) hn
  | reap r d hz hd =>
    rcases Table.findZombie_eq_some hz with ⟨hparent, hdead⟩
    simp only [waitEvent, hz, hd]
    refine .reap p r ?_ ?_ ?_ ?_ ?_ hn <;> rw [← hv]
    · exact hp.alive
    · simp [hdead]
    · exact hparent
    · simp [reap, setEax, set]
    refine (kin_setEax _).trans ?_
    refine (kin_set _).trans ?_
    have hkstack : ((u.set r (fun q => { q with kstack := none })).freevm d (some r)).kin =
        update u.kin r { u.kin r with kstack := none } := kin_set _
    rw [hkstack]
    simp [set, freevm]

theorem kinEffect_join {u : Kernel ncpu} (hv : u.kin = s.kin) (hn : u.nextpid = s.nextpid) (h : JoinCase u c p t)
    (hp : u.Running p) : KinEffect s t (u.joinEvent p) := by
  cases h with
  | fail hz =>
    simp only [joinEvent, hz]
    exact .quiet ((kin_setEax _).trans hv) hn
  | sleep hz =>
    simp only [joinEvent, hz]
    exact .quiet ((kin_sleep hp _ _).trans hv) hn
  | reap r hz =>
    rcases Table.findZombieThread_eq_some hz with ⟨⟨hparent, _⟩, hdead⟩
    simp only [joinEvent, hz]
    refine .reap p r ?_ ?_ ?_ ?_ ?_ hn <;> rw [← hv]
    · exact hp.alive
    · simp [hdead]
    · exact hparent
    · simp [reapThread, setEax, set]
    · exact (kin_setEax _).trans (kin_set _)

theorem findZombieThread_set_chan (p q : Slot) :
    (s.set p (fun r => { r with chan := none })).proc.findZombieThread q = s.proc.findZombieThread q := by
  refine congrArg Table.first (funext fun r => ?_)
  simp only [Table.isThreadOf]
  rw [field_set_chan Proc.parent fun _ => rfl, field_set_chan Proc.pgdir fun _ => rfl,
    field_set_chan Proc.pgdir fun _ => rfl, field_set_chan Proc.state fun _ => rfl]

theorem waitEvent_set_chan (p q : Slot) :
    (s.set p (fun r => { r with chan := none })).waitEvent q = s.waitEvent q := by
  simp only [waitEvent, findZombie_set_chan, field_set_chan Proc.pgdir fun _ => rfl]

theorem kinEffect_resume (h : ResumeCase s c p t) (hp : s.Running p) : KinEffect s t
      (match (s.proc p).resume with
      | .wait => s.waitEvent p
      | .join => s.joinEvent p
      | _ => .quiet) := by
  have hv : (s.set p (fun q => { q with chan := none })).kin = s.kin := kin_set_of_eq rfl
  have hrun : (s.set p (fun q => { q with chan := none })).Running p := (running_set Iff.rfl p).2 hp
  cases h with
  | release hr =>
    rcases hr with hr | hr <;> simp only [hr] <;> exact .quiet rfl rfl
  | sleep hr =>
    simp only [hr]
    exact .quiet hv rfl
  | wait t hr h =>
    have heff := kinEffect_wait hv rfl h hrun
    simpa only [hr, waitEvent_set_chan] using heff
  | join t hr h =>
    have heff := kinEffect_join hv rfl h hrun
    simpa only [hr, joinEvent, findZombieThread_set_chan] using heff

theorem kinEffect_exitStart (hp : s.Running p) (hcall : (s.proc p).call = .user) (caller : Trap) :
    KinEffect s (s.exitStart p caller) .quiet := by
  unfold exitStart
  split_ifs with hinit
  · exact .quiet rfl rfl
  · refine .move p .exiting hp.alive ?_ ⟨rfl, by simp⟩ (fun _ => hinit) (kin_set _) rfl
    simp [hcall]

theorem kinEffect_trap (h : TrapCase s c p t) (hp : s.Running p) : KinEffect s t .quiet := by
  have hrun : (s.proc p).state = .running := hp
  cases h with
  | mlfq ht =>
    unfold mlfq
    split_ifs
    · exact .quiet (kin_set_of_eq rfl) rfl
    · exact .quiet (kin_set_of_eq rfl) rfl
  | demoted ht hl =>
    refine .quiet (kin_set_of_eq ?_) rfl
    simp [hrun]
  | tail ht hstate hl =>
    refine .quiet (kin_set_of_eq ?_) rfl
    simp [hrun]
  | skip ht hstate => exact absurd hrun hstate
  | exit ht hcall => exact kinEffect_exitStart hp hcall _
  | done ht => exact .quiet (kin_set_of_eq rfl) rfl

theorem kinEffect_allocproc (hp : s.Running p) (hcall : (s.proc p).call = .user) {next : Slot → Call}
    (hnext : ∀ np, (next np).claims = some np ∧ (next np).fills = none) :
    KinEffect s (s.allocproc p next) (s.claimEvent p) := by
  unfold allocproc claimEvent
  cases hnp : s.proc.findUnused with
  | none => exact .quiet (kin_setEax _) rfl
  | some np =>
    have hfree := Table.findUnused_eq_some hnp
    have hne : p ≠ np := ne_of_field Proc.state hp hfree
    refine .claim p np (next np) hp.alive hcall ?_ (hnext np) ?_ rfl
    · simp [hfree]
    · exact kin_set_set hne _ (fun q => { q with call := next np })

theorem kinEffect_kill (pid : Int32) : KinEffect s (s.kill p pid)
      (match s.proc.findPid pid with
      | none => .quiet
      | some r => .kill r) := by
  unfold kill
  cases s.proc.findPid pid with
  | none => exact .quiet (kin_setEax _) rfl
  | some r =>
    refine .kill r ((kin_setEax _).trans ((kin_set _).trans ?_)) rfl
    by_cases h : (s.proc r).state = .sleeping <;> simp [h]

theorem kinEffect_start (h : StartCase s c p a t) (hp : s.Running p) (hcaller : s.caller c = some p) :
    KinEffect s t (s.event a) := by
  have hcall : (s.proc p).call = .user := (caller_eq_some.1 hcaller).2.2.1
  cases h with
  | fork hl =>
    simp only [event, hcaller, eventOf]
    exact kinEffect_allocproc hp hcall (fun _ => ⟨rfl, rfl⟩)
  | clone stack hl =>
    simp only [event, hcaller, eventOf]
    exact kinEffect_allocproc hp hcall (fun _ => ⟨rfl, rfl⟩)
  | exec =>
    refine .move p (.exec s.nextDir) hp.alive ?_ ⟨rfl, by simp⟩ (by simp) (kin_set _) rfl
    simp [hcall]
  | execFail => exact .quiet (kin_setEax _) rfl
  | growFail => exact .quiet (kin_setEax _) rfl
  | grow sz => exact .quiet ((kin_setEax _).trans (kin_set_of_eq rfl)) rfl
  | wait t hl h =>
    simp only [event, hcaller, eventOf]
    exact kinEffect_wait rfl rfl h hp
  | join t hl h =>
    simp only [event, hcaller, eventOf]
    exact kinEffect_join rfl rfl h hp
  | kill pid hl => exact kinEffect_kill pid

theorem kinEffect_kstackFor {k : Call} (hs : s.Control)
    (hk : (s.kin p).call.claims = some np ∧ (s.kin p).call.fills = none) (hk' : k.claims = some np ∧ k.fills = none)
    (page : Option ℕ) :
    KinEffect s (s.kstackFor p np page k)
      (match page with
      | none => .abort p np
      | some b => .stack np b) := by
  have hne : p ≠ np := hs.builds.ne_of_claims hk.1
  cases page with
  | none =>
    refine .abort p np hk ?_ (kin_set_set hne _ _) rfl
    simp [kstackFor, ret, set]
  | some b => exact .stack p np b k hk hk' (kin_set_set hne _ _) rfl

theorem event_kstack (hin : s.inCall c = some p) (hk : (s.proc p).call.claims = some np) (page : Option ℕ) :
    s.event (.kstack c page) = (match page with
      | none => .abort p np
      | some b => .stack np b) := by
  cases page <;> simp [event, eventOf, hin, abortEvent, stackEvent, hk, -Call.claims]

theorem kinEffect_call (h : CallCase s c p a t) (hs : s.Control) (hp : s.Running p) (hin : s.inCall c = some p) :
    KinEffect s t (s.event a) := by
  cases h with
  | forkStack np page hcall =>
    rw [event_kstack hin (by rw [hcall]; rfl)]
    exact kinEffect_kstackFor hs (by simp [hcall]) ⟨rfl, rfl⟩ page
  | cloneStack np stack page hcall =>
    rw [event_kstack hin (by rw [hcall]; rfl)]
    exact kinEffect_kstackFor hs (by simp [hcall]) ⟨rfl, rfl⟩ page
  | forkSetup np hcall =>
    exact .advance p np _ (by simp [hcall]) ⟨rfl, rfl⟩
      (kin_set _) rfl
  | forkSetupFail np hcall =>
    have hev : s.event (.setupkvm c false) = .abort p np := by
      simp [event, eventOf, hin, abortEvent, hcall]
    rw [hev]
    refine .abort p np (by simp [hcall]) ?_ (kin_set_set (hs.ne_of_call hcall rfl) _ _) rfl
    simp [forkFail, ret, set]
  | forkCopy np d hcall =>
    exact .fill p np _ (by simp [hcall]) (Or.inl rfl) (kin_set_set (hs.ne_of_call hcall rfl) _ _) rfl
  | forkCopyFail np d hcall =>
    have hev : s.event (.copyuvm c false) = .abort p np := by
      simp [event, eventOf, hin, abortEvent, hcall]
    rw [hev]
    refine .abort p np (by simp [hcall]) ?_
      (kin_set_set (s := s.freevm d none) (hs.ne_of_call hcall rfl) _ _) rfl
    simp [forkFail, freevm, ret, set]
  | cloneFill np stack hcall =>
    exact .fill p np _ (by simp [hcall]) (Or.inr rfl) (kin_set_set (hs.ne_of_call hcall rfl) _ _) rfl
  | forkRun np pid hcall hl =>
    refine .publish p np .user (Or.inl ⟨pid, hcall, rfl, ?_⟩) (kin_set_set (hs.ne_of_call hcall rfl) _ _) rfl
    simp [publish, set]
  | cloneRun np hcall hl =>
    exact .publish p np (.cloneRet np) (Or.inr ⟨hcall, rfl⟩) (kin_set_set (hs.ne_of_call hcall rfl) _ _) rfl
  | cloneRet np hcall =>
    refine .ret p np hp.alive hcall ?_ (kin_ret _) rfl
    simp [ret, set]
  | execBad d hcall =>
    exact .move p .user hp.alive (by simp [hcall]) ⟨rfl, by simp⟩ (by simp)
      (kin_ret _) rfl
  | execCommit d sz hcall =>
    simp only [event]
    unfold execCommit
    cases (s.proc p).pgdir with
    | none => exact .quiet rfl rfl
    | some old =>
      refine .move p .user hp.alive (by simp [hcall]) ⟨rfl, by simp⟩ (by simp)
        ?_ rfl
      have hset : ((s.set p (fun q => { q with pgdir := some d, sz := sz })).freevm old none).kin =
          s.kin := kin_set_of_eq rfl
      rw [kin_ret, hset]
  | exitZombie hcall hl =>
    refine .exit p hp.alive hcall ?_ rfl
    have hab : ((s.proc.wakeupParent p).abandon p s.initproc).kin = fun r => (s.kin r).adopt p s.initproc := by
      rw [Table.kin_abandon, Table.kin_wakeupParent]
      rfl
    refine (Table.kin_modify _ p _).trans ?_
    rw [hab, ← congrFun hab p]
    rfl

theorem kinEffect_step (hs : s.Control) (h : step s a = some t) : KinEffect s t (s.event a) := by
  rcases step_cases h with ⟨_, hcase⟩
  cases hcase with
  | schedPass c hc hl => exact kinEffect_schedPass
  | resume c p t hc hl h =>
    have heff := kinEffect_resume h ((hs.onCpu p).2 ⟨c, hc⟩)
    simpa only [event, hc, eventOf] using heff
  | idleTimer c hc => exact .quiet kin_tick (by unfold tick; split <;> rfl)
  | timer c p hc ht =>
    exact .quiet ((kin_set_of_eq rfl).trans kin_tick) (by unfold set tick; split <;> rfl)
  | trap c p t hc h => exact kinEffect_trap h (hs.running hc)
  | fault c p hc ht hcall =>
    simp only [event, hc, eventOf]
    exact .fault p (hs.running hc).alive (kin_set _) rfl
  | exit c p hc ht hcall => exact kinEffect_exitStart (hs.running hc) hcall _
  | sleep c p ch hc hl => exact .quiet (kin_sleep (hs.running hc) ch .sleep) rfl
  | wakeup ch hl => exact .quiet (Table.kin_wakeup1 s.proc ch) rfl
  | start c p a t hc h => exact kinEffect_start h (hs.running (caller_eq_some.1 hc).1) hc
  | call c p a t hc h => exact kinEffect_call h hs (hs.running (inCall_eq_some.1 hc).1) hc

/-! ## `initproc` -/

theorem initproc_wait (h : WaitCase s c p t) : t.initproc = s.initproc := by
  cases h <;> rfl

theorem initproc_join (h : JoinCase s c p t) : t.initproc = s.initproc := by
  cases h <;> rfl

theorem initproc_call (h : CallCase s c p a t) : t.initproc = s.initproc := by
  cases h with
  | forkStack np page hcall => cases page <;> rfl
  | cloneStack np stack page hcall => cases page <;> rfl
  | execCommit d sz hcall =>
    unfold execCommit
    split <;> rfl
  | _ => rfl

theorem initproc_step (h : step s a = some t) : t.initproc = s.initproc := by
  have htick : ∀ c, (s.tick c).initproc = s.initproc := fun _ => by
    unfold tick
    split <;> rfl
  have hexit : ∀ p caller, (s.exitStart p caller).initproc = s.initproc := fun _ _ => by
    unfold exitStart
    split <;> rfl
  have halloc : ∀ p next, (s.allocproc p next).initproc = s.initproc := fun _ _ => by
    unfold allocproc
    split <;> rfl
  rcases step_cases h with ⟨_, hcase⟩
  cases hcase with
  | schedPass c hc hl =>
    unfold schedPass countPass
    split <;> split <;> rfl
  | resume c p t hc hl h =>
    cases h with
    | wait t hr h => exact (initproc_wait h).trans rfl
    | join t hr h => exact (initproc_join h).trans rfl
    | _ => rfl
  | idleTimer c hc => exact htick c
  | timer c p hc ht => exact htick c
  | trap c p t hc h =>
    cases h with
    | mlfq ht =>
      unfold mlfq
      split_ifs <;> rfl
    | exit ht hcall => exact hexit p _
    | _ => rfl
  | exit c p hc ht hcall => exact hexit p _
  | start c p a t hc h =>
    cases h with
    | fork hl => exact halloc p _
    | clone stack hl => exact halloc p _
    | wait t hl h => exact initproc_wait h
    | join t hl h => exact initproc_join h
    | kill pid hl =>
      unfold kill
      split <;> rfl
    | _ => rfl
  | call c p a t hc h => exact initproc_call h
  | _ => rfl

/-! ## One slot at a time -/

/-- What a step does to slot `r`. -/
inductive SlotStep (s : Kernel ncpu) (r : Slot) : Event → Kin → Prop
  | same (ev : Event) : SlotStep s r ev (s.kin r)
  | call (ev : Event) (k : Call) (hr : (s.kin r).life = .alive) :
      SlotStep s r ev { s.kin r with call := k }
  | claimed (p : Slot) (hr : (s.kin r).life = .free) :
      SlotStep s r (.claim p r) { s.kin r with life := .claimed, pid := s.nextpid }
  | stack (page : ℕ) (hr : (s.kin r).life = .claimed) :
      SlotStep s r (.stack r page) { s.kin r with kstack := some page }
  | aborted (p : Slot) (hr : (s.kin r).life = .claimed) :
      SlotStep s r (.abort p r) { s.kin r with life := .free, kstack := none }
  | filled (p : Slot) (hp : (s.kin p).call.claims = some r) (hr : (s.kin r).life = .claimed) :
      SlotStep s r .quiet { s.kin r with call := .user, parent := some p }
  | published (p : Slot) (hp : (s.kin p).call.fills = some r) (hr : (s.kin r).life = .claimed) :
      SlotStep s r .quiet { s.kin r with life := .alive }
  | adopted (p : Slot) (hp : (s.kin p).call = .exiting) :
      SlotStep s r .quiet ((s.kin r).adopt p s.initproc)
  | exited (hr : (s.kin r).life = .alive) (hk : (s.kin r).call = .exiting) :
      SlotStep s r .quiet { (s.kin r).adopt r s.initproc with life := .dead }
  | reaped (p : Slot) (hr : (s.kin r).life = .dead) (hparent : (s.kin r).parent = some p) :
      SlotStep s r (.reap p r)
        { s.kin r with life := .free, parent := none, pid := 0, killed := false, kstack := none }
  | killed : SlotStep s r (.kill r) { s.kin r with killed := true }
  | faulted (hr : (s.kin r).life = .alive) : SlotStep s r (.fault r) { s.kin r with killed := true }

theorem SlotStep.of_update {w : Kin} (hv : t.kin = update s.kin p w) (hp : SlotStep s p ev w) (r : Slot) :
    SlotStep s r ev (t.kin r) := by
  rw [hv]
  by_cases hr : r = p
  · subst hr
    simpa using hp
  · simpa [hr] using SlotStep.same ev

theorem SlotStep.of_build {k : Call} {w : Kin} (hv : t.kin = update (update s.kin np w) p { s.kin p with call := k })
    (hp : (s.kin p).life = .alive) (hnp : SlotStep s np ev w) (r : Slot) : SlotStep s r ev (t.kin r) := by
  rw [hv]
  by_cases hr : r = p
  · subst hr
    simpa using SlotStep.call ev k hp
  · by_cases hrn : r = np
    · subst hrn
      simpa [hr] using hnp
    · simpa [hr, hrn] using SlotStep.same ev

theorem KinEffect.slot (h : KinEffect s t ev) (hs : s.Control) (r : Slot) : SlotStep s r ev (t.kin r) := by
  have hbuild : ∀ {p np}, (s.kin p).call.claims = some np →
      (s.kin p).life = .alive ∧ (s.kin np).life = .claimed := fun hk => hs.builds.building _ _ hk
  have hfills : ∀ {p np k}, (s.kin p).call = k → k.fills = some np →
      (s.kin p).call.fills = some np ∧ (s.kin p).call.claims = some np :=
    fun hk hf => ⟨hk ▸ hf, hk ▸ Call.claims_of_fills hf⟩
  cases h with
  | quiet hv hn => exact hv ▸ SlotStep.same _
  | move p k hp hk hk' hinit hv hn => exact .of_update hv (.call _ k hp) r
  | ret p np hp hk heax hv hn => exact .of_update hv (.call _ _ hp) r
  | claim p np k hp hk hnp hk' hv hn => exact .of_build hv hp (.claimed p hnp) r
  | stack p np page k hk hk' hv hn =>
    exact .of_build hv (hbuild hk.1).1 (.stack page (hbuild hk.1).2) r
  | advance p np k hk hk' hv hn => exact .of_update hv (.call _ k (hbuild hk.1).1) r
  | abort p np hk heax hv hn =>
    exact .of_build hv (hbuild hk.1).1 (.aborted p (hbuild hk.1).2) r
  | fill p np k hk hk' hv hn =>
    exact .of_build hv (hbuild hk.1).1 (.filled p hk.1 (hbuild hk.1).2) r
  | publish p np k hk hv hn =>
    have hf : (s.kin p).call.fills = some np ∧ (s.kin p).call.claims = some np := by
      rcases hk with ⟨pid, hk, _⟩ | ⟨hk, _⟩
      · exact hfills hk rfl
      · exact hfills hk rfl
    exact .of_build hv (hbuild hf.2).1 (.published p hf.1 (hbuild hf.2).2) r
  | exit p hp hk hv hn =>
    rw [hv]
    by_cases hr : r = p
    · subst hr
      simpa using SlotStep.exited hp hk
    · simpa [hr] using SlotStep.adopted (r := r) p hk
  | reap p r' hp hr hparent heax hv hn => exact .of_update hv (.reaped p hr hparent) r
  | kill r' hv hn => exact .of_update hv .killed r
  | fault p hp hv hn => exact .of_update hv (.faulted hp) r

end Kernel
end Xv6.Process
