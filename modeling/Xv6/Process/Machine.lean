import Xv6.Common.Transition
import Xv6.Process.Table

/-!
# Machine — processes, CPUs, the scheduler and the timer interrupt as one transition system

A step is one critical section under `ptable.lock`, or a stretch of kernel code between two such
sections.  `scheduler` keeps `ptable.lock` across `swtch`, and the process it switches to releases
it; `lock` names the CPU on which that is still to happen.  Any number of CPUs run the machine.

What depends on free memory is left open: an action says whether `kalloc`, `setupkvm`, `copyuvm` or
`allocuvm` succeeded.

The last four fields are history that no step reads: how many page directories have been made, every
call of `freevm` with the process table it found, and for each directory how often `clone` has
shared it and how often `join` has reaped one of its threads.
-/

namespace Xv6.Process

/-! ## State -/

/-- A call of `freevm`: the directory, the slot being reaped if the caller is `wait`, and the table
at the time of the call. -/
structure Freevm where
  dir : Pgdir
  reaped : Option Slot
  table : Table

structure Kernel (ncpu : ℕ) where
  proc : Table
  /-- `cpus[c].proc`. -/
  cpu : Fin ncpu → Option Slot
  lock : Option (Fin ncpu)
  initproc : Slot
  nextpid : Int32
  globalTicks : UInt32
  ticks : UInt32
  panicked : Bool
  nextDir : Pgdir
  freevms : List Freevm
  clones : Pgdir → ℕ
  joins : Pgdir → ℕ

namespace Kernel

variable {ncpu : ℕ}

def set (s : Kernel ncpu) (p : Slot) (f : Proc → Proc) : Kernel ncpu :=
  { s with proc := s.proc.modify p f }

def setEax (s : Kernel ncpu) (p : Slot) (r : Int32) : Kernel ncpu :=
  s.set p (fun q => { q with eax := r })

def ret (s : Kernel ncpu) (p : Slot) (r : Int32) : Kernel ncpu :=
  s.set p (fun q => { q with eax := r, call := .user })

def freevm (s : Kernel ncpu) (d : Pgdir) (reaped : Option Slot) : Kernel ncpu :=
  { s with freevms := s.freevms ++ [{ dir := d, reaped := reaped, table := s.proc }] }

/-- `sched`, up to the point where `scheduler` has cleared `c->proc` and released the lock. -/
def sched (s : Kernel ncpu) (c : Fin ncpu) : Kernel ncpu :=
  { s with
    cpu := Function.update s.cpu c none
    lock := none }

/-! ## The scheduler -/

/-- The head of a pass of `scheduler`: count it, and boost when the interval is over. -/
def countPass (s : Kernel ncpu) : Kernel ncpu :=
  if boostInterval ≤ s.globalTicks + 1 then
    { s with
      globalTicks := 0
      proc := s.proc.boostAllPriorities }
  else
    { s with globalTicks := s.globalTicks + 1 }

def dispatch (s : Kernel ncpu) (c : Fin ncpu) (p : Slot) : Kernel ncpu :=
  { s.set p (fun q =>
      { q with
        state := .running
        timeSlices := 0
        timesScheduled := q.timesScheduled + 1
        firstRunTime := if q.firstRunTime = 0 then s.ticks else q.firstRunTime }) with
    cpu := Function.update s.cpu c (some p)
    lock := some c }

/-- One pass of the loop of `scheduler`, up to `swtch` or to its end. -/
def schedPass (s : Kernel ncpu) (c : Fin ncpu) : Kernel ncpu :=
  match s.countPass.proc.pick with
  | none => s.countPass
  | some p => s.countPass.dispatch c p

def yield (s : Kernel ncpu) (c : Fin ncpu) (p : Slot) (next : Trap) : Kernel ncpu :=
  (s.set p (fun q => { q with state := .runnable, resume := .yield, trap := next })).sched c

/-- `sleep`: what it writes before `sched()`. -/
def sleep (s : Kernel ncpu) (c : Fin ncpu) (p : Slot) (ch : Chan) (next : Resume) : Kernel ncpu :=
  (s.set p (fun q => { q with chan := some ch, state := .sleeping, resume := next })).sched c

def wakeup (s : Kernel ncpu) (ch : Chan) : Kernel ncpu :=
  { s with proc := s.proc.wakeup1 ch }

/-! ## `wait` and `join` -/

/-- `wait` of `p` has found the ZOMBIE `r`, whose page directory is `d`. -/
def reap (s : Kernel ncpu) (p r : Slot) (d : Pgdir) : Kernel ncpu :=
  let s₁ := (s.set r (fun q => { q with kstack := none })).freevm d (some r)
  let s₂ := s₁.set r (fun q =>
    { q with
      pid := 0
      parent := none
      killed := false
      state := .unused })
  { s₂.setEax p (s.proc r).pid with lock := none }

/-- The body of the loop of `wait`, with `ptable.lock` held. -/
def waitLoop (s : Kernel ncpu) (c : Fin ncpu) (p : Slot) : Kernel ncpu :=
  match s.proc.findZombie p with
  | some r =>
    match (s.proc r).pgdir with
    -- panic("freevm: no pgdir")
    | none => { s with panicked := true }
    | some d => s.reap p r d
  | none =>
    if s.proc.haveKids p = false ∨ (s.proc p).killed = true then
      { s.setEax p (-1) with lock := none }
    else
      s.sleep c p (.proc p) .wait

/-- `join` of `p` has found the ZOMBIE thread `r`; its page directory stays. -/
def reapThread (s : Kernel ncpu) (p r : Slot) : Kernel ncpu :=
  let s₁ := s.set r (fun q =>
    { q with
      kstack := none
      pid := 0
      parent := none
      killed := false
      state := .unused
      threadstack := 0 })
  { s₁.setEax p (s.proc r).pid with
    lock := none
    joins := fun d => if (s.proc r).pgdir = some d then s.joins d + 1 else s.joins d }

/-- The body of the loop of `join`, with `ptable.lock` held. -/
def joinLoop (s : Kernel ncpu) (c : Fin ncpu) (p : Slot) : Kernel ncpu :=
  match s.proc.findZombieThread p with
  | some r => s.reapThread p r
  | none =>
    if s.proc.haveThreads p = false ∨ (s.proc p).killed = true then
      { s.setEax p (-1) with lock := none }
    else
      s.sleep c p (.proc p) .join

/-- What a process does first after `scheduler` switched to it. -/
def resume (s : Kernel ncpu) (c : Fin ncpu) (p : Slot) : Kernel ncpu :=
  match (s.proc p).resume with
  | .forkret => { s with lock := none }
  | .yield => { s with lock := none }
  | .sleep => { s.set p (fun q => { q with chan := none }) with lock := none }
  | .wait => (s.set p (fun q => { q with chan := none })).waitLoop c p
  | .join => (s.set p (fun q => { q with chan := none })).joinLoop c p

/-! ## The timer interrupt -/

/-- The head of the timer case of `trap`: CPU 0 counts `ticks`. -/
def tick (s : Kernel ncpu) (c : Fin ncpu) : Kernel ncpu :=
  if c.val = 0 then ({ s with ticks := s.ticks + 1 } : Kernel ncpu).wakeup .ticks else s

/-- The MLFQ logic of `trap`, up to its `yield()`. -/
def mlfq (s : Kernel ncpu) (p : Slot) : Kernel ncpu :=
  if (s.proc p).state = .running then
    if maxTimeSlice ≤ (s.proc p).timeSlices + 1 then
      s.set p (fun q =>
        { q with
          totalTicks := q.totalTicks + 1
          priority := if q.priority < nprio - 1 then q.priority + 1 else q.priority
          timeSlices := 0
          trap := .demoted })
    else
      s.set p (fun q =>
        { q with
          totalTicks := q.totalTicks + 1
          timeSlices := q.timeSlices + 1
          trap := .tail })
  else
    s.set p (fun q => { q with trap := .tail })

/-- The head of `exit`, called by a system call (`caller` is `none`) or by the interrupt handler. -/
def exitStart (s : Kernel ncpu) (p : Slot) (caller : Trap) : Kernel ncpu :=
  if p = s.initproc then
    -- panic("init exiting")
    { s with panicked := true }
  else
    s.set p (fun q => { q with call := .exiting, trap := caller })

/-- The critical section of `exit`. -/
def exitZombie (s : Kernel ncpu) (c : Fin ncpu) (p : Slot) : Kernel ncpu :=
  let t := (s.proc.wakeupParent p).abandon p s.initproc
  ({ s with proc := t.modify p (fun q => { q with state := .zombie }) } : Kernel ncpu).sched c

/-! ## `fork`, `clone`, `exec` -/

/-- `allocproc` up to the release of the lock; the caller goes on at `next np`, or returns -1. -/
def allocproc (s : Kernel ncpu) (p : Slot) (next : Slot → Call) : Kernel ncpu :=
  match s.proc.findUnused with
  | none => s.setEax p (-1)
  | some np =>
    { s with
      proc := (s.proc.claim np s.nextpid s.ticks).modify p (fun q => { q with call := next np })
      nextpid := s.nextpid + 1 }

/-- The rest of `allocproc`, when `kalloc` returned `page`. -/
def kstackFor (s : Kernel ncpu) (p np : Slot) (page : Option ℕ) (next : Call) : Kernel ncpu :=
  match page with
  | none => (s.set np (fun q => { q with kstack := none, state := .unused })).ret p (-1)
  | some k =>
    (s.set np (fun q => { q with kstack := some k, resume := .forkret, trap := .none })).set p
      (fun q => { q with call := next })

/-- `fork` after a failed `copyuvm`. -/
def forkFail (s : Kernel ncpu) (p np : Slot) : Kernel ncpu :=
  (s.set np (fun q => { q with pgdir := none, kstack := none, state := .unused })).ret p (-1)

/-- `fork` after `copyuvm` returned `d`, up to the last critical section. -/
def forkFill (s : Kernel ncpu) (p np : Slot) (d : Pgdir) : Kernel ncpu :=
  (s.set np (fun q =>
    { q with
      pgdir := some d
      sz := (s.proc p).sz
      parent := some p
      eax := 0
      call := .user })).set p (fun q => { q with call := .forkRun np (s.proc np).pid })

/-- `clone` after `allocproc`, up to the last critical section. -/
def cloneFill (s : Kernel ncpu) (p np : Slot) (stack : ℕ) : Kernel ncpu :=
  { (s.set np (fun q =>
      { q with
        pgdir := (s.proc p).pgdir
        sz := (s.proc p).sz
        parent := some p
        threadstack := stack
        eax := 0
        call := .user })).set p (fun q => { q with call := .cloneRun np }) with
    clones := fun d => if (s.proc p).pgdir = some d then s.clones d + 1 else s.clones d }

/-- The last critical section of `fork` and `clone`. -/
def publish (s : Kernel ncpu) (p np : Slot) (f : Proc → Proc) : Kernel ncpu :=
  (s.set np (fun q => { q with state := .runnable })).set p f

/-- `exec` from the point of commitment on. -/
def execCommit (s : Kernel ncpu) (p : Slot) (d : Pgdir) (sz : ℕ) : Kernel ncpu :=
  match (s.proc p).pgdir with
  -- panic("freevm: no pgdir")
  | none => { s with panicked := true }
  | some old => ((s.set p (fun q => { q with pgdir := some d, sz := sz })).freevm old none).ret p 0

def kill (s : Kernel ncpu) (p : Slot) (pid : Int32) : Kernel ncpu :=
  match s.proc.findPid pid with
  | none => s.setEax p (-1)
  | some r =>
    (s.set r (fun q =>
      { q with
        killed := true
        state := if q.state = .sleeping then .runnable else q.state })).setEax p 0

/-! ## Steps -/

inductive Action (ncpu : ℕ)
  /-- A pass of the loop of `scheduler` on an idle CPU. -/
  | schedPass (c : Fin ncpu)
  /-- The process just switched to releases `ptable.lock`. -/
  | resume (c : Fin ncpu)
  /-- A timer interrupt. -/
  | timer (c : Fin ncpu)
  /-- The next stretch of `trap`. -/
  | trap (c : Fin ncpu)
  /-- The default case of `trap`: the process misbehaved in user space. -/
  | fault (c : Fin ncpu)
  | fork (c : Fin ncpu)
  | clone (c : Fin ncpu) (stack : ℕ)
  /-- `kalloc` of the kernel stack in `allocproc`. -/
  | kstack (c : Fin ncpu) (page : Option ℕ)
  /-- `setupkvm` in `copyuvm`. -/
  | setupkvm (c : Fin ncpu) (ok : Bool)
  /-- The loop of `copyuvm`. -/
  | copyuvm (c : Fin ncpu) (ok : Bool)
  | cloneFill (c : Fin ncpu)
  /-- The critical section that makes the child RUNNABLE. -/
  | publish (c : Fin ncpu)
  /-- `return np->pid` in `clone`. -/
  | cloneRet (c : Fin ncpu)
  /-- `exec` up to its `setupkvm`. -/
  | exec (c : Fin ncpu) (ok : Bool)
  /-- `bad:` in `exec`, after `setupkvm`. -/
  | execBad (c : Fin ncpu)
  | execCommit (c : Fin ncpu) (sz : ℕ)
  /-- `growproc`, with the size `allocuvm` or `deallocuvm` returned. -/
  | growproc (c : Fin ncpu) (sz : Option ℕ)
  | exit (c : Fin ncpu)
  | exitZombie (c : Fin ncpu)
  | wait (c : Fin ncpu)
  | join (c : Fin ncpu)
  /-- `sleep` on some other lock than `ptable.lock`. -/
  | sleep (c : Fin ncpu) (ch : Chan)
  | wakeup (ch : Chan)
  | kill (c : Fin ncpu) (pid : Int32)
  deriving DecidableEq, Repr

/-- The process whose code CPU `c` executes, unless it has yet to release `ptable.lock`. -/
def current (s : Kernel ncpu) (c : Fin ncpu) : Option Slot :=
  if s.lock = some c then none else s.cpu c

/-- The process on `c`, if it is free to make a system call. -/
def caller (s : Kernel ncpu) (c : Fin ncpu) : Option Slot :=
  match s.current c with
  | none => none
  | some p =>
    if (s.proc p).trap = .none ∧ (s.proc p).call = .user ∧ (s.proc p).killed = false then some p
    else none

/-- The process on `c`, if it is executing a system call or `exit` and no other part of `trap`. -/
def inCall (s : Kernel ncpu) (c : Fin ncpu) : Option Slot :=
  match s.current c with
  | none => none
  | some p => if (s.proc p).trap = .none ∨ (s.proc p).trap = .exit then some p else none

def trapStep (s : Kernel ncpu) (c : Fin ncpu) (p : Slot) : Option (Kernel ncpu) :=
  match (s.proc p).trap with
  | .none => none
  | .mlfq => some (s.mlfq p)
  | .demoted => if s.lock = none then some (s.yield c p .tail) else none
  | .tail =>
    if (s.proc p).killed = true ∧ (s.proc p).call = .user then
      some (s.exitStart p .exit)
    else if (s.proc p).state = .running then
      -- Force process to give up CPU on clock tick.
      if s.lock = none then some (s.yield c p .post) else none
    else
      some (s.set p (fun q => { q with trap := .post }))
  | .post =>
    if (s.proc p).killed = true ∧ (s.proc p).call = .user then
      some (s.exitStart p .exit)
    else
      some (s.set p (fun q => { q with trap := .none }))
  | .exit => none

def callStep (s : Kernel ncpu) (p : Slot) : Action ncpu → Call → Option (Kernel ncpu)
  | .kstack _ page, .forkStack np => some (s.kstackFor p np page (.forkSetup np))
  | .kstack _ page, .cloneStack np stack => some (s.kstackFor p np page (.cloneShare np stack))
  | .setupkvm _ true, .forkSetup np =>
    some { s.set p (fun q => { q with call := .forkCopy np s.nextDir }) with
      nextDir := s.nextDir + 1 }
  | .setupkvm _ false, .forkSetup np => some (s.forkFail p np)
  | .copyuvm _ true, .forkCopy np d => some (s.forkFill p np d)
  | .copyuvm _ false, .forkCopy np d => some ((s.freevm d none).forkFail p np)
  | .cloneFill _, .cloneShare np stack => some (s.cloneFill p np stack)
  | .publish _, .forkRun np pid =>
    if s.lock = none then some (s.publish p np (fun q => { q with eax := pid, call := .user }))
    else none
  | .publish _, .cloneRun np =>
    if s.lock = none then some (s.publish p np (fun q => { q with call := .cloneRet np }))
    else none
  | .cloneRet _, .cloneRet np => some (s.ret p (s.proc np).pid)
  | .execBad _, .exec d => some ((s.freevm d none).ret p (-1))
  | .execCommit _ sz, .exec d => some (s.execCommit p d sz)
  | .exitZombie c, .exiting => if s.lock = none then some (s.exitZombie c p) else none
  | _, _ => none

def startCall (s : Kernel ncpu) (c : Fin ncpu) (p : Slot) : Action ncpu → Option (Kernel ncpu)
  | .fork _ => if s.lock = none then some (s.allocproc p .forkStack) else none
  | .clone _ stack =>
    if s.lock = none then some (s.allocproc p (fun np => .cloneStack np stack)) else none
  | .exec _ true =>
    some { s.set p (fun q => { q with call := .exec s.nextDir }) with nextDir := s.nextDir + 1 }
  | .exec _ false => some (s.setEax p (-1))
  | .growproc _ none => some (s.setEax p (-1))
  | .growproc _ (some sz) => some ((s.set p (fun q => { q with sz := sz })).setEax p 0)
  | .wait _ => if s.lock = none then some (s.waitLoop c p) else none
  | .join _ => if s.lock = none then some (s.joinLoop c p) else none
  | .kill _ pid => if s.lock = none then some (s.kill p pid) else none
  | _ => none

def step (s : Kernel ncpu) (a : Action ncpu) : Option (Kernel ncpu) :=
  if s.panicked then
    none
  else
    match a with
    | .schedPass c => if s.cpu c = none ∧ s.lock = none then some (s.schedPass c) else none
    | .resume c =>
      match s.cpu c with
      | none => none
      | some p => if s.lock = some c then some (s.resume c p) else none
    | .timer c =>
      -- On CPU 0 `wakeup(&ticks)` has to wait for `ptable.lock`.
      if s.lock = some c ∨ (c.val = 0 ∧ s.lock ≠ none) then
        none
      else
        match s.cpu c with
        | none => some (s.tick c)
        | some p =>
          if (s.proc p).trap = .none then
            some ((s.tick c).set p (fun q => { q with trap := .mlfq }))
          else
            none
    | .trap c =>
      match s.current c with
      | none => none
      | some p => s.trapStep c p
    | .fault c =>
      match s.current c with
      | none => none
      | some p =>
        if (s.proc p).trap = .none ∧ (s.proc p).call = .user then
          some (s.set p (fun q => { q with killed := true, trap := .tail }))
        else
          none
    | .exit c =>
      match s.current c with
      | none => none
      | some p =>
        if (s.proc p).trap = .none ∧ (s.proc p).call = .user then some (s.exitStart p .none)
        else none
    | .sleep c ch =>
      match s.inCall c with
      | none => none
      | some p => if s.lock = none then some (s.sleep c p ch .sleep) else none
    | .wakeup ch => if s.lock = none then some (s.wakeup ch) else none
    | .fork c | .clone c _ | .exec c _ | .growproc c _ | .wait c | .join c | .kill c _ =>
      match s.caller c with
      | none => none
      | some p => s.startCall c p a
    | .kstack c _ | .setupkvm c _ | .copyuvm c _ | .cloneFill c | .publish c | .cloneRet c
    | .execBad c | .execCommit c _ | .exitZombie c =>
      match s.inCall c with
      | none => none
      | some p => s.callStep p a (s.proc p).call

/-- The kernel after `userinit`: `allocproc` found slot 0 of the zeroed table. -/
def userinit (ncpu page : ℕ) : Kernel ncpu :=
  let initproc : Slot := ⟨0, by decide⟩
  { proc := (Table.claim (fun _ => Proc.zero) initproc 1 0).modify initproc (fun q =>
      { q with
        kstack := some page
        pgdir := some 0
        sz := pgsize
        state := .runnable })
    cpu := fun _ => none
    lock := none
    initproc := initproc
    nextpid := 2
    globalTicks := 0
    ticks := 0
    panicked := false
    nextDir := 1
    freevms := []
    clones := fun _ => 0
    joins := fun _ => 0 }

def machine (ncpu : ℕ) : Common.System (Kernel ncpu) (Action ncpu) :=
  Common.System.ofStep (fun s => ∃ page, s = userinit ncpu page) step

end Kernel

end Xv6.Process
