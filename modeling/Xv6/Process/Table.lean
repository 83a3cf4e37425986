import Mathlib.Data.Fin.Tuple.Basic
import Mathlib.Logic.Function.Basic
import Xv6.Param

/-!
# Table — `struct proc`, the process table and the loops over it

The process table is a function from slots.  Every loop of `proc.c` that runs over `ptable.proc`
appears here once, as a function on tables: `allocproc`'s search, `wakeup1`, `boost_all_priorities`,
the selection of `scheduler`, the scans of `wait`, `join` and `kill`, and the loop of `exit` that
hands abandoned children to `initproc`.

A page directory is named by the number of directories made before it, so that two directories are
never confused even when they lie in the same page one after the other.
-/

namespace Xv6.Process

/-! ## `struct proc` -/

abbrev Slot := Fin nproc

abbrev Pgdir := ℕ

inductive ProcState
  | unused
  | embryo
  | sleeping
  | runnable
  | running
  | zombie
  deriving DecidableEq, Repr

/-- The addresses processes sleep on. -/
inductive Chan
  /-- A `struct proc`: what `wait` and `join` sleep on. -/
  | proc (p : Slot)
  /-- `&ticks`. -/
  | ticks
  /-- Any other kernel object. -/
  | other (addr : ℕ)
  deriving DecidableEq, Repr

/-- Where a process that has been switched away from goes on. -/
inductive Resume
  /-- `forkret`, for a process that has never run. -/
  | forkret
  /-- Behind the `sched()` of `yield`. -/
  | yield
  /-- Behind the `sched()` of a `sleep` that was given another lock than `ptable.lock`. -/
  | sleep
  /-- Behind the `sleep` of `wait`. -/
  | wait
  /-- Behind the `sleep` of `join`. -/
  | join
  deriving DecidableEq, Repr

/-- How far a process is in the timer interrupt it is handling. -/
inductive Trap
  | none
  /-- `ticks` is counted; the MLFQ logic comes next. -/
  | mlfq
  /-- The time slice is used up; `yield()` inside the MLFQ logic comes next. -/
  | demoted
  /-- Behind the `switch`, at the first test of `killed`. -/
  | tail
  /-- Behind the final `yield()`, at the second test of `killed`. -/
  | post
  /-- In the `exit()` that the handler itself called; interrupts are off there. -/
  | exit
  deriving DecidableEq, Repr

/-- Which system call a process is in, with the local variables it still needs. -/
inductive Call
  /-- In user space. -/
  | user
  /-- `allocproc` for `fork` has claimed `np`; its kernel stack comes next. -/
  | forkStack (np : Slot)
  /-- In `copyuvm`, before `setupkvm`. -/
  | forkSetup (np : Slot)
  /-- In `copyuvm`, with the new directory `d`. -/
  | forkCopy (np : Slot) (d : Pgdir)
  /-- `np` is filled in and about to become RUNNABLE. -/
  | forkRun (np : Slot) (pid : Int32)
  /-- `allocproc` for `clone` has claimed `np`. -/
  | cloneStack (np : Slot) (stack : ℕ)
  /-- `clone` is about to copy the address space of its caller. -/
  | cloneShare (np : Slot) (stack : ℕ)
  | cloneRun (np : Slot)
  /-- `np` is RUNNABLE; `return np->pid` comes next. -/
  | cloneRet (np : Slot)
  /-- `exec` is building the image in the new directory `d`. -/
  | exec (d : Pgdir)
  /-- In `exit`, before its critical section. -/
  | exiting
  deriving DecidableEq, Repr

/-- `struct proc`, with the saved `%eax` for the trap frame and, for the kernel stack, the place
where the process goes on. -/
structure Proc where
  sz : ℕ
  pgdir : Option Pgdir
  kstack : Option ℕ
  threadstack : ℕ
  state : ProcState
  pid : Int32
  parent : Option Slot
  eax : Int32
  chan : Option Chan
  killed : Bool
  priority : ℤ
  timeSlices : ℤ
  waitTime : ℤ
  ticksInQueue : UInt32
  totalTicks : UInt32
  arrivalTime : UInt32
  firstRunTime : UInt32
  timesScheduled : Int32
  resume : Resume
  trap : Trap
  call : Call
  deriving DecidableEq

/-- The slots of a freshly booted kernel: all of `ptable` is zero. -/
def Proc.zero : Proc :=
  { sz := 0
    pgdir := none
    kstack := none
    threadstack := 0
    state := .unused
    pid := 0
    parent := none
    eax := 0
    chan := none
    killed := false
    priority := 0
    timeSlices := 0
    waitTime := 0
    ticksInQueue := 0
    totalTicks := 0
    arrivalTime := 0
    firstRunTime := 0
    timesScheduled := 0
    resume := .forkret
    trap := .none
    call := .user }

abbrev Table := Slot → Proc

namespace Table

def modify (t : Table) (p : Slot) (f : Proc → Proc) : Table :=
  Function.update t p (f (t p))

@[simp] theorem modify_self (t : Table) (p : Slot) (f : Proc → Proc) : t.modify p f p = f (t p) := by
  simp [modify]

variable {p q : Slot} {t : Table} {prio : ℤ} {n : ℕ}

@[simp] theorem modify_of_ne (f : Proc → Proc) (h : q ≠ p) : t.modify p f q = t q := by
  simp [modify, h]

def first (f : Slot → Bool) : Option Slot :=
  (List.finRange nproc).find? f

theorem first_eq_some_iff {f : Slot → Bool} : first f = some p ↔ f p = true ∧ ∀ q < p, f q = false := by
  rw [first, ← Fin.find?_eq_find?_finRange]
  exact Fin.find?_eq_some_iff

theorem first_eq_none_iff {f : Slot → Bool} : first f = none ↔ ∀ p, f p = false := by
  rw [first, ← Fin.find?_eq_find?_finRange]
  exact Fin.find?_eq_none_iff

/-! ## The loops of `proc.c` -/

def findUnused (t : Table) : Option Slot :=
  first (fun p => (t p).state == .unused)

/-- What `allocproc` writes into the slot it found, under `ptable.lock`. -/
def claim (t : Table) (p : Slot) (pid : Int32) (ticks : UInt32) : Table :=
  t.modify p (fun q =>
    { q with
      state := .embryo
      pid := pid
      priority := 0
      timeSlices := 0
      waitTime := 0
      ticksInQueue := 0
      totalTicks := 0
      arrivalTime := ticks
      firstRunTime := 0
      timesScheduled := 0 })

def wakeup1 (t : Table) (ch : Chan) : Table :=
  fun p => if (t p).state = .sleeping ∧ (t p).chan = some ch then
    { t p with state := .runnable } else t p

def boostAllPriorities (t : Table) : Table :=
  fun p => if (t p).state = .unused then t p else
    { t p with priority := 0, timeSlices := 0, waitTime := 0 }

/-- The inner loop of `scheduler`: the first RUNNABLE slot at priority `prio`. -/
def pickAt (t : Table) (prio : ℤ) : Option Slot :=
  first (fun p => (t p).state == .runnable && (t p).priority == prio)

/-- The outer loop of `scheduler` over `n` priority levels from `prio` on, until `found`. -/
def pickFrom (t : Table) : ℕ → ℤ → Option Slot
  | 0, _ => none
  | n + 1, prio =>
    match pickAt t prio with
    | some p => some p
    | none => pickFrom t n (prio + 1)

def pick (t : Table) : Option Slot := pickFrom t nprio 0

def findZombie (t : Table) (curproc : Slot) : Option Slot :=
  first (fun p => (t p).parent == some curproc && (t p).state == .zombie)

/-- `havekids` at the end of a fruitless scan of `wait`. -/
def haveKids (t : Table) (curproc : Slot) : Bool :=
  (first (fun p => (t p).parent == some curproc)).isSome

/-- The test of `join` for a child thread. -/
def isThreadOf (t : Table) (cp p : Slot) : Bool :=
  (t p).parent == some cp && (t p).pgdir == (t cp).pgdir

def findZombieThread (t : Table) (cp : Slot) : Option Slot :=
  first (fun p => t.isThreadOf cp p && (t p).state == .zombie)

/-- `havekids` at the end of a fruitless scan of `join`. -/
def haveThreads (t : Table) (cp : Slot) : Bool :=
  (first (t.isThreadOf cp)).isSome

def findPid (t : Table) (pid : Int32) : Option Slot :=
  first (fun p => (t p).pid == pid)

/-- `wakeup1(curproc->parent)` in `exit`.  Nobody sleeps on the null pointer. -/
def wakeupParent (t : Table) (curproc : Slot) : Table :=
  match (t curproc).parent with
  | some q => t.wakeup1 (.proc q)
  | none => t

/-- The loop of `exit` that passes abandoned children to `initproc`, and wakes it if one of them is a
ZOMBIE.  No turn of the loop changes what another one tests, so the turns are taken at once. -/
def abandon (t : Table) (curproc initproc : Slot) : Table :=
  let t' : Table := fun p =>
    if (t p).parent = some curproc then { t p with parent := some initproc } else t p
  match t.findZombie curproc with
  | some _ => t'.wakeup1 (.proc initproc)
  | none => t'

/-! ## Slot by slot -/

section Slotwise

variable {t : Table} {R : Proc → Proc → Prop}

theorem modify_rel {p : Slot} {f : Proc → Proc} (hrefl : ∀ q, R q q) (h : R (t p) (f (t p))) (r : Slot) :
    R (t r) (t.modify p f r) := by
  by_cases hr : r = p
  · subst hr
    simpa using h
  · simpa [hr] using hrefl (t r)

theorem boostAllPriorities_rel (hrefl : ∀ q, R q q)
    (hboost : ∀ q, R q { q with priority := 0, timeSlices := 0, waitTime := 0 }) (r : Slot) :
    R (t r) (t.boostAllPriorities r) := by
  unfold boostAllPriorities
  split
  · exact hrefl (t r)
  · exact hboost (t r)

variable (hrefl : ∀ q, R q q) (hwake : ∀ q, q.state = .sleeping → R q { q with state := .runnable })

include hrefl hwake

theorem wakeup1_rel (ch : Chan) (r : Slot) : R (t r) (t.wakeup1 ch r) := by
  unfold wakeup1
  split
  · next h => exact hwake (t r) h.1
  · exact hrefl (t r)

theorem wakeupParent_rel (p r : Slot) : R (t r) (t.wakeupParent p r) := by
  unfold wakeupParent
  cases (t p).parent with
  | none => exact hrefl (t r)
  | some q => exact wakeup1_rel hrefl hwake _ r

/-- The children go to `initproc`, who may be woken. -/
theorem abandon_rel (htrans : ∀ q1 q2 q3, R q1 q2 → R q2 q3 → R q1 q3) {curproc initproc : Slot}
    (hparent : ∀ q, q.parent = some curproc → R q { q with parent := some initproc }) (r : Slot) :
    R (t r) (t.abandon curproc initproc r) := by
  have hgiven : ∀ t' : Table, (∀ p, t' p =
      if (t p).parent = some curproc then { t p with parent := some initproc } else t p) → R (t r) (t' r) := by
    intro t' ht'
    rw [ht']
    split
    · next h => exact hparent (t r) h
    · exact hrefl (t r)
  unfold abandon
  cases t.findZombie curproc with
  | none => exact hgiven _ fun _ => rfl
  | some q =>
    refine htrans _ _ _ ?_ (wakeup1_rel hrefl hwake _ r)
    exact hgiven _ fun _ => rfl

end Slotwise

theorem comp_modify {α : Type} (φ : Proc → α) (f : Proc → Proc) :
    (fun r => φ (t.modify p f r)) = Function.update (fun r => φ (t r)) p (φ (f (t p))) := by
  funext r
  by_cases h : r = p
  · subst h
    simp
  · simp [h]

/-! ## What the scheduler selects -/

theorem findUnused_eq_some (h : t.findUnused = some p) : (t p).state = .unused := by
  simpa using (first_eq_some_iff.1 h).1

theorem findZombie_eq_some {r : Slot} (h : t.findZombie p = some r) :
    (t r).parent = some p ∧ (t r).state = .zombie := by
  simpa using (first_eq_some_iff.1 h).1

theorem findZombieThread_eq_some {r : Slot} (h : t.findZombieThread p = some r) :
    ((t r).parent = some p ∧ (t r).pgdir = (t p).pgdir) ∧ (t r).state = .zombie := by
  simpa [isThreadOf] using (first_eq_some_iff.1 h).1

theorem pickAt_eq_some : t.pickAt prio = some p ↔ ((t p).state = .runnable ∧ (t p).priority = prio) ∧
      ∀ q < p, (t q).state = .runnable → (t q).priority ≠ prio := by
  simp [pickAt, first_eq_some_iff]

theorem pickAt_eq_none : t.pickAt prio = none ↔ ∀ q, (t q).state = .runnable → (t q).priority ≠ prio := by
  simp [pickAt, first_eq_none_iff]

/-- `p` is the first RUNNABLE slot among those of the best priority. -/
structure Selected (t : Table) (p : Slot) : Prop where
  runnable : (t p).state = .runnable
  best : ∀ q, (t q).state = .runnable → (t p).priority ≤ (t q).priority
  first : ∀ q < p, (t q).state = .runnable → (t q).priority ≠ (t p).priority

theorem Selected.unique (hp : t.Selected p) (hq : t.Selected q) : p = q := by
  have hprio : (t p).priority = (t q).priority := Int.le_antisymm (hp.best q hq.runnable) (hq.best p hp.runnable)
  rcases lt_trichotomy p q with hlt | heq | hgt
  · exact absurd hprio (hq.first p hlt hp.runnable)
  · exact heq
  · exact absurd hprio.symm (hp.first q hgt hq.runnable)

/-- The levels from `prio` on, when none below `prio` has a RUNNABLE process. -/
theorem pickFrom_selected (hbelow : ∀ q, (t q).state = .runnable → prio ≤ (t q).priority)
    (h : t.pickFrom n prio = some p) : t.Selected p := by
  induction n generalizing prio with
  | zero => cases h
  | succ n ih =>
    simp only [pickFrom] at h
    cases hat : t.pickAt prio with
    | some q =>
      have hqp : q = p := by simpa [hat] using h
      subst hqp
      rcases pickAt_eq_some.1 hat with ⟨⟨hrun, hprio⟩, hfirst⟩
      refine ⟨hrun, ?_, ?_⟩
      · intro r hr
        simpa [hprio] using hbelow r hr
      · intro r hr hrrun
        simpa [hprio] using hfirst r hr hrrun
    | none =>
      -- Nobody RUNNABLE is at this level, so everybody is above it.
      refine ih ?_ (by simpa [hat] using h)
      intro q hq
      have hle := hbelow q hq
      have hne := pickAt_eq_none.1 hat q hq
      omega

theorem pickFrom_isSome (hq : (t q).state = .runnable) (hge : prio ≤ (t q).priority) (hlt : (t q).priority < prio + n) :
    ∃ p, t.pickFrom n prio = some p := by
  induction n generalizing prio with
  | zero => simp only [Int.natCast_zero, Int.add_zero] at hlt; omega
  | succ n ih =>
    simp only [pickFrom]
    cases hat : t.pickAt prio with
    | some p => exact ⟨p, rfl⟩
    | none =>
      have hne := pickAt_eq_none.1 hat q hq
      exact ih (by omega) (by push_cast at hlt; omega)

def InRange (t : Table) : Prop := ∀ p, 0 ≤ (t p).priority ∧ (t p).priority < nprio

theorem pickFrom_runnable (h : t.pickFrom n prio = some p) : (t p).state = .runnable := by
  induction n generalizing prio with
  | zero => cases h
  | succ n ih =>
    simp only [pickFrom] at h
    cases hat : t.pickAt prio with
    | some q =>
      have hqp : q = p := by simpa [hat] using h
      exact hqp ▸ (pickAt_eq_some.1 hat).1.1
    | none => exact ih (by simpa [hat] using h)

theorem pick_runnable (h : t.pick = some p) : (t p).state = .runnable := pickFrom_runnable h

/-- With all priorities in range, `scheduler` finds the first RUNNABLE process of the best priority. -/
theorem pick_eq_some_iff (ht : t.InRange) : t.pick = some p ↔ t.Selected p := by
  constructor
  · exact pickFrom_selected (fun q _ => (ht q).1)
  · intro hp
    rcases pickFrom_isSome hp.runnable (ht p).1 (by simpa using (ht p).2) with ⟨q, hq⟩
    have hqp : q = p := (pickFrom_selected (fun r _ => (ht r).1) hq).unique hp
    exact hqp ▸ hq

/-- With all priorities in range, `scheduler` finds nothing only if nobody is RUNNABLE. -/
theorem pick_eq_none_iff (ht : t.InRange) : t.pick = none ↔ ∀ q, (t q).state ≠ .runnable := by
  constructor
  · intro h q hq
    rcases pickFrom_isSome hq (ht q).1 (by simpa using (ht q).2) with ⟨p, hp⟩
    have hnone : some p = none := hp.symm.trans h
    cases hnone
  · intro h
    cases hp : t.pick with
    | none => rfl
    | some p => exact absurd (pick_runnable hp) (h p)

end Table

end Xv6.Process
