import Mathlib.Tactic.SplitIfs
import Xv6.Process.Machine

/-!
# Wakeup — `sleep` and `wakeup` lose no wakeup

Any number of processes share some data that a spinlock `lk` protects.  Waiters test a condition on the
data while they hold `lk` and call `sleep(chan, lk)` in a loop as long as it is false.  Whoever makes the
condition true holds `lk`, and calls `wakeup(chan)` later on.  Every acquire, every release and every
write of `sleep`, `wakeup` and `kill` to `ptable` is a step of its own.

`lk` may be `ptable.lock` itself, as in `wait` and `join`; then `sleep` leaves the locks alone, and
`wakeup1` is called with the lock held.
-/

namespace Xv6.Process
namespace Wakeup

open Common

/-! ## State -/

inductive Lock
  | ptable
  /-- Any other spinlock. -/
  | other
  deriving DecidableEq, Repr

/-- Where a process is. -/
inductive Pc
  /-- In no critical section. -/
  | out
  /-- It holds `lk`. -/
  | crit
  /-- In `sleep`, before `acquire(&ptable.lock)`. -/
  | enter
  /-- In `sleep`, before `release(lk)`. -/
  | unlock
  /-- In `sleep`, before `p->chan = chan; p->state = SLEEPING`. -/
  | fall
  /-- Before the switch to the scheduler, which releases `ptable.lock`. -/
  | sched
  /-- Switched away. -/
  | asleep
  /-- Behind `sched()`, before `p->chan = 0`. -/
  | tidy
  /-- In `sleep`, before `release(&ptable.lock)`. -/
  | leave
  /-- In `sleep`, before `acquire(lk)`. -/
  | relock
  /-- In `wakeup`, before `wakeup1`; the flag says whether `lk` is held too. -/
  | wake (crit : Bool)
  /-- In `wakeup`, before `release(&ptable.lock)`. -/
  | woke (crit : Bool)
  deriving DecidableEq, Repr

/-- What the processes agree on: the lock, the channel and the condition they wait for. -/
structure Protocol (σ C : Type) where
  lk : Lock
  chan : C
  cond : σ → Bool

structure State (P σ C : Type) where
  shared : σ
  held : Lock → Option P
  state : P → ProcState
  chan : P → Option C
  killed : P → Bool
  /-- The process has made the condition true and has yet to call `wakeup`. -/
  owes : P → Bool
  pc : P → Pc

variable {P σ C : Type} [DecidableEq P]

namespace State

def goto (s : State P σ C) (p : P) (c : Pc) : State P σ C :=
  { s with pc := Function.update s.pc p c }

def take (s : State P σ C) (l : Lock) (p : P) : State P σ C :=
  { s with held := Function.update s.held l (some p) }

def drop (s : State P σ C) (l : Lock) : State P σ C :=
  { s with held := Function.update s.held l none }

def setState (s : State P σ C) (p : P) (st : ProcState) : State P σ C :=
  { s with state := Function.update s.state p st }

def setChan (s : State P σ C) (p : P) (c : Option C) : State P σ C :=
  { s with chan := Function.update s.chan p c }

def wakeup1 [DecidableEq C] (s : State P σ C) (c : C) : State P σ C :=
  { s with state := fun q =>
      if s.state q = .sleeping ∧ s.chan q = some c then .runnable else s.state q }

def kill (s : State P σ C) (q : P) : State P σ C :=
  { s.setState q (if s.state q = .sleeping then .runnable else s.state q) with
    killed := Function.update s.killed q true }

/-- A write to the shared data by `p`, which owes a `wakeup` when it makes the condition true. -/
def write (s : State P σ C) (π : Protocol σ C) (p : P) (x : σ) : State P σ C :=
  { s with
    shared := x
    owes := if π.cond s.shared = false ∧ π.cond x = true then Function.update s.owes p true
      else s.owes }

def paid (s : State P σ C) (p : P) : State P σ C :=
  { s with owes := Function.update s.owes p false }

attribute [simp] goto take drop setState setChan wakeup1 paid

end State

/-! ## The locks -/

/-- Which locks a process at a control point holds. -/
def Pc.holds (lk : Lock) : Pc → Lock → Bool
  | .out, _ | .asleep, _ | .relock, _ => false
  | .crit, l | .enter, l => l = lk
  | .unlock, l => l = lk ∨ l = .ptable
  | .fall, l | .sched, l | .tidy, l | .leave, l => l = .ptable
  | .wake b, l | .woke b, l => l = .ptable ∨ (b = true ∧ l = lk)

def Locks (lk : Lock) (s : State P σ C) : Prop :=
  ∀ p l, (s.pc p).holds lk l = true ↔ s.held l = some p

namespace Locks

variable {lk l : Lock} {s t : State P σ C} {p : P} {c : Pc}

omit [DecidableEq P] in
theorem same (h : Locks lk s) (hpc : t.pc = s.pc) (hheld : t.held = s.held) : Locks lk t := by
  intro q l'
  rw [hpc, hheld]
  exact h q l'

theorem goto (h : Locks lk s) (hc : ∀ l', c.holds lk l' = (s.pc p).holds lk l') : Locks lk (s.goto p c) := by
  intro q l'
  by_cases hq : q = p
  · subst hq
    simpa [hc] using h q l'
  · simpa [hq] using h q l'

theorem take (h : Locks lk s) (hfree : s.held l = none)
    (hc : ∀ l', c.holds lk l' = true ↔ (s.pc p).holds lk l' = true ∨ l' = l) :
    Locks lk ((s.take l p).goto p c) := by
  intro q l'
  have hq := h q l'
  by_cases hqp : q = p <;> by_cases hl : l' = l
  · subst hqp hl
    simp [hc]
  · subst hqp
    simpa [hc, hl] using hq
  · subst hl
    -- Nobody had the lock, so the other processes are not at a point that says they have it.
    have hnot : (s.pc q).holds lk l' ≠ true := by simp [hq, hfree]
    simpa [hqp, Ne.symm hqp] using hnot
  · simpa [hqp, hl] using hq

theorem drop (h : Locks lk s) (hhas : (s.pc p).holds lk l = true)
    (hc : ∀ l', c.holds lk l' = true ↔ (s.pc p).holds lk l' = true ∧ l' ≠ l) :
    Locks lk ((s.drop l).goto p c) := by
  intro q l'
  have hq := h q l'
  by_cases hqp : q = p <;> by_cases hl : l' = l
  · subst hqp hl
    simp [hc]
  · subst hqp
    simpa [hc, hl] using hq
  · subst hl
    -- The lock was held by `p`, hence by no other process.
    have hnot : (s.pc q).holds lk l' ≠ true := by
      rw [ne_eq, hq, (h p l').1 hhas]
      simpa using Ne.symm hqp
    simpa [hqp] using hnot
  · simpa [hqp, hl] using hq

omit [DecidableEq P] in
theorem excl {q : P} (h : Locks lk s) (hp : (s.pc p).holds lk l = true)
    (hq : (s.pc q).holds lk l = true) : q = p := by
  have := ((h q l).1 hq).symm.trans ((h p l).1 hp)
  simpa using this

end Locks

/-! ## Steps -/

section Steps

variable [DecidableEq C]

inductive Action (P σ C : Type)
  | acquire (p : P)
  /-- The holder of `lk` writes the shared data. -/
  | update (p : P) (x : σ)
  | release (p : P)
  /-- The condition was tested and is false: `sleep(chan, lk)`. -/
  | sleep (p : P)
  | lockTable (p : P)
  | unlock (p : P)
  | fall (p : P)
  | sched (p : P)
  /-- `scheduler` switches back to a process behind `sched()`. -/
  | dispatch (p : P)
  | tidy (p : P)
  | unlockTable (p : P)
  | relock (p : P)
  | wakeup (p : P)
  | scan (p : P)
  | wakeupDone (p : P)
  /-- `wakeup1`, called with `ptable.lock` held. -/
  | wakeup1 (p : P)
  /-- `kill` finds `q`. -/
  | kill (q : P)
  | yield (p : P)
  /-- `scheduler` switches to a process that has yielded or slept elsewhere. -/
  | resume (p : P)
  /-- A `sleep` on another channel. -/
  | sleepOther (p : P) (c : C)
  | wakeupOther (c : C)

/-- One step.  A process executes only while it is RUNNING; between its last write in `sleep` and the
switch it is SLEEPING already. -/
def step (π : Protocol σ C) (s : State P σ C) : Action P σ C → Option (State P σ C)
  | .acquire p =>
    if s.state p = .running ∧ s.pc p = .out ∧ s.held π.lk = none then
      some ((s.take π.lk p).goto p .crit)
    else none
  | .update p x =>
    if s.state p = .running ∧ s.pc p = .crit then
      some (s.write π p x)
    else none
  | .release p =>
    if s.state p = .running ∧ s.pc p = .crit then some ((s.drop π.lk).goto p .out) else none
  | .sleep p =>
    if s.state p = .running ∧ s.pc p = .crit ∧ π.cond s.shared = false then
      some (s.goto p (if π.lk = .ptable then .fall else .enter))
    else none
  | .lockTable p =>
    if s.state p = .running ∧ s.pc p = .enter ∧ s.held .ptable = none then
      some ((s.take .ptable p).goto p .unlock)
    else none
  | .unlock p =>
    if s.state p = .running ∧ s.pc p = .unlock then some ((s.drop π.lk).goto p .fall) else none
  | .fall p =>
    if s.state p = .running ∧ s.pc p = .fall then
      some (((s.setChan p (some π.chan)).setState p .sleeping).goto p .sched)
    else none
  | .sched p => if s.pc p = .sched then some ((s.drop .ptable).goto p .asleep) else none
  | .dispatch p =>
    if s.state p = .runnable ∧ s.pc p = .asleep ∧ s.held .ptable = none then
      some (((s.take .ptable p).setState p .running).goto p .tidy)
    else none
  | .tidy p =>
    if s.state p = .running ∧ s.pc p = .tidy then
      some ((s.setChan p none).goto p (if π.lk = .ptable then .crit else .leave))
    else none
  | .unlockTable p =>
    if s.state p = .running ∧ s.pc p = .leave then some ((s.drop .ptable).goto p .relock) else none
  | .relock p =>
    if s.state p = .running ∧ s.pc p = .relock ∧ s.held π.lk = none then
      some ((s.take π.lk p).goto p .crit)
    else none
  | .wakeup p =>
    if s.state p = .running ∧ (s.pc p = .out ∨ (s.pc p = .crit ∧ π.lk ≠ .ptable)) ∧ s.held .ptable = none then
      some ((s.take .ptable p).goto p (.wake (s.pc p = .crit)))
    else none
  | .scan p =>
    match s.pc p with
    | .wake b => if s.state p = .running then some (((s.wakeup1 π.chan).paid p).goto p (.woke b)) else none
    | _ => none
  | .wakeupDone p =>
    match s.pc p with
    | .woke b =>
      if s.state p = .running then some ((s.drop .ptable).goto p (if b then .crit else .out)) else none
    | _ => none
  | .wakeup1 p =>
    if s.state p = .running ∧ s.pc p = .crit ∧ π.lk = .ptable then some ((s.wakeup1 π.chan).paid p)
    else none
  | .kill q =>
    if s.held .ptable = none then
      some (s.kill q)
    else none
  | .yield p =>
    if s.state p = .running ∧ (s.pc p = .out ∨ s.pc p = .relock) ∧ s.held .ptable = none then
      some (s.setState p .runnable)
    else none
  | .resume p =>
    if s.state p = .runnable ∧ (s.pc p = .out ∨ s.pc p = .relock) ∧ s.held .ptable = none then
      some ((s.setChan p none).setState p .running)
    else none
  | .sleepOther p c =>
    if s.state p = .running ∧ s.pc p = .out ∧ c ≠ π.chan ∧ s.held .ptable = none then
      some ((s.setChan p (some c)).setState p .sleeping)
    else none
  | .wakeupOther c => if c ≠ π.chan ∧ s.held .ptable = none then some (s.wakeup1 c) else none

/-- No process is in the protocol yet, and none is SLEEPING on the channel. -/
structure Start (π : Protocol σ C) (s : State P σ C) : Prop where
  held : ∀ l, s.held l = none
  pc : ∀ p, s.pc p = .out
  awake : ∀ p, s.state p = .sleeping → s.chan p ≠ some π.chan

def machine (P : Type) [DecidableEq P] (π : Protocol σ C) :
    System (State P σ C) (Action P σ C) :=
  System.ofStep (Start π) (step π)

/-- The steps as a relation, one constructor for each action with the guard it passed. -/
inductive Step (π : Protocol σ C) (s : State P σ C) : Action P σ C → State P σ C → Prop
  | acquire {p : P} (run : s.state p = .running) (pc : s.pc p = .out) (free : s.held π.lk = none) :
      Step π s (.acquire p) ((s.take π.lk p).goto p .crit)
  | update {p : P} {x : σ} (run : s.state p = .running) (pc : s.pc p = .crit) :
      Step π s (.update p x) (s.write π p x)
  | release {p : P} (run : s.state p = .running) (pc : s.pc p = .crit) :
      Step π s (.release p) ((s.drop π.lk).goto p .out)
  | sleep {p : P} (run : s.state p = .running) (pc : s.pc p = .crit) (cond : π.cond s.shared = false) :
      Step π s (.sleep p) (s.goto p (if π.lk = .ptable then .fall else .enter))
  | lockTable {p : P} (run : s.state p = .running) (pc : s.pc p = .enter)
      (free : s.held .ptable = none) : Step π s (.lockTable p) ((s.take .ptable p).goto p .unlock)
  | unlock {p : P} (run : s.state p = .running) (pc : s.pc p = .unlock) :
      Step π s (.unlock p) ((s.drop π.lk).goto p .fall)
  | fall {p : P} (run : s.state p = .running) (pc : s.pc p = .fall) :
      Step π s (.fall p) (((s.setChan p (some π.chan)).setState p .sleeping).goto p .sched)
  | sched {p : P} (pc : s.pc p = .sched) : Step π s (.sched p) ((s.drop .ptable).goto p .asleep)
  | dispatch {p : P} (run : s.state p = .runnable) (pc : s.pc p = .asleep)
      (free : s.held .ptable = none) :
      Step π s (.dispatch p) (((s.take .ptable p).setState p .running).goto p .tidy)
  | tidy {p : P} (run : s.state p = .running) (pc : s.pc p = .tidy) :
      Step π s (.tidy p) ((s.setChan p none).goto p (if π.lk = .ptable then .crit else .leave))
  | unlockTable {p : P} (run : s.state p = .running) (pc : s.pc p = .leave) :
      Step π s (.unlockTable p) ((s.drop .ptable).goto p .relock)
  | relock {p : P} (run : s.state p = .running) (pc : s.pc p = .relock) (free : s.held π.lk = none) :
      Step π s (.relock p) ((s.take π.lk p).goto p .crit)
  | wakeup {p : P} (run : s.state p = .running)
      (pc : s.pc p = .out ∨ (s.pc p = .crit ∧ π.lk ≠ .ptable)) (free : s.held .ptable = none) :
      Step π s (.wakeup p) ((s.take .ptable p).goto p (.wake (s.pc p = .crit)))
  | scan {p : P} {b : Bool} (run : s.state p = .running) (pc : s.pc p = .wake b) :
      Step π s (.scan p) (((s.wakeup1 π.chan).paid p).goto p (.woke b))
  | wakeupDone {p : P} {b : Bool} (run : s.state p = .running) (pc : s.pc p = .woke b) :
      Step π s (.wakeupDone p) ((s.drop .ptable).goto p (if b then .crit else .out))
  | wakeup1 {p : P} (run : s.state p = .running) (pc : s.pc p = .crit) (lk : π.lk = .ptable) :
      Step π s (.wakeup1 p) ((s.wakeup1 π.chan).paid p)
  | kill {q : P} (free : s.held .ptable = none) : Step π s (.kill q) (s.kill q)
  | yield {p : P} (run : s.state p = .running) (pc : s.pc p = .out ∨ s.pc p = .relock)
      (free : s.held .ptable = none) : Step π s (.yield p) (s.setState p .runnable)
  | resume {p : P} (run : s.state p = .runnable) (pc : s.pc p = .out ∨ s.pc p = .relock)
      (free : s.held .ptable = none) :
      Step π s (.resume p) ((s.setChan p none).setState p .running)
  | sleepOther {p : P} {c : C} (run : s.state p = .running) (pc : s.pc p = .out) (ne : c ≠ π.chan)
      (free : s.held .ptable = none) :
      Step π s (.sleepOther p c) ((s.setChan p (some c)).setState p .sleeping)
  | wakeupOther {c : C} (ne : c ≠ π.chan) (free : s.held .ptable = none) : Step π s (.wakeupOther c) (s.wakeup1 c)

theorem step_inv {π : Protocol σ C} {s t : State P σ C} {a : Action P σ C} (h : step π s a = some t) :
    Step π s a t := by
  cases a <;> simp only [step, Option.ite_none_right_eq_some, Option.some.injEq] at h
  case scan p =>
      split at h
      next b hpc =>
          obtain ⟨hrun, rfl⟩ := by simpa using h
          exact .scan hrun hpc
      next => cases h
  case wakeupDone p =>
      split at h
      next b hpc =>
          obtain ⟨hrun, rfl⟩ := by simpa using h
          exact .wakeupDone hrun hpc
      next => cases h
  all_goals
    obtain ⟨hguard, rfl⟩ := h
    constructor <;> simp_all

end Steps

/-! ## The waiters -/

/-- Between the test of the condition and the moment `lk` is let go. -/
def Pc.Tested (lk : Lock) : Pc → Prop
  | .enter | .unlock => True
  | .fall | .sched => lk = .ptable
  | _ => False

/-- Outside of the part of `sleep` from the test of the condition to the return of `sched()`. -/
def Pc.idle : Pc → Bool
  | .enter | .unlock | .fall | .sched | .asleep => false
  | _ => true

/-- Reached only when `lk` is not `ptable.lock`. -/
def Pc.other : Pc → Bool
  | .enter | .unlock | .wake true | .woke true => true
  | _ => false

/-- On the way into `sched()`, or SLEEPING behind it. -/
def State.Sleeps (s : State P σ C) (p : P) : Prop :=
  s.pc p = .fall ∨ s.pc p = .sched ∨ (s.pc p = .asleep ∧ s.state p = .sleeping)

/-- What holds of one process. -/
structure Waiter (π : Protocol σ C) (s : State P σ C) (p : P) : Prop where
  sleeping : s.state p = .sleeping → s.chan p = some π.chan → s.pc p = .sched ∨ s.pc p = .asleep
  chan : s.pc p = .sched ∨ s.pc p = .asleep → s.chan p = some π.chan
  /-- The condition cannot change while the process holds `lk`. -/
  tested : (s.pc p).Tested π.lk → π.cond s.shared = false
  /-- Whoever has made it true since then has its `wakeup` still to come. -/
  pending : s.Sleeps p → π.cond s.shared = true → ∃ q, s.owes q = true

namespace Waiter

variable {π : Protocol σ C} {s t : State P σ C} {p : P}

omit [DecidableEq P] in
/-- The step is about other processes, or makes `p` RUNNABLE. -/
theorem frame (h : Waiter π s p) (hshared : t.shared = s.shared) (howes : t.owes = s.owes)
    (hpc : t.pc p = s.pc p) (hchan : t.chan p = s.chan p)
    (hstate : t.state p = s.state p ∨ t.state p = .runnable) : Waiter π t p where
  sleeping hs hc := by
    rcases hstate with hstate | hstate
    · rw [hpc]
      exact h.sleeping (hstate ▸ hs) (hchan ▸ hc)
    · simp [hstate] at hs
  chan hp := by
    rw [hchan]
    exact h.chan (hpc ▸ hp)
  tested hp := by
    rw [hshared]
    exact h.tested (hpc ▸ hp)
  pending hs hc := by
    rw [howes]
    refine h.pending ?_ (hshared ▸ hc)
    rcases hs with hs | hs | ⟨hs, hst⟩
    · exact .inl (hpc ▸ hs)
    · exact .inr (.inl (hpc ▸ hs))
    · rcases hstate with hstate | hstate
      · exact .inr (.inr ⟨hpc ▸ hs, hstate ▸ hst⟩)
      · simp [hstate] at hst

omit [DecidableEq P] in
theorem idle (hpc : (t.pc p).idle = true) (hstate : t.state p = .sleeping → t.chan p ≠ some π.chan) :
    Waiter π t p := by
  have hnot : ∀ c, t.pc p = c → c.idle = true := by
    intro c hc
    exact hc ▸ hpc
  refine ⟨fun hs hc => absurd hc (hstate hs), fun hp => ?_, fun hp => ?_, fun hs => ?_⟩
  · rcases hp with hp | hp
    · cases hnot _ hp
    · cases hnot _ hp
  · cases hc : t.pc p <;> simp [hc, Pc.Tested, Pc.idle] at hp hpc
  · rcases hs with hs | hs | ⟨hs, _⟩
    · cases hnot _ hs
    · cases hnot _ hs
    · cases hnot _ hs

omit [DecidableEq P] in
theorem testing (hrun : t.state p = .running) (hpc : t.pc p ≠ .sched ∧ t.pc p ≠ .asleep)
    (hcond : π.cond t.shared = false) : Waiter π t p where
  sleeping hs := by simp [hrun] at hs
  chan hp := by
    rcases hp with hp | hp
    · exact absurd hp hpc.1
    · exact absurd hp hpc.2
  tested _ := hcond
  pending _ hc := by simp [hcond] at hc

end Waiter

/-- `t` is `s` except for the control point, the channel and the state of `p` (and the locks). -/
structure SameBut (p : P) (s t : State P σ C) : Prop where
  shared : t.shared = s.shared
  owes : t.owes = s.owes
  pc : ∀ q, q ≠ p → t.pc q = s.pc q
  chan : ∀ q, q ≠ p → t.chan q = s.chan q
  state : ∀ q, q ≠ p → t.state q = s.state q

namespace SameBut

variable {s t : State P σ C} {p : P}

omit [DecidableEq P] in
theorem refl (s : State P σ C) (p : P) : SameBut p s s := ⟨rfl, rfl, fun _ _ => rfl, fun _ _ => rfl, fun _ _ => rfl⟩

theorem goto (h : SameBut p s t) (c : Pc) : SameBut p s (t.goto p c) where
  shared := h.shared
  owes := h.owes
  pc q hq := by simpa [hq] using h.pc q hq
  chan := h.chan
  state := h.state

omit [DecidableEq P] in
theorem take (h : SameBut p s t) (l : Lock) : SameBut p s (t.take l p) := ⟨h.shared, h.owes, h.pc, h.chan, h.state⟩

omit [DecidableEq P] in
theorem drop (h : SameBut p s t) (l : Lock) : SameBut p s (t.drop l) := ⟨h.shared, h.owes, h.pc, h.chan, h.state⟩

theorem setState (h : SameBut p s t) (st : ProcState) : SameBut p s (t.setState p st) where
  shared := h.shared
  owes := h.owes
  pc := h.pc
  chan := h.chan
  state q hq := by simpa [hq] using h.state q hq

theorem setChan (h : SameBut p s t) (c : Option C) : SameBut p s (t.setChan p c) where
  shared := h.shared
  owes := h.owes
  pc := h.pc
  chan q hq := by simpa [hq] using h.chan q hq
  state := h.state

end SameBut

/-! ## The invariant -/

structure Inv (π : Protocol σ C) (s : State P σ C) : Prop where
  locks : Locks π.lk s
  other : ∀ p, (s.pc p).other = true → π.lk ≠ .ptable
  waiter : ∀ p, Waiter π s p

namespace Inv

variable {π : Protocol σ C} {s t : State P σ C} {p q : P}

omit [DecidableEq P] in
theorem of_start (h : Start π s) : Inv π s where
  locks p l := by simp [h.pc p, h.held l, Pc.holds]
  other p hp := by simp [h.pc p, Pc.other] at hp
  waiter p := .idle (by rw [h.pc p]; rfl) (h.awake p)

omit [DecidableEq P] in
theorem moved (h : Inv π s) (hs : SameBut p s t) (hlocks : Locks π.lk t)
    (hother : (t.pc p).other = true → π.lk ≠ .ptable) (hp : Waiter π t p) : Inv π t := by
  refine ⟨hlocks, fun q => ?_, fun q => ?_⟩
  · by_cases hq : q = p
    · exact hq ▸ hother
    · exact hs.pc q hq ▸ h.other q
  · by_cases hq : q = p
    · exact hq ▸ hp
    · exact (h.waiter q).frame hs.shared hs.owes (hs.pc q hq) (hs.chan q hq) (.inl (hs.state q hq))

/-- A write by the holder of `lk`: nobody else is between its test and its release of `lk`. -/
theorem write (h : Inv π s) (hpc : s.pc p = .crit) (x : σ) : Inv π (s.write π p x) where
  locks := h.locks.same rfl rfl
  other := h.other
  waiter q :=
    { sleeping := (h.waiter q).sleeping
      chan := (h.waiter q).chan
      tested := by
        intro htest
        have hq : (s.pc q).holds π.lk π.lk = true := by
          change (s.pc q).Tested π.lk at htest
          revert htest
          cases s.pc q <;> simp +contextual [Pc.Tested, Pc.holds]
        have hqp : q = p := h.locks.excl (by simp [hpc, Pc.holds]) hq
        change (s.pc q).Tested π.lk at htest
        simp [hqp, hpc, Pc.Tested] at htest
      pending := by
        intro hsleeps hx
        by_cases hold : π.cond s.shared = false
        -- This write has made the condition true, so `p` owes the wakeup.
        · exact ⟨p, by simp [State.write, hold, show π.cond x = true from hx]⟩
        · obtain ⟨r, hr⟩ := (h.waiter q).pending hsleeps (by simpa using hold)
          exact ⟨r, by simpa [State.write, hold] using hr⟩ }

/-- `wakeup1` on the channel, by the holder of `ptable.lock`: no process is left SLEEPING there. -/
theorem waiter_wakeup1 [DecidableEq C] (h : Inv π s) (hpc : (s.pc p).holds π.lk .ptable = true)
    (hq : q ≠ p) : Waiter π ((s.wakeup1 π.chan).paid p) q := by
  have hnot : (s.pc q).holds π.lk .ptable ≠ true := fun hhas => hq (h.locks.excl hpc hhas)
  refine ⟨fun hs hc => ?_, (h.waiter q).chan, (h.waiter q).tested, fun hs _ => ?_⟩
  · have hs' : s.state q = .sleeping := by
      by_contra hne
      simp [hne] at hs
    exact (h.waiter q).sleeping hs' hc
  rcases hs with hs | hs | ⟨hs, hst⟩
  · simp [show s.pc q = .fall from hs, Pc.holds] at hnot
  · simp [show s.pc q = .sched from hs, Pc.holds] at hnot
  · -- A process behind its `sched()` sleeps on the channel, so the scan has reached it.
    have hchan := (h.waiter q).chan (.inr hs)
    by_cases hsl : s.state q = .sleeping <;> simp [hsl, hchan] at hst

omit [DecidableEq P] in
theorem woken (h : Inv π s) (hshared : t.shared = s.shared) (howes : t.owes = s.owes)
    (hheld : t.held = s.held) (hpc : t.pc = s.pc) (hchan : t.chan = s.chan)
    (hstate : ∀ q, t.state q = s.state q ∨ t.state q = .runnable) : Inv π t where
  locks := h.locks.same hpc hheld
  other q := congrFun hpc q ▸ h.other q
  waiter q := (h.waiter q).frame hshared howes (congrFun hpc q) (congrFun hchan q) (hstate q)

/-- The actor of `wakeup1` itself is RUNNING, hence not touched by the scan. -/
theorem wakeup1 [DecidableEq C] (h : Inv π s) (hrun : s.state p = .running)
    (hpc : (s.pc p).holds π.lk .ptable = true) (hidle : (s.pc p).idle = true) :
    Inv π ((s.wakeup1 π.chan).paid p) where
  locks := h.locks.same rfl rfl
  other := h.other
  waiter q := by
    by_cases hq : q = p
    · subst hq
      exact .idle hidle (by simp [hrun])
    · exact h.waiter_wakeup1 hpc hq

attribute [simp] Pc.holds Pc.other Pc.idle Pc.Tested

theorem step [DecidableEq C] {a : Action P σ C} (h : Inv π s) (hstep : Step π s a t) : Inv π t := by
  cases hstep with
  | acquire run pc free =>
    refine h.moved (((SameBut.refl s _).take _).goto _) (h.locks.take free (by simp [pc]))
      (by simp) ?_
    exact .idle (by simp) (by simp [run])
  | update run pc => exact h.write pc _
  | release run pc =>
    refine h.moved (((SameBut.refl s _).drop _).goto _)
      (h.locks.drop (by simp [pc]) (by simp [pc])) (by simp) ?_
    exact .idle (by simp) (by simp [run])
  | @sleep p run pc cond =>
    -- With `lk` being `ptable.lock` the two lock operations of `sleep` are skipped.
    by_cases hlk : π.lk = .ptable
    · simp only [hlk, if_true]
      refine h.moved ((SameBut.refl s _).goto _) (h.locks.goto (by simp [hlk, pc]))
        (by simp) ?_
      exact .testing run (by simp) cond
    · simp only [hlk, if_false]
      refine h.moved ((SameBut.refl s _).goto _) (h.locks.goto (by simp [pc])) (fun _ => hlk) ?_
      exact .testing run (by simp) cond
  | @lockTable p run pc free =>
    have hcond : π.cond s.shared = false := (h.waiter p).tested (by simp [pc])
    have hlk : π.lk ≠ .ptable := h.other p (by simp [pc])
    refine h.moved (((SameBut.refl s _).take _).goto _) (h.locks.take free (by simp [pc]))
      (fun _ => hlk) ?_
    exact .testing run (by simp) hcond
  | @unlock p run pc =>
    have hcond : π.cond s.shared = false := (h.waiter p).tested (by simp [pc])
    have hlk : π.lk ≠ .ptable := h.other p (by simp [pc])
    refine h.moved (((SameBut.refl s _).drop _).goto _)
      (h.locks.drop (by simp [pc]) fun l => ?_) (fun _ => hlk) ?_
    · cases l <;> cases hk : π.lk <;> simp_all
    · exact .testing run (by simp) hcond
  | @fall p run pc =>
    refine h.moved ((((SameBut.refl s _).setChan _).setState _).goto _) ?_ (by simp) ?_
    · exact (h.locks.goto (p := p) (c := .sched) (by simp [pc])).same rfl rfl
    have hold := h.waiter p
    refine ⟨fun _ _ => .inl (by simp), fun _ => ?_, fun ht => ?_, fun _ => ?_⟩
    · simp
    · exact hold.tested (by simpa [pc] using ht)
    · exact hold.pending (.inl pc)
  | @sched p pc =>
    have hold := h.waiter p
    refine h.moved (((SameBut.refl s _).drop _).goto _)
      (h.locks.drop (by simp [pc]) (by simp [pc])) (by simp) ?_
    refine ⟨fun _ _ => .inr (by simp), fun _ => hold.chan (.inl pc), fun ht => ?_,
      fun _ => hold.pending (.inr (.inl pc))⟩
    simp at ht
  | @dispatch p run pc free =>
    refine h.moved ((((SameBut.refl s _).take _).setState _).goto _) ?_ (by simp) ?_
    · exact (h.locks.take (p := p) (c := .tidy) free (by simp [pc])).same rfl rfl
    · exact .idle (by simp) (by simp)
  | @tidy p run pc =>
    refine h.moved (((SameBut.refl s _).setChan _).goto _) ?_ ?_ ?_
    · have hgoto := h.locks.goto (p := p) (c := if π.lk = .ptable then .crit else .leave) fun l => by
        by_cases hlk : π.lk = .ptable <;> simp [hlk, pc]
      exact hgoto.same rfl rfl
    · by_cases hlk : π.lk = .ptable <;> simp [hlk]
    · refine .idle ?_ (by simp)
      by_cases hlk : π.lk = .ptable <;> simp [hlk]
  | unlockTable run pc =>
    refine h.moved (((SameBut.refl s _).drop _).goto _)
      (h.locks.drop (by simp [pc]) (by simp [pc])) (by simp) ?_
    exact .idle (by simp) (by simp [run])
  | relock run pc free =>
    refine h.moved (((SameBut.refl s _).take _).goto _) (h.locks.take free (by simp [pc]))
      (by simp) ?_
    exact .idle (by simp) (by simp [run])
  | @wakeup p run pc free =>
    refine h.moved (((SameBut.refl s _).take _).goto _) (h.locks.take free fun l => ?_) ?_ ?_
    · rcases pc with pc | ⟨pc, -⟩
      · simp [pc]
      · simp [pc, or_comm]
    · rcases pc with pc | ⟨pc, hlk⟩
      · simp [pc]
      · exact fun _ => hlk
    · exact .idle (by simp) (by simp [run])
  | @scan p b run pc =>
    have hscan := h.wakeup1 run (by simp [pc]) (by simp [pc])
    refine hscan.moved ((SameBut.refl _ _).goto _) (hscan.locks.goto (by simp [pc])) ?_ ?_
    · have hother := h.other p
      rw [pc] at hother
      cases b
      · simp
      · simpa using hother
    · exact .idle (by simp) (by simp [run])
  | @wakeupDone p b run pc =>
    have hother := h.other p
    rw [pc] at hother
    refine h.moved (((SameBut.refl s _).drop _).goto _)
      (h.locks.drop (by simp [pc]) fun l => ?_) ?_ ?_
    · cases b
      · simp [pc]
      · cases l <;> cases hk : π.lk <;> simp_all
    · cases b <;> simp
    · refine .idle ?_ (by simp [run])
      cases b <;> simp
  | wakeup1 run pc lk => exact h.wakeup1 run (by simp [pc, lk]) (by simp [pc])
  | @kill q free =>
    refine h.woken rfl rfl rfl rfl rfl fun r => ?_
    by_cases hr : r = q
    · subst hr
      by_cases hs : s.state r = .sleeping <;> simp [State.kill, hs]
    · simp [State.kill, hr]
  | @yield p run pc free =>
    refine h.moved ((SameBut.refl s _).setState _) (h.locks.same rfl rfl) (h.other p) ?_
    refine .idle ?_ (by simp)
    rcases pc with pc | pc <;> simp [pc]
  | @resume p run pc free =>
    refine h.moved (((SameBut.refl s _).setChan _).setState _) (h.locks.same rfl rfl) (h.other p) ?_
    refine .idle ?_ (by simp)
    rcases pc with pc | pc <;> simp [pc]
  | @sleepOther p c run pc ne free =>
    refine h.moved (((SameBut.refl s _).setChan _).setState _) (h.locks.same rfl rfl) (h.other p) ?_
    exact .idle (by simp [pc])
      (by simpa using ne)
  | @wakeupOther c ne free =>
    refine h.woken rfl rfl rfl rfl rfl fun r => ?_
    by_cases hr : s.state r = .sleeping ∧ s.chan r = some c <;> simp [hr]

end Inv

theorem inv_of_reachable [DecidableEq C] {π : Protocol σ C} {s : State P σ C}
    (h : (machine P π).Reachable s) : Inv π s :=
  h.invariant (fun _ hs => .of_start hs) fun _ _ _ hs hstep => hs.step (step_inv hstep)

/-! ## The return of `sleep` -/

/-- The process has called `sleep` and has not returned. -/
def Pc.inSleep : Pc → Bool
  | .enter | .unlock | .fall | .sched | .asleep | .tidy | .leave | .relock => true
  | _ => false

/-- A process leaves `sleep` into its critical section. -/
theorem Step.crit_of_return [DecidableEq C] {π : Protocol σ C} {s t : State P σ C} {a : Action P σ C}
    (h : Step π s a t) {p : P} (hin : (s.pc p).inSleep = true) (hout : (t.pc p).inSleep = false) :
    t.pc p = .crit := by
  -- Only a step that moves `p` itself can take it out of `sleep`.
  have hmove : ∀ {u : State P σ C} {q : P} {c : Pc}, u.pc = s.pc →
      ((u.goto q c).pc p).inSleep = false → p = q ∧ (u.goto q c).pc p = c := by
    intro u q c hu hnot
    by_cases hpq : p = q
    · exact ⟨hpq, by simp [hpq]⟩
    · simp [hpq, hu, hin] at hnot
  -- A process that was outside of `sleep` is not the one that leaves it.
  have hself : ∀ {u : State P σ C} {q : P} {c : Pc}, u.pc = s.pc → (s.pc q).inSleep = false →
      ((u.goto q c).pc p).inSleep = false → False := by
    intro u q c hu hq hnot
    obtain ⟨rfl, -⟩ := hmove hu hnot
    simp [hq] at hin
  cases h with
  | update | wakeup1 | kill | yield | resume | sleepOther | wakeupOther =>
    exact absurd (hin.symm.trans hout) (by decide)
  | acquire | relock => exact (hmove (by rfl) hout).2
  | lockTable | unlock | fall | sched | dispatch | unlockTable =>
    rw [(hmove (by rfl) hout).2] at hout
    cases hout
  | release run pc | sleep run pc | scan run pc | wakeupDone run pc =>
    exact (hself (by rfl) (by simp [pc, Pc.inSleep]) hout).elim
  | wakeup run pc =>
    refine (hself (by rfl) ?_ hout).elim
    rcases pc with pc | ⟨pc, -⟩ <;> simp [pc, Pc.inSleep]
  | tidy run pc =>
    have hc := (hmove (by rfl) hout).2
    by_cases hlk : π.lk = .ptable
    · simpa [hlk] using hc
    · rw [hc] at hout
      simp [hlk, Pc.inSleep] at hout

/-- No reachable state has a process SLEEPING on the channel while the condition is true and no
`wakeup` is to come (whether or not `lk` is free), and a process that leaves `sleep` holds `lk`,
whoever made it RUNNABLE. -/
theorem no_lost_wakeup [DecidableEq C] {π : Protocol σ C} {s : State P σ C}
    (h : (machine P π).Reachable s) :
    (¬ ∃ p, s.state p = .sleeping ∧ s.chan p = some π.chan ∧ π.cond s.shared = true ∧ ∀ q, s.owes q = false) ∧
    ∀ a t p, step π s a = some t → (s.pc p).inSleep = true → (t.pc p).inSleep = false → t.held π.lk = some p := by
  have hinv := inv_of_reachable h
  constructor
  · rintro ⟨p, hsleeping, hchan, hcond, hpaid⟩
    have hsleeps : s.Sleeps p := by
      rcases hinv.waiter p |>.sleeping hsleeping hchan with hpc | hpc
      · exact .inr (.inl hpc)
      · exact .inr (.inr ⟨hpc, hsleeping⟩)
    rcases (hinv.waiter p).pending hsleeps hcond with ⟨q, hq⟩
    simp [hpaid q] at hq
  · intro a t p hstep hin hout
    have ht : Inv π t := hinv.step (step_inv hstep)
    have hcrit := (step_inv hstep).crit_of_return hin hout
    exact (ht.locks p π.lk).1 (by simp [hcrit, Pc.holds])

def flag : Protocol Bool Unit :=
  { lk := .other
    chan := ()
    cond := id }

def flagStart : State (Fin 2) Bool Unit :=
  { shared := false
    held := fun _ => none
    state := fun _ => .running
    chan := fun _ => none
    killed := fun _ => false
    owes := fun _ => false
    pc := fun _ => .out }

/-- Process 0 goes to sleep, process 1 sets the flag, and 0 is made RUNNABLE by `kill` instead of the
`wakeup` that 1 still owes. -/
def flagRun : List (Action (Fin 2) Bool Unit) :=
  [.acquire 0, .sleep 0, .lockTable 0, .unlock 0, .fall 0, .sched 0, .acquire 1, .update 1 true,
    .release 1, .kill 0, .dispatch 0, .tidy 0, .unlockTable 0]

theorem relock_flagRun :
    ∃ s t, (machine (Fin 2) flag).Reachable s ∧ s.killed 0 = true ∧ step flag s (.relock 0) = some t ∧
      (t.pc 0).inSleep = false ∧ t.held flag.lk = some 0 := by
  have hexec : (System.execute (step flag) flagStart flagRun).map
      (fun s => decide (s.killed 0 = true ∧ (s.pc 0).inSleep = true ∧
        (step flag s (.relock 0)).map (fun t => (t.pc 0).inSleep) = some false)) = some true := by
    decide
  rcases Option.map_eq_some_iff.1 hexec with ⟨s, hs, hdec⟩
  rcases of_decide_eq_true hdec with ⟨hkilled, hin, hstep⟩
  rcases Option.map_eq_some_iff.1 hstep with ⟨t, ht, hout⟩
  have hreach : (machine (Fin 2) flag).Reachable s := by
    rcases System.run_of_execute hs with ⟨es, hrun, -⟩
    exact ⟨flagStart, es, ⟨fun _ => rfl, fun _ => rfl, by simp [flagStart]⟩, hrun⟩
  exact ⟨s, t, hreach, hkilled, ht, hout, (no_lost_wakeup hreach).2 _ t 0 ht hin hout⟩

/-! ## The process table -/

section Table

variable {σ : Type} {ncpu : ℕ} {s : State Slot σ Chan} {k : Kernel ncpu}

/-- What the steps above write of a process is what the kernel's own functions write into its slot. -/
def State.Mirrors (s : State Slot σ Chan) (t : Table) : Prop :=
  ∀ p, s.state p = (t p).state ∧ s.chan p = (t p).chan ∧ s.killed p = (t p).killed

theorem State.Mirrors.wakeup (h : s.Mirrors k.proc) (ch : Chan) :
    (s.wakeup1 ch).Mirrors (k.wakeup ch).proc := by
  intro p
  rcases h p with ⟨hstate, hchan, hkilled⟩
  by_cases hp : (k.proc p).state = .sleeping ∧ (k.proc p).chan = some ch
  · simp [Kernel.wakeup, Table.wakeup1, hstate, hchan, hkilled, hp]
  · simp [Kernel.wakeup, Table.wakeup1, hstate, hchan, hkilled, hp]

theorem State.Mirrors.kill (h : s.Mirrors k.proc) {pid : Int32} {q : Slot}
    (hfind : k.proc.findPid pid = some q) (p : Slot) : (s.kill q).Mirrors (k.kill p pid).proc := by
  intro r
  rcases h r with ⟨hstate, hchan, hkilled⟩
  by_cases hr : r = q <;> by_cases hp : r = p <;>
    simp_all [State.kill, Kernel.kill, Kernel.setEax, Kernel.set, Table.modify]

theorem State.Mirrors.sleep (h : s.Mirrors k.proc) (c : Fin ncpu) (p : Slot) (ch : Chan) (next : Resume) :
    ((s.setChan p (some ch)).setState p .sleeping).Mirrors (k.sleep c p ch next).proc := by
  intro r
  rcases h r with ⟨hstate, hchan, hkilled⟩
  by_cases hr : r = p <;>
    simp_all [Kernel.sleep, Kernel.sched, Kernel.set, Table.modify]

end Table

end Wakeup
end Xv6.Process
