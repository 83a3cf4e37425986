import Mathlib.Data.Finset.Card
import Mathlib.Data.Fintype.Basic
import Xv6.Common.Transition
import Xv6.Param

/-!
# Protocol — `begin_op`, `log_write`, `end_op` and `commit` as interleaved steps

Any number of processes share `log`.  A step is one critical section under `log.lock`, one step of
`commit()` (which runs without the lock), or the two tests `log_write` makes *before* it takes the
lock.  Sleeping on `&log` and the wakeups that end it are part of the state.

Besides the variables of `struct log` the state keeps a history: operations are numbered in the
order `begin_op` admits them, `logged` lists the blocks each operation has logged, `cur` the
operations admitted since the last commit, and `txns` what each commit wrote.  No step reads the
history.
-/

namespace Xv6.Log

/-! ## State -/

inductive Halt
  /-- `panic("log.committing")` in `end_op`. -/
  | logCommitting
  /-- `panic("too big a transaction")` in `log_write`. -/
  | tooBig
  /-- `panic("log_write outside of trans")` in `log_write`. -/
  | outsideTrans
  /-- A store past the end of `log.lh.block`. -/
  | overrun
  deriving DecidableEq, Repr

inductive Stage
  | check
  | writeLog (tail : ℕ)
  | writeHead
  | installTrans (tail : ℕ)
  | clear
  | eraseHead
  | done
  deriving DecidableEq, Repr

inductive Phase
  /-- Outside any file system call. -/
  | idle
  /-- Sleeping on `&log` in `begin_op`. -/
  | asleep
  /-- Woken up in `begin_op`, about to test again. -/
  | awake
  /-- Between `begin_op` and `end_op`. -/
  | inOp (op : ℕ)
  /-- In `log_write`, past its tests and before its critical section. -/
  | writing (op b : ℕ)
  /-- In `end_op` with `do_commit` set. -/
  | committing (stage : Stage)
  deriving DecidableEq, Repr

/-- What one commit wrote: the blocks of its header and the operations it was made for. -/
structure Txn where
  blocks : List ℕ
  ops : List ℕ

structure State (P : Type) where
  outstanding : ℤ
  committing : Bool
  /-- `log.lh.block[0..n)`. -/
  lh : List ℕ
  phase : P → Phase
  halt : Option Halt
  nextOp : ℕ
  cur : List ℕ
  logged : ℕ → List ℕ
  ended : ℕ → Bool
  txns : List Txn

namespace Phase

def opOf : Phase → Option ℕ
  | .inOp op => some op
  | .writing op _ => some op
  | _ => none

def stageOf : Phase → Option Stage
  | .committing st => some st
  | _ => none

end Phase

namespace Stage

/-- The header on disk names the transaction, or has named it. -/
def headWritten : Stage → Bool
  | .installTrans _ => true
  | .clear => true
  | .eraseHead => true
  | .done => true
  | _ => false

def cleared : Stage → Bool
  | .eraseHead => true
  | .done => true
  | _ => false

end Stage

namespace State

variable {P : Type}

def wakeupLog (s : State P) : State P :=
  { s with phase := fun q => if s.phase q = .asleep then .awake else s.phase q }

def op (s : State P) (p : P) : Option ℕ := (s.phase p).opOf

def stage (s : State P) (p : P) : Option Stage := (s.phase p).stageOf

def inProgress [Fintype P] (s : State P) : Finset P :=
  Finset.univ.filter (fun p => (s.op p).isSome)

@[simp] theorem op_wakeupLog (s : State P) : s.wakeupLog.op = s.op := by
  funext q
  by_cases h : s.phase q = .asleep
  · simp [op, wakeupLog, h, Phase.opOf]
  · simp [op, wakeupLog, h]

@[simp] theorem stage_wakeupLog (s : State P) : s.wakeupLog.stage = s.stage := by
  funext q
  by_cases h : s.phase q = .asleep
  · simp [stage, wakeupLog, h, Phase.stageOf]
  · simp [stage, wakeupLog, h]

variable [DecidableEq P]

def setPhase (s : State P) (p : P) (ph : Phase) : State P :=
  { s with phase := Function.update s.phase p ph }

/-! ## `log.c` -/

def beginOp (s : State P) (p : P) : State P :=
  if s.committing then
    s.setPhase p .asleep
  else if (logSize : ℤ) < (s.lh.length : ℤ) + (s.outstanding + 1) * maxOpBlocks then
    -- this op might exhaust log space; wait for commit
    s.setPhase p .asleep
  else
    { s.setPhase p (.inOp s.nextOp) with
      outstanding := s.outstanding + 1
      nextOp := s.nextOp + 1
      cur := s.cur ++ [s.nextOp] }

/-- The tests at the head of `log_write`, made without the lock. -/
def logWrite (size : ℤ) (s : State P) (p : P) (op b : ℕ) : State P :=
  if (logSize : ℤ) ≤ s.lh.length ∨ size - 1 ≤ s.lh.length then
    { s with halt := some .tooBig }
  else if s.outstanding < 1 then
    { s with halt := some .outsideTrans }
  else
    s.setPhase p (.writing op b)

/-- The header after the loop of `log_write` looked for `b`: it is stored at the first index that
already holds it, or appended. -/
def absorb (lh : List ℕ) (b : ℕ) : List ℕ :=
  if lh.findIdx (· == b) = lh.length then lh ++ [b] else lh.set (lh.findIdx (· == b)) b

def logWriteLocked (s : State P) (p : P) (op b : ℕ) : State P :=
  if logSize ≤ s.lh.findIdx (· == b) then
    { s with halt := some .overrun }
  else
    { s.setPhase p (.inOp op) with
      lh := absorb s.lh b
      logged := Function.update s.logged op (s.logged op ++ [b]) }

def endOp (s : State P) (p : P) (op : ℕ) : State P :=
  if s.committing then
    { s with
      outstanding := s.outstanding - 1
      halt := some .logCommitting }
  else if s.outstanding - 1 = 0 then
    { s.setPhase p (.committing .check) with
      outstanding := s.outstanding - 1
      committing := true
      ended := Function.update s.ended op true }
  else
    -- begin_op() may be waiting for log space
    { (s.setPhase p .idle).wakeupLog with
      outstanding := s.outstanding - 1
      ended := Function.update s.ended op true }

/-- The transaction a commit ends, recorded when its header reaches the disk (or when there turns
out to be nothing to write). -/
def record (s : State P) : State P :=
  { s with
    cur := []
    txns := s.txns ++ [{ blocks := s.lh, ops := s.cur }] }

def commitStep (s : State P) (p : P) : Stage → State P
  | .check =>
    if 0 < s.lh.length then
      s.setPhase p (.committing (.writeLog 0))
    else
      s.record.setPhase p (.committing .done)
  | .writeLog tail =>
    if tail < s.lh.length then
      s.setPhase p (.committing (.writeLog (tail + 1)))
    else
      s.setPhase p (.committing .writeHead)
  | .writeHead => s.record.setPhase p (.committing (.installTrans 0))
  | .installTrans tail =>
    if tail < s.lh.length then
      s.setPhase p (.committing (.installTrans (tail + 1)))
    else
      s.setPhase p (.committing .clear)
  | .clear => { s.setPhase p (.committing .eraseHead) with lh := [] }
  | .eraseHead => s.setPhase p (.committing .done)
  | .done => s

def endCommit (s : State P) (p : P) : State P :=
  { (s.setPhase p .idle).wakeupLog with committing := false }

/-! ## Steps -/

inductive Action (P : Type)
  | beginOp (p : P)
  | logWrite (p : P) (b : ℕ)
  | logWriteLocked (p : P)
  | endOp (p : P)
  | commitStep (p : P)
  | endCommit (p : P)
  deriving DecidableEq, Repr

/-- A step is enabled when the process is at the matching place and the kernel is still running. -/
def step (size : ℤ) (s : State P) (a : Action P) : Option (State P) :=
  if s.halt.isSome then
    none
  else
    match a with
    | .beginOp p =>
      match s.phase p with
      | .idle => some (s.beginOp p)
      | .awake => some (s.beginOp p)
      | _ => none
    | .logWrite p b =>
      match s.phase p with
      | .inOp op => some (s.logWrite size p op b)
      | _ => none
    | .logWriteLocked p =>
      match s.phase p with
      | .writing op b => some (s.logWriteLocked p op b)
      | _ => none
    | .endOp p =>
      match s.phase p with
      | .inOp op => some (s.endOp p op)
      | _ => none
    | .commitStep p =>
      match s.phase p with
      | .committing .done => none
      | .committing st => some (s.commitStep p st)
      | _ => none
    | .endCommit p =>
      match s.phase p with
      | .committing .done => some (s.endCommit p)
      | _ => none

def init : State P :=
  { outstanding := 0
    committing := false
    lh := []
    phase := fun _ => .idle
    halt := none
    nextOp := 0
    cur := []
    logged := fun _ => []
    ended := fun _ => false
    txns := [] }

/-- The protocol on a log of `size` blocks (`log.size`). -/
def protocol (P : Type) [DecidableEq P] (size : ℤ) : Common.System (State P) (Action P) :=
  Common.System.ofStep (fun s => s = init) (step size)

/-- What a step can be, with the guard that let it happen. -/
inductive StepCase (size : ℤ) (s : State P) : Action P → State P → Prop
  | beginOp (p : P) (h : s.phase p = .idle ∨ s.phase p = .awake) :
      StepCase size s (.beginOp p) (s.beginOp p)
  | logWrite (p : P) (b op : ℕ) (h : s.phase p = .inOp op) :
      StepCase size s (.logWrite p b) (s.logWrite size p op b)
  | logWriteLocked (p : P) (op b : ℕ) (h : s.phase p = .writing op b) :
      StepCase size s (.logWriteLocked p) (s.logWriteLocked p op b)
  | endOp (p : P) (op : ℕ) (h : s.phase p = .inOp op) : StepCase size s (.endOp p) (s.endOp p op)
  | commitStep (p : P) (st : Stage) (h : s.phase p = .committing st) (hst : st ≠ .done) :
      StepCase size s (.commitStep p) (s.commitStep p st)
  | endCommit (p : P) (h : s.phase p = .committing .done) :
      StepCase size s (.endCommit p) (s.endCommit p)

/-- Everything a step of the protocol can do. -/
theorem step_cases {size : ℤ} {s t : State P} {a : Action P} (h : step size s a = some t) :
    s.halt = none ∧ StepCase size s a t := by
  unfold step at h
  split at h
  · cases h
  rename_i hhalt
  refine ⟨by simpa using hhalt, ?_⟩
  cases a with
  | beginOp p =>
    cases hp : s.phase p <;> simp only [hp, Option.some.injEq, reduceCtorEq] at h
    · exact h ▸ StepCase.beginOp p (Or.inl hp)
    · exact h ▸ StepCase.beginOp p (Or.inr hp)
  | logWrite p b =>
    cases hp : s.phase p <;> simp only [hp, Option.some.injEq, reduceCtorEq] at h
    exact h ▸ StepCase.logWrite p b _ hp
  | logWriteLocked p =>
    cases hp : s.phase p <;> simp only [hp, Option.some.injEq, reduceCtorEq] at h
    exact h ▸ StepCase.logWriteLocked p _ _ hp
  | endOp p =>
    cases hp : s.phase p <;> simp only [hp, Option.some.injEq, reduceCtorEq] at h
    exact h ▸ StepCase.endOp p _ hp
  | commitStep p =>
    cases hp : s.phase p with
    | committing st =>
      cases st <;> simp only [hp, Option.some.injEq, reduceCtorEq] at h <;>
        exact h ▸ StepCase.commitStep p _ hp (by simp)
    | _ => simp [hp] at h
  | endCommit p =>
    cases hp : s.phase p with
    | committing st =>
      cases st <;> simp only [hp, Option.some.injEq, reduceCtorEq] at h
      exact h ▸ StepCase.endCommit p hp
    | _ => simp [hp] at h

/-! ## Small facts about the building blocks -/

@[simp] theorem op_setPhase (s : State P) (p : P) (ph : Phase) :
    (s.setPhase p ph).op = Function.update s.op p ph.opOf := by
  funext q
  by_cases h : q = p
  · subst h
    simp [op, setPhase]
  · simp [op, setPhase, h]

@[simp] theorem stage_setPhase (s : State P) (p : P) (ph : Phase) :
    (s.setPhase p ph).stage = Function.update s.stage p ph.stageOf := by
  funext q
  by_cases h : q = p
  · subst h
    simp [stage, setPhase]
  · simp [stage, setPhase, h]

theorem absorb_eq (lh : List ℕ) (b : ℕ) : absorb lh b = if b ∈ lh then lh else lh ++ [b] := by
  by_cases hb : b ∈ lh
  · have hlt : lh.findIdx (· == b) < lh.length := List.findIdx_lt_length_of_exists ⟨b, hb, by simp⟩
    have hget : lh.get ⟨lh.findIdx (· == b), hlt⟩ = b := by
      simpa using List.findIdx_getElem (w := hlt)
    have hset : lh.set (lh.findIdx (· == b)) b = lh := by
      have hself := List.set_getElem_self hlt
      rwa [show lh[lh.findIdx (· == b)] = b from hget] at hself
    simp [absorb, hb, Nat.ne_of_lt hlt, hset]
  · have heq : lh.findIdx (· == b) = lh.length := by
      apply List.findIdx_eq_length_of_false
      intro x hx
      have hne : x ≠ b := fun hxb => hb (hxb ▸ hx)
      simpa using hne
    simp [absorb, hb, heq]

theorem mem_absorb {lh : List ℕ} {b c : ℕ} : c ∈ absorb lh b ↔ c ∈ lh ∨ c = b := by
  rw [absorb_eq]
  split
  · rename_i hb
    constructor
    · exact Or.inl
    · rintro (h | rfl)
      · exact h
      · exact hb
  · simp

theorem nodup_absorb {lh : List ℕ} (b : ℕ) (h : lh.Nodup) : (absorb lh b).Nodup := by
  rw [absorb_eq]
  split
  · exact h
  rename_i hb
  refine List.nodup_append.2 ⟨h, by simp, ?_⟩
  intro a ha c hc hac
  have hcb : c = b := by simpa using hc
  exact hb (hcb ▸ hac ▸ ha)

end State

end Xv6.Log
