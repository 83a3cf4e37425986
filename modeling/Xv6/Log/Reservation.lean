import Mathlib.Data.Finset.Dedup
import Xv6.Log.GroupCommit

/-!
# Reservation — does the admission test of `begin_op` leave `log_write` enough room?

`begin_op` admits an operation while `log.lh.n + (log.outstanding + 1) * MAXOPBLOCKS ≤ LOGSIZE`;
`log_write` panics once `log.lh.n` has reached `log.size - 1`, and it does so before it looks
whether the block is in the header already.

The two tests differ by one block on a disk with `log.size = LOGSIZE`: `no_tooBig_iff` says exactly
when the panic is reached, and `tooBig_fullRun` reaches it.
-/

namespace Xv6.Log
namespace State

open Common

variable {P : Type}

def openBlocks (s : State P) : Finset ℕ := (s.cur.flatMap s.logged).toFinset

/-- The open transaction has logged fewer than `LOGSIZE - 1` distinct blocks when `log_write` is
called. -/
def Spare (s : State P) : Action P → Prop
  | .logWrite _ _ => s.openBlocks.card < logSize - 1
  | _ => True

theorem halt_commitStep [DecidableEq P] {s : State P} {p : P} {st : Stage} (h : s.halt = none) :
    (s.commitStep p st).halt = none := by
  cases st <;> simp only [State.commitStep] <;> (try split) <;> exact h

section Panic

variable [Fintype P] {s t : State P}

/-- The header has one entry for each distinct block of the open transaction. -/
theorem Inv.length_lh (h : s.Inv) (hc : s.committing = false) : s.lh.length = s.openBlocks.card := by
  have hset : s.lh.toFinset = s.openBlocks := by
    ext b
    simp [openBlocks, h.mem_lh hc b]
  calc
    s.lh.length = s.lh.toFinset.card := (List.toFinset_card_of_nodup h.control.nodup).symm
    _ = s.openBlocks.card := by rw [hset]

variable [DecidableEq P]

/-- On a disk made by `mkfs`, a step panics with "too big a transaction" exactly when it is a
`log_write` in a transaction that has `LOGSIZE - 1` blocks already. -/
theorem tooBig_step_iff {a : Action P} (h : s.Inv) (hstep : step (nlog : ℤ) s a = some t) :
    t.halt ≠ some .tooBig ↔ s.Spare a := by
  rcases step_cases hstep with ⟨hhalt, hcase⟩
  cases hcase with
  | beginOp p hp =>
    unfold State.beginOp
    split_ifs <;> simp [setPhase, hhalt, Spare]
  | logWrite p b o hp =>
    have hop : s.op p = some o := by simp [op, hp, Phase.opOf]
    have hlen : s.lh.length = s.openBlocks.card := h.length_lh (h.control.not_committing hop)
    have htest : ((logSize : ℤ) ≤ s.lh.length ∨ (nlog : ℤ) - 1 ≤ s.lh.length) ↔
        ¬ s.openBlocks.card < logSize - 1 := by
      rw [← hlen]
      simp only [nlog, logSize, maxOpBlocks]
      omega
    unfold State.logWrite
    simp only [Spare, htest]
    by_cases hlt : s.openBlocks.card < logSize - 1
    · by_cases hout : s.outstanding < 1 <;> simp [hlt, hout, setPhase, hhalt]
    · simp [hlt]
  | logWriteLocked p o b hp =>
    unfold State.logWriteLocked
    split_ifs <;> simp [setPhase, hhalt, Spare]
  | endOp p o hp =>
    unfold State.endOp
    split_ifs <;> simp [wakeupLog, setPhase, hhalt, Spare]
  | commitStep p st hp hst =>
    have hnone : (s.commitStep p st).halt = none := halt_commitStep hhalt
    simp [hnone, Spare]
  | endCommit p hp => simp [State.endCommit, wakeupLog, setPhase, hhalt, Spare]

/-- In every run on a disk made by `mkfs`: `panic("too big a transaction")` is never reached exactly
when no `log_write` is called once the open transaction has logged `LOGSIZE - 1` distinct blocks. -/
theorem no_tooBig_iff {es : List (Taken (State P) (Action P))}
    (h : (protocol P (nlog : ℤ)).Run init es t) :
    (∀ e ∈ es, e.post.halt ≠ some .tooBig) ↔ ∀ e ∈ es, e.pre.Spare e.act := by
  refine h.forall_post_iff (P := fun s => s.Inv ∧ s.halt ≠ some .tooBig) (fun s hs => hs.2) ?_ ?_
    ⟨inv_init, by simp [init]⟩
  · intro s a t hs hspare hst
    exact ⟨hs.1.step hst, (tooBig_step_iff hs.1 hst).2 hspare⟩
  · intro s a t hs hst ht
    exact (tooBig_step_iff hs.1 hst).1 ht

end Panic

theorem no_tooBig_twoOpsRun : ∃ es t, (protocol (Fin 2) (nlog : ℤ)).Run init es t ∧ es.map Taken.act = twoOpsRun ∧
      ((∀ e ∈ es, e.post.halt ≠ some .tooBig) ↔ ∀ e ∈ es, e.pre.Spare e.act) := by
  have hexec : ∃ t, System.execute (step (nlog : ℤ)) init twoOpsRun = some t := ⟨_, rfl⟩
  rcases hexec with ⟨t, ht⟩
  rcases System.run_of_execute ht with ⟨es, hrun, hacts⟩
  exact ⟨es, t, hrun, hacts, no_tooBig_iff hrun⟩

/-- Process `p`, already in an operation, logs the ten blocks from `b` on. -/
def logTen (p : Fin 3) (b : ℕ) : List (Action (Fin 3)) :=
  (List.range maxOpBlocks).flatMap (fun i => [.logWrite p (b + i), .logWriteLocked p])

/-- Three operations of `MAXOPBLOCKS` blocks each, all admitted together; the last step is the
thirtieth `log_write`. -/
def fullRun : List (Action (Fin 3)) :=
  [.beginOp 0, .beginOp 1, .beginOp 2] ++
    (logTen 0 40 ++ logTen 1 50 ++ logTen 2 60).dropLast

/-- The block an action hands to `log_write` for process `p`. -/
def writtenBy (p : Fin 3) : Action (Fin 3) → Option ℕ
  | .logWrite q b => if q = p then some b else none
  | _ => none

/-- Every process of `fullRun` stays within `MAXOPBLOCKS`, yet the run ends in the panic. -/
theorem tooBig_fullRun : (∀ p, fullRun.count (.beginOp p) = 1 ∧
      (fullRun.filterMap (writtenBy p)).toFinset.card ≤ maxOpBlocks) ∧
    ∃ t, System.execute (step (nlog : ℤ)) init fullRun = some t ∧ t.halt = some .tooBig :=
  ⟨by decide, _, rfl, rfl⟩

end State
end Xv6.Log
