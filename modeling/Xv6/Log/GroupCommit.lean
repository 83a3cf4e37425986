import Xv6.Log.Invariant

/-!
# GroupCommit — safety of group commit across every interleaving

The second half of the step lemmas, those of the committing process, and the result for whole runs:
`groupCommit_of_reachable` states what holds in every reachable state, for any number of processes.
-/

namespace Xv6.Log
namespace State

open Common

variable {P : Type}

theorem inv_init [Fintype P] : (init : State P).Inv := by
  have hop : ∀ p, (init : State P).op p = none := fun _ => rfl
  have hstage : ∀ p, (init : State P).stage p = none := fun _ => rfl
  refine ⟨⟨?_, ?_, ?_, ?_, List.nodup_nil, by simp [init]⟩, ⟨?_, ?_, ?_, ?_, ?_, ?_, ?_, ?_, ?_, ?_⟩⟩
  · have hempty : (init : State P).inProgress = ∅ := by simp [inProgress, hop]
    rw [hempty]
    rfl
  · intro hc
    cases hc
  · intro p st hp
    simp [hstage p] at hp
  · intro p _ st _ hp _
    simp [hstage p] at hp
  · intro p o hp
    simp [hop p] at hp
  · intro p _ o hp _
    simp [hop p] at hp
  · intro o ho
    cases ho
  · intro o
    simp [allOps, init]
  · intro o _
    exact ⟨rfl, rfl⟩
  · simp [allOps, init]
  · intro _ b
    simp [init]
  · intro p st hp _
    simp [hstage p] at hp
  · intro p st hp _
    simp [hstage p] at hp
  · intro tx htx
    cases htx

section Commit

variable [DecidableEq P] {t s : State P} {p : P} {st st' : Stage}

theorem reachable_of_execute {size : ℤ} {as : List (Action P)}
    (h : System.execute (step size) init as = some t) : (protocol P size).Reachable t := by
  rcases System.run_of_execute h with ⟨es, hrun, _⟩
  exact ⟨init, es, rfl, hrun⟩

/-- A step of the committer `p` to stage `st`; it changes none of the operations. -/
structure Advanced (s : State P) (p : P) (st : Stage) (t : State P) : Prop where
  op : t.op = s.op
  stage : t.stage = Function.update s.stage p (some st)
  outstanding : t.outstanding = s.outstanding
  committing : t.committing = s.committing
  halt : t.halt = s.halt
  nextOp : t.nextOp = s.nextOp
  logged : t.logged = s.logged
  ended : t.ended = s.ended

theorem Control.advance [Fintype P] (h : s.Control) (hp : s.stage p = some st) (hnodup : t.lh.Nodup)
    (ht : Advanced s p st' t) : t.Control := by
  have hself : ∀ q st1, t.stage q = some st1 → q = p := by
    intro q st1 hq
    by_cases hqp : q = p
    · exact hqp
    · exact (h.stage_eq hp (by simpa [ht.stage, hqp] using hq)).1
  refine ⟨?_, ?_, ?_, ?_, hnodup, ?_⟩
  · simpa [ht.outstanding, inProgress_congr ht.op] using h.outstanding
  · simpa [ht.committing, inProgress_congr ht.op] using h.quiet
  · intro q st1 _
    simpa [ht.committing] using h.flag p st hp
  · intro q r st1 st2 hq hr
    exact (hself q st1 hq).trans (hself r st2 hr).symm
  · simpa [ht.halt] using h.running

theorem Advanced.stage_eq [Fintype P] {q : P} {st1 : Stage} (h : s.Control) (hp : s.stage p = some st)
    (ht : Advanced s p st' t) (hq : t.stage q = some st1) : q = p ∧ st1 = st' := by
  by_cases hqp : q = p
  · have hst : st' = st1 := by simpa [ht.stage, hqp] using hq
    exact ⟨hqp, hst.symm⟩
  · exact absurd (h.stage_eq hp (by simpa [ht.stage, hqp] using hq)).1 hqp

/-- A step of the committer that touches neither the header nor the transaction. -/
theorem Inv.advance [Fintype P] (h : s.Inv) (hp : s.stage p = some st) (ht : Advanced s p st' t)
    (hw : st'.headWritten = st.headWritten) (hcl : st'.cleared = true → s.lh = []) (hlh : t.lh = s.lh)
    (hcur : t.cur = s.cur) (htx : t.txns = s.txns) : t.Inv := by
  have hall : t.allOps = s.allOps := by simp [allOps, hcur, htx]
  refine ⟨h.control.advance hp (by simpa [hlh] using h.control.nodup) ht, ⟨?_, ?_, ?_, ?_, ?_, ?_, ?_, ?_, ?_, ?_⟩⟩
  · simpa [ht.op, hcur, ht.ended] using h.history.held
  · simpa [ht.op] using h.history.own
  · simpa [ht.op, hcur, ht.ended] using h.history.live
  · simpa [hall, ht.nextOp] using h.history.numbered
  · simpa [ht.nextOp, ht.logged, ht.ended] using h.history.fresh
  · simpa [hall] using h.history.disjoint
  · intro hpend
    have hst' : st'.headWritten = false := hpend p st' (by simp [ht.stage])
    have hold := h.history.pending ?_
    · simpa [hlh, hcur, ht.logged] using hold
    · intro q st1 hq
      rcases h.control.stage_eq hp hq with ⟨_, rfl⟩
      simpa [hw] using hst'
  · intro q st1 hq hw1
    rcases ht.stage_eq h.control hp hq with ⟨_, rfl⟩
    simpa [hcur] using h.history.written p st hp (by simpa [hw] using hw1)
  · intro q st1 hq hc1
    rcases ht.stage_eq h.control hp hq with ⟨_, rfl⟩
    simpa [hlh] using hcl hc1
  · intro tx htx'
    have hold : s.ExactFor tx := h.history.txns tx (by simpa [htx] using htx')
    refine hold.congr ?_ ?_
    · intro o _
      simp [ht.logged]
    · intro o ho
      simpa [ht.ended] using hold.ended o ho

theorem Inv.commitPoint [Fintype P] (h : s.Inv) (hp : s.stage p = some st) (ht : Advanced s p st' t)
    (hw : st.headWritten = false) (hw' : st'.headWritten = true) (hcl : st'.cleared = true → s.lh = [])
    (hlh : t.lh = s.lh) (hcur : t.cur = []) (htx : t.txns = s.txns ++ [{ blocks := s.lh, ops := s.cur }]) :
    t.Inv := by
  have hc : s.committing = true := h.control.flag p st hp
  have hnoop : ∀ q, t.op q = none := by
    intro q
    simpa [ht.op] using h.control.no_op hc q
  have hperm : t.allOps.Perm s.allOps := by
    simp only [allOps, hcur, htx, List.flatMap_append, List.nil_append, List.flatMap_singleton]
    exact List.perm_append_comm
  -- Every operation of the transaction has ended, because none is in progress.
  have hended : ∀ o ∈ s.cur, s.ended o = true := by
    intro o ho
    cases he : s.ended o with
    | true => rfl
    | false =>
      rcases h.history.live o ho he with ⟨q, hq⟩
      simp [h.control.no_op hc q] at hq
  have hblocks : ∀ b, b ∈ s.lh ↔ ∃ o ∈ s.cur, b ∈ s.logged o := by
    apply h.history.pending
    intro q st1 hq
    rcases h.control.stage_eq hp hq with ⟨_, rfl⟩
    exact hw
  refine ⟨h.control.advance hp (by simpa [hlh] using h.control.nodup) ht, ⟨?_, ?_, ?_, ?_, ?_, ?_, ?_, ?_, ?_, ?_⟩⟩
  · intro q o hq
    simp [hnoop q] at hq
  · intro q _ o hq _
    simp [hnoop q] at hq
  · intro o ho
    simp [hcur] at ho
  · intro o
    rw [hperm.mem_iff, ht.nextOp]
    exact h.history.numbered o
  · simpa [ht.nextOp, ht.logged, ht.ended] using h.history.fresh
  · exact hperm.nodup_iff.2 h.history.disjoint
  · intro hpend
    have hst' : st'.headWritten = false := hpend p st' (by simp [ht.stage])
    simp [hw'] at hst'
  · intro q st1 _ _
    exact hcur
  · intro q st1 hq hc1
    rcases ht.stage_eq h.control hp hq with ⟨_, rfl⟩
    simpa [hlh] using hcl hc1
  · intro tx htx'
    have hmem : tx ∈ s.txns ∨ tx = { blocks := s.lh, ops := s.cur } := by simpa [htx] using htx'
    rcases hmem with hmem | rfl
    · have hold : s.ExactFor tx := h.history.txns tx hmem
      refine hold.congr ?_ ?_
      · intro o _
        simp [ht.logged]
      · intro o ho
        simpa [ht.ended] using hold.ended o ho
    · refine ⟨?_, ?_, h.control.nodup⟩
      · simpa [ht.logged] using hblocks
      · simpa [ht.ended] using hended

theorem Inv.commitStep [Fintype P] (h : s.Inv) (hp : s.phase p = .committing st) (hdone : st ≠ .done) :
    (s.commitStep p st).Inv := by
  have hstage : s.stage p = some st := by simp [stage, hp, Phase.stageOf]
  have hop : Function.update s.op p none = s.op := by
    have hnone : s.op p = none := by simp [op, hp, Phase.opOf]
    rw [← hnone, Function.update_eq_self]
  -- Moving the committer on is an `Advanced` step, whatever else is recorded.
  have hadv : ∀ st' : Stage, Advanced s p st' (s.setPhase p (.committing st')) := by
    intro st'
    refine ⟨?_, stage_setPhase s p _, rfl, rfl, rfl, rfl, rfl, rfl⟩
    exact (op_setPhase s p _).trans hop
  have hrec : ∀ st' : Stage, Advanced s p st' (s.record.setPhase p (.committing st')) := by
    intro st'
    refine ⟨?_, ?_, rfl, rfl, rfl, rfl, rfl, rfl⟩
    · exact (op_setPhase s.record p _).trans hop
    · exact stage_setPhase s.record p _
  cases st with
  | check =>
    simp only [State.commitStep]
    split
    · exact h.advance hstage (hadv _) rfl (by simp [Stage.cleared]) rfl rfl rfl
    rename_i hlen
    have hnil : s.lh = [] := by
      apply List.eq_nil_of_length_eq_zero
      omega
    exact h.commitPoint hstage (hrec _) rfl rfl (fun _ => hnil) rfl rfl rfl
  | writeLog tail =>
    simp only [State.commitStep]
    split
    · exact h.advance hstage (hadv _) rfl (by simp [Stage.cleared]) rfl rfl rfl
    · exact h.advance hstage (hadv _) rfl (by simp [Stage.cleared]) rfl rfl rfl
  | writeHead =>
    exact h.commitPoint hstage (hrec _) rfl rfl (by simp [Stage.cleared]) rfl rfl rfl
  | installTrans tail =>
    simp only [State.commitStep]
    split
    · exact h.advance hstage (hadv _) rfl (by simp [Stage.cleared]) rfl rfl rfl
    · exact h.advance hstage (hadv _) rfl (by simp [Stage.cleared]) rfl rfl rfl
  | clear =>
    -- The header is emptied after its transaction has been recorded.
    have hcur : s.cur = [] := h.history.written p _ hstage rfl
    let s' : State P := { s with lh := [] }
    have hs' : s'.Inv := by
      refine ⟨⟨h.control.outstanding, h.control.quiet, h.control.flag, h.control.unique,
        List.nodup_nil, h.control.running⟩, ⟨h.history.held, h.history.own, h.history.live,
        h.history.numbered, h.history.fresh, h.history.disjoint, ?_, h.history.written,
        fun _ _ _ _ => rfl, ?_⟩⟩
      · intro _ b
        simp [s', hcur]
      · intro tx htx
        have hold : s.ExactFor tx := h.history.txns tx htx
        exact hold.congr (fun _ _ => rfl) hold.ended
    have hadv' : Advanced s' p .eraseHead
        { s.setPhase p (.committing .eraseHead) with lh := [] } := by
      refine ⟨?_, stage_setPhase s p _, rfl, rfl, rfl, rfl, rfl, rfl⟩
      exact (op_setPhase s p _).trans hop
    exact hs'.advance hstage hadv' rfl (fun _ => rfl) rfl rfl rfl
  | eraseHead =>
    have hnil : s.lh = [] := h.history.cleared p _ hstage rfl
    exact h.advance hstage (hadv _) rfl (fun _ => hnil) rfl rfl rfl
  | done => exact absurd rfl hdone

theorem Inv.endCommit [Fintype P] (h : s.Inv) (hp : s.phase p = .committing .done) : (s.endCommit p).Inv := by
  have hstage : s.stage p = some .done := by simp [stage, hp, Phase.stageOf]
  have hcur : s.cur = [] := h.history.written p _ hstage rfl
  have hlh : s.lh = [] := h.history.cleared p _ hstage rfl
  have hop : (s.endCommit p).op = s.op := by
    have hnone : s.op p = none := by simp [op, hp, Phase.opOf]
    refine (op_wakeupLog _).trans ((op_setPhase s p _).trans ?_)
    simp only [Phase.opOf]
    rw [← hnone, Function.update_eq_self]
  have hnone : ∀ q st, (s.endCommit p).stage q ≠ some st := by
    have hupd : (s.endCommit p).stage = Function.update s.stage p none :=
      (stage_wakeupLog _).trans (stage_setPhase s p _)
    intro q st hq
    by_cases hqp : q = p
    · simp [hupd, hqp] at hq
    · exact hqp (h.control.stage_eq hstage (by simpa [hupd, hqp] using hq)).1
  refine ⟨⟨?_, ?_, ?_, ?_, h.control.nodup, h.control.running⟩,
    ⟨?_, ?_, ?_, h.history.numbered, h.history.fresh, h.history.disjoint, ?_, ?_, ?_, ?_⟩⟩
  · rw [inProgress_congr hop]
    exact h.control.outstanding
  · intro hc
    cases hc
  · intro q st hq
    exact absurd hq (hnone q st)
  · intro q _ st _ hq _
    exact absurd hq (hnone q st)
  · rw [hop]
    exact h.history.held
  · rw [hop]
    exact h.history.own
  · rw [hop]
    exact h.history.live
  · intro _ b
    change b ∈ s.lh ↔ ∃ o ∈ s.cur, b ∈ s.logged o
    simp [hcur, hlh]
  · intro q st hq _
    exact absurd hq (hnone q st)
  · intro q st hq _
    exact absurd hq (hnone q st)
  · intro tx htx
    have hold : s.ExactFor tx := h.history.txns tx htx
    exact hold.congr (fun _ _ => rfl) hold.ended

end Commit

/-! ## Every run -/

section Runs

variable [Fintype P] [DecidableEq P] {size : ℤ} {s : State P}

theorem Inv.step {t : State P} {a : Action P} (h : s.Inv) (hstep : step size s a = some t) : t.Inv := by
  rcases step_cases hstep with ⟨hhalt, hcase⟩
  cases hcase with
  | beginOp p hp => exact h.beginOp hhalt hp
  | logWrite p b o hp => exact h.logWrite size hhalt hp
  | logWriteLocked p o b hp => exact h.logWriteLocked hp
  | endOp p o hp => exact h.endOp hp
  | commitStep p st hp hst => exact h.commitStep hp hst
  | endCommit p hp => exact h.endCommit hp

theorem inv_of_reachable (h : (protocol P size).Reachable s) : s.Inv := by
  refine h.invariant ?_ ?_
  · rintro s rfl
    exact inv_init
  · intro s a t hs hst
    exact hs.step hst

/-- The two halves of `log_write`. -/
def Action.isLogWrite : Action P → Bool
  | .logWrite _ _ => true
  | .logWriteLocked _ => true
  | _ => false

/-- What group commit guarantees in one state. -/
structure GroupCommit (size : ℤ) (s : State P) : Prop where
  /-- `log.outstanding` counts the operations in progress. -/
  outstanding : s.outstanding = s.inProgress.card
  /-- `log.committing = 1` implies `log.outstanding = 0`. -/
  exclusive : s.committing = true → s.outstanding = 0
  /-- Two commits never overlap. -/
  single : ∀ p q, (s.stage p).isSome → (s.stage q).isSome → p = q
  /-- `panic("log.committing")` has not happened. -/
  noPanic : s.halt ≠ some .logCommitting
  /-- While `commit()` runs no `log_write` changes the header. -/
  frozen : ∀ q, (s.stage q).isSome → ∀ a t, step size s a = some t → a.isLogWrite = true →
    t.lh = s.lh
  nodup : s.lh.Nodup
  /-- Each commit wrote exactly the blocks of its operations, which had all ended. -/
  exact : ∀ t ∈ s.txns, s.ExactFor t
  /-- Every operation admitted so far belongs to one transaction only, committed or open. -/
  unsplit : s.allOps.Nodup ∧ ∀ o, o ∈ s.allOps ↔ o < s.nextOp
  /-- An operation that is still in progress belongs to the open transaction. -/
  current : ∀ p o, s.op p = some o → o ∈ s.cur

theorem Inv.groupCommit (h : s.Inv) : GroupCommit size s := by
  refine ⟨h.control.outstanding, ?_, ?_, h.control.running, ?_, h.control.nodup, h.history.txns,
    ⟨h.history.disjoint, h.history.numbered⟩, fun p o hp => (h.history.held p o hp).1⟩
  · intro hc
    simp [h.control.outstanding, h.control.quiet hc]
  · intro p q hp hq
    rcases Option.isSome_iff_exists.1 hp with ⟨st, hst⟩
    rcases Option.isSome_iff_exists.1 hq with ⟨st', hst'⟩
    exact h.control.unique p q st st' hst hst'
  intro q hq a t hstep hlw
  rcases Option.isSome_iff_exists.1 hq with ⟨st, hst⟩
  have hnoop := h.control.no_op (h.control.flag q st hst)
  -- Both halves of `log_write` need a process inside an operation.
  rcases step_cases hstep with ⟨_, hcase⟩
  cases hcase with
  | logWrite p b o hp =>
    have hop := hnoop p
    simp [op, hp, Phase.opOf] at hop
  | logWriteLocked p o b hp =>
    have hop := hnoop p
    simp [op, hp, Phase.opOf] at hop
  | beginOp p hp => cases hlw
  | endOp p o hp => cases hlw
  | commitStep p st' hp hst' => cases hlw
  | endCommit p hp => cases hlw

/-- Group commit is safe: the guarantees hold in every state that any number of processes reach by
any interleaving of `begin_op`, `log_write`, `end_op` and the steps of `commit()`. -/
theorem groupCommit_of_reachable (size : ℤ) {s : State P} (h : (protocol P size).Reachable s) : GroupCommit size s :=
  (inv_of_reachable h).groupCommit

end Runs

/-- Two operations overlap, log three blocks between them (one twice) and are committed together. -/
def twoOpsRun : List (Action (Fin 2)) :=
  [.beginOp 0, .beginOp 1, .logWrite 0 40, .logWriteLocked 0, .logWrite 1 41, .logWrite 0 42,
    .logWriteLocked 1, .logWriteLocked 0, .logWrite 1 40, .logWriteLocked 1, .endOp 1, .endOp 0,
    .commitStep 0, .commitStep 0, .commitStep 0, .commitStep 0, .commitStep 0, .commitStep 0]

theorem groupCommit_twoOpsRun :
    ∃ t, System.execute (step (nlog : ℤ)) init twoOpsRun = some t ∧
      t.txns.map Txn.blocks = [[40, 41, 42]] ∧ GroupCommit (nlog : ℤ) t := by
  have hexec : ∃ t, System.execute (step (nlog : ℤ)) init twoOpsRun = some t ∧
      t.txns.map Txn.blocks = [[40, 41, 42]] := ⟨_, rfl, rfl⟩
  rcases hexec with ⟨t, ht, htxns⟩
  exact ⟨t, ht, htxns, groupCommit_of_reachable _ (reachable_of_execute ht)⟩

end State
end Xv6.Log
