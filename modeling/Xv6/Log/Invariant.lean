import Xv6.Log.Protocol

/-!
# Invariant — what every step of the log protocol keeps

The invariant has two parts.  `Control` is about the variables of `struct log` and who is where:
`outstanding` counts the operations in progress, a commit runs alone.  `History` relates the header
to the operations: while a transaction is open the header names exactly the blocks its operations
logged, and once it is committed nothing about those operations changes any more.

Both are stated over `op` and `stage` only, so the steps that merely put a process to sleep or wake
it up are all instances of `Inv.of_same`.  Every other step is first described by the fields it
changes and then shown to keep the invariant.
-/

namespace Xv6.Log

open Function (update update_eq_self)

namespace State

variable {P : Type}

/-! ## The history of operations -/

structure ExactFor (s : State P) (t : Txn) : Prop where
  blocks : ∀ b, b ∈ t.blocks ↔ ∃ o ∈ t.ops, b ∈ s.logged o
  ended : ∀ o ∈ t.ops, s.ended o = true
  nodup : t.blocks.Nodup

/-- Every operation number in use: the open transaction first, then the committed ones. -/
def allOps (s : State P) : List ℕ :=
  s.cur ++ s.txns.flatMap Txn.ops

structure History (s : State P) : Prop where
  held : ∀ p o, s.op p = some o → o ∈ s.cur ∧ s.ended o = false
  own : ∀ p q o, s.op p = some o → s.op q = some o → p = q
  live : ∀ o ∈ s.cur, s.ended o = false → ∃ p, s.op p = some o
  numbered : ∀ o, o ∈ s.allOps ↔ o < s.nextOp
  fresh : ∀ o, s.nextOp ≤ o → s.logged o = [] ∧ s.ended o = false
  disjoint : s.allOps.Nodup
  pending : (∀ p st, s.stage p = some st → st.headWritten = false) →
    ∀ b, b ∈ s.lh ↔ ∃ o ∈ s.cur, b ∈ s.logged o
  written : ∀ p st, s.stage p = some st → st.headWritten = true → s.cur = []
  cleared : ∀ p st, s.stage p = some st → st.cleared = true → s.lh = []
  txns : ∀ t ∈ s.txns, s.ExactFor t

variable {s : State P}

theorem ExactFor.congr {s' : State P} {t : Txn} (h : s.ExactFor t) (hlog : ∀ o ∈ t.ops, s'.logged o = s.logged o)
    (hend : ∀ o ∈ t.ops, s'.ended o = true) : s'.ExactFor t := by
  refine ⟨?_, hend, h.nodup⟩
  intro b
  constructor
  · intro hb
    rcases (h.blocks b).1 hb with ⟨o, ho, hmem⟩
    exact ⟨o, ho, by simpa [hlog o ho] using hmem⟩
  · rintro ⟨o, ho, hmem⟩
    exact (h.blocks b).2 ⟨o, ho, by simpa [hlog o ho] using hmem⟩

theorem History.not_mem_txn (h : s.History) {o : ℕ} (ho : o ∈ s.cur) {t : Txn} (ht : t ∈ s.txns) {o' : ℕ}
    (ho' : o' ∈ t.ops) : o' ≠ o := by
  intro hEq
  have hdis := (List.nodup_append.1 h.disjoint).2.2
  exact hdis o ho o' (List.mem_flatMap.2 ⟨t, ht, ho'⟩) hEq.symm

/-- Two states that agree on everything the invariant mentions. -/
structure Same (s t : State P) : Prop where
  op : t.op = s.op
  stage : t.stage = s.stage
  outstanding : t.outstanding = s.outstanding
  committing : t.committing = s.committing
  lh : t.lh = s.lh
  nextOp : t.nextOp = s.nextOp
  cur : t.cur = s.cur
  logged : t.logged = s.logged
  ended : t.ended = s.ended
  txns : t.txns = s.txns

theorem History.of_same {t : State P} (h : s.History) (hst : Same s t) : t.History := by
  have hall : t.allOps = s.allOps := by simp [allOps, hst.cur, hst.txns]
  refine ⟨?_, ?_, ?_, ?_, ?_, ?_, ?_, ?_, ?_, ?_⟩
  · simpa [hst.op, hst.cur, hst.ended] using h.held
  · simpa [hst.op] using h.own
  · simpa [hst.op, hst.cur, hst.ended] using h.live
  · simpa [hall, hst.nextOp] using h.numbered
  · simpa [hst.nextOp, hst.logged, hst.ended] using h.fresh
  · simpa [hall] using h.disjoint
  · simpa [hst.stage, hst.lh, hst.cur, hst.logged] using h.pending
  · simpa [hst.stage, hst.cur] using h.written
  · simpa [hst.stage, hst.lh] using h.cleared
  · intro tx htx
    have hold : s.ExactFor tx := h.txns tx (by simpa [hst.txns] using htx)
    refine hold.congr ?_ ?_
    · intro o _
      simp [hst.logged]
    · intro o ho
      simpa [hst.ended] using hold.ended o ho

/-! ## The control state -/

section Control

variable [Fintype P]

structure Control (s : State P) : Prop where
  outstanding : s.outstanding = s.inProgress.card
  quiet : s.committing = true → s.inProgress = ∅
  flag : ∀ p st, s.stage p = some st → s.committing = true
  unique : ∀ p q st st', s.stage p = some st → s.stage q = some st' → p = q
  nodup : s.lh.Nodup
  running : s.halt ≠ some .logCommitting

structure Inv (s : State P) : Prop where
  control : s.Control
  history : s.History

variable {s t : State P} {p : P}

theorem mem_inProgress : p ∈ s.inProgress ↔ ∃ o, s.op p = some o := by
  simp [inProgress, Option.isSome_iff_exists]

theorem inProgress_congr (h : t.op = s.op) : t.inProgress = s.inProgress := by
  simp [inProgress, h]

theorem Control.of_same (h : s.Control) (hst : Same s t) (hhalt : t.halt ≠ some .logCommitting) : t.Control := by
  refine ⟨?_, ?_, ?_, ?_, ?_, hhalt⟩
  · simpa [hst.outstanding, inProgress_congr hst.op] using h.outstanding
  · simpa [hst.committing, inProgress_congr hst.op] using h.quiet
  · simpa [hst.stage, hst.committing] using h.flag
  · simpa [hst.stage] using h.unique
  · simpa [hst.lh] using h.nodup

theorem Inv.of_same (h : s.Inv) (hst : Same s t) (hhalt : t.halt ≠ some .logCommitting) : t.Inv :=
  ⟨h.control.of_same hst hhalt, h.history.of_same hst⟩

theorem Control.not_committing (h : s.Control) {o : ℕ} (hp : s.op p = some o) : s.committing = false := by
  cases hc : s.committing with
  | false => rfl
  | true =>
    have hmem : p ∈ s.inProgress := mem_inProgress.2 ⟨o, hp⟩
    simp [h.quiet hc] at hmem

theorem Control.no_stage (h : s.Control) (hc : s.committing = false) (p : P) : s.stage p = none := by
  cases hp : s.stage p with
  | none => rfl
  | some st => simp [h.flag p st hp] at hc

theorem Control.no_op (h : s.Control) (hc : s.committing = true) (p : P) : s.op p = none := by
  cases hp : s.op p with
  | none => rfl
  | some o => simp [h.not_committing hp] at hc

theorem Control.stage_eq (h : s.Control) {q : P} {st st' : Stage} (hp : s.stage p = some st)
    (hq : s.stage q = some st') : q = p ∧ st' = st := by
  have hqp : q = p := h.unique q p st' st hq hp
  subst hqp
  have hst : some st = some st' := by simpa [hp] using hq
  exact ⟨rfl, (Option.some.inj hst).symm⟩

/-- Before the header is written it names exactly the blocks of the open transaction. -/
theorem Inv.mem_lh (h : s.Inv) (hc : s.committing = false) (b : ℕ) : b ∈ s.lh ↔ ∃ o ∈ s.cur, b ∈ s.logged o := by
  apply h.history.pending
  intro p st hp
  simp [h.control.no_stage hc p] at hp

end Control

/-! ## One lemma for each step -/

section Steps

/-- The fields the critical section of `log_write` changes for operation `o` and block `b`. -/
structure Logged (s : State P) (o b : ℕ) (t : State P) : Prop where
  op : t.op = s.op
  stage : t.stage = s.stage
  outstanding : t.outstanding = s.outstanding
  committing : t.committing = s.committing
  lh : t.lh = absorb s.lh b
  halt : t.halt = s.halt
  nextOp : t.nextOp = s.nextOp
  cur : t.cur = s.cur
  logged : t.logged = update s.logged o (s.logged o ++ [b])
  ended : t.ended = s.ended
  txns : t.txns = s.txns

variable {s t : State P} {o b : ℕ} {p : P}

theorem Control.log [Fintype P] (h : s.Control) (ht : Logged s o b t) : t.Control := by
  refine ⟨?_, ?_, ?_, ?_, ?_, ?_⟩
  · simpa [ht.outstanding, inProgress_congr ht.op] using h.outstanding
  · simpa [ht.committing, inProgress_congr ht.op] using h.quiet
  · simpa [ht.stage, ht.committing] using h.flag
  · simpa [ht.stage] using h.unique
  · simpa [ht.lh] using nodup_absorb b h.nodup
  · simpa [ht.halt] using h.running

theorem History.log (h : s.History) (hp : s.op p = some o) (hnone : ∀ q, s.stage q = none) (ht : Logged s o b t) :
    t.History := by
  have hcur : o ∈ s.cur := (h.held p o hp).1
  have hall : t.allOps = s.allOps := by simp [allOps, ht.cur, ht.txns]
  have hstage : ∀ q st, t.stage q ≠ some st := by
    intro q st hq
    simp [ht.stage, hnone q] at hq
  have hlogged : ∀ o', o' ≠ o → t.logged o' = s.logged o' := by
    intro o' hne
    simp [ht.logged, hne]
  refine ⟨?_, ?_, ?_, ?_, ?_, ?_, ?_, ?_, ?_, ?_⟩
  · simpa [ht.op, ht.cur, ht.ended] using h.held
  · simpa [ht.op] using h.own
  · simpa [ht.op, ht.cur, ht.ended] using h.live
  · simpa [hall, ht.nextOp] using h.numbered
  · intro o' ho'
    have hge : s.nextOp ≤ o' := by simpa [ht.nextOp] using ho'
    have hlt : o < s.nextOp := (h.numbered o).1 (List.mem_append_left _ hcur)
    have hne : o' ≠ o := by omega
    simpa [hlogged o' hne, ht.ended] using h.fresh o' hge
  · simpa [hall] using h.disjoint
  · intro _ c
    have hold : c ∈ s.lh ↔ ∃ o' ∈ s.cur, c ∈ s.logged o' := by
      apply h.pending
      intro q st hq
      simp [hnone q] at hq
    rw [ht.lh, mem_absorb, hold, ht.cur]
    constructor
    · rintro (⟨o', ho', hc⟩ | rfl)
      · refine ⟨o', ho', ?_⟩
        by_cases hne : o' = o
        · subst hne
          simp [ht.logged, hc]
        · simpa [hlogged o' hne] using hc
      · exact ⟨o, hcur, by simp [ht.logged]⟩
    rintro ⟨o', ho', hc⟩
    by_cases hne : o' = o
    · subst hne
      have hc' : c ∈ s.logged o' ∨ c = b := by simpa [ht.logged] using hc
      rcases hc' with hc' | hc'
      · exact Or.inl ⟨o', ho', hc'⟩
      · exact Or.inr hc'
    · exact Or.inl ⟨o', ho', by simpa [hlogged o' hne] using hc⟩
  · intro q st hq _
    exact absurd hq (hstage q st)
  · intro q st hq _
    exact absurd hq (hstage q st)
  · -- Committed transactions belong to other operations.
    intro tx htx
    have htx' : tx ∈ s.txns := by simpa [ht.txns] using htx
    have hold : s.ExactFor tx := h.txns tx htx'
    refine hold.congr ?_ ?_
    · intro o' ho'
      exact hlogged o' (h.not_mem_txn hcur htx' ho')
    · intro o' ho'
      simpa [ht.ended] using hold.ended o' ho'

variable [DecidableEq P]

theorem inProgress_insert [Fintype P] (h : t.op = update s.op p (some o)) : t.inProgress = insert p s.inProgress := by
  ext q
  by_cases hq : q = p
  · subst hq
    simp [inProgress, h]
  · simp [inProgress, h, hq]

theorem inProgress_erase [Fintype P] (h : t.op = update s.op p none) : t.inProgress = s.inProgress.erase p := by
  ext q
  by_cases hq : q = p
  · subst hq
    simp [inProgress, h]
  · simp [inProgress, h, hq]

/-- The fields `begin_op` changes when it admits process `p`. -/
structure Admitted (s : State P) (p : P) (t : State P) : Prop where
  op : t.op = update s.op p (some s.nextOp)
  stage : t.stage = s.stage
  outstanding : t.outstanding = s.outstanding + 1
  committing : t.committing = s.committing
  lh : t.lh = s.lh
  halt : t.halt = s.halt
  nextOp : t.nextOp = s.nextOp + 1
  cur : t.cur = s.cur ++ [s.nextOp]
  logged : t.logged = s.logged
  ended : t.ended = s.ended
  txns : t.txns = s.txns

theorem Control.admitted [Fintype P] (h : s.Control) (hp : s.op p = none) (hc : s.committing = false)
    (ht : Admitted s p t) : t.Control := by
  refine ⟨?_, ?_, ?_, ?_, ?_, ?_⟩
  · have hmem : p ∉ s.inProgress := by simp [mem_inProgress, hp]
    have hcard : t.inProgress.card = s.inProgress.card + 1 := by
      rw [inProgress_insert ht.op, Finset.card_insert_of_notMem hmem]
    simp [ht.outstanding, h.outstanding, hcard]
  · intro hc'
    simp [ht.committing, hc] at hc'
  · intro q st hq
    simp [ht.stage, h.no_stage hc q] at hq
  · intro q _ st _ hq _
    simp [ht.stage, h.no_stage hc q] at hq
  · simpa [ht.lh] using h.nodup
  · simpa [ht.halt] using h.running

theorem History.admitted (h : s.History) (hp : s.op p = none) (hnone : ∀ q, s.stage q = none) (ht : Admitted s p t) :
    t.History := by
  have hnew : s.nextOp ∉ s.allOps := by
    intro hmem
    exact absurd ((h.numbered _).1 hmem) (Nat.lt_irrefl _)
  have hstage : ∀ q st, t.stage q ≠ some st := by
    intro q st hq
    simp [ht.stage, hnone q] at hq
  -- A process other than `p` still runs the operation it ran before, which is not the new one.
  have hother : ∀ q o, q ≠ p → t.op q = some o → s.op q = some o ∧ o ≠ s.nextOp := by
    intro q o hqp hq
    have hold : s.op q = some o := by simpa [ht.op, hqp] using hq
    refine ⟨hold, ?_⟩
    intro ho
    exact hnew (List.mem_append_left _ (ho ▸ (h.held q o hold).1))
  have hself : ∀ o, t.op p = some o → o = s.nextOp := by
    intro o ho
    have ho' : s.nextOp = o := by simpa [ht.op] using ho
    exact ho'.symm
  refine ⟨?_, ?_, ?_, ?_, ?_, ?_, ?_, ?_, ?_, ?_⟩
  · intro q o hq
    by_cases hqp : q = p
    · subst hqp
      have ho : o = s.nextOp := hself o hq
      subst ho
      exact ⟨by simp [ht.cur], by simpa [ht.ended] using (h.fresh _ (Nat.le_refl _)).2⟩
    · have hold := h.held q o (hother q o hqp hq).1
      exact ⟨by simp [ht.cur, hold.1], by simpa [ht.ended] using hold.2⟩
  · intro q r o hq hr
    by_cases hqp : q = p
    · by_cases hrp : r = p
      · exact hqp.trans hrp.symm
      · exact absurd (hself o (hqp ▸ hq)) (hother r o hrp hr).2
    · by_cases hrp : r = p
      · exact absurd (hself o (hrp ▸ hr)) (hother q o hqp hq).2
      · exact h.own q r o (hother q o hqp hq).1 (hother r o hrp hr).1
  · intro o ho hend
    have ho' : o ∈ s.cur ∨ o = s.nextOp := by simpa [ht.cur] using ho
    rcases ho' with ho' | rfl
    · rcases h.live o ho' (by simpa [ht.ended] using hend) with ⟨q, hq⟩
      have hqp : q ≠ p := by
        intro hqp
        simp [hqp, hp] at hq
      exact ⟨q, by simpa [ht.op, hqp] using hq⟩
    · exact ⟨p, by simp [ht.op]⟩
  · intro o
    have hmem : o ∈ t.allOps ↔ o ∈ s.allOps ∨ o = s.nextOp := by
      simp only [allOps, ht.cur, ht.txns, List.mem_append, List.mem_singleton]
      tauto
    have hiff := h.numbered o
    rw [hmem, hiff, ht.nextOp]
    omega
  · intro o ho
    have hle : s.nextOp ≤ o := by
      rw [ht.nextOp] at ho
      omega
    simpa [ht.logged, ht.ended] using h.fresh o hle
  · have hperm : t.allOps.Perm (s.nextOp :: s.allOps) := by
      simp only [allOps, ht.cur, ht.txns, List.append_assoc, List.singleton_append]
      exact List.perm_middle
    exact hperm.nodup_iff.2 (List.nodup_cons.2 ⟨hnew, h.disjoint⟩)
  · intro _ b
    have hold : b ∈ s.lh ↔ ∃ o ∈ s.cur, b ∈ s.logged o := by
      apply h.pending
      intro q st hq
      simp [hnone q] at hq
    -- The new operation has logged nothing yet.
    have hfresh : s.logged s.nextOp = [] := (h.fresh _ (Nat.le_refl _)).1
    rw [ht.lh, hold, ht.cur, ht.logged]
    constructor
    · rintro ⟨o, ho, hb⟩
      exact ⟨o, List.mem_append_left _ ho, hb⟩
    rintro ⟨o, ho, hb⟩
    rcases List.mem_append.1 ho with ho' | ho'
    · exact ⟨o, ho', hb⟩
    · have hoe : o = s.nextOp := by simpa using ho'
      simp [hoe, hfresh] at hb
  · intro q st hq _
    exact absurd hq (hstage q st)
  · intro q st hq _
    exact absurd hq (hstage q st)
  · intro tx htx
    have hold : s.ExactFor tx := h.txns tx (by simpa [ht.txns] using htx)
    refine hold.congr ?_ ?_
    · intro o _
      simp [ht.logged]
    · intro o ho
      simpa [ht.ended] using hold.ended o ho

theorem Inv.beginOp [Fintype P] (h : s.Inv) (hhalt : s.halt = none) (hp : s.phase p = .idle ∨ s.phase p = .awake) :
    (s.beginOp p).Inv := by
  have hop : s.op p = none := by rcases hp with hp | hp <;> simp [op, hp, Phase.opOf]
  have hstage : s.stage p = none := by rcases hp with hp | hp <;> simp [stage, hp, Phase.stageOf]
  have hupdop : update s.op p none = s.op := by
    rw [← hop, update_eq_self]
  have hupdstage : update s.stage p none = s.stage := by
    rw [← hstage, update_eq_self]
  have hsleep : (s.setPhase p .asleep).Inv := by
    refine h.of_same ⟨?_, ?_, rfl, rfl, rfl, rfl, rfl, rfl, rfl, rfl⟩ (by simp [setPhase, hhalt])
    · simpa [Phase.opOf] using hupdop
    · simpa [Phase.stageOf] using hupdstage
  unfold State.beginOp
  split
  · exact hsleep
  rename_i hc
  have hc' : s.committing = false := by simpa using hc
  split
  · exact hsleep
  -- Admitted: the operation gets the next number and joins the open transaction.
  have hadm : Admitted s p
      { s.setPhase p (.inOp s.nextOp) with
        outstanding := s.outstanding + 1
        nextOp := s.nextOp + 1
        cur := s.cur ++ [s.nextOp] } := by
    refine ⟨?_, ?_, rfl, rfl, rfl, rfl, rfl, rfl, rfl, rfl, rfl⟩
    · exact op_setPhase s p _
    · exact (stage_setPhase s p _).trans hupdstage
  exact ⟨h.control.admitted hop hc' hadm, h.history.admitted hop (h.control.no_stage hc') hadm⟩

theorem Inv.logWrite [Fintype P] (size : ℤ) (h : s.Inv) (hhalt : s.halt = none) (hp : s.phase p = .inOp o) :
    (s.logWrite size p o b).Inv := by
  have hop : s.op p = some o := by simp [op, hp, Phase.opOf]
  have hstage : s.stage p = none := by simp [stage, hp, Phase.stageOf]
  unfold State.logWrite
  split
  · exact h.of_same ⟨rfl, rfl, rfl, rfl, rfl, rfl, rfl, rfl, rfl, rfl⟩ (by simp)
  split
  · exact h.of_same ⟨rfl, rfl, rfl, rfl, rfl, rfl, rfl, rfl, rfl, rfl⟩ (by simp)
  -- Only the place of `p` changes, and it stays in the same operation.
  refine h.of_same ⟨?_, ?_, rfl, rfl, rfl, rfl, rfl, rfl, rfl, rfl⟩ (by simp [setPhase, hhalt])
  · have hupd : update s.op p (some o) = s.op := by
      rw [← hop, update_eq_self]
    simpa [Phase.opOf] using hupd
  · have hupd : update s.stage p none = s.stage := by
      rw [← hstage, update_eq_self]
    simpa [Phase.stageOf] using hupd

theorem Inv.logWriteLocked [Fintype P] (h : s.Inv) (hp : s.phase p = .writing o b) :
    (s.logWriteLocked p o b).Inv := by
  have hop : s.op p = some o := by simp [op, hp, Phase.opOf]
  have hstage : s.stage p = none := by simp [stage, hp, Phase.stageOf]
  have hc : s.committing = false := h.control.not_committing hop
  unfold State.logWriteLocked
  split
  · exact h.of_same ⟨rfl, rfl, rfl, rfl, rfl, rfl, rfl, rfl, rfl, rfl⟩ (by simp)
  have hlog : Logged s o b
      { s.setPhase p (.inOp o) with
        lh := absorb s.lh b
        logged := update s.logged o (s.logged o ++ [b]) } := by
    refine ⟨?_, ?_, rfl, rfl, rfl, rfl, rfl, rfl, rfl, rfl, rfl⟩
    · refine (op_setPhase s p _).trans ?_
      simp only [Phase.opOf]
      rw [← hop, update_eq_self]
    · refine (stage_setPhase s p _).trans ?_
      simp only [Phase.stageOf]
      rw [← hstage, update_eq_self]
  exact ⟨h.control.log hlog, h.history.log hop (h.control.no_stage hc) hlog⟩

/-- The fields `end_op` changes for operation `o` of process `p`; `stage` tells whether it goes on
to commit. -/
structure Ended (s : State P) (p : P) (o : ℕ) (st : Option Stage) (t : State P) : Prop where
  op : t.op = update s.op p none
  stage : t.stage = update s.stage p st
  outstanding : t.outstanding = s.outstanding - 1
  committing : t.committing = st.isSome
  lh : t.lh = s.lh
  halt : t.halt = s.halt
  nextOp : t.nextOp = s.nextOp
  cur : t.cur = s.cur
  logged : t.logged = s.logged
  ended : t.ended = update s.ended o true
  txns : t.txns = s.txns

theorem Control.end_ [Fintype P] {st : Option Stage} (h : s.Control) (hp : s.op p = some o)
    (hlast : st.isSome = true → s.outstanding - 1 = 0) (ht : Ended s p o st t) : t.Control := by
  have hnone : ∀ q, s.stage q = none := h.no_stage (h.not_committing hp)
  have hmem : p ∈ s.inProgress := mem_inProgress.2 ⟨o, hp⟩
  have hcard : t.inProgress.card + 1 = s.inProgress.card := by
    rw [inProgress_erase ht.op, Finset.card_erase_add_one hmem]
  have hout : t.outstanding = t.inProgress.card := by
    have hold := h.outstanding
    rw [ht.outstanding]
    omega
  -- Only `p` can be in `commit()` now.
  have hself : ∀ q st', t.stage q = some st' → q = p ∧ st.isSome = true := by
    intro q st' hq
    by_cases hqp : q = p
    · subst hqp
      have hst : st = some st' := by simpa [ht.stage] using hq
      exact ⟨rfl, by simp [hst]⟩
    · simp [ht.stage, hqp, hnone q] at hq
  refine ⟨hout, ?_, ?_, ?_, ?_, ?_⟩
  · intro hc
    have hzero : t.outstanding = 0 := by
      have hst : st.isSome = true := by simpa [ht.committing] using hc
      simpa [ht.outstanding] using hlast hst
    have hcard0 : t.inProgress.card = 0 := by
      rw [hzero] at hout
      omega
    exact Finset.card_eq_zero.1 hcard0
  · intro q st' hq
    simpa [ht.committing] using (hself q st' hq).2
  · intro q r st1 st2 hq hr
    exact (hself q st1 hq).1.trans (hself r st2 hr).1.symm
  · simpa [ht.lh] using h.nodup
  · simpa [ht.halt] using h.running

theorem History.end_ {st : Option Stage} (h : s.History) (hp : s.op p = some o) (hnone : ∀ q, s.stage q = none)
    (hst : ∀ st', st = some st' → st'.headWritten = false ∧ st'.cleared = false) (ht : Ended s p o st t) :
    t.History := by
  have hall : t.allOps = s.allOps := by simp [allOps, ht.cur, ht.txns]
  have hstage : ∀ q st', t.stage q = some st' → st'.headWritten = false ∧ st'.cleared = false := by
    intro q st' hq
    by_cases hqp : q = p
    · exact hst st' (by simpa [ht.stage, hqp] using hq)
    · simp [ht.stage, hqp, hnone q] at hq
  have hother : ∀ q o', t.op q = some o' → s.op q = some o' ∧ o' ≠ o := by
    intro q o' hq
    by_cases hqp : q = p
    · simp [ht.op, hqp] at hq
    · have hold : s.op q = some o' := by simpa [ht.op, hqp] using hq
      refine ⟨hold, ?_⟩
      intro ho
      exact hqp (h.own q p o (ho ▸ hold) hp)
  refine ⟨?_, ?_, ?_, ?_, ?_, ?_, ?_, ?_, ?_, ?_⟩
  · intro q o' hq
    rcases hother q o' hq with ⟨hold, hne⟩
    have hheld := h.held q o' hold
    exact ⟨by simpa [ht.cur] using hheld.1, by simpa [ht.ended, hne] using hheld.2⟩
  · intro q r o' hq hr
    exact h.own q r o' (hother q o' hq).1 (hother r o' hr).1
  · intro o' ho' hend
    have hne : o' ≠ o := by
      intro hEq
      simp [ht.ended, hEq] at hend
    rcases h.live o' (by simpa [ht.cur] using ho') (by simpa [ht.ended, hne] using hend) with
      ⟨q, hq⟩
    have hqp : q ≠ p := by
      intro hqp
      have hEq : some o = some o' := by simpa [hqp, hp] using hq
      exact hne (Option.some.inj hEq).symm
    exact ⟨q, by simpa [ht.op, hqp] using hq⟩
  · simpa [hall, ht.nextOp] using h.numbered
  · intro o' ho'
    have hge : s.nextOp ≤ o' := by simpa [ht.nextOp] using ho'
    have hlt : o < s.nextOp := (h.numbered o).1 (List.mem_append_left _ (h.held p o hp).1)
    have hne : o' ≠ o := by omega
    simpa [ht.logged, ht.ended, hne] using h.fresh o' hge
  · simpa [hall] using h.disjoint
  · intro _
    have hold := h.pending (fun q st' hq => by simp [hnone q] at hq)
    simpa [ht.lh, ht.cur, ht.logged] using hold
  · intro q st' hq hw
    simp [(hstage q st' hq).1] at hw
  · intro q st' hq hw
    simp [(hstage q st' hq).2] at hw
  · intro tx htx
    have hold : s.ExactFor tx := h.txns tx (by simpa [ht.txns] using htx)
    refine hold.congr ?_ ?_
    · intro o' _
      simp [ht.logged]
    · intro o' ho'
      by_cases hne : o' = o
      · simp [ht.ended, hne]
      · simpa [ht.ended, hne] using hold.ended o' ho'

theorem Inv.endOp [Fintype P] (h : s.Inv) (hp : s.phase p = .inOp o) : (s.endOp p o).Inv := by
  have hop : s.op p = some o := by simp [op, hp, Phase.opOf]
  have hc : s.committing = false := h.control.not_committing hop
  have hnone := h.control.no_stage hc
  unfold State.endOp
  split
  · rename_i hc'
    simp [hc] at hc'
  split
  · -- The last operation: go on to commit.
    rename_i hlast
    have hend : Ended s p o (some .check)
        { s.setPhase p (.committing .check) with
          outstanding := s.outstanding - 1
          committing := true
          ended := update s.ended o true } :=
      ⟨op_setPhase s p _, stage_setPhase s p _, rfl, rfl, rfl, rfl, rfl, rfl, rfl, rfl, rfl⟩
    refine ⟨h.control.end_ hop (fun _ => hlast) hend, h.history.end_ hop hnone ?_ hend⟩
    intro st' hst'
    have hst : Stage.check = st' := Option.some.inj hst'
    subst hst
    exact ⟨rfl, rfl⟩
  · -- Others are still in their operations: wake whoever waits for space.
    have hend : Ended s p o none
        { (s.setPhase p .idle).wakeupLog with
          outstanding := s.outstanding - 1
          ended := update s.ended o true } :=
      ⟨(op_wakeupLog _).trans (op_setPhase s p _),
        (stage_wakeupLog _).trans (stage_setPhase s p _), rfl, hc, rfl, rfl, rfl, rfl, rfl, rfl,
        rfl⟩
    exact ⟨h.control.end_ hop (by simp) hend, h.history.end_ hop hnone (by simp) hend⟩

end Steps

end State
end Xv6.Log
