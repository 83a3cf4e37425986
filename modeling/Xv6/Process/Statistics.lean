import Mathlib.Algebra.Group.Int.Defs
import Xv6.Process.Records

/-!
# Statistics — are the counters of a process exact?

The machine runs with a history beside it: how often the process in a slot has been dispatched since `allocproc`,
how many timer interrupts `trap` has handled for it while it was RUNNING, and what `ticks` was when it was dispatched
first.  The counters agree with the history as long as they do not overflow.  The time of the first dispatch does
not: `scheduler` takes a `first_run_time` of 0 for one that has not been set, so a process that was dispatched first
at tick 0 gets another one at its next dispatch.
-/

namespace Xv6.Process

open Common

/-! ## Histories -/

/-- What has happened to a process since `allocproc`. -/
structure History where
  dispatches : ℕ
  interrupts : ℕ
  /-- The value of `ticks` at the first dispatch. -/
  first : Option UInt32

namespace History

def new : History := ⟨0, 0, none⟩

def dispatch (h : History) (ticks : UInt32) : History :=
  { h with dispatches := h.dispatches + 1, first := h.first.or (some ticks) }

def interrupt (h : History) : History :=
  { h with interrupts := h.interrupts + 1 }

end History

/-- The statistics say what has happened. -/
structure Exact (h : History) (q : Record) : Prop where
  timesScheduled : q.timesScheduled.toInt = h.dispatches
  totalTicks : q.totalTicks.toNat = h.interrupts
  firstRunTime : ∀ t, h.first = some t → q.firstRunTime = t

/-- Before the first dispatch there is no time of it. -/
structure Kept (h : History) (q : Record) : Prop extends Exact h q where
  first : h.first = none ↔ h.dispatches = 0
  unset : h.first = none → q.firstRunTime = 0

section Slot

variable {h : History} {q q' : Record} {ticks : UInt32}

theorem toInt_succ_iff {x : Int32} (hx : 0 ≤ x.toInt) : (x + 1).toInt = x.toInt + 1 ↔ x.toInt + 1 < 2 ^ 31 := by
  have hlt := x.toInt_lt
  rw [Int32.toInt_add, show (1 : Int32).toInt = 1 from rfl, Int.bmod_def]
  split_ifs <;> omega

theorem toNat_succ_iff {x : UInt32} : (x + 1).toNat = x.toNat + 1 ↔ x.toNat + 1 < 2 ^ 32 := by
  have hlt := x.toNat_lt
  rw [UInt32.toNat_add, show (1 : UInt32).toNat = 1 from rfl]
  omega

theorem kept_new (hq : q.timesScheduled = 0) (hticks : q.totalTicks = 0) (hfirst : q.firstRunTime = 0) :
    Kept .new q :=
  ⟨⟨by rw [hq]; rfl, by rw [hticks]; rfl, fun _ hsome => by cases hsome⟩, by simp [History.new], fun _ => hfirst⟩

/-- The stack of the process is of no interest here. -/
theorem Kept.congr (hk : Kept h q) (htimes : q'.timesScheduled = q.timesScheduled)
    (hticks : q'.totalTicks = q.totalTicks) (hfirst : q'.firstRunTime = q.firstRunTime) : Kept h q' :=
  ⟨⟨by rw [htimes, hk.timesScheduled], by rw [hticks, hk.totalTicks], fun t ht => by rw [hfirst, hk.firstRunTime t ht]⟩,
    hk.first, fun hnone => by rw [hfirst, hk.unset hnone]⟩

theorem Kept.exact_dispatch_iff (hk : Kept h q) (ticks : UInt32) : Exact (h.dispatch ticks) (q.dispatch ticks) ↔
      q.timesScheduled.toInt + 1 < 2 ^ 31 ∧ (q.timesScheduled ≠ 0 → q.firstRunTime = 0 → ticks = 0) := by
  have hcount := hk.timesScheduled
  have htimes : (q.dispatch ticks).timesScheduled.toInt = (h.dispatch ticks).dispatches ↔
      q.timesScheduled.toInt + 1 < 2 ^ 31 := by
    rw [← toInt_succ_iff (by omega), hcount]
    rfl
  have hzero : q.timesScheduled = 0 ↔ h.first = none := by
    rw [hk.first, ← Int32.toInt_inj, hcount]
    exact Int.natCast_eq_zero
  have hfirst : (∀ t, (h.dispatch ticks).first = some t → (q.dispatch ticks).firstRunTime = t) ↔
      (q.timesScheduled ≠ 0 → q.firstRunTime = 0 → ticks = 0) := by
    rw [Ne, hzero]
    cases hf : h.first with
    | none => simp [History.dispatch, Record.dispatch, hf, hk.unset hf]
    | some t0 =>
      have ht := hk.firstRunTime t0 hf
      by_cases h0 : t0 = 0 <;> simp [History.dispatch, Record.dispatch, hf, ht, h0]
  constructor
  · intro he
    exact ⟨htimes.1 he.timesScheduled, hfirst.1 he.firstRunTime⟩
  · rintro ⟨hlt, hf⟩
    exact ⟨htimes.2 hlt, hk.totalTicks, hfirst.2 hf⟩

theorem Kept.exact_interrupt_iff (hk : Kept h q) : Exact h.interrupt q.interrupt ↔ q.totalTicks.toNat + 1 < 2 ^ 32 := by
  rw [← toNat_succ_iff, hk.totalTicks]
  exact ⟨fun he => he.totalTicks, fun hticks => ⟨hk.timesScheduled, hticks, hk.firstRunTime⟩⟩

theorem kept_dispatch (he : Exact (h.dispatch ticks) (q.dispatch ticks)) : Kept (h.dispatch ticks) (q.dispatch ticks) := by
  have hsome : (h.dispatch ticks).first ≠ none := by
    cases hf : h.first <;> simp [History.dispatch, hf]
  exact ⟨he, ⟨fun hnone => absurd hnone hsome, fun hzero => absurd hzero (Nat.succ_ne_zero _)⟩,
    fun hnone => absurd hnone hsome⟩

end Slot

namespace Kernel

variable {ncpu : ℕ} {s t : Kernel ncpu} {c : Fin ncpu} {p : Slot} {a : Action ncpu} {hist : Slot → History}

def chronicle (s : Kernel ncpu) (a : Action ncpu) (hist : Slot → History) : Slot → History :=
  match a with
  | .schedPass _ =>
    match s.countPass.proc.pick with
    | some p => Function.update hist p ((hist p).dispatch s.ticks)
    | none => hist
  | .trap c =>
    match s.current c with
    | some p =>
      if (s.proc p).trap = .mlfq ∧ (s.proc p).state = .running then
        Function.update hist p (hist p).interrupt
      else hist
    | none => hist
  | .fork _ | .clone _ _ =>
    match s.proc.findUnused with
    | some np => Function.update hist np .new
    | none => hist
  | _ => hist

def chronicled (ncpu : ℕ) : System (Kernel ncpu × (Slot → History)) (Action ncpu) :=
  .ofStep (fun x => (machine ncpu).init x.1 ∧ x.2 = fun _ => .new) (System.observeStep step chronicle)

/-- The counters do not overflow, and a process whose `first_run_time` is 0 although it has been dispatched is not
dispatched at another tick than 0. -/
def CountsRight (s : Kernel ncpu) : Action ncpu → Prop
  | .schedPass _ => ∀ p, s.countPass.proc.pick = some p →
      (s.proc p).timesScheduled.toInt + 1 < 2 ^ 31 ∧
        ((s.proc p).timesScheduled ≠ 0 → (s.proc p).firstRunTime = 0 → s.ticks = 0)
  | .trap c => ∀ p, s.current c = some p → (s.proc p).trap = .mlfq → (s.proc p).state = .running →
      (s.proc p).totalTicks.toNat + 1 < 2 ^ 32
  | _ => True

/-! ## Steps -/

theorem kept_update {h' : History} {q' : Record} (hk : ∀ p, Kept (hist p) (s.proc.records p))
    (hrec : t.proc.records = Function.update s.proc.records p q') (hp : Kept h' q') (r : Slot) :
    Kept (Function.update hist p h' r) (t.proc.records r) := by
  rw [hrec]
  by_cases hr : r = p
  · subst hr
    simpa using hp
  · simpa [hr] using hk r

/-- A step keeps the statistics exact if and only if it counts right. -/
theorem kept_step (hk : ∀ p, Kept (hist p) (s.proc.records p)) (h : step s a = some t) :
    ((∀ p, Exact (chronicle s a hist p) (t.proc.records p)) → s.CountsRight a) ∧
      (s.CountsRight a → ∀ p, Kept (chronicle s a hist p) (t.proc.records p)) := by
  cases recorded_step h with
  | quiet a t ha hq =>
    have hsame : chronicle s a hist = hist := by
      cases a with
      | schedPass c => exact ha.elim
      | trap c =>
        cases hc : s.current c with
        | none => simp [chronicle, hc]
        | some p => simp [chronicle, hc, ha p hc]
      | fork c =>
        have hnone : s.proc.findUnused = none := ha
        simp [chronicle, hnone]
      | clone c stack =>
        have hnone : s.proc.findUnused = none := ha
        simp [chronicle, hnone]
      | _ => rfl
    have hcount : s.CountsRight a := by
      cases a with
      | schedPass c => exact ha.elim
      | trap c => exact fun p hc ht => absurd ht (ha p hc)
      | _ => trivial
    rw [hsame, hq.records]
    exact ⟨fun _ => hcount, fun _ => hk⟩
  | pass c =>
    cases hpick : s.countPass.proc.pick with
    | none =>
      simp only [chronicle, schedPass, CountsRight, hpick, records_countPass]
      exact ⟨fun _ p hp => (by cases hp), fun _ => hk⟩
    | some p =>
      have hiff := (hk p).exact_dispatch_iff s.ticks
      have hrec := records_dispatch s c p
      simp only [chronicle, schedPass, CountsRight, hpick]
      constructor
      · rintro he p' hp'
        obtain rfl : p = p' := Option.some.inj hp'
        refine hiff.1 ?_
        simpa [hrec] using he p
      · intro hc
        exact kept_update hk hrec (kept_dispatch (hiff.2 (hc p rfl)))
  | timer c t hq =>
    rw [hq.records, records_tick]
    exact ⟨fun _ => trivial, fun _ => hk⟩
  | mlfq c p hc ht =>
    by_cases hrun : (s.proc p).state = .running
    · have hrec := records_mlfq hrun
      have hiff := (hk p).exact_interrupt_iff
      simp only [chronicle, hc, ht, hrun, and_self, if_true, CountsRight]
      constructor
      · rintro he p' hp' - -
        obtain rfl : p = p' := Option.some.inj hp'
        refine hiff.1 ?_
        simpa [hrec] using he p
      · intro hcount
        exact kept_update hk hrec ⟨hiff.2 (hcount p rfl ht hrun), (hk p).first, (hk p).unset⟩
    · simp only [chronicle, hc, hrun, and_false, if_false, (quiet_mlfq hrun).records, CountsRight]
      refine ⟨fun _ p' hp' _ hrun' => ?_, fun _ => hk⟩
      obtain rfl : p = p' := Option.some.inj hp'
      exact absurd hrun' hrun
  | alloc a c p np next ha hnp =>
    have hnew := kept_update hk (records_allocproc p next hnp) (kept_new rfl rfl rfl)
    rcases ha with rfl | ⟨stack, rfl⟩ <;> simp only [chronicle, hnp] <;> exact ⟨fun _ => trivial, fun _ => hnew⟩
  | fill c p np stack hc hcall =>
    have hnew := kept_update hk (records_cloneFill s p np stack) ((hk np).congr rfl rfl rfl)
    rw [Function.update_eq_self] at hnew
    exact ⟨fun _ => trivial, fun _ => hnew⟩
  | join a p r t ha hrec hticks hglobal =>
    have hnew := kept_update hk hrec ((hk r).congr rfl rfl rfl)
    rw [Function.update_eq_self] at hnew
    cases a with
    | join c => exact ⟨fun _ => trivial, fun _ => hnew⟩
    | resume c => exact ⟨fun _ => trivial, fun _ => hnew⟩
    | _ => cases ha

theorem kept_userinit (page : ℕ) : Kept .new ((userinit ncpu page).proc.records p) := by
  by_cases h0 : p = ⟨0, by decide⟩
  · subst h0
    refine kept_new ?_ ?_ ?_ <;> simp [userinit, Table.records, Table.claim, Proc.record, Proc.zero]
  · refine kept_new ?_ ?_ ?_ <;> simp [userinit, Table.records, Table.claim, Proc.record, Proc.zero, h0]

/-- In a run from boot the statistics of all processes are exact after every step if and only if every step counts
right. -/
theorem exact_iff {x y : Kernel ncpu × (Slot → History)}
    {es : List (Taken (Kernel ncpu × (Slot → History)) (Action ncpu))} (hx : (chronicled ncpu).init x)
    (h : (chronicled ncpu).Run x es y) :
    (∀ e ∈ es, ∀ p, Exact (e.post.2 p) (e.post.1.proc p).record) ↔ ∀ e ∈ es, e.pre.1.CountsRight e.act := by
  refine h.forall_post_iff (P := fun x => ∀ p, Kept (x.2 p) (x.1.proc.records p))
    (Q := fun x => ∀ p, Exact (x.2 p) (x.1.proc p).record) (C := fun x a => x.1.CountsRight a)
    (fun x hk p => (hk p).toExact) ?_ ?_ ?_
  · intro x a y hk hc hstep
    rcases System.observeStep_eq_some.1 hstep with ⟨hst, hnote⟩
    rw [hnote]
    exact (kept_step hk hst).2 hc
  · intro x a y hk hstep he
    rcases System.observeStep_eq_some.1 hstep with ⟨hst, hnote⟩
    rw [hnote] at he
    exact (kept_step hk hst).1 he
  · rcases hx with ⟨⟨page, hpage⟩, hnew⟩
    intro p
    rw [hpage, hnew]
    exact kept_userinit page

def secondDispatch : List (Action 1) :=
  [.schedPass 0, .resume 0, .timer 0, .trap 0, .trap 0, .schedPass 0]

theorem exact_secondDispatch :
    ∃ es y, (chronicled 1).Run (userinit 1 7, fun _ => .new) es y ∧ es.map Taken.act = secondDispatch ∧
      ((∀ e ∈ es, ∀ p, Exact (e.post.2 p) (e.post.1.proc p).record) ↔ ∀ e ∈ es, e.pre.1.CountsRight e.act) := by
  have hsome : (System.execute (System.observeStep step chronicle) (userinit 1 7, fun _ => .new)
      secondDispatch).isSome = true := by decide
  rcases Option.isSome_iff_exists.1 hsome with ⟨y, hy⟩
  rcases System.run_of_execute hy with ⟨es, hrun, hacts⟩
  exact ⟨es, y, hrun, hacts, exact_iff ⟨⟨7, rfl⟩, rfl⟩ hrun⟩

def atSecondDispatch : Kernel 1 × (Slot → History) :=
  System.follow (System.observeStep step chronicle) (userinit 1 7, fun _ => .new) secondDispatch

/-- Its first dispatch was at tick 0, but `first_run_time` is 1 now. -/
theorem firstRunTime_secondDispatch :
    (chronicled 1).Reachable atSecondDispatch ∧ (atSecondDispatch.2 ⟨0, by decide⟩).first = some 0 ∧
      (atSecondDispatch.1.proc ⟨0, by decide⟩).firstRunTime = 1 ∧
      ¬ Exact (atSecondDispatch.2 ⟨0, by decide⟩) (atSecondDispatch.1.proc ⟨0, by decide⟩).record := by
  have hfirst : (atSecondDispatch.2 ⟨0, by decide⟩).first = some 0 := by decide
  have htime : (atSecondDispatch.1.proc ⟨0, by decide⟩).firstRunTime = 1 := by decide
  have hboot : (chronicled 1).Reachable (userinit 1 7, fun _ => .new) := System.Reachable.of_init ⟨⟨7, rfl⟩, rfl⟩
  refine ⟨hboot.follow (fun _ _ _ h => h) _, hfirst, htime, fun he => ?_⟩
  exact absurd (htime.symm.trans (he.firstRunTime 0 hfirst)) (by decide)

end Kernel

end Xv6.Process
