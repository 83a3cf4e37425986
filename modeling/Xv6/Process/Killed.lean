import Xv6.Process.Kin

/-!
# Killed — who starts out with `killed` set

`allocproc` does not write `killed`, so a new process inherits the flag of its slot.  `wait` and `join`
clear it when they free a slot.  Two other ways lead to an UNUSED slot with the flag set: `kill` does not
look at the state, so it finds UNUSED slots by the pid 0 of a reaped slot, or by the pid that a failed
`fork` or `clone` left behind; and a child that is killed while it is still EMBRYO keeps the flag when
the call fails.
-/

namespace Xv6.Process

open Common

theorem ProcState.life_eq_free {st : ProcState} : st.life = .free ↔ st = .unused := by
  cases st <;> simp [ProcState.life]

namespace Kernel

variable {ncpu : ℕ}

/-! ## Properties of a run -/

def Clean (s : Kernel ncpu) : Prop := ∀ r, (s.proc r).state = .unused → (s.proc r).killed = false

/-- If the step is a `kill(pid)` that returns 0, a process that is not UNUSED has that pid. -/
def KillSound (e : Taken (Kernel ncpu) (Action ncpu)) : Prop :=
  ∀ c p pid, e.act = .kill c pid → e.pre.caller c = some p → (e.post.proc p).eax = 0 →
    ∃ r, (e.pre.proc r).state ≠ .unused ∧ (e.pre.proc r).pid = pid

/-- The step is a `kill` that names the pid of `r` while `r` is in use. -/
def NamesPid (e : Taken (Kernel ncpu) (Action ncpu)) (r : Slot) : Prop :=
  (∃ c, e.act = .kill c (e.pre.proc r).pid) ∧ (e.pre.proc r).state ≠ .unused

/-- Every process that `fork` or `clone` makes in the run has `killed = 0` until a `kill` names its pid
or it faults itself. -/
def StartsClean (es : List (Taken (Kernel ncpu) (Action ncpu))) : Prop :=
  ∀ es₁ e es₂ es₃ p np, es = es₁ ++ e :: (es₂ ++ es₃) → e.pre.event e.act = .claim p np →
    (∀ f ∈ es₂, ¬ NamesPid f np ∧ f.pre.event f.act ≠ .fault np) →
    ∀ f ∈ e :: es₂, (f.post.proc np).killed = false

/-- A `kill` finds no UNUSED slot, and no `fork` or `clone` fails whose half-built child was killed. -/
def KillsLive (s : Kernel ncpu) (a : Action ncpu) : Prop :=
  (∀ r, s.event a = .kill r → (s.proc r).state ≠ .unused) ∧
    ∀ p np, s.event a = .abort p np → (s.proc np).killed = false

instance (s : Kernel ncpu) : Decidable s.Clean :=
  inferInstanceAs (Decidable (∀ r, (s.proc r).state = .unused → (s.proc r).killed = false))

/-! ## One step -/

structure Unkilled (s : Kernel ncpu) : Prop where
  control : s.Control
  clean : s.Clean

variable {s t : Kernel ncpu} {r : Slot} {a : Action ncpu}

theorem clean_iff_kin : s.Clean ↔ ∀ r, (s.kin r).life = .free → (s.kin r).killed = false := by
  constructor
  · intro h r hr
    exact h r (ProcState.life_eq_free.1 hr)
  · intro h r hr
    exact h r (ProcState.life_eq_free.2 hr)

/-- The only ways to an UNUSED slot with the flag set. -/
theorem SlotStep.clean {ev : Event} {w : Kin} (h : SlotStep s r ev w) (hs : s.Clean)
    (hkill : ev = .kill r → (s.kin r).life ≠ .free) (habort : ∀ p, ev = .abort p r → (s.kin r).killed = false)
    (hw : w.life = .free) : w.killed = false := by
  have hr : (s.kin r).life = .free → (s.kin r).killed = false := clean_iff_kin.1 hs r
  cases h with
  | same ev => exact hr hw
  | call ev k halive => exact absurd (halive.symm.trans hw) (by simp)
  | claimed p hfree => exact absurd hw (by simp)
  | stack page hclaimed => exact absurd (hclaimed.symm.trans hw) (by simp)
  | aborted p hclaimed => exact habort p rfl
  | filled p hp hclaimed => exact absurd (hclaimed.symm.trans hw) (by simp)
  | published p hp hclaimed => exact absurd hw (by simp)
  | adopted p hp => exact hr hw
  | exited halive hk => exact absurd hw (by simp)
  | reaped p hdead hparent => rfl
  | killed => exact absurd hw (hkill rfl)
  | faulted halive => exact absurd (halive.symm.trans hw) (by simp)

theorem Unkilled.step (hs : s.Unkilled) (ha : KillsLive s a) (h : step s a = some t) : t.Unkilled := by
  refine ⟨hs.control.step h, clean_iff_kin.2 ?_⟩
  intro r hr
  refine ((kinEffect_step hs.control h).slot hs.control r).clean hs.clean ?_ ?_ hr
  · intro hev hfree
    exact ha.1 r hev (ProcState.life_eq_free.1 hfree)
  · intro p hev
    exact ha.2 p r hev

theorem Unkilled.killsLive (hs : s.Unkilled) (h : Kernel.step s a = some t) (ht : t.Clean) : KillsLive s a := by
  have heff := kinEffect_step hs.control h
  have hclean := clean_iff_kin.1 ht
  refine ⟨?_, ?_⟩
  · intro r hev hr
    rw [hev] at heff
    cases heff with
    | kill r hv hn =>
      have hfree : (t.kin r).life = .free := by
        rw [hv, Function.update_self]
        exact ProcState.life_eq_free.2 hr
      have hset : (t.kin r).killed = true := by simp [hv]
      exact absurd (hclean r hfree) (by simp [hset])
  · intro p np hev
    rw [hev] at heff
    cases heff with
    | abort p np hk heax hv hn =>
      have hne : np ≠ p := (hs.control.builds.ne_of_claims hk.1).symm
      have hkilled := hclean np (by simp [hv, hne])
      rw [hv, Function.update_of_ne hne, Function.update_self] at hkilled
      exact hkilled

theorem SlotStep.killed_eq {ev : Event} {w : Kin} (h : SlotStep s r ev w) (hkill : ev ≠ .kill r)
    (hfault : ev ≠ .fault r) (hr : (s.kin r).killed = false) : w.killed = false := by
  cases h with
  | killed => exact absurd rfl hkill
  | faulted halive => exact absurd rfl hfault
  | reaped p hdead hparent => rfl
  | _ => exact hr

/-! ## Kills -/

theorem event_eq_kill (h : s.event a = .kill r) : ∃ c pid, a = .kill c pid ∧ s.proc.findPid pid = some r := by
  have hcase := event_case s a
  rw [h] at hcase
  cases hcase with
  | kill c pid r hfind => exact ⟨c, pid, rfl, hfind⟩

theorem killSound_of_killsLive {e : Taken (Kernel ncpu) (Action ncpu)}
    (hstep : step e.pre e.act = some e.post) (h : KillsLive e.pre e.act) : KillSound e := by
  rcases e with ⟨s, a, t⟩
  intro c p pid hact hcaller heax
  dsimp only at hstep h hact hcaller heax
  subst hact
  cases hfind : s.proc.findPid pid with
  | some r =>
    have hev : s.event (.kill c pid) = .kill r := by simp [event, hfind]
    exact ⟨r, h.1 r hev, Table.findPid_eq_some hfind⟩
  | none =>
    -- Nobody has the pid, and `kill` returns -1.
    rcases step_cases hstep with ⟨_, hcase⟩
    cases hcase with
    | start c' p' a t hc hs =>
      cases hs with
      | kill pid hl =>
        have hp : p' = p := Option.some.inj (hc.symm.trans hcaller)
        subst hp
        simp [kill, hfind, setEax, set] at heax
    | call c' p' a t hc hs => cases hs

/-! ## Runs -/

theorem killed_of_run {es : List (Taken (Kernel ncpu) (Action ncpu))} (h : (machine ncpu).Run s es t)
    (hs : s.Control) (hlive : ∀ e ∈ es, KillsLive e.pre e.act)
    (hnot : ∀ e ∈ es, ¬ NamesPid e r ∧ e.pre.event e.act ≠ .fault r) (hr : (s.proc r).killed = false) :
    ∀ e ∈ es, (e.post.proc r).killed = false := by
  induction h with
  | nil s => simp
  | @cons s t u a es hstep _ ih =>
    rcases hnot _ List.mem_cons_self with ⟨hnames, hfault⟩
    have hkill : s.event a ≠ .kill r := by
      intro hev
      rcases event_eq_kill hev with ⟨c, pid, rfl, hfind⟩
      refine hnames ⟨⟨c, ?_⟩, (hlive _ List.mem_cons_self).1 r hev⟩
      rw [Table.findPid_eq_some hfind]
    have ht : (t.proc r).killed = false := ((kinEffect_step hs hstep).slot hs r).killed_eq hkill hfault hr
    have hrest := ih (hs.step hstep) (fun e he => hlive e (List.mem_cons_of_mem _ he))
      (fun e he => hnot e (List.mem_cons_of_mem _ he)) ht
    intro e he
    rcases List.mem_cons.1 he with rfl | he'
    · exact ht
    · exact hrest e he'

theorem startsClean_of_killsLive {es : List (Taken (Kernel ncpu) (Action ncpu))}
    (h : (machine ncpu).Run s es t) (hs : s.Unkilled) (hlive : ∀ e ∈ es, KillsLive e.pre e.act) : StartsClean es := by
  intro es1 e es2 es3 p np hes hev hnot
  subst hes
  rcases h.split with ⟨hbefore, hstep, hafter⟩
  have hlive1 : ∀ f ∈ es1, KillsLive f.pre f.act := fun f hf => hlive f (by simp [hf])
  have hlive2 : ∀ f ∈ es2, KillsLive f.pre f.act := fun f hf => hlive f (by simp [hf])
  have hpre : e.pre.Unkilled :=
    (hbefore.invariant_of (C := KillsLive) (fun _ _ _ hs ha hst => hs.step ha hst) hs hlive1).1
  -- The slot was UNUSED, so the new process inherits a clear flag.
  have hnew : (e.post.proc np).killed = false := by
    have heff := kinEffect_step hpre.control hstep
    rw [hev] at heff
    cases heff with
    | claim p np k hp hk hnp hk' hv hn =>
      have hkin : (e.post.kin np).killed = (e.pre.kin np).killed := by
        have hne : np ≠ p := ne_of_field Kin.life hnp hp
        rw [hv, Function.update_of_ne hne, Function.update_self]
      exact hkin.trans (clean_iff_kin.1 hpre.clean np hnp)
  rcases hafter.append_split with ⟨u, hmid, _⟩
  have hrest := killed_of_run hmid (hpre.control.step hstep) hlive2 hnot hnew
  intro f hf
  rcases List.mem_cons.1 hf with rfl | hf'
  · exact hnew
  · exact hrest f hf'

theorem unkilled_userinit (page : ℕ) : (userinit ncpu page).Unkilled := by
  refine ⟨control_userinit page, ?_⟩
  intro r _
  by_cases h0 : r = ⟨0, by decide⟩
  · subst h0
    simp [userinit, Table.claim, Proc.zero]
  · simp [userinit, Table.claim, h0, Proc.zero]

/-- Every UNUSED slot has `killed = 0` along a run from `userinit`, `kill` returns 0 only for processes
in use, and new processes start out with `killed = 0`, exactly if `kill` never finds an UNUSED slot and
no `fork` or `clone` gives up a child that has been killed. -/
theorem clean_iff {s t : Kernel ncpu} {es : List (Taken (Kernel ncpu) (Action ncpu))}
    (hinit : (machine ncpu).init s) (h : (machine ncpu).Run s es t) :
    ((∀ e ∈ es, e.post.Clean ∧ KillSound e) ∧ StartsClean es) ↔ ∀ e ∈ es, KillsLive e.pre e.act := by
  rcases hinit with ⟨page, rfl⟩
  have hclean : (∀ e ∈ es, e.post.Clean) ↔ ∀ e ∈ es, KillsLive e.pre e.act := by
    refine h.forall_post_iff (P := Unkilled) ?_ ?_ ?_ (unkilled_userinit page)
    · intro s hs
      exact hs.clean
    · intro s a t hs ha hst
      exact hs.step ha hst
    · intro s a t hs hst ht
      exact hs.killsLive hst ht
  constructor
  · rintro ⟨hall, _⟩
    exact hclean.1 (fun e he => (hall e he).1)
  · intro hlive
    refine ⟨?_, startsClean_of_killsLive h (unkilled_userinit page) hlive⟩
    intro e he
    exact ⟨hclean.2 hlive e he, killSound_of_killsLive (h.tr_of_mem he) (hlive e he)⟩

/-- `init` forks, kills the child by its pid and reaps it. -/
def forkKillRun : List (Action 1) :=
  [.schedPass 0, .resume 0, .fork 0, .kstack 0 (some 8), .setupkvm 0 true, .copyuvm 0 true,
    .publish 0, .kill 0 2, .wait 0, .schedPass 0, .resume 0, .exit 0, .exitZombie 0, .schedPass 0,
    .resume 0]

theorem clean_forkKillRun :
    ∃ es t, (machine 1).Run (userinit 1 7) es t ∧ es.map Taken.act = forkKillRun ∧
      t.Clean ∧ (t.proc ⟨0, by decide⟩).eax = 2 ∧
      (((∀ e ∈ es, e.post.Clean ∧ KillSound e) ∧ StartsClean es) ↔ ∀ e ∈ es, KillsLive e.pre e.act) := by
  have hexec : (System.execute step (userinit 1 7) forkKillRun).map
      (fun t => decide (t.Clean ∧ (t.proc ⟨0, by decide⟩).eax = 2)) = some true := by decide
  rcases Option.map_eq_some_iff.1 hexec with ⟨t, ht, hdec⟩
  rcases of_decide_eq_true hdec with ⟨hclean, heax⟩
  rcases System.run_of_execute ht with ⟨es, hrun, hacts⟩
  exact ⟨es, t, hrun, hacts, hclean, heax, clean_iff ⟨7, rfl⟩ hrun⟩

/-- `init` calls `kill(0)`. -/
def killZeroRun : List (Action 1) := [.schedPass 0, .resume 0, .kill 0 0]

/-- The call returns 0 although every process in use has another pid, and marks the UNUSED slot 1.  The
next child of `init` is born killed. -/
theorem not_clean_killZeroRun : ∃ t u, System.execute step (userinit 1 7) killZeroRun = some t ∧ ¬ t.Clean ∧
      (t.proc ⟨0, by decide⟩).eax = 0 ∧
      (∀ r, (t.proc r).state ≠ .unused → (t.proc r).pid ≠ 0) ∧
      System.execute step t [.fork 0, .kstack 0 (some 8), .setupkvm 0 true, .copyuvm 0 true, .publish 0] = some u ∧
      (u.proc ⟨1, by decide⟩).state = .runnable ∧ (u.proc ⟨1, by decide⟩).pid = 2 ∧
      (u.proc ⟨1, by decide⟩).killed = true :=
  ⟨_, _, rfl, by decide, rfl, by decide, rfl, rfl, rfl, rfl⟩

end Kernel
end Xv6.Process
