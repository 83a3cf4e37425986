import Mathlib.Algebra.Group.Nat.Defs
import Mathlib.Data.List.Nodup
import Xv6.Process.Family

/-!
# Reaping — one `wait` or `join` for every exited process

The invariant of `Family`, read along whole runs: a ZOMBIE leaves its slot only through one `wait` or
`join` of its parent, which returns its pid; the pids so returned are all different as long as `nextpid`
has not gone round; and `fork` and `clone` return the pid that `allocproc` gave the child.
-/

namespace Xv6.Process

open Function (update_of_ne update_self)
open Common

namespace Kernel

variable {ncpu : ℕ}

/-! ## Properties of states and steps -/

/-- In this step a `wait` or `join` of the parent of `r` frees the slot, and no other, and returns the
pid of `r`. -/
def ReapedIn (e : Taken (Kernel ncpu) (Action ncpu)) (r : Slot) : Prop :=
  ∃ p, e.pre.waiter e.act = some p ∧ (e.pre.proc r).parent = some p ∧
    (e.pre.proc r).state = .zombie ∧ (e.post.proc r).state = .unused ∧
    (e.post.proc p).eax = (e.pre.proc r).pid ∧
    ∀ q, q ≠ r → (e.pre.proc q).state = .zombie → (e.post.proc q).state = .zombie

variable {s t : Kernel ncpu} {r p np : Slot} {ev : Event} {w : Kin} {a : Action ncpu}
  {es : List (Taken (Kernel ncpu) (Action ncpu))} {n : ℕ} {old : List Int32} {v : Int32}

theorem SlotStep.dead (h : SlotStep s r ev w) (hr : (s.kin r).life = .dead) (hw : w.life ≠ .dead) :
    ∃ p, ev = .reap p r := by
  cases h with
  | call ev k halive => exact absurd (halive.symm.trans hr) (by simp)
  | claimed p hfree => exact absurd (hfree.symm.trans hr) (by simp)
  | aborted p hclaimed => exact absurd (hclaimed.symm.trans hr) (by simp)
  | published p hp hclaimed => exact absurd (hclaimed.symm.trans hr) (by simp)
  | exited halive hk => exact absurd (halive.symm.trans hr) (by simp)
  | reaped p hdead hparent => exact ⟨p, rfl⟩
  | _ => exact absurd hr hw

theorem SlotStep.free (h : SlotStep s r ev w) (hr : (s.kin r).life = .free) (hw : w.life ≠ .free) :
    w.life = .claimed := by
  cases h with
  | call ev k halive => exact absurd (halive.symm.trans hr) (by simp)
  | claimed p hfree => rfl
  | aborted p hclaimed => exact absurd (hclaimed.symm.trans hr) (by simp)
  | published p hp hclaimed => exact absurd (hclaimed.symm.trans hr) (by simp)
  | exited halive hk => exact absurd (halive.symm.trans hr) (by simp)
  | reaped p hdead hparent => exact absurd (hdead.symm.trans hr) (by simp)
  | _ => exact absurd hr hw

theorem ProcState.life_eq_claimed {st : ProcState} : st.life = .claimed ↔ st = .embryo := by
  cases st <;> simp [ProcState.life]

theorem reapedIn_of_event (hs : s.Control) (hstep : step s a = some t) (hev : s.event a = .reap p r) :
    ReapedIn { pre := s, act := a, post := t } r := by
  have heff := kinEffect_step hs hstep
  rw [hev] at heff
  cases heff with
  | reap p r hp hr hparent heax hv hn =>
    have hdead : (s.proc r).state = .zombie := ProcState.life_eq_dead.1 hr
    refine ⟨p, waiter_of_reap hev, hparent, hdead, ?_, heax, ?_⟩
    · have hfree : (t.kin r).life = .free := by rw [hv, update_self]
      exact ProcState.life_eq_free.1 hfree
    intro q hq hz
    have hsame : (t.kin q).life = .dead := by
      rw [hv, update_of_ne hq]
      exact ProcState.life_eq_dead.2 hz
    exact ProcState.life_eq_dead.1 hsame

/-- A ZOMBIE leaves its slot only by being reaped. -/
theorem Kinship.reapedIn (hs : s.Kinship) (hstep : Kernel.step s a = some t) (hr : (s.proc r).state = .zombie)
    (ht : (t.proc r).state ≠ .zombie) : ReapedIn { pre := s, act := a, post := t } r := by
  have hslot := (kinEffect_step hs.control hstep).slot hs.control r
  have hlife : (t.kin r).life ≠ .dead := fun h => ht (ProcState.life_eq_dead.1 h)
  rcases hslot.dead (ProcState.life_eq_dead.2 hr) hlife with ⟨p, hev⟩
  exact reapedIn_of_event hs.control hstep hev

theorem wait_returns {c : Fin ncpu} (h : WaitCase s c p t) (hpanic : t.panicked = false)
    (hrun : (t.proc p).state = .running) :
    (t.proc p).eax = -1 ∨ ∃ r, (s.proc r).state = .zombie ∧ (t.proc r).state ≠ .zombie := by
  cases h with
  | panic r hz hd => cases hpanic
  | fail hz => exact Or.inl (by simp [setEax, set])
  | sleep hz => simp [sleep, sched, set] at hrun
  | reap r d hz hd =>
    refine Or.inr ⟨r, (Table.findZombie_eq_some hz).2, ?_⟩
    by_cases hrp : r = p
    · subst hrp
      simp [reap, setEax, freevm, set]
    · simp [reap, setEax, freevm, set, hrp]

theorem join_returns {c : Fin ncpu} (h : JoinCase s c p t) (hrun : (t.proc p).state = .running) :
    (t.proc p).eax = -1 ∨ ∃ r, (s.proc r).state = .zombie ∧ (t.proc r).state ≠ .zombie := by
  cases h with
  | fail hz => exact Or.inl (by simp [setEax, set])
  | sleep hz => simp [sleep, sched, set] at hrun
  | reap r hz =>
    refine Or.inr ⟨r, (Table.findZombieThread_eq_some hz).2, ?_⟩
    by_cases hrp : r = p
    · subst hrp
      simp [reapThread, setEax, set]
    · simp [reapThread, setEax, set, hrp]

theorem Kinship.returns (hs : s.Kinship) (hstep : Kernel.step s a = some t) (hp : s.waiter a = some p)
    (hpanic : t.panicked = false) (hrun : (t.proc p).state = .running) :
    (t.proc p).eax = -1 ∨ ∃ r, ReapedIn { pre := s, act := a, post := t } r := by
  have hreaped : (t.proc p).eax = -1 ∨ ∃ r, (s.proc r).state = .zombie ∧ (t.proc r).state ≠ .zombie := by
    rcases step_cases hstep with ⟨_, hcase⟩
    cases hcase with
    | resume c q t hc hl h =>
      simp only [waiter, hc] at hp
      split_ifs at hp with hres
      have hqp : q = p := Option.some.inj hp
      subst hqp
      have hstate : ∀ r, ((s.set q (fun q => { q with chan := none })).proc r).state = (s.proc r).state := by
        intro r
        by_cases hr : r = q
        · subst hr
          simp [set]
        · simp [set, hr]
      cases h with
      | release hr => rcases hr with hr | hr <;> simp [hr] at hres
      | sleep hr => simp [hr] at hres
      | wait t hr h => simpa only [hstate] using wait_returns h hpanic hrun
      | join t hr h => simpa only [hstate] using join_returns h hrun
    | start c q a t hc h =>
      cases h with
      | wait t hl h => exact wait_returns (Option.some.inj (hc.symm.trans hp) ▸ h) hpanic hrun
      | join t hl h => exact join_returns (Option.some.inj (hc.symm.trans hp) ▸ h) hrun
      | _ => cases hp
    | call c q a t hc h => cases h <;> cases hp
    | _ => cases hp
  rcases hreaped with heax | ⟨r, hr, ht⟩
  · exact Or.inl heax
  · exact Or.inr ⟨r, hs.reapedIn hstep hr ht⟩

/-! ## Pids -/

def Event.isClaim : Event → Bool
  | .claim _ _ => true
  | _ => false

def claimCount (es : List (Taken (Kernel ncpu) (Action ncpu))) : ℕ :=
  es.countP (fun e => (e.pre.event e.act).isClaim)

def reapedPid (e : Taken (Kernel ncpu) (Action ncpu)) : Option Int32 :=
  match e.pre.event e.act with
  | .reap _ r => some (e.pre.proc r).pid
  | _ => none

/-- `n` processes have been made after `initproc`, and those with the pids `old` have been reaped. -/
structure Pids (n : ℕ) (old : List Int32) (s : Kernel ncpu) : Prop where
  next : s.nextpid = Int32.ofNat (n + 2)
  live : ∀ r, (s.kin r).life ≠ .free → ∃ i ≤ n, (s.kin r).pid = Int32.ofNat (i + 1)
  past : ∀ v ∈ old, ∃ i ≤ n, v = Int32.ofNat (i + 1)
  inj : ∀ r q, (s.kin r).life ≠ .free → (s.kin q).life ≠ .free → (s.kin r).pid = (s.kin q).pid → r = q
  fresh : ∀ r, (s.kin r).life ≠ .free → (s.kin r).pid ∉ old
  nodup : old.Nodup

theorem int32_ofNat_inj {a b : ℕ} (ha : a < 2 ^ 32) (hb : b < 2 ^ 32)
    (h : Int32.ofNat a = Int32.ofNat b) : a = b := by
  have hbits := congrArg Int32.toBitVec h
  simp only [Int32.toBitVec_ofNat'] at hbits
  have hnat := congrArg BitVec.toNat hbits
  simp only [BitVec.toNat_ofNat] at hnat
  omega

/-- A slot in use was in use before with the same pid, or has just got the next one. -/
theorem SlotStep.pid (h : SlotStep s r ev w) (hw : w.life ≠ .free) :
    ((s.kin r).life ≠ .free ∧ w.pid = (s.kin r).pid) ∨ (∃ p, ev = .claim p r) ∧ w.pid = s.nextpid := by
  cases h with
  | claimed p hfree => exact Or.inr ⟨⟨p, rfl⟩, rfl⟩
  | aborted p hclaimed => exact absurd rfl hw
  | reaped p hdead hparent => exact absurd rfl hw
  | published p hp hclaimed => exact Or.inl ⟨by simp [hclaimed], rfl⟩
  | exited halive hk => exact Or.inl ⟨by simp [halive], rfl⟩
  | _ => exact Or.inl ⟨hw, rfl⟩

theorem KinEffect.nextpid (h : KinEffect s t ev) (hev : ev.isClaim = false) : t.nextpid = s.nextpid := by
  cases h with
  | claim p np k hp hk hnp hk' hv hn => cases hev
  | _ => assumption

theorem Pids.keep (h : Pids n old s) (hs : s.Control) (heff : KinEffect s t ev) (hev : ev.isClaim = false) :
    Pids n old t := by
  have hslot : ∀ r, (t.kin r).life ≠ .free → (s.kin r).life ≠ .free ∧ (t.kin r).pid = (s.kin r).pid := by
    intro r hr
    rcases (heff.slot hs r).pid hr with hsame | ⟨⟨p, rfl⟩, _⟩
    · exact hsame
    · cases hev
  refine ⟨(heff.nextpid hev).trans h.next, ?_, h.past, ?_, ?_, h.nodup⟩
  · intro r hr
    rw [(hslot r hr).2]
    exact h.live r (hslot r hr).1
  · intro r q hr hq hEq
    rw [(hslot r hr).2, (hslot q hq).2] at hEq
    exact h.inj r q (hslot r hr).1 (hslot q hq).1 hEq
  · intro r hr
    rw [(hslot r hr).2]
    exact h.fresh r (hslot r hr).1

theorem Pids.claim (h : Pids n old s) (hs : s.Control) (heff : KinEffect s t (.claim p np)) (hn : n + 2 < 2 ^ 32) :
    Pids (n + 1) old t := by
  have hnext : t.nextpid = s.nextpid + 1 := by
    cases heff with
    | claim p np k hp hk hnp hk' hv hn => exact hn
  have hslot : ∀ r, (t.kin r).life ≠ .free → ((s.kin r).life ≠ .free ∧ (t.kin r).pid = (s.kin r).pid) ∨
        (r = np ∧ (t.kin r).pid = Int32.ofNat (n + 2)) := by
    intro r hr
    rcases (heff.slot hs r).pid hr with hsame | ⟨⟨q, hq⟩, hpid⟩
    · exact Or.inl hsame
    · exact Or.inr ⟨(Event.claim.inj hq).2.symm, hpid.trans h.next⟩
  -- The new pid is none of those given out so far.
  have hnew : ∀ v, (∃ i ≤ n, v = Int32.ofNat (i + 1)) → v ≠ Int32.ofNat (n + 2) := by
    rintro v ⟨i, hi, rfl⟩ hEq
    have hin := int32_ofNat_inj (by omega) hn hEq
    omega
  refine ⟨?_, ?_, ?_, ?_, ?_, h.nodup⟩
  · rw [hnext, h.next]
    exact (Int32.ofNat_add (n + 2) 1).symm
  · intro r hr
    rcases hslot r hr with ⟨hold, hpid⟩ | ⟨_, hpid⟩
    · rcases h.live r hold with ⟨i, hi, hv⟩
      exact ⟨i, by omega, hpid.trans hv⟩
    · exact ⟨n + 1, Nat.le_refl _, hpid⟩
  · intro v hv
    rcases h.past v hv with ⟨i, hi, hEq⟩
    exact ⟨i, by omega, hEq⟩
  · intro r q hr hq hEq
    rcases hslot r hr with ⟨hr', hpr⟩ | ⟨hr', hpr⟩ <;> rcases hslot q hq with ⟨hq', hpq⟩ | ⟨hq', hpq⟩
    · exact h.inj r q hr' hq' (hpr.symm.trans (hEq.trans hpq))
    · exact absurd (hpr.symm.trans (hEq.trans hpq)) (hnew _ (h.live r hr'))
    · exact absurd (hpq.symm.trans (hEq.symm.trans hpr)) (hnew _ (h.live q hq'))
    · rw [hr', hq']
  · intro r hr
    rcases hslot r hr with ⟨hr', hpr⟩ | ⟨_, hpr⟩
    · rw [hpr]
      exact h.fresh r hr'
    · rw [hpr]
      intro hmem
      exact hnew _ (h.past _ hmem) rfl

theorem Pids.reap (h : Pids n old s) (hs : s.Control) (heff : KinEffect s t (.reap p r)) :
    Pids n (old ++ [(s.kin r).pid]) t := by
  have hkeep := h.keep hs heff rfl
  cases heff with
  | reap p r hp hr hparent heax hv hn =>
    have hused : (s.kin r).life ≠ .free := by simp [hr]
    refine ⟨hkeep.next, hkeep.live, ?_, hkeep.inj, ?_, ?_⟩
    · intro v hmem
      rcases List.mem_append.1 hmem with hold | hnew
      · exact h.past v hold
      · rw [List.mem_singleton.1 hnew]
        exact h.live r hused
    · intro q hq hmem
      have hqr : q ≠ r := by
        rintro rfl
        rw [hv, update_self] at hq
        exact hq rfl
      rcases List.mem_append.1 hmem with hold | hnew
      · exact hkeep.fresh q hq hold
      · rw [hv, update_of_ne hqr] at hq hnew
        exact hqr (h.inj q r hq hused (List.mem_singleton.1 hnew))
    · refine List.nodup_append.2 ⟨h.nodup, List.nodup_singleton _, ?_⟩
      intro v hold w hw hEq
      rw [List.mem_singleton.1 hw] at hEq
      exact h.fresh r hused (hEq ▸ hold)

theorem Pids.run (h : (machine ncpu).Run s es t) (hs : s.Control) (hp : Pids n old s)
    (hn : n + claimCount es + 1 < 2 ^ 32) : Pids (n + claimCount es) (old ++ es.filterMap reapedPid) t := by
  induction h generalizing n old with
  | nil s => simpa [claimCount] using hp
  | @cons s t u a es hstep _ ih =>
    have heff := kinEffect_step hs hstep
    cases hev : s.event a with
    | claim p np =>
      have hcount : claimCount ({ pre := s, act := a, post := t } :: es) = claimCount es + 1 := by
        simp [claimCount, hev, Event.isClaim]
      rw [hcount] at hn ⊢
      have hrest := ih (hs.step hstep) (hp.claim hs (hev ▸ heff) (by omega)) (by omega)
      have hnone : reapedPid { pre := s, act := a, post := t } = none := by simp [reapedPid, hev]
      rw [List.filterMap_cons_none hnone]
      rwa [Nat.add_assoc, Nat.add_comm 1] at hrest
    | reap p r =>
      have hcount : claimCount ({ pre := s, act := a, post := t } :: es) = claimCount es := by
        simp [claimCount, hev, Event.isClaim]
      rw [hcount] at hn ⊢
      have hrest := ih (hs.step hstep) (hp.reap hs (hev ▸ heff)) hn
      have hsome : reapedPid { pre := s, act := a, post := t } = some (s.kin r).pid := by
        simp [reapedPid, hev, kin_apply, Proc.kin]
      rw [List.filterMap_cons_some hsome]
      simpa using hrest
    | _ =>
      all_goals
        have hcount : claimCount ({ pre := s, act := a, post := t } :: es) = claimCount es := by
          simp [claimCount, hev, Event.isClaim]
        rw [hcount] at hn ⊢
        have hnone : reapedPid { pre := s, act := a, post := t } = none := by simp [reapedPid, hev]
        rw [List.filterMap_cons_none hnone]
        exact ih (hs.step hstep) (hp.keep hs heff (by simp [hev, Event.isClaim])) hn

theorem pids_userinit (page : ℕ) : Pids 0 [] (userinit ncpu page) := by
  have hother : ∀ p, p ≠ ⟨0, by decide⟩ → ((userinit ncpu page).kin p).life = .free := by
    intro p hp
    simp [kin_apply, userinit, Table.claim, hp, Proc.kin, Proc.zero, ProcState.life]
  have hinit : ∀ p, ((userinit ncpu page).kin p).life ≠ .free → p = ⟨0, by decide⟩ := by
    intro p hp
    by_contra hne
    exact hp (hother p hne)
  refine ⟨rfl, ?_, by simp, ?_, by simp, List.nodup_nil⟩
  · intro r hr
    refine ⟨0, Nat.le_refl _, ?_⟩
    rw [hinit r hr]
    rfl
  · intro r q hr hq _
    rw [hinit r hr, hinit q hq]

/-! ## What `fork` and `clone` return -/

/-- `init` forks; the child clones a thread and exits; `init` reaps the child and then the thread. -/
def orphanRun : List (Action 1) :=
  [.schedPass 0, .resume 0, .fork 0, .kstack 0 (some 8), .setupkvm 0 true, .copyuvm 0 true,
    .publish 0, .wait 0, .schedPass 0, .resume 0, .clone 0 8192, .kstack 0 (some 9), .cloneFill 0,
    .publish 0, .cloneRet 0, .exit 0, .exitZombie 0, .schedPass 0, .resume 0, .wait 0, .schedPass 0,
    .resume 0, .exit 0, .exitZombie 0, .schedPass 0, .resume 0]

/-- Until `nextpid` has gone round, no two slots in use have the same pid, and none has the pid of a process that was
reaped before. -/
theorem pids_distinct {s t : Kernel ncpu} {es : List (Taken (Kernel ncpu) (Action ncpu))} (hinit : (machine ncpu).init s)
    (h : (machine ncpu).Run s es t) (hcount : claimCount es + 1 < 2 ^ 32) :
    ∀ r, (t.proc r).state ≠ .unused → (t.proc r).pid ∉ es.filterMap reapedPid ∧
      ∀ q, (t.proc q).state ≠ .unused → (t.proc r).pid = (t.proc q).pid → r = q := by
  rcases hinit with ⟨page, rfl⟩
  have hpids := (pids_userinit page).run h (kinship_userinit page).control (by omega)
  have hused : ∀ r, (t.proc r).state ≠ .unused → (t.kin r).life ≠ .free := fun r hr hfree =>
    hr (ProcState.life_eq_free.1 hfree)
  exact fun r hr => ⟨hpids.fresh r (hused r hr), fun q hq => hpids.inj r q (hused r hr) (hused q hq)⟩

theorem pids_distinct_orphanRun : ∃ es t, (machine 1).Run (userinit 1 7) es t ∧ es.map Taken.act = orphanRun ∧
    (t.proc ⟨0, by decide⟩).state ≠ .unused ∧ (t.proc ⟨0, by decide⟩).pid ∉ es.filterMap reapedPid := by
  have hexec : (System.execute step (userinit 1 7) orphanRun).map
      (fun t => decide ((t.proc ⟨0, by decide⟩).state ≠ .unused)) = some true := by decide
  rcases Option.map_eq_some_iff.1 hexec with ⟨t, ht, hdec⟩
  rcases System.run_of_execute ht with ⟨es, hrun, hacts⟩
  have hlen : claimCount es ≤ orphanRun.length := by
    rw [← hacts, List.length_map]
    exact List.countP_le_length
  have hused := of_decide_eq_true hdec
  exact ⟨es, t, hrun, hacts, hused, (pids_distinct ⟨7, rfl⟩ hrun (by simp [orphanRun] at hlen; omega) _ hused).1⟩

/-! ## Slots in the making -/

/-- Somebody builds every slot that is claimed. -/
def Attended (v : Slot → View) : Prop := ∀ np, (v np).life = .claimed → ∃ p, (v p).call.claims = some np

theorem Effect.attended {rel : Option Pgdir} (h : Effect s t rel) (hb : Builds s.view)
    (hs : Attended s.view) : Attended t.view := by
  have hbuild := hb.building
  intro w hw
  by_cases hold : (s.view w).life = .claimed
  · -- The builder goes on, unless the slot is not EMBRYO any more.
    rcases hs w hold with ⟨q, hq⟩
    refine ⟨q, ?_⟩
    cases h <;> rename t.view = _ => hv <;> rw [hv] at hw ⊢ <;>
      grind [Function.update_apply, Call.claims, Call.claims_of_fills, Call.Plain]
  · cases h with
    | claim p np k hp hk hnp hk' hv hd =>
      refine ⟨p, ?_⟩
      rw [hv] at hw ⊢
      grind [Function.update_apply]
    | _ =>
      rename t.view = _ => hv
      rw [hv] at hw
      grind [Function.update_apply]

/-- A slot is EMBRYO as long as one process is in a `fork` or `clone` that has claimed it: none is left over by a call
that has failed, and no two calls build the same one.  The builder stays alive. -/
theorem embryo_iff_existsUnique_builder (h : (machine ncpu).Reachable s) (np : Slot) :
    ((s.proc np).state = .embryo ↔ ∃! p, (s.proc p).call.claims = some np) ∧
      ∀ p, (s.proc p).call.claims = some np → (s.view p).life = .alive := by
  have hinv : s.Control ∧ Attended s.view := by
    refine h.invariant (P := fun s => s.Control ∧ Attended s.view) ?_ ?_
    · rintro s ⟨page, rfl⟩
      refine ⟨control_userinit page, fun np hnp => ?_⟩
      by_cases h0 : np = ⟨0, by decide⟩
      · subst h0
        simp [view_apply, Proc.view, userinit, ProcState.life] at hnp
      · simp [view_apply, Proc.view, userinit, Table.claim, h0, Proc.zero, ProcState.life] at hnp
    · rintro s a t ⟨hs, hatt⟩ hst
      exact ⟨hs.step hst, (effect_step hs hst).attended hs.builds hatt⟩
  have hb := hinv.1.builds
  refine ⟨⟨fun hnp => ?_, ?_⟩, fun p hp => (hb.building p np hp).1⟩
  · rcases hinv.2 np (ProcState.life_eq_claimed.2 hnp) with ⟨p, hp⟩
    exact ⟨p, hp, fun q hq => hb.builder q p np hq hp⟩
  · rintro ⟨p, hp, _⟩
    exact ProcState.life_eq_claimed.1 (hb.building p np hp).2

theorem embryo_builder_forkRun : ∃ s, (machine 1).Reachable s ∧ (s.proc ⟨1, by decide⟩).state = .embryo ∧
    ∃! p, (s.proc p).call.claims = some ⟨1, by decide⟩ := by
  have hexec : (System.execute step (userinit 1 7) (orphanRun.take 3)).map
      (fun t => decide ((t.proc ⟨1, by decide⟩).state = .embryo)) = some true := by decide
  rcases Option.map_eq_some_iff.1 hexec with ⟨s, hs, hdec⟩
  rcases System.run_of_execute hs with ⟨es, hrun, _⟩
  have hreach : (machine 1).Reachable s := ⟨userinit 1 7, es, ⟨7, rfl⟩, hrun⟩
  have hembryo := of_decide_eq_true hdec
  exact ⟨s, hreach, hembryo, (embryo_iff_existsUnique_builder hreach _).1.1 hembryo⟩

end Kernel
end Xv6.Process
