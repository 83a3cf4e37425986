import Xv6.Process.Kin

/-!
# Resumes — a process that reaps is in no other call

A process that sleeps in `wait` or `join` goes on in the loop it slept in, with `ptable.lock` held.  It
was in no other system call when it went to sleep, and while it sleeps nobody changes that.  So whoever
reaps a child is neither in `fork` nor in `clone`.
-/

namespace Xv6.Process
namespace Kernel

variable {ncpu : ℕ}

/-- A process that will go on behind the `sleep` of `wait` or `join` is in no other call; while it
executes, its place to go on is out of date. -/
def Settled (s : Kernel ncpu) (r : Slot) : Prop :=
  (s.kin r).life = .alive → (s.proc r).resume = .wait ∨ (s.proc r).resume = .join →
    (s.proc r).call = .user ∨ ∃ c, s.current c = some r

def Resumes (s : Kernel ncpu) : Prop := ∀ r, s.Settled r

/-- Nothing changes that `Settled` looks at in a slot. -/
structure SameCall (q q' : Proc) : Prop where
  life : q'.state.life = q.state.life
  resume : q'.resume = q.resume
  call : q'.call = q.call

theorem SameCall.refl (q : Proc) : SameCall q q := ⟨rfl, rfl, rfl⟩

theorem SameCall.trans (q1 q2 q3 : Proc) (h : SameCall q1 q2) (h' : SameCall q2 q3) : SameCall q1 q3 :=
  ⟨h'.life.trans h.life, h'.resume.trans h.resume, h'.call.trans h.call⟩

theorem sameCall_wake (q : Proc) (h : q.state = .sleeping) : SameCall q { q with state := .runnable } :=
  ⟨by simp [h, ProcState.life], rfl, rfl⟩

section Resumes

variable {s t : Kernel ncpu} {c : Fin ncpu} {p r np : Slot}

theorem Resumes.of_slots (h : s.Resumes) (hslot : ∀ r, t.Settled r ∨
    (SameCall (s.proc r) (t.proc r) ∧ ∀ c, s.current c = some r → t.current c = some r)) : t.Resumes := by
  intro r
  rcases hslot r with hr | ⟨hsame, hcur⟩
  · exact hr
  · intro halive hwait
    rcases h r (hsame.life.symm.trans halive) (hsame.resume ▸ hwait) with huser | ⟨c, hc⟩
    · exact Or.inl (hsame.call.trans huser)
    · exact Or.inr ⟨c, hcur c hc⟩

theorem settled_of_current (hc : t.current c = some r) : t.Settled r := fun _ _ => Or.inr ⟨c, hc⟩

theorem settled_of_not_alive (hr : (t.proc r).state.life ≠ .alive) : t.Settled r := fun h => absurd h hr

theorem settled_of_user (hr : (t.proc r).call = .user) : t.Settled r := fun _ _ => Or.inl hr

/-- The CPUs stay as they are, and `ptable.lock` with them or free. -/
structure SameCpus (s t : Kernel ncpu) : Prop where
  cpu : t.cpu = s.cpu
  lock : t.lock = s.lock ∨ t.lock = none

theorem SameCpus.current (h : SameCpus s t) (hc : s.current c = some r) : t.current c = some r := by
  rcases current_eq_some.1 hc with ⟨hlock, hcpu⟩
  refine current_eq_some.2 ⟨?_, by rw [h.cpu, hcpu]⟩
  rcases h.lock with hl | hl
  · rwa [hl]
  · simp [hl]

/-- A change of the whole table that keeps what `Settled` looks at. -/
theorem Resumes.of_table (h : s.Resumes) (hcpus : SameCpus s t) (hsame : ∀ r, SameCall (s.proc r) (t.proc r)) :
    t.Resumes :=
  h.of_slots fun r => Or.inr ⟨hsame r, fun _ hc => hcpus.current hc⟩

theorem Resumes.of_two (h : s.Resumes) (p np : Slot) (hcpus : SameCpus s t) (hp : t.Settled p) (hnp : np ≠ p → t.Settled np)
    (hproc : ∀ r, r ≠ p → r ≠ np → t.proc r = s.proc r) : t.Resumes := by
  refine h.of_slots ?_
  intro r
  by_cases hr : r = p
  · exact Or.inl (hr ▸ hp)
  · by_cases hrn : r = np
    · exact Or.inl (hrn ▸ hnp (hrn ▸ hr))
    · exact Or.inr ⟨hproc r hr hrn ▸ SameCall.refl _, fun _ hc => hcpus.current hc⟩

theorem Resumes.set (h : s.Resumes) (hcpus : SameCpus s t) (hc : s.current c = some p)
    (hproc : ∀ r, r ≠ p → t.proc r = s.proc r) : t.Resumes :=
  h.of_two p p hcpus (settled_of_current (hcpus.current hc)) (fun hne => absurd rfl hne)
    (fun r hr _ => hproc r hr)

theorem Resumes.sched (h : s.Resumes) (hc : s.cpu c = some p) (hp : (t.sched c).Settled p)
    (hcpu : t.cpu = s.cpu) (hproc : ∀ r, r ≠ p → SameCall (s.proc r) (t.proc r)) : (t.sched c).Resumes := by
  refine h.of_slots ?_
  intro r
  by_cases hr : r = p
  · exact Or.inl (hr ▸ hp)
  refine Or.inr ⟨hproc r hr, ?_⟩
  intro c' hc'
  have hcpu' := (current_eq_some.1 hc').2
  have hne : c' ≠ c := by
    rintro rfl
    exact hr (Option.some.inj (hcpu'.symm.trans hc))
  refine current_eq_some.2 ⟨by simp [Kernel.sched], ?_⟩
  simpa [Kernel.sched, hcpu, hne] using hcpu'

attribute [local simp] Kernel.set

theorem sameCall_set_of_ne {f : Proc → Proc} (hr : r ≠ p) : SameCall (s.proc r) ((s.set p f).proc r) := by
  simpa [hr] using SameCall.refl (s.proc r)

theorem Resumes.yield (h : s.Resumes) (hc : s.cpu c = some p) (next : Trap) : (s.yield c p next).Resumes := by
  refine h.sched hc ?_ rfl (fun r hr => sameCall_set_of_ne hr)
  intro _ hwait
  simp [Kernel.sched] at hwait

theorem Resumes.sleep (h : s.Resumes) (hc : s.cpu c = some p) (ch : Chan) {next : Resume}
    (hnext : next = .sleep ∨ (s.proc p).call = .user) : (s.sleep c p ch next).Resumes := by
  refine h.sched hc ?_ rfl (fun r hr => sameCall_set_of_ne hr)
  intro _ hwait
  rcases hnext with rfl | huser
  · simp [Kernel.sched] at hwait
  · exact Or.inl (by simpa [Kernel.sched] using huser)

attribute [local simp] setEax

theorem Resumes.fail (h : s.Resumes) (hcall : (s.proc p).call = .user) (v : Int32) :
    Resumes { s.setEax p v with lock := none } := by
  refine h.of_two p p ⟨rfl, Or.inr rfl⟩ (settled_of_user ?_) (fun hne => absurd rfl hne) (fun r hr _ => ?_)
  · simpa using hcall
  · simp [hr]

theorem Resumes.wait (h : s.Resumes) (hc : s.cpu c = some p) (hcall : (s.proc p).call = .user)
    (hcase : WaitCase s c p t) : t.Resumes := by
  cases hcase with
  | panic r hz hd => exact h.of_table ⟨rfl, Or.inl rfl⟩ (fun r => SameCall.refl _)
  | fail hz => exact h.fail hcall _
  | sleep hz => exact h.sleep hc _ (Or.inr hcall)
  | reap z d hz hd =>
    refine h.of_two p z ⟨rfl, Or.inr rfl⟩ (settled_of_user ?_) (fun hne => settled_of_not_alive ?_)
      (fun r hr hrz => ?_)
    · by_cases hpz : p = z
      · subst hpz
        simpa [Kernel.reap, freevm] using hcall
      · simpa [Kernel.reap, freevm, hpz] using hcall
    · simp [Kernel.reap, freevm, hne, ProcState.life]
    · simp [Kernel.reap, freevm, hr, hrz]

theorem Resumes.join (h : s.Resumes) (hc : s.cpu c = some p) (hcall : (s.proc p).call = .user)
    (hcase : JoinCase s c p t) : t.Resumes := by
  cases hcase with
  | fail hz => exact h.fail hcall _
  | sleep hz => exact h.sleep hc _ (Or.inr hcall)
  | reap z hz =>
    refine h.of_two p z ⟨rfl, Or.inr rfl⟩ (settled_of_user ?_) (fun hne => settled_of_not_alive ?_)
      (fun r hr hrz => ?_)
    · by_cases hpz : p = z
      · subst hpz
        simpa [Kernel.reapThread] using hcall
      · simpa [Kernel.reapThread, hpz] using hcall
    · simp [Kernel.reapThread, hne, ProcState.life]
    · simp [Kernel.reapThread, hr, hrz]

theorem sameCall_countPass (s : Kernel ncpu) (r : Slot) : SameCall (s.proc r) (s.countPass.proc r) := by
  unfold countPass
  split
  · exact Table.boostAllPriorities_rel SameCall.refl (fun _ => ⟨rfl, rfl, rfl⟩) r
  · exact SameCall.refl _

theorem Resumes.schedPass (h : s.Resumes) (hc : s.cpu c = none) : (s.schedPass c).Resumes := by
  have hlock : s.countPass.lock = s.lock := by
    unfold countPass
    split <;> rfl
  have hcount : s.countPass.Resumes := h.of_table ⟨cpu_countPass s, Or.inl hlock⟩ (sameCall_countPass s)
  unfold Kernel.schedPass
  cases hpick : s.countPass.proc.pick with
  | none => exact hcount
  | some p =>
    refine hcount.of_slots ?_
    intro r
    refine Or.inr ⟨?_, ?_⟩
    · by_cases hr : r = p
      · subst hr
        constructor <;> simp [dispatch, Table.pick_runnable hpick, ProcState.life]
      · simpa [dispatch, hr] using SameCall.refl (s.countPass.proc r)
    intro c' hc'
    have hcpu' := (current_eq_some.1 hc').2
    -- The CPU that takes the lock was idle.
    have hne : c' ≠ c := by
      rintro rfl
      rw [cpu_countPass, hc] at hcpu'
      cases hcpu'
    refine current_eq_some.2 ⟨by simpa [dispatch] using hne.symm, ?_⟩
    simpa [dispatch, hne] using hcpu'

theorem Resumes.tick (h : s.Resumes) (c : Fin ncpu) : (s.tick c).Resumes := by
  unfold Kernel.tick
  split
  · exact h.of_table ⟨rfl, Or.inl rfl⟩ (Table.wakeup1_rel SameCall.refl sameCall_wake .ticks)
  · exact h

theorem Resumes.resume (h : s.Resumes) (hs : s.Control) (hc : s.cpu c = some p)
    (hl : s.lock = some c) (hcase : ResumeCase s c p t) : t.Resumes := by
  -- The process just switched to does not execute yet.
  have huser : (s.proc p).resume = .wait ∨ (s.proc p).resume = .join → (s.proc p).call = .user := by
    intro hwait
    rcases h p ((hs.onCpu p).2 ⟨c, hc⟩).alive hwait with hcall | ⟨c', hc'⟩
    · exact hcall
    · rcases current_eq_some.1 hc' with ⟨hlock, hcpu⟩
      exact absurd (hs.single c' c p hcpu hc ▸ hl) hlock
  have hsame : ∀ r, SameCall (s.proc r) ((s.set p (fun q => { q with chan := none })).proc r) :=
    set_rel SameCall.refl ⟨rfl, rfl, rfl⟩
  have hchan : (s.set p (fun q => { q with chan := none })).Resumes := h.of_table ⟨rfl, Or.inl rfl⟩ hsame
  cases hcase with
  | release hr => exact h.of_table ⟨rfl, Or.inr rfl⟩ (fun r => SameCall.refl _)
  | sleep hr => exact h.of_table ⟨rfl, Or.inr rfl⟩ hsame
  | wait t hr hw => exact hchan.wait hc ((hsame p).call.trans (huser (Or.inl hr))) hw
  | join t hr hw => exact hchan.join hc ((hsame p).call.trans (huser (Or.inr hr))) hw

theorem Resumes.exitStart (h : s.Resumes) (hc : s.current c = some p) (caller : Trap) :
    (s.exitStart p caller).Resumes := by
  unfold Kernel.exitStart
  split
  · exact h.of_table ⟨rfl, Or.inl rfl⟩ (fun r => SameCall.refl _)
  · exact h.set ⟨rfl, Or.inl rfl⟩ hc (fun r hr => by simp [hr])

theorem Resumes.trap (h : s.Resumes) (hc : s.current c = some p) (hcase : TrapCase s c p t) : t.Resumes := by
  have hcpu := (current_eq_some.1 hc).2
  have hset : ∀ f, (s.set p f).Resumes :=
    fun f => h.set ⟨rfl, Or.inl rfl⟩ hc (fun r hr => by simp [hr])
  cases hcase with
  | mlfq ht =>
    unfold Kernel.mlfq
    split_ifs
    · exact hset _
    · exact hset _
    · exact hset _
  | demoted ht hl => exact h.yield hcpu _
  | tail ht hstate hl => exact h.yield hcpu _
  | skip ht hstate => exact hset _
  | exit ht hcall => exact h.exitStart hc _
  | done ht => exact hset _

theorem Resumes.allocproc (h : s.Resumes) (hc : s.current c = some p) (next : Slot → Call) :
    (s.allocproc p next).Resumes := by
  unfold Kernel.allocproc
  cases hnp : s.proc.findUnused with
  | none => exact h.set ⟨rfl, Or.inl rfl⟩ hc (fun r hr => by simp [hr])
  | some np =>
    refine h.of_two p np ⟨rfl, Or.inl rfl⟩ (settled_of_current hc) (fun hne => settled_of_not_alive ?_)
      (fun r hr hrn => ?_)
    · simp [Table.claim, hne, ProcState.life]
    · simp [Table.claim, hr, hrn]

theorem Resumes.kill (h : s.Resumes) (hc : s.current c = some p) (pid : Int32) : (s.kill p pid).Resumes := by
  unfold Kernel.kill
  cases s.proc.findPid pid with
  | none => exact h.set ⟨rfl, Or.inl rfl⟩ hc (fun r hr => by simp [hr])
  | some z =>
    have hmid : (s.set z (fun q =>
        { q with
          killed := true
          state := if q.state = .sleeping then .runnable else q.state })).Resumes := by
      refine h.of_table ⟨rfl, Or.inl rfl⟩ (set_rel SameCall.refl ⟨?_, rfl, rfl⟩)
      by_cases hsl : (s.proc z).state = .sleeping <;> simp [hsl, ProcState.life]
    exact hmid.set ⟨rfl, Or.inl rfl⟩ hc (fun r hr => by simp [hr])

theorem Resumes.start {a : Action ncpu} (h : s.Resumes) (hcaller : s.caller c = some p)
    (hcase : StartCase s c p a t) : t.Resumes := by
  rcases caller_eq_some.1 hcaller with ⟨hc, _, hcall, _⟩
  have hcpu := (current_eq_some.1 hc).2
  have heax : ∀ v, (s.setEax p v).Resumes :=
    fun v => h.set ⟨rfl, Or.inl rfl⟩ hc (fun r hr => by simp [hr])
  cases hcase with
  | fork hl => exact h.allocproc hc _
  | clone stack hl => exact h.allocproc hc _
  | exec => exact h.set ⟨rfl, Or.inl rfl⟩ hc (fun r hr => by simp [hr])
  | execFail => exact heax _
  | growFail => exact heax _
  | grow sz => exact h.set ⟨rfl, Or.inl rfl⟩ hc (fun r hr => by simp [hr])
  | wait t hl hw => exact h.wait hcpu hcall hw
  | join t hl hw => exact h.join hcpu hcall hw
  | kill pid hl => exact h.kill hc pid

theorem Resumes.build (h : s.Resumes) (hs : s.Control) (hc : s.current c = some p)
    (hp : (s.proc p).call.claims = some np) {f g : Proc → Proc} (hcpu : t.cpu = s.cpu) (hlock : t.lock = s.lock)
    (hproc : t.proc = ((s.set np f).set p g).proc)
    (hstate : (f (s.proc np)).state = (s.proc np).state ∨ (f (s.proc np)).state = .unused) : t.Resumes := by
  have hcpus : SameCpus s t := ⟨hcpu, Or.inl hlock⟩
  refine h.of_two p np hcpus (settled_of_current (hcpus.current hc)) (fun hne => settled_of_not_alive ?_)
    (fun r hr hrn => ?_)
  · have hnp : (s.proc np).state.life = .claimed := (hs.builds.building p np hp).2
    rcases hstate with hstate | hstate
    · simp [hproc, hne, hstate, hnp]
    · simp [hproc, hne, hstate, ProcState.life]
  · simp [hproc, hr, hrn]

theorem Resumes.publish (h : s.Resumes) (hfills : ∀ p np, (s.kin p).call.fills = some np → (s.kin np).call = .user)
    (hc : s.current c = some p) (hp : (s.proc p).call.fills = some np) (f : Proc → Proc) :
    (s.publish p np f).Resumes := by
  refine h.of_two p np ⟨rfl, Or.inl rfl⟩ (settled_of_current hc) (fun hne => ?_) (fun r hr hrn => ?_)
  · have hu : (s.proc np).call = .user := hfills p np hp
    exact settled_of_user (by simpa [Kernel.publish, hne] using hu)
  · simp [Kernel.publish, hr, hrn]

theorem Resumes.exitZombie (h : s.Resumes) (hc : s.cpu c = some p) : (s.exitZombie c p).Resumes := by
  refine h.sched hc ?_ rfl ?_
  · exact settled_of_not_alive (by simp [Kernel.sched, ProcState.life])
  · intro r hr
    simp only [Table.modify_of_ne _ hr]
    exact SameCall.trans _ _ _ (Table.wakeupParent_rel SameCall.refl sameCall_wake p r)
      (Table.abandon_rel SameCall.refl sameCall_wake SameCall.trans (fun _ _ => ⟨rfl, rfl, rfl⟩) r)

theorem Resumes.call {a : Action ncpu} (h : s.Resumes) (hs : s.Control)
    (hfills : ∀ p np, (s.kin p).call.fills = some np → (s.kin np).call = .user)
    (hc : s.current c = some p) (hcase : CallCase s c p a t) : t.Resumes := by
  have hset : ∀ {u : Kernel ncpu}, SameCpus s u → (∀ r, r ≠ p → u.proc r = s.proc r) → u.Resumes :=
    fun hcpus hproc => h.set hcpus hc hproc
  have hkstack : ∀ {np : Slot} (page : Option ℕ) (next : Call), (s.proc p).call.claims = some np →
      (s.kstackFor p np page next).Resumes := by
    intro np page next hk
    cases page with
    | none =>
      refine h.build hs hc hk rfl rfl rfl (Or.inr ?_)
      rfl
    | some b =>
      refine h.build hs hc hk rfl rfl rfl (Or.inl ?_)
      rfl
  cases hcase with
  | forkStack np page hcall => exact hkstack page _ (by simp [hcall, Call.claims])
  | cloneStack np stack page hcall => exact hkstack page _ (by simp [hcall, Call.claims])
  | forkSetup np hcall => exact hset ⟨rfl, Or.inl rfl⟩ (fun r hr => by simp [hr])
  | forkSetupFail np hcall =>
    refine h.build hs hc (by simp [hcall, Call.claims]) rfl rfl rfl (Or.inr ?_)
    rfl
  | forkCopy np d hcall =>
    refine h.build hs hc (by simp [hcall, Call.claims]) rfl rfl rfl (Or.inl ?_)
    rfl
  | forkCopyFail np d hcall =>
    refine h.build hs hc (by simp [hcall, Call.claims]) rfl rfl rfl (Or.inr ?_)
    rfl
  | cloneFill np stack hcall =>
    have hnp : (s.proc np).state.life = .claimed := (hs.builds.building p np (by rw [view_apply, Proc.view, hcall]; rfl)).2
    refine h.of_two p np ⟨rfl, Or.inl rfl⟩ (settled_of_current hc) (fun hne => settled_of_not_alive ?_)
      (fun r hr hrn => ?_)
    · simp [Kernel.cloneFill, hne, hnp]
    · simp [Kernel.cloneFill, hr, hrn]
  | forkRun np pid hcall hl => exact h.publish hfills hc (by simp [hcall, Call.fills]) _
  | cloneRun np hcall hl => exact h.publish hfills hc (by simp [hcall, Call.fills]) _
  | cloneRet np hcall => exact hset ⟨rfl, Or.inl rfl⟩ (fun r hr => by simp [ret, hr])
  | execBad d hcall =>
    exact hset ⟨rfl, Or.inl rfl⟩ (fun r hr => by simp [ret, freevm, hr])
  | execCommit d sz hcall =>
    unfold Kernel.execCommit
    cases (s.proc p).pgdir with
    | none => exact h.of_table ⟨rfl, Or.inl rfl⟩ (fun r => SameCall.refl _)
    | some old => exact hset ⟨rfl, Or.inl rfl⟩ (fun r hr => by simp [ret, freevm, hr])
  | exitZombie hcall hl => exact h.exitZombie (current_eq_some.1 hc).2

end Resumes

theorem Resumes.step {s t : Kernel ncpu} {a : Action ncpu} (h : s.Resumes) (hs : s.Control)
    (hfills : ∀ p np, (s.kin p).call.fills = some np → (s.kin np).call = .user)
    (hst : step s a = some t) : t.Resumes := by
  rcases step_cases hst with ⟨_, hcase⟩
  cases hcase with
  | schedPass c hc hl => exact h.schedPass hc
  | resume c p t hc hl hr => exact h.resume hs hc hl hr
  | idleTimer c hc => exact h.tick c
  | timer c p hc ht =>
    refine (h.tick c).set ⟨rfl, Or.inl rfl⟩ (c := c) (p := p) ?_ (fun r hr => by simp [Kernel.set, hr])
    rw [current_eq_some] at hc ⊢
    have hlock : (s.tick c).lock = s.lock := by
      unfold Kernel.tick
      split <;> rfl
    rwa [hlock, cpu_tick]
  | trap c p t hc ht => exact h.trap hc ht
  | fault c p hc ht hcall => exact h.set ⟨rfl, Or.inl rfl⟩ hc (fun r hr => by simp [Kernel.set, hr])
  | exit c p hc ht hcall => exact h.exitStart hc _
  | sleep c p ch hc hl => exact h.sleep (current_eq_some.1 hc).2 ch (Or.inl rfl)
  | wakeup ch hl =>
    exact h.of_table ⟨rfl, Or.inl rfl⟩ (Table.wakeup1_rel SameCall.refl sameCall_wake ch)
  | start c p a t hc hcase => exact h.start hc hcase
  | call c p a t hc hcase => exact h.call hs hfills (inCall_eq_some.1 hc).1 hcase

end Kernel
end Xv6.Process
