import Xv6.Process.Control

/-!
# Effect — what a step does to slots and address spaces

Seen through views, most steps do nothing at all.  `Effect` lists the others: a call moves on, a
slot is claimed, given up, filled in or made RUNNABLE, a process exits or is reaped, a page directory
is made, attached, shared or passed to `freevm`.  `effect_step` shows that these are all, and
`Control.step` that each of them keeps the bookkeeping of who builds which slot.
-/

namespace Xv6.Process

open Function (update update_comm)

namespace Kernel

variable {ncpu : ℕ}

structure SameDirs (s t : Kernel ncpu) : Prop where
  nextDir : t.nextDir = s.nextDir
  freevms : t.freevms = s.freevms
  clones : t.clones = s.clones
  joins : t.joins = s.joins

/-- `freevm(d)` is called once, on a table whose views are `v`. -/
structure Frees (s t : Kernel ncpu) (d : Pgdir) (reaped : Option Slot) (v : Slot → View) : Prop where
  nextDir : t.nextDir = s.nextDir
  freevms : ∃ table : Table, t.freevms = s.freevms ++ [{ dir := d, reaped := reaped, table := table }] ∧
    table.view = v
  clones : t.clones = s.clones
  joins : t.joins = s.joins

/-- What a step does; `released` is the directory it passes to `freevm` because its last user is
thought to be gone. -/
inductive Effect (s t : Kernel ncpu) : (released : Option Pgdir) → Prop
  | quiet (hv : t.view = s.view) (hd : SameDirs s t) :
      Effect s t none
  /-- A call goes on that builds nothing. -/
  | move (p : Slot) (k : Call) (hp : (s.view p).life = .alive) (hk : (s.view p).call.Plain)
      (hk' : k.Plain) (hv : t.view = update s.view p { s.view p with call := k })
      (hd : SameDirs s t) :
      Effect s t none
  | exit (p : Slot) (hp : (s.view p).life = .alive) (hk : (s.view p).call = .exiting)
      (hv : t.view = update s.view p { s.view p with life := .dead }) (hd : SameDirs s t) :
      Effect s t none
  | claim (p np : Slot) (k : Call) (hp : (s.view p).life = .alive) (hk : (s.view p).call = .user)
      (hnp : (s.view np).life = .free)
      (hk' : k.claims = some np ∧ k.fills = none ∧ k.dir = none)
      (hv : t.view = update (update s.view np { s.view np with life := .claimed })
        p { s.view p with call := k })
      (hd : SameDirs s t) :
      Effect s t none
  /-- The kernel stack has been allocated. -/
  | advance (p np : Slot) (k : Call)
      (hk : (s.view p).call.claims = some np ∧ (s.view p).call.fills = none ∧
        (s.view p).call.dir = none)
      (hk' : k.claims = some np ∧ k.fills = none ∧ k.dir = none)
      (hv : t.view = update s.view p { s.view p with call := k }) (hd : SameDirs s t) :
      Effect s t none
  /-- `setupkvm` has made a directory for `copyuvm` or for `exec`. -/
  | newDir (p : Slot) (k : Call) (hp : (s.view p).life = .alive) (hk : (s.view p).call.dir = none)
      (hk' : k.dir = some s.nextDir)
      (hsame : k.claims = (s.view p).call.claims ∧ k.fills = none ∧ (s.view p).call.fills = none)
      (hv : t.view = update s.view p { s.view p with call := k })
      (hnext : t.nextDir = s.nextDir + 1) (hfree : t.freevms = s.freevms)
      (hclones : t.clones = s.clones) (hjoins : t.joins = s.joins) :
      Effect s t none
  /-- An allocation failed before there was a directory. -/
  | drop (p np : Slot) (g : Option Pgdir)
      (hk : (s.view p).call.claims = some np ∧ (s.view p).call.fills = none ∧ (s.view p).call.dir = none)
      (hg : g = none ∨ g = (s.view np).pgdir)
      (hv : t.view = update
        (update s.view np { s.view np with life := .free, pgdir := g })
        p { s.view p with call := .user })
      (hd : SameDirs s t) :
      Effect s t none
  /-- `copyuvm` failed and freed its directory. -/
  | dropCopy (p np : Slot) (d : Pgdir) (hk : (s.view p).call = .forkCopy np d)
      (hv : t.view = update
        (update s.view np { s.view np with life := .free, pgdir := none })
        p { s.view p with call := .user })
      (hd : Frees s t d none s.view) :
      Effect s t none
  | forkFill (p np : Slot) (d : Pgdir) (pid : Int32) (hk : (s.view p).call = .forkCopy np d)
      (hv : t.view = update
        (update s.view np { s.view np with call := .user, pgdir := some d })
        p { s.view p with call := .forkRun np pid })
      (hd : SameDirs s t) :
      Effect s t none
  | cloneFill (p np : Slot) (stack : ℕ) (hk : (s.view p).call = .cloneShare np stack)
      (hv : t.view = update
        (update s.view np { s.view np with call := .user, pgdir := (s.view p).pgdir })
        p { s.view p with call := .cloneRun np })
      (hnext : t.nextDir = s.nextDir) (hfree : t.freevms = s.freevms)
      (hclones : ∀ d, t.clones d = if (s.view p).pgdir = some d then s.clones d + 1 else s.clones d)
      (hjoins : t.joins = s.joins) :
      Effect s t none
  | publish (p np : Slot) (k : Call) (hk : (s.view p).call.fills = some np) (hk' : k.Plain)
      (hv : t.view = update (update s.view np { s.view np with life := .alive })
        p { s.view p with call := k })
      (hd : SameDirs s t) :
      Effect s t none
  | execBad (p : Slot) (d : Pgdir) (hp : (s.view p).life = .alive) (hk : (s.view p).call = .exec d)
      (hv : t.view = update s.view p { s.view p with call := .user })
      (hd : Frees s t d none s.view) :
      Effect s t none
  | execCommit (p : Slot) (d old : Pgdir) (hp : (s.view p).life = .alive)
      (hk : (s.view p).call = .exec d) (hold : (s.view p).pgdir = some old)
      (hv : t.view = update s.view p { s.view p with call := .user, pgdir := some d })
      (hd : Frees s t old none (update s.view p { s.view p with pgdir := some d })) :
      Effect s t (some old)
  | reap (r : Slot) (d : Pgdir) (hr : (s.view r).life = .dead) (hd' : (s.view r).pgdir = some d)
      (hv : t.view = update s.view r { s.view r with life := .free })
      (hd : Frees s t d (some r) s.view) :
      Effect s t (some d)
  | join (r : Slot) (hr : (s.view r).life = .dead)
      (hv : t.view = update s.view r { s.view r with life := .free })
      (hnext : t.nextDir = s.nextDir) (hfree : t.freevms = s.freevms) (hclones : t.clones = s.clones)
      (hjoins : ∀ d, t.joins d = if (s.view r).pgdir = some d then s.joins d + 1 else s.joins d) :
      Effect s t none

/-! ## Directories released by a step -/

/-- The page directory of the ZOMBIE child `wait` would reap. -/
def waitReleases (s : Kernel ncpu) (p : Slot) : Option Pgdir :=
  match s.proc.findZombie p with
  | some r => (s.proc r).pgdir
  | none => none

/-- The page directory that `wait` or `exec` passes to `freevm` in a step, if any. -/
def releases (s : Kernel ncpu) : Action ncpu → Option Pgdir
  | .wait c =>
    match s.caller c with
    | some p => s.waitReleases p
    | none => none
  | .resume c =>
    match s.cpu c with
    | some p => if (s.proc p).resume = .wait then s.waitReleases p else none
    | none => none
  | .execCommit c _ =>
    match s.inCall c with
    | some p => (s.proc p).pgdir
    | none => none
  | _ => none

/-! ## Views of the building blocks -/

theorem view_apply (s : Kernel ncpu) (r : Slot) : s.view r = (s.proc r).view := rfl

theorem view_set (s : Kernel ncpu) (p : Slot) (f : Proc → Proc) :
    (s.set p f).view = update s.view p (f (s.proc p)).view :=
  s.proc.view_modify p f

variable {s t u : Kernel ncpu} {p np : Slot} {c : Fin ncpu} {a : Action ncpu}

theorem view_set_of_eq {f : Proc → Proc} (h : (f (s.proc p)).view = (s.proc p).view) : (s.set p f).view = s.view :=
  s.proc.view_modify_of_eq p f h

theorem SameDirs.refl (s : Kernel ncpu) : SameDirs s s := ⟨rfl, rfl, rfl, rfl⟩

theorem SameDirs.trans (h : SameDirs s t) (h' : SameDirs t u) : SameDirs s u :=
  ⟨h'.nextDir.trans h.nextDir, h'.freevms.trans h.freevms, h'.clones.trans h.clones, h'.joins.trans h.joins⟩

theorem view_countPass (s : Kernel ncpu) : s.countPass.view = s.view := by
  unfold countPass
  split
  · exact s.proc.view_boostAllPriorities
  · rfl

theorem sameDirs_countPass (s : Kernel ncpu) : SameDirs s s.countPass := by
  unfold countPass
  split <;> exact ⟨rfl, rfl, rfl, rfl⟩

theorem view_tick (s : Kernel ncpu) (c : Fin ncpu) : (s.tick c).view = s.view := by
  unfold tick
  split
  · exact s.proc.view_wakeup1 .ticks
  · rfl

theorem sameDirs_tick (s : Kernel ncpu) (c : Fin ncpu) : SameDirs s (s.tick c) := by
  unfold tick
  split <;> exact ⟨rfl, rfl, rfl, rfl⟩

theorem view_setEax (v : Int32) : (s.setEax p v).view = s.view := view_set_of_eq rfl

theorem view_ret (v : Int32) : (s.ret p v).view = update s.view p { s.view p with call := .user } := view_set s p _

theorem view_set_set (hne : p ≠ np) (f g : Proc → Proc) : ((s.set np f).set p g).view = update
      (update s.view np (f (s.proc np)).view) p (g (s.proc p)).view := by
  rw [view_set, view_set]
  simp [set, hne]

/-! ## Effects of the steps -/

section Steps

attribute [local simp] Proc.view ProcState.life view_apply Call.claims Call.fills Call.dir Call.Plain

theorem effect_schedPass (s : Kernel ncpu) (c : Fin ncpu) : Effect s (s.schedPass c) none := by
  have hd := sameDirs_countPass s
  unfold schedPass
  cases hpick : s.countPass.proc.pick with
  | none => exact .quiet (view_countPass s) hd
  | some p =>
    refine .quiet ?_ ⟨hd.nextDir, hd.freevms, hd.clones, hd.joins⟩
    refine Eq.trans ?_ (view_countPass s)
    -- RUNNABLE and RUNNING look the same.
    refine view_set_of_eq (s := s.countPass) ?_
    simp [Table.pick_runnable hpick]

theorem view_sleep (hp : s.Running p) (ch : Chan) (next : Resume) : (s.sleep c p ch next).view = s.view := by
  have hrun : (s.proc p).state = .running := hp
  refine view_set_of_eq ?_
  simp [hrun]

/-- The loop of `wait`, after a change nobody sees. -/
theorem effect_wait (hv : u.view = s.view) (hd : SameDirs s u) (h : WaitCase u c p t) (hp : u.Running p) :
    Effect s t (u.waitReleases p) := by
  cases h with
  | panic r hz hd' =>
    simp only [waitReleases, hz, hd']
    exact .quiet hv (hd.trans ⟨rfl, rfl, rfl, rfl⟩)
  | fail hz =>
    simp only [waitReleases, hz]
    exact .quiet ((view_setEax _).trans hv) (hd.trans ⟨rfl, rfl, rfl, rfl⟩)
  | sleep hz =>
    simp only [waitReleases, hz]
    exact .quiet ((view_sleep hp _ _).trans hv) (hd.trans ⟨rfl, rfl, rfl, rfl⟩)
  | reap r d hz hd' =>
    have hdead := (Table.findZombie_eq_some hz).2
    have hkstack : (u.set r (fun q => { q with kstack := none })).view = s.view := (view_set_of_eq rfl).trans hv
    simp only [waitReleases, hz, hd']
    refine .reap r d ?_ (by rw [← hv]; exact hd') ?_
      ⟨hd.nextDir, ⟨_, congrArg (· ++ _) hd.freevms, hkstack⟩, hd.clones, hd.joins⟩
    · rw [← hv]
      simp [hdead]
    refine (view_setEax _).trans ?_
    rw [view_set]
    have hfree : ((u.set r (fun q => { q with kstack := none })).freevm d (some r)).view = s.view := hkstack
    rw [hfree, ← hv]
    simp [set, freevm]

theorem effect_join (hv : u.view = s.view) (hd : SameDirs s u) (h : JoinCase u c p t) (hp : u.Running p) :
    Effect s t none := by
  cases h with
  | fail hz => exact .quiet ((view_setEax _).trans hv) (hd.trans ⟨rfl, rfl, rfl, rfl⟩)
  | sleep hz => exact .quiet ((view_sleep hp _ _).trans hv) (hd.trans ⟨rfl, rfl, rfl, rfl⟩)
  | reap r hz =>
    have hdead := (Table.findZombieThread_eq_some hz).2
    refine .join r ?_ ?_ hd.nextDir hd.freevms hd.clones (fun d => ?_) <;> rw [← hv]
    · simp [hdead]
    · exact (view_setEax _).trans (view_set u r _)
    · rw [← hd.joins]
      rfl

theorem field_set_chan {α : Type} (φ : Proc → α)
    (hφ : ∀ q : Proc, φ { q with chan := none } = φ q) (r : Slot) :
    φ ((s.set p (fun q => { q with chan := none })).proc r) = φ (s.proc r) :=
  set_rel (R := fun q q' => φ q' = φ q) (fun _ => rfl) (hφ _) r

theorem findZombie_set_chan (p q : Slot) :
    (s.set p (fun r => { r with chan := none })).proc.findZombie q = s.proc.findZombie q := by
  refine congrArg Table.first (funext fun r => ?_)
  rw [field_set_chan Proc.parent fun _ => rfl, field_set_chan Proc.state fun _ => rfl]

theorem waitReleases_set_chan (p q : Slot) :
    (s.set p (fun r => { r with chan := none })).waitReleases q = s.waitReleases q := by
  simp only [waitReleases, findZombie_set_chan, field_set_chan Proc.pgdir fun _ => rfl]

theorem effect_resume (h : ResumeCase s c p t) (hp : s.Running p) :
    Effect s t (if (s.proc p).resume = .wait then s.waitReleases p else none) := by
  have hv : (s.set p (fun q => { q with chan := none })).view = s.view := view_set_of_eq rfl
  have hrun : (s.set p (fun q => { q with chan := none })).Running p := (running_set Iff.rfl p).2 hp
  cases h with
  | release hr =>
    rcases hr with hr | hr <;> simp only [hr, reduceCtorEq, if_false] <;>
      exact .quiet rfl ⟨rfl, rfl, rfl, rfl⟩
  | sleep hr =>
    simp only [hr, reduceCtorEq, if_false]
    exact .quiet hv ⟨rfl, rfl, rfl, rfl⟩
  | wait t hr h =>
    have heff := effect_wait hv ⟨rfl, rfl, rfl, rfl⟩ h hrun
    simpa only [hr, if_true, waitReleases_set_chan] using heff
  | join t hr h =>
    simp only [hr, reduceCtorEq, if_false]
    exact effect_join hv ⟨rfl, rfl, rfl, rfl⟩ h hrun

theorem effect_exitStart (hp : s.Running p) (hcall : (s.proc p).call = .user) (caller : Trap) :
    Effect s (s.exitStart p caller) none := by
  unfold exitStart
  split_ifs
  · exact .quiet rfl ⟨rfl, rfl, rfl, rfl⟩
  · refine .move p .exiting hp.alive ?_ ⟨rfl, rfl⟩ (view_set s p _) ⟨rfl, rfl, rfl, rfl⟩
    simp [hcall]

theorem effect_trap (h : TrapCase s c p t) (hp : s.Running p) : Effect s t none := by
  have hrun : (s.proc p).state = .running := hp
  cases h with
  | mlfq ht =>
    unfold mlfq
    split_ifs
    · exact .quiet (view_set_of_eq rfl) ⟨rfl, rfl, rfl, rfl⟩
    · exact .quiet (view_set_of_eq rfl) ⟨rfl, rfl, rfl, rfl⟩
  | demoted ht hl =>
    refine .quiet (view_set_of_eq ?_) ⟨rfl, rfl, rfl, rfl⟩
    simp [hrun]
  | tail ht hstate hl =>
    refine .quiet (view_set_of_eq ?_) ⟨rfl, rfl, rfl, rfl⟩
    simp [hrun]
  | skip ht hstate => exact absurd hrun hstate
  | exit ht hcall => exact effect_exitStart hp hcall _
  | done ht => exact .quiet (view_set_of_eq rfl) ⟨rfl, rfl, rfl, rfl⟩

theorem effect_allocproc (hp : s.Running p) (hcall : (s.proc p).call = .user) {next : Slot → Call}
    (hnext : ∀ np, (next np).claims = some np ∧ (next np).fills = none ∧ (next np).dir = none) :
    Effect s (s.allocproc p next) none := by
  unfold allocproc
  cases hnp : s.proc.findUnused with
  | none => exact .quiet (view_setEax _) ⟨rfl, rfl, rfl, rfl⟩
  | some np =>
    have hfree := Table.findUnused_eq_some hnp
    have hne : p ≠ np := ne_of_field Proc.state hp hfree
    refine .claim p np (next np) hp.alive hcall ?_ (hnext np) ?_ ⟨rfl, rfl, rfl, rfl⟩
    · simp [hfree]
    · -- `claim` is one more change of slot `np`.
      exact view_set_set hne _ (fun q => { q with call := next np })

theorem effect_kill {pid : Int32} : Effect s (s.kill p pid) none := by
  unfold kill
  cases s.proc.findPid pid with
  | none => exact .quiet (view_setEax _) ⟨rfl, rfl, rfl, rfl⟩
  | some r =>
    refine .quiet ((view_setEax _).trans (view_set_of_eq ?_)) ⟨rfl, rfl, rfl, rfl⟩
    by_cases h : (s.proc r).state = .sleeping <;> simp [h]

theorem effect_start (h : StartCase s c p a t) (hp : s.Running p) (hcaller : s.caller c = some p) :
    Effect s t (s.releases a) := by
  have hcall : (s.proc p).call = .user := (caller_eq_some.1 hcaller).2.2.1
  cases h with
  | fork hl => exact effect_allocproc hp hcall (fun _ => ⟨rfl, rfl, rfl⟩)
  | clone stack hl => exact effect_allocproc hp hcall (fun _ => ⟨rfl, rfl, rfl⟩)
  | exec =>
    refine .newDir p (.exec s.nextDir) hp.alive ?_ rfl ?_ (view_set s p _) rfl rfl rfl rfl
    · simp [hcall]
    · simp [hcall]
  | execFail => exact .quiet (view_setEax _) ⟨rfl, rfl, rfl, rfl⟩
  | growFail => exact .quiet (view_setEax _) ⟨rfl, rfl, rfl, rfl⟩
  | grow sz => exact .quiet ((view_setEax _).trans (view_set_of_eq rfl)) ⟨rfl, rfl, rfl, rfl⟩
  | wait t hl h => simpa only [releases, hcaller] using effect_wait rfl ⟨rfl, rfl, rfl, rfl⟩ h hp
  | join t hl h => exact effect_join rfl ⟨rfl, rfl, rfl, rfl⟩ h hp
  | kill pid hl => exact effect_kill

theorem Builds.ne_of_claims {v : Slot → View} (hb : Builds v) (h : (v p).call.claims = some np) : p ≠ np :=
  ne_of_field View.life (hb.building p np h).1 (hb.building p np h).2

theorem Control.ne_of_call {k : Call} (hs : s.Control) (hcall : (s.view p).call = k)
    (hk : k.claims = some np) : p ≠ np :=
  hs.builds.ne_of_claims (hcall ▸ hk)

theorem effect_kstackFor {k : Call} (page : Option ℕ) (hs : s.Control)
    (hk : (s.view p).call.claims = some np ∧ (s.view p).call.fills = none ∧ (s.view p).call.dir = none)
    (hk' : k.claims = some np ∧ k.fills = none ∧ k.dir = none) : Effect s (s.kstackFor p np page k) none := by
  have hne : p ≠ np := hs.builds.ne_of_claims hk.1
  cases page with
  | none =>
    exact .drop p np (s.view np).pgdir hk (Or.inr rfl) (view_set_set hne _ _) ⟨rfl, rfl, rfl, rfl⟩
  | some b =>
    refine .advance p np k hk hk' ?_ ⟨rfl, rfl, rfl, rfl⟩
    have hnp : (s.set np (fun q =>
        { q with kstack := some b, resume := .forkret, trap := .none })).view = s.view :=
      view_set_of_eq rfl
    refine (view_set _ p _).trans ?_
    rw [hnp]
    simp [set, hne]

theorem effect_call (h : CallCase s c p a t) (hs : s.Control) (hp : s.Running p) (hin : s.inCall c = some p) :
    Effect s t (s.releases a) := by
  cases h with
  | forkStack np page hcall =>
    exact effect_kstackFor page hs (by simp [hcall])
      ⟨rfl, rfl, rfl⟩
  | cloneStack np stack page hcall =>
    exact effect_kstackFor page hs (by simp [hcall])
      ⟨rfl, rfl, rfl⟩
  | forkSetup np hcall =>
    refine .newDir p (.forkCopy np s.nextDir) hp.alive ?_ rfl ?_ (view_set s p _) rfl rfl rfl rfl
    · simp [hcall]
    · simp [hcall]
  | forkSetupFail np hcall =>
    have hk : (s.view p).call.claims = some np ∧ (s.view p).call.fills = none ∧
        (s.view p).call.dir = none := by simp [hcall]
    exact .drop p np none hk (Or.inl rfl) (view_set_set (hs.builds.ne_of_claims hk.1) _ _)
      ⟨rfl, rfl, rfl, rfl⟩
  | forkCopy np d hcall =>
    exact .forkFill p np d (s.proc np).pid hcall (view_set_set (hs.ne_of_call hcall rfl) _ _) ⟨rfl, rfl, rfl, rfl⟩
  | forkCopyFail np d hcall =>
    refine .dropCopy p np d hcall ?_ ⟨rfl, ⟨s.proc, rfl, rfl⟩, rfl, rfl⟩
    exact view_set_set (s := s.freevm d none) (hs.ne_of_call hcall rfl) _ _
  | cloneFill np stack hcall =>
    exact .cloneFill p np stack hcall (view_set_set (hs.ne_of_call hcall rfl) _ _) rfl rfl (fun _ => rfl) rfl
  | forkRun np pid hcall hl =>
    exact .publish p np .user (by simp [hcall]) ⟨rfl, rfl⟩
      (view_set_set (hs.ne_of_call hcall rfl) _ _) ⟨rfl, rfl, rfl, rfl⟩
  | cloneRun np hcall hl =>
    exact .publish p np (.cloneRet np) (by simp [hcall]) ⟨rfl, rfl⟩
      (view_set_set (hs.ne_of_call hcall rfl) _ _) ⟨rfl, rfl, rfl, rfl⟩
  | cloneRet np hcall =>
    exact .move p .user hp.alive (by simp [hcall])
      ⟨rfl, rfl⟩ (view_ret _) ⟨rfl, rfl, rfl, rfl⟩
  | execBad d hcall =>
    exact .execBad p d hp.alive hcall (view_ret _)
      ⟨rfl, ⟨s.proc, rfl, rfl⟩, rfl, rfl⟩
  | execCommit d sz hcall =>
    simp only [releases, hin]
    unfold execCommit
    cases hold : (s.proc p).pgdir with
    | none => exact .quiet rfl ⟨rfl, rfl, rfl, rfl⟩
    | some old =>
      have hset := view_set s p (fun q => { q with pgdir := some d, sz := sz })
      refine .execCommit p d old hp.alive hcall hold ?_ ⟨rfl, ⟨_, rfl, hset⟩, rfl, rfl⟩
      refine (view_ret _).trans ?_
      have hfree : ((s.set p (fun q => { q with pgdir := some d, sz := sz })).freevm old
          none).view = update s.view p { s.view p with pgdir := some d } := hset
      simp [hfree, -view_apply]
  | exitZombie hcall hl =>
    refine .exit p hp.alive hcall ?_ ⟨rfl, rfl, rfl, rfl⟩
    have hab : ((s.proc.wakeupParent p).abandon p s.initproc).view = s.view :=
      (Table.view_abandon _ p s.initproc).trans (Table.view_wakeupParent s.proc p)
    refine (Table.view_modify _ p _).trans ?_
    rw [hab, ← congrFun hab p]
    rfl

theorem effect_step (hs : s.Control) (h : step s a = some t) : Effect s t (s.releases a) := by
  rcases step_cases h with ⟨_, hcase⟩
  cases hcase with
  | schedPass c hc hl => exact effect_schedPass s c
  | resume c p t hc hl h =>
    have heff := effect_resume h ((hs.onCpu p).2 ⟨c, hc⟩)
    simpa only [releases, hc] using heff
  | idleTimer c hc => exact .quiet (view_tick s c) (sameDirs_tick s c)
  | timer c p hc ht =>
    have hd := sameDirs_tick s c
    exact .quiet ((view_set_of_eq rfl).trans (view_tick s c))
      ⟨hd.nextDir, hd.freevms, hd.clones, hd.joins⟩
  | trap c p t hc h => exact effect_trap h (hs.running hc)
  | fault c p hc ht hcall => exact .quiet (view_set_of_eq rfl) ⟨rfl, rfl, rfl, rfl⟩
  | exit c p hc ht hcall => exact effect_exitStart (hs.running hc) hcall _
  | sleep c p ch hc hl => exact .quiet (view_sleep (hs.running hc) ch .sleep) ⟨rfl, rfl, rfl, rfl⟩
  | wakeup ch hl => exact .quiet (Table.view_wakeup1 s.proc ch) ⟨rfl, rfl, rfl, rfl⟩
  | start c p a t hc h =>
    exact effect_start h (hs.running (caller_eq_some.1 hc).1) hc
  | call c p a t hc h => exact effect_call h hs (hs.running (inCall_eq_some.1 hc).1) hc

end Steps

/-! ## Who builds which slot -/

section Builds

variable {v : Slot → View} {r : Slot}

theorem Builds.claims_eq_none (h : Builds v) (hr : (v r).life ≠ .alive) : (v r).call.claims = none := by
  cases hc : (v r).call.claims with
  | none => rfl
  | some np => exact absurd (h.building r np hc).1 hr

theorem Builds.not_claimed (h : Builds v) (hr : (v r).life ≠ .claimed) (p : Slot) : (v p).call.claims ≠ some r :=
  fun hp => hr (h.building p r hp).2

theorem Builds.update (h : Builds v) {w : View} (hcall : w.call.claims = none ∨ w.call.claims = (v r).call.claims)
    (hlife : w.life = (v r).life ∨ ((∀ p, (v p).call.claims ≠ some r) ∧ w.call.claims = none)) :
    Builds (Function.update v r w) := by
  have hclaims : ∀ q np, (Function.update v r w q).call.claims = some np → (v q).call.claims = some np := by
    intro q np hq
    by_cases hqr : q = r
    · subst hqr
      have hw : w.call.claims = some np := by simpa using hq
      rcases hcall with hcall | hcall
      · simp [hcall] at hw
      · rw [← hcall, hw]
    · simpa [hqr] using hq
  refine ⟨?_, ?_⟩
  · intro p np hp
    have hold := h.building p np (hclaims p np hp)
    rcases hlife with hlife | ⟨hnone, hw⟩
    · have hsame : ∀ q, (Function.update v r w q).life = (v q).life := by
        intro q
        by_cases hq : q = r
        · subst hq
          simpa using hlife
        · simp [hq]
      simpa [hsame] using hold
    · have hnp : np ≠ r := fun hEq => hnone p (hEq ▸ hclaims p np hp)
      have hpr : p ≠ r := by
        intro hEq
        simp [hEq, hw] at hp
      simpa [hnp, hpr] using hold
  · intro p q np hp hq
    exact h.builder p q np (hclaims p np hp) (hclaims q np hq)

theorem Builds.finish (h : Builds v) {p np : Slot} {w w' : View} (hne : p ≠ np)
    (hp : (v p).call.claims = some np) (hw : w.call.claims = none) (hlife : w.life = (v p).life)
    (hw' : w'.call.claims = none) :
    Builds (Function.update (Function.update v np w') p w) := by
  rw [Function.update_comm hne.symm]
  have hfirst : Builds (Function.update v p w) := h.update (Or.inl hw) (Or.inl hlife)
  refine hfirst.update (Or.inl hw') (Or.inr ⟨?_, hw'⟩)
  intro q hq
  by_cases hqp : q = p
  · simp [hqp, hw] at hq
  · exact hqp (h.builder q p np (by simpa [hqp] using hq) hp)

theorem Builds.claim (h : Builds v) {p np : Slot} {k : Call} (hp : (v p).life = .alive)
    (hnp : (v np).life = .free) (hk : k.claims = some np) :
    Builds (Function.update (Function.update v np { v np with life := .claimed })
      p { v p with call := k }) := by
  have hne : p ≠ np := ne_of_field View.life hp hnp
  have hnone : (v np).call.claims = none := h.claims_eq_none (by simp [hnp])
  have hnobody : ∀ q, (v q).call.claims ≠ some np := h.not_claimed (by simp [hnp])
  have hmid : Builds (Function.update v np { v np with life := .claimed }) :=
    h.update (Or.inl hnone) (Or.inr ⟨hnobody, hnone⟩)
  have hcases : ∀ q m, (Function.update (Function.update v np { v np with life := .claimed })
      p { v p with call := k } q).call.claims = some m → (q = p ∧ m = np) ∨
      (q ≠ p ∧ m ≠ np ∧ (Function.update v np { v np with life := .claimed } q).call.claims = some m) := by
    intro q m hq
    by_cases hqp : q = p
    · subst hqp
      have hm : np = m := by simpa [hk] using hq
      exact Or.inl ⟨rfl, hm.symm⟩
    have hq' : (Function.update v np { v np with life := .claimed } q).call.claims = some m := by
      simpa [hqp] using hq
    refine Or.inr ⟨hqp, ?_, hq'⟩
    intro hm
    by_cases hqn : q = np
    · subst hqn
      simp [hnone] at hq'
    · exact hnobody q (by simpa [hqn, hm] using hq')
  refine ⟨?_, ?_⟩
  · intro q m hq
    rcases hcases q m hq with ⟨rfl, rfl⟩ | ⟨hqp, hmn, hq'⟩
    · exact ⟨by simpa using hp, by simp [hne.symm]⟩
    have hold := hmid.building q m hq'
    by_cases hmp : m = p
    · -- a slot somebody else builds is claimed, `p` is alive
      have hclaimed := hold.2
      rw [hmp] at hclaimed
      simp [hne, hp] at hclaimed
    · simpa [hqp, hmp] using hold
  · intro q q' m hq hq'
    rcases hcases q m hq with ⟨hqp, hm⟩ | ⟨_, hm, hq1⟩ <;>
      rcases hcases q' m hq' with ⟨hqp', hm'⟩ | ⟨_, hm', hq2⟩
    · rw [hqp, hqp']
    · exact absurd hm hm'
    · exact absurd hm' hm
    · exact hmid.builder q q' m hq1 hq2

end Builds

theorem Effect.builds {rel : Option Pgdir} (h : Effect s t rel) (hs : Builds s.view) : Builds t.view := by
  cases h with
  | quiet hv hd => exact hv ▸ hs
  | move p k hp hk hk' hv hd => exact hv ▸ hs.update (Or.inl hk'.1) (Or.inl rfl)
  | exit p hp hk hv hd =>
    have hnone : (s.view p).call.claims = none := by rw [hk]; rfl
    exact hv ▸ hs.update (Or.inl hnone) (Or.inr ⟨hs.not_claimed (by simp [hp]), hnone⟩)
  | claim p np k hp hk hnp hk' hv hd => exact hv ▸ hs.claim hp hnp hk'.1
  | advance p np k hk hk' hv hd =>
    exact hv ▸ hs.update (Or.inr (hk'.1.trans hk.1.symm)) (Or.inl rfl)
  | newDir p k hp hk hk' hsame hv hn hf hc hj => exact hv ▸ hs.update (Or.inr hsame.1) (Or.inl rfl)
  | drop p np g hk hg hv hd =>
    have hnp : (s.view np).call.claims = none := hs.claims_eq_none (by simp [(hs.building p np hk.1).2])
    exact hv ▸ hs.finish (hs.ne_of_claims hk.1) hk.1 rfl rfl hnp
  | dropCopy p np d hk hv hd =>
    have hclaims : (s.view p).call.claims = some np := by rw [hk]; rfl
    have hnp : (s.view np).call.claims = none := hs.claims_eq_none (by simp [(hs.building p np hclaims).2])
    exact hv ▸ hs.finish (hs.ne_of_claims hclaims) hclaims rfl rfl hnp
  | forkFill p np d pid hk hv hd =>
    have hclaims : (s.view p).call.claims = some np := by rw [hk]; rfl
    have hmid := hs.update (r := np) (w := { s.view np with call := .user, pgdir := some d })
      (Or.inl rfl) (Or.inl rfl)
    rw [hv]
    have hp : update s.view np { s.view np with call := .user, pgdir := some d } p =
        s.view p := by simp [hs.ne_of_claims hclaims]
    exact hmid.update (Or.inr (by rw [hp, hclaims]; rfl)) (Or.inl (by rw [hp]))
  | cloneFill p np stack hk hv hn hf hc hj =>
    have hclaims : (s.view p).call.claims = some np := by rw [hk]; rfl
    have hmid := hs.update (r := np)
      (w := { s.view np with call := .user, pgdir := (s.view p).pgdir }) (Or.inl rfl) (Or.inl rfl)
    rw [hv]
    have hp : update s.view np
        { s.view np with call := .user, pgdir := (s.view p).pgdir } p = s.view p := by
      simp [hs.ne_of_claims hclaims]
    exact hmid.update (Or.inr (by rw [hp, hclaims]; rfl)) (Or.inl (by rw [hp]))
  | publish p np k hk hk' hv hd =>
    have hclaims := Call.claims_of_fills hk
    have hnp : (s.view np).call.claims = none := hs.claims_eq_none (by simp [(hs.building p np hclaims).2])
    exact hv ▸ hs.finish (hs.ne_of_claims hclaims) hclaims hk'.1 rfl hnp
  | execBad p d hp hk hv hd => exact hv ▸ hs.update (Or.inl rfl) (Or.inl rfl)
  | execCommit p d old hp hk hold hv hd => exact hv ▸ hs.update (Or.inl rfl) (Or.inl rfl)
  | reap r d hr hd' hv hd =>
    have hnone := hs.claims_eq_none (r := r) (by simp [hr])
    exact hv ▸ hs.update (Or.inl hnone) (Or.inr ⟨hs.not_claimed (by simp [hr]), hnone⟩)
  | join r hr hv hn hf hc hj =>
    have hnone := hs.claims_eq_none (r := r) (by simp [hr])
    exact hv ▸ hs.update (Or.inl hnone) (Or.inr ⟨hs.not_claimed (by simp [hr]), hnone⟩)

theorem Control.step (hs : s.Control) (h : step s a = some t) : t.Control :=
  ⟨((cpuEffect_step hs h).control hs).1, ((cpuEffect_step hs h).control hs).2, (effect_step hs h).builds hs.builds⟩

theorem control_userinit (page : ℕ) : (userinit ncpu page).Control := by
  have hrun : ∀ p, ¬ (userinit ncpu page).Running p := by
    intro p hp
    by_cases h0 : p = ⟨0, by decide⟩
    · subst h0
      simp [Running, userinit] at hp
    · simp [Running, userinit, Table.claim, h0, Proc.zero] at hp
  have hcall : ∀ p, ((userinit ncpu page).view p).call = .user := by
    intro p
    by_cases h0 : p = ⟨0, by decide⟩
    · subst h0
      simp [view_apply, Proc.view, userinit, Table.claim, Proc.zero]
    · simp [view_apply, Proc.view, userinit, Table.claim, h0, Proc.zero]
  refine ⟨?_, ?_, ⟨?_, ?_⟩⟩
  · intro p
    constructor
    · intro hp
      exact absurd hp (hrun p)
    · rintro ⟨c, hc⟩
      cases hc
  · intro c c' p hc
    cases hc
  · intro p np hp
    rw [hcall p] at hp
    cases hp
  · intro p q np hp
    rw [hcall p] at hp
    cases hp

theorem control_of_reachable (h : (machine ncpu).Reachable s) : s.Control := by
  refine h.invariant ?_ ?_
  · rintro s ⟨page, rfl⟩
    exact control_userinit page
  · intro s a t hs hst
    exact hs.step hst

end Kernel
end Xv6.Process
