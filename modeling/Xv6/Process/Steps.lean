import Mathlib.Tactic.SplitIfs
import Xv6.Process.Machine

/-!
# Steps — everything a step of the machine can be

`step_cases` inverts `step` once: each constructor of `StepCase` is one thing that can happen, with
the guards that let it happen and the resulting state as the function of `Machine` that computes it.
The invariants of the later modules all start from it.
-/

namespace Xv6.Process
namespace Kernel

variable {ncpu : ℕ} {s t : Kernel ncpu} {c : Fin ncpu} {p : Slot} {a : Action ncpu}

theorem current_eq_some : s.current c = some p ↔ s.lock ≠ some c ∧ s.cpu c = some p := by
  by_cases h : s.lock = some c <;> simp [current, h]

theorem caller_eq_some : s.caller c = some p ↔ s.current c = some p ∧ (s.proc p).trap = .none ∧
      (s.proc p).call = .user ∧ (s.proc p).killed = false := by
  cases hc : s.current c with
  | none => simp [caller, hc]
  | some q =>
    constructor
    · intro h
      simp only [caller, hc] at h
      split_ifs at h with hq
      have hqp : q = p := Option.some.inj h
      subst hqp
      exact ⟨rfl, hq⟩
    · rintro ⟨h, hq⟩
      have hqp : q = p := Option.some.inj h
      subst hqp
      simp [caller, hc, hq]

theorem inCall_eq_some : s.inCall c = some p ↔ s.current c = some p ∧
      ((s.proc p).trap = .none ∨ (s.proc p).trap = .exit) := by
  cases hc : s.current c with
  | none => simp [inCall, hc]
  | some q =>
    constructor
    · intro h
      simp only [inCall, hc] at h
      split_ifs at h with hq
      have hqp : q = p := Option.some.inj h
      subst hqp
      exact ⟨rfl, hq⟩
    · rintro ⟨h, hq⟩
      have hqp : q = p := Option.some.inj h
      subst hqp
      simp [inCall, hc, hq]

theorem set_rel {f : Proc → Proc} {R : Proc → Proc → Prop} (hrefl : ∀ q, R q q) (h : R (s.proc p) (f (s.proc p)))
    (r : Slot) : R (s.proc r) ((s.set p f).proc r) :=
  Table.modify_rel hrefl h r

/-- What the body of the loop of `wait` can do. -/
inductive WaitCase (s : Kernel ncpu) (c : Fin ncpu) (p : Slot) : Kernel ncpu → Prop
  | panic (r : Slot) (hz : s.proc.findZombie p = some r) (hd : (s.proc r).pgdir = none) :
      WaitCase s c p { s with panicked := true }
  | reap (r : Slot) (d : Pgdir) (hz : s.proc.findZombie p = some r)
      (hd : (s.proc r).pgdir = some d) : WaitCase s c p (s.reap p r d)
  | fail (hz : s.proc.findZombie p = none) : WaitCase s c p { s.setEax p (-1) with lock := none }
  | sleep (hz : s.proc.findZombie p = none) : WaitCase s c p (s.sleep c p (.proc p) .wait)

theorem waitLoop_cases :
    WaitCase s c p (s.waitLoop c p) := by
  unfold waitLoop
  cases hz : s.proc.findZombie p with
  | none =>
    by_cases hk : s.proc.haveKids p = false ∨ (s.proc p).killed = true
    · simpa [hk] using WaitCase.fail hz
    · simpa [hk] using WaitCase.sleep hz
  | some r =>
    cases hd : (s.proc r).pgdir with
    | none => simpa [hd] using WaitCase.panic r hz hd
    | some d => simpa [hd] using WaitCase.reap r d hz hd

/-- What the body of the loop of `join` can do. -/
inductive JoinCase (s : Kernel ncpu) (c : Fin ncpu) (p : Slot) : Kernel ncpu → Prop
  | reap (r : Slot) (hz : s.proc.findZombieThread p = some r) : JoinCase s c p (s.reapThread p r)
  | fail (hz : s.proc.findZombieThread p = none) :
      JoinCase s c p { s.setEax p (-1) with lock := none }
  | sleep (hz : s.proc.findZombieThread p = none) :
      JoinCase s c p (s.sleep c p (.proc p) .join)

theorem joinLoop_cases :
    JoinCase s c p (s.joinLoop c p) := by
  unfold joinLoop
  cases hz : s.proc.findZombieThread p with
  | none =>
    by_cases hk : s.proc.haveThreads p = false ∨ (s.proc p).killed = true
    · simpa [hk] using JoinCase.fail hz
    · simpa [hk] using JoinCase.sleep hz
  | some r => exact JoinCase.reap r hz

inductive ResumeCase (s : Kernel ncpu) (c : Fin ncpu) (p : Slot) : Kernel ncpu → Prop
  | release (hr : (s.proc p).resume = .forkret ∨ (s.proc p).resume = .yield) :
      ResumeCase s c p { s with lock := none }
  | sleep (hr : (s.proc p).resume = .sleep) :
      ResumeCase s c p { s.set p (fun q => { q with chan := none }) with lock := none }
  | wait (t : Kernel ncpu) (hr : (s.proc p).resume = .wait)
      (h : WaitCase (s.set p (fun q => { q with chan := none })) c p t) : ResumeCase s c p t
  | join (t : Kernel ncpu) (hr : (s.proc p).resume = .join)
      (h : JoinCase (s.set p (fun q => { q with chan := none })) c p t) : ResumeCase s c p t

theorem resume_cases :
    ResumeCase s c p (s.resume c p) := by
  unfold resume
  cases hr : (s.proc p).resume with
  | forkret => exact .release (Or.inl hr)
  | yield => exact .release (Or.inr hr)
  | sleep => exact .sleep hr
  | wait => exact .wait _ hr waitLoop_cases
  | join => exact .join _ hr joinLoop_cases

/-- A step of the interrupt handler of `p`, which runs on CPU `c`. -/
inductive TrapCase (s : Kernel ncpu) (c : Fin ncpu) (p : Slot) : Kernel ncpu → Prop
  | mlfq (ht : (s.proc p).trap = .mlfq) : TrapCase s c p (s.mlfq p)
  | demoted (ht : (s.proc p).trap = .demoted) (hl : s.lock = none) :
      TrapCase s c p (s.yield c p .tail)
  | tail (ht : (s.proc p).trap = .tail) (hstate : (s.proc p).state = .running) (hl : s.lock = none) :
      TrapCase s c p (s.yield c p .post)
  | skip (ht : (s.proc p).trap = .tail) (hstate : (s.proc p).state ≠ .running) :
      TrapCase s c p (s.set p (fun q => { q with trap := .post }))
  | exit (ht : (s.proc p).trap = .tail ∨ (s.proc p).trap = .post) (hcall : (s.proc p).call = .user) :
      TrapCase s c p (s.exitStart p .exit)
  | done (ht : (s.proc p).trap = .post) :
      TrapCase s c p (s.set p (fun q => { q with trap := .none }))

/-- A system call started by `p` on CPU `c`. -/
inductive StartCase (s : Kernel ncpu) (c : Fin ncpu) (p : Slot) : Action ncpu → Kernel ncpu → Prop
  | fork (hl : s.lock = none) : StartCase s c p (.fork c) (s.allocproc p .forkStack)
  | clone (stack : ℕ) (hl : s.lock = none) :
      StartCase s c p (.clone c stack) (s.allocproc p (fun np => .cloneStack np stack))
  | exec : StartCase s c p (.exec c true)
      { s.set p (fun q => { q with call := .exec s.nextDir }) with nextDir := s.nextDir + 1 }
  | execFail : StartCase s c p (.exec c false) (s.setEax p (-1))
  | growFail : StartCase s c p (.growproc c none) (s.setEax p (-1))
  | grow (sz : ℕ) :
      StartCase s c p (.growproc c (some sz)) ((s.set p (fun q => { q with sz := sz })).setEax p 0)
  | wait (t : Kernel ncpu) (hl : s.lock = none) (h : WaitCase s c p t) : StartCase s c p (.wait c) t
  | join (t : Kernel ncpu) (hl : s.lock = none) (h : JoinCase s c p t) : StartCase s c p (.join c) t
  | kill (pid : Int32) (hl : s.lock = none) : StartCase s c p (.kill c pid) (s.kill p pid)

/-- The next stretch of the system call that `p` is in, on CPU `c`. -/
inductive CallCase (s : Kernel ncpu) (c : Fin ncpu) (p : Slot) : Action ncpu → Kernel ncpu → Prop
  | forkStack (np : Slot) (page : Option ℕ) (hcall : (s.proc p).call = .forkStack np) :
      CallCase s c p (.kstack c page) (s.kstackFor p np page (.forkSetup np))
  | cloneStack (np : Slot) (stack : ℕ) (page : Option ℕ)
      (hcall : (s.proc p).call = .cloneStack np stack) :
      CallCase s c p (.kstack c page) (s.kstackFor p np page (.cloneShare np stack))
  | forkSetup (np : Slot) (hcall : (s.proc p).call = .forkSetup np) :
      CallCase s c p (.setupkvm c true)
        { s.set p (fun q => { q with call := .forkCopy np s.nextDir }) with
          nextDir := s.nextDir + 1 }
  | forkSetupFail (np : Slot) (hcall : (s.proc p).call = .forkSetup np) :
      CallCase s c p (.setupkvm c false) (s.forkFail p np)
  | forkCopy (np : Slot) (d : Pgdir) (hcall : (s.proc p).call = .forkCopy np d) :
      CallCase s c p (.copyuvm c true) (s.forkFill p np d)
  | forkCopyFail (np : Slot) (d : Pgdir) (hcall : (s.proc p).call = .forkCopy np d) :
      CallCase s c p (.copyuvm c false) ((s.freevm d none).forkFail p np)
  | cloneFill (np : Slot) (stack : ℕ) (hcall : (s.proc p).call = .cloneShare np stack) :
      CallCase s c p (.cloneFill c) (s.cloneFill p np stack)
  | forkRun (np : Slot) (pid : Int32) (hcall : (s.proc p).call = .forkRun np pid)
      (hl : s.lock = none) :
      CallCase s c p (.publish c) (s.publish p np (fun q => { q with eax := pid, call := .user }))
  | cloneRun (np : Slot) (hcall : (s.proc p).call = .cloneRun np) (hl : s.lock = none) :
      CallCase s c p (.publish c) (s.publish p np (fun q => { q with call := .cloneRet np }))
  | cloneRet (np : Slot) (hcall : (s.proc p).call = .cloneRet np) :
      CallCase s c p (.cloneRet c) (s.ret p (s.proc np).pid)
  | execBad (d : Pgdir) (hcall : (s.proc p).call = .exec d) :
      CallCase s c p (.execBad c) ((s.freevm d none).ret p (-1))
  | execCommit (d : Pgdir) (sz : ℕ) (hcall : (s.proc p).call = .exec d) :
      CallCase s c p (.execCommit c sz) (s.execCommit p d sz)
  | exitZombie (hcall : (s.proc p).call = .exiting) (hl : s.lock = none) :
      CallCase s c p (.exitZombie c) (s.exitZombie c p)

inductive StepCase (s : Kernel ncpu) : Action ncpu → Kernel ncpu → Prop
  | schedPass (c : Fin ncpu) (hc : s.cpu c = none) (hl : s.lock = none) :
      StepCase s (.schedPass c) (s.schedPass c)
  | resume (c : Fin ncpu) (p : Slot) (t : Kernel ncpu) (hc : s.cpu c = some p)
      (hl : s.lock = some c) (h : ResumeCase s c p t) : StepCase s (.resume c) t
  | idleTimer (c : Fin ncpu) (hc : s.cpu c = none) : StepCase s (.timer c) (s.tick c)
  | timer (c : Fin ncpu) (p : Slot) (hc : s.current c = some p) (ht : (s.proc p).trap = .none) :
      StepCase s (.timer c) ((s.tick c).set p (fun q => { q with trap := .mlfq }))
  | trap (c : Fin ncpu) (p : Slot) (t : Kernel ncpu) (hc : s.current c = some p)
      (h : TrapCase s c p t) : StepCase s (.trap c) t
  | fault (c : Fin ncpu) (p : Slot) (hc : s.current c = some p) (ht : (s.proc p).trap = .none)
      (hcall : (s.proc p).call = .user) :
      StepCase s (.fault c) (s.set p (fun q => { q with killed := true, trap := .tail }))
  | exit (c : Fin ncpu) (p : Slot) (hc : s.current c = some p) (ht : (s.proc p).trap = .none)
      (hcall : (s.proc p).call = .user) : StepCase s (.exit c) (s.exitStart p .none)
  | sleep (c : Fin ncpu) (p : Slot) (ch : Chan) (hc : s.current c = some p) (hl : s.lock = none) :
      StepCase s (.sleep c ch) (s.sleep c p ch .sleep)
  | wakeup (ch : Chan) (hl : s.lock = none) :
      StepCase s (.wakeup ch) (s.wakeup ch)
  | start (c : Fin ncpu) (p : Slot) (a : Action ncpu) (t : Kernel ncpu) (hc : s.caller c = some p)
      (h : StartCase s c p a t) : StepCase s a t
  | call (c : Fin ncpu) (p : Slot) (a : Action ncpu) (t : Kernel ncpu) (hc : s.inCall c = some p)
      (h : CallCase s c p a t) : StepCase s a t

theorem trapStep_cases (h : s.trapStep c p = some t) : TrapCase s c p t := by
  unfold trapStep at h
  cases ht : (s.proc p).trap with
  | none => simp [ht] at h
  | mlfq =>
    simp only [ht, Option.some.injEq] at h
    exact h ▸ TrapCase.mlfq ht
  | demoted =>
    simp only [ht] at h
    split_ifs at h with hl
    exact Option.some.inj h ▸ TrapCase.demoted ht hl
  | tail =>
    simp only [ht] at h
    split_ifs at h with hkill hrun hl
    · exact Option.some.inj h ▸ TrapCase.exit (Or.inl ht) hkill.2
    · exact Option.some.inj h ▸ TrapCase.tail ht hrun hl
    · exact Option.some.inj h ▸ TrapCase.skip ht hrun
  | post =>
    simp only [ht] at h
    split_ifs at h with hkill
    · exact Option.some.inj h ▸ TrapCase.exit (Or.inr ht) hkill.2
    · exact Option.some.inj h ▸ TrapCase.done ht
  | exit => simp [ht] at h

/-- The CPU on which an action takes place. -/
def Action.cpu? : Action ncpu → Option (Fin ncpu)
  | .wakeup _ => none
  | .schedPass c | .resume c | .timer c | .trap c | .fault c | .fork c | .clone c _ | .kstack c _
  | .setupkvm c _ | .copyuvm c _ | .cloneFill c | .publish c | .cloneRet c | .exec c _ | .execBad c
  | .execCommit c _ | .growproc c _ | .exit c | .exitZombie c | .wait c | .join c | .sleep c _
  | .kill c _ => some c

theorem startCall_cases (hcpu : a.cpu? = some c) (h : s.startCall c p a = some t) : StartCase s c p a t := by
  cases a <;> simp only [startCall, reduceCtorEq] at h <;>
    (have hc := Option.some.inj hcpu; subst hc)
  case fork =>
    split_ifs at h with hl
    exact Option.some.inj h ▸ StartCase.fork hl
  case clone stack =>
    split_ifs at h with hl
    exact Option.some.inj h ▸ StartCase.clone stack hl
  case exec ok =>
    cases ok with
    | true => exact Option.some.inj h ▸ StartCase.exec
    | false => exact Option.some.inj h ▸ StartCase.execFail
  case growproc sz =>
    cases sz with
    | none => exact Option.some.inj h ▸ StartCase.growFail
    | some sz => exact Option.some.inj h ▸ StartCase.grow sz
  case wait =>
    split_ifs at h with hl
    exact Option.some.inj h ▸ StartCase.wait _ hl waitLoop_cases
  case join =>
    split_ifs at h with hl
    exact Option.some.inj h ▸ StartCase.join _ hl joinLoop_cases
  case kill pid =>
    split_ifs at h with hl
    exact Option.some.inj h ▸ StartCase.kill pid hl

theorem callStep_cases (hcpu : a.cpu? = some c) (h : s.callStep p a (s.proc p).call = some t) :
    CallCase s c p a t := by
  cases hcall : (s.proc p).call <;> rw [hcall] at h <;> cases a <;>
    simp only [callStep, reduceCtorEq] at h <;> (have hc := Option.some.inj hcpu; subst hc)
  case forkStack.kstack => exact Option.some.inj h ▸ CallCase.forkStack _ _ hcall
  case forkSetup.setupkvm =>
    rename_i ok
    cases ok with
    | true => exact Option.some.inj h ▸ CallCase.forkSetup _ hcall
    | false => exact Option.some.inj h ▸ CallCase.forkSetupFail _ hcall
  case forkCopy.copyuvm =>
    rename_i ok
    cases ok with
    | true => exact Option.some.inj h ▸ CallCase.forkCopy _ _ hcall
    | false => exact Option.some.inj h ▸ CallCase.forkCopyFail _ _ hcall
  case forkRun.publish =>
    split_ifs at h with hl
    exact Option.some.inj h ▸ CallCase.forkRun _ _ hcall hl
  case cloneStack.kstack => exact Option.some.inj h ▸ CallCase.cloneStack _ _ _ hcall
  case cloneShare.cloneFill => exact Option.some.inj h ▸ CallCase.cloneFill _ _ hcall
  case cloneRun.publish =>
    split_ifs at h with hl
    exact Option.some.inj h ▸ CallCase.cloneRun _ hcall hl
  case cloneRet.cloneRet => exact Option.some.inj h ▸ CallCase.cloneRet _ hcall
  case exec.execBad => exact Option.some.inj h ▸ CallCase.execBad _ hcall
  case exec.execCommit => exact Option.some.inj h ▸ CallCase.execCommit _ _ hcall
  case exiting.exitZombie =>
    split_ifs at h with hl
    exact Option.some.inj h ▸ CallCase.exitZombie hcall hl

/-- A process that is in a call goes on with it. -/
theorem StepCase.of_inCall (hcpu : a.cpu? = some c)
    (h : (match s.inCall c with | none => none | some p => s.callStep p a (s.proc p).call) = some t) :
    StepCase s a t := by
  cases hc : s.inCall c with
  | none => simp [hc] at h
  | some p =>
    rw [hc] at h
    exact StepCase.call c p a t hc (callStep_cases hcpu h)

theorem StepCase.of_caller (hcpu : a.cpu? = some c)
    (h : (match s.caller c with | none => none | some p => s.startCall c p a) = some t) : StepCase s a t := by
  cases hc : s.caller c with
  | none => simp [hc] at h
  | some p =>
    rw [hc] at h
    exact StepCase.start c p a t hc (startCall_cases hcpu h)

/-- Everything a step of the machine can do. -/
theorem step_cases (h : step s a = some t) : s.panicked = false ∧ StepCase s a t := by
  have hpanic : s.panicked = false := by
    cases hp : s.panicked with
    | false => rfl
    | true => simp [step, hp] at h
  refine ⟨hpanic, ?_⟩
  simp only [step, hpanic, Bool.false_eq_true, if_false] at h
  cases a with
  | schedPass c =>
    simp only at h
    split_ifs at h with hg
    exact Option.some.inj h ▸ StepCase.schedPass c hg.1 hg.2
  | resume c =>
    cases hc : s.cpu c with
    | none => simp [hc] at h
    | some p =>
      simp only [hc] at h
      split_ifs at h with hl
      exact Option.some.inj h ▸ StepCase.resume c p _ hc hl resume_cases
  | timer c =>
    simp only at h
    split_ifs at h with hl
    rcases not_or.1 hl with ⟨hlock, _⟩
    cases hc : s.cpu c with
    | none =>
      simp only [hc] at h
      exact Option.some.inj h ▸ StepCase.idleTimer c hc
    | some p =>
      simp only [hc] at h
      split_ifs at h with ht
      exact Option.some.inj h ▸ StepCase.timer c p (current_eq_some.2 ⟨hlock, hc⟩) ht
  | trap c =>
    cases hc : s.current c with
    | none => simp [hc] at h
    | some p =>
      simp only [hc] at h
      exact StepCase.trap c p t hc (trapStep_cases h)
  | fault c =>
    cases hc : s.current c with
    | none => simp [hc] at h
    | some p =>
      simp only [hc] at h
      split_ifs at h with hg
      exact Option.some.inj h ▸ StepCase.fault c p hc hg.1 hg.2
  | exit c =>
    cases hc : s.current c with
    | none => simp [hc] at h
    | some p =>
      simp only [hc] at h
      split_ifs at h with hg
      exact Option.some.inj h ▸ StepCase.exit c p hc hg.1 hg.2
  | sleep c ch =>
    cases hc : s.inCall c with
    | none => simp [hc] at h
    | some p =>
      simp only [hc] at h
      split_ifs at h with hl
      exact Option.some.inj h ▸ StepCase.sleep c p ch (inCall_eq_some.1 hc).1 hl
  | wakeup ch =>
    simp only at h
    split_ifs at h with hl
    exact Option.some.inj h ▸ StepCase.wakeup ch hl
  | fork c => exact StepCase.of_caller rfl h
  | clone c stack => exact StepCase.of_caller rfl h
  | exec c ok => exact StepCase.of_caller rfl h
  | growproc c sz => exact StepCase.of_caller rfl h
  | wait c => exact StepCase.of_caller rfl h
  | join c => exact StepCase.of_caller rfl h
  | kill c pid => exact StepCase.of_caller rfl h
  | kstack c page => exact StepCase.of_inCall rfl h
  | setupkvm c ok => exact StepCase.of_inCall rfl h
  | copyuvm c ok => exact StepCase.of_inCall rfl h
  | cloneFill c => exact StepCase.of_inCall rfl h
  | publish c => exact StepCase.of_inCall rfl h
  | cloneRet c => exact StepCase.of_inCall rfl h
  | execBad c => exact StepCase.of_inCall rfl h
  | execCommit c sz => exact StepCase.of_inCall rfl h
  | exitZombie c => exact StepCase.of_inCall rfl h

end Kernel
end Xv6.Process
