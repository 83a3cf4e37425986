import Mathlib.Data.Int.Notation
import Mathlib.Data.List.Nodup
import Xv6.Common.Program

/-!
# Spinlock — mutual exclusion, and interrupts while a lock is held

`spinlock.c` one access to memory at a time, on any number of CPUs and for any number of locks.  The other modules
take what a process does under a spin lock for one step, and this is why they may.
-/

namespace Xv6.Spinlock

open Common
open Function (update)

/-! ## The code -/

inductive Panic
  | acquire
  | release
  /-- "popcli - interruptible" -/
  | interruptible
  | popcli

/-- What `pushcli` and `popcli` use of a CPU. -/
structure Cli where
  ncli : ℤ
  intena : Bool
  /-- `FL_IF` -/
  fl : Bool

def Cli.pushcli (k : Cli) : Cli :=
  { ncli := k.ncli + 1
    intena := if k.ncli = 0 then k.fl else k.intena
    fl := false }

def Cli.popcli (k : Cli) : Except Panic Cli :=
  if k.fl then .error .interruptible
  else if k.ncli - 1 < 0 then .error .popcli
  else .ok { k with ncli := k.ncli - 1, fl := k.ncli - 1 = 0 && k.intena }

structure State (L C : Type) where
  /-- `none` is 0, `some c` is the 1 that `c` has written. -/
  locked : L → Option C
  cpu : L → Option C
  cli : C → Cli
  /-- The locks between the end of `acquire` and `release`. -/
  held : C → List L
  /-- What `FL_IF` is while no lock is held. -/
  base : C → Bool

inductive Call (L : Type)
  | acquire (l : L)
  | release (l : L)
  /-- `sti`, `cli` or a return to user mode. -/
  | eflags (fl : Bool)

variable {L C : Type} [DecidableEq L] [DecidableEq C]

abbrev Code (L C α : Type) := Prog (State L C) Unit Panic α

def pushcli (c : C) : Code L C Unit :=
  .modify fun s => { s with cli := update s.cli c (s.cli c).pushcli }

def popcli (c : C) : Code L C Unit :=
  .atomic fun s => (s.cli c).popcli.map fun k => ((), { s with cli := update s.cli c k })

def holding (c : C) (l : L) : Code L C Bool := do
  pushcli c
  let locked ← .read fun s => (s.locked l).isSome
  let r ← if locked then .read fun s => decide (s.cpu l = some c) else pure false
  popcli c
  return r

def acquire (c : C) (l : L) : Code L C Unit := do
  pushcli c
  if ← holding c l then .halt .acquire
  else
    -- An `xchg` that finds 1 writes 1 and is repeated.
    .await (fun _ s => (s.locked l).isNone) fun _ s => .ok ((), { s with locked := update s.locked l (some c) })
    .modify fun s => { s with cpu := update s.cpu l (some c), held := update s.held c (l :: s.held c) }

def release (c : C) (l : L) : Code L C Unit := do
  if ← holding c l then
    .modify fun s => { s with cpu := update s.cpu l none, held := update s.held c ((s.held c).erase l) }
    .modify fun s => { s with locked := update s.locked l none }
    popcli c
  else .halt .release

def body (c : C) : Call L → Code L C Unit
  | .acquire l => acquire c l
  | .release l => release c l
  | .eflags fl => .modify fun s =>
    { s with cli := update s.cli c { s.cli c with fl := fl }, base := update s.base c fl }

/-- Nobody waits for a lock of his own, and only locks that are held are released. -/
def may (c : C) (k : Call L) (s : State L C) : Bool :=
  match k with
  | .acquire l => l ∉ s.held c
  | .release l => l ∈ s.held c
  | .eflags _ => s.held c = []

abbrev Machine (L C : Type) := Threads (State L C) Unit Panic Unit C

structure Start (m : Machine L C) : Prop where
  code : ∀ c, m.code c = .pure ()
  lock : ∀ l, m.shared.locked l = none ∧ m.shared.cpu l = none
  cli : ∀ c, (m.shared.cli c).ncli = 0 ∧ (m.shared.cli c).fl = m.shared.base c
  held : ∀ c, m.shared.held c = []

def spinlocks (L C : Type) [DecidableEq L] [DecidableEq C] : System (Machine L C) (Turn C (Call L) Unit) :=
  .ofStep Start (Threads.step may body)

/-! ## The invariant -/

/-- `n` calls of `pushcli` are open. -/
structure Cli.Nested (k : Cli) (n : ℕ) (base : Bool) : Prop where
  ncli : k.ncli = n
  off : 0 < n → k.fl = false ∧ k.intena = base
  on : n = 0 → k.fl = base

section Nested

variable {k : Cli} {n : ℕ} {base : Bool}

theorem Cli.Nested.pushcli (h : k.Nested n base) : k.pushcli.Nested (n + 1) base := by
  rcases h with ⟨hncli, hoff, hon⟩
  constructor
  all_goals grind [Cli.pushcli]

theorem Cli.Nested.popcli (h : k.Nested (n + 1) base) : ∃ k', k.popcli = .ok k' ∧ k'.Nested n base := by
  rcases h.off (Nat.succ_pos n) with ⟨hfl, hintena⟩
  have hncli := h.ncli
  refine ⟨{ k with ncli := k.ncli - 1, fl := k.ncli - 1 = 0 && k.intena }, ?_, ?_⟩
  · grind [Cli.popcli]
  · constructor
    all_goals grind

end Nested

/-- The account of a CPU. -/
structure Account (L : Type) where
  held : List L
  /-- The calls of `pushcli` still open, apart from one for each lock that is held. -/
  depth : ℕ
  /-- The lock that the CPU has written 1 to and does not hold. -/
  owns : Option L

structure Inv (s : State L C) (rs : C → Account L) : Prop where
  held : ∀ c, (rs c).held = s.held c
  nested : ∀ c, (s.cli c).Nested ((rs c).held.length + (rs c).depth) (s.base c)
  nodup : ∀ c, (rs c).held.Nodup
  other : ∀ c, ∀ l ∈ (rs c).owns, l ∉ (rs c).held
  locked : ∀ c l, s.locked l = some c ↔ l ∈ (rs c).held ∨ (rs c).owns = some l
  marked : ∀ c l, s.cpu l = some c ↔ l ∈ (rs c).held

section Safe

variable {s t : State L C} {rs : C → Account L} {c : C} {l : L} {r r' : Account L} {n : ℕ} {bad : Panic → Prop}

/-- The CPU changes its own interrupts only. -/
theorem Inv.setCli (h : Inv s rs) (hr : rs c = r) {k : Cli} {base : Bool} (hk : k.Nested (r.held.length + n) base) :
    Inv { s with cli := update s.cli c k, base := update s.base c base } (update rs c { r with depth := n }) := by
  rcases h with ⟨h₁, h₂, h₃, h₄, h₅, h₆⟩
  constructor
  all_goals grind [Function.update_apply]

theorem pushcli_safe {Q : Unit → Account L → Prop} (h : Q () { r with depth := r.depth + 1 }) :
    Safe Inv bad c (pushcli c) r Q := by
  refine Safe.modify fun s rs hI hr => ⟨_, ?_, h⟩
  have hnested := hI.nested c
  rw [hr] at hnested
  simpa using hI.setCli (n := r.depth + 1) hr hnested.pushcli

theorem popcli_safe {Q : Unit → Account L → Prop} (hn : r.depth = n + 1) (h : Q () { r with depth := n }) :
    Safe Inv bad c (popcli c) r Q := by
  refine Safe.atomic fun s rs hI hr => ?_
  have hnested := hI.nested c
  rw [hr, hn, ← Nat.add_assoc] at hnested
  rcases hnested.popcli with ⟨k, hpop, hk⟩
  rw [hpop]
  refine .ok ⟨_, ?_, h⟩
  simpa using hI.setCli hr hk

theorem holding_safe {Q : Bool → Account L → Prop} (h : Q (decide (l ∈ r.held)) r) :
    Safe Inv bad c (holding c l) r Q := by
  refine Safe.bind (pushcli_safe (Safe.bind (Safe.read fun s rs hI hr => ?_)))
  have hlast : Safe Inv bad c (do popcli c; return decide (l ∈ r.held)) { r with depth := r.depth + 1 } Q :=
    Safe.bind (popcli_safe rfl (Safe.pure h))
  by_cases hlocked : (s.locked l).isSome = true
  · rw [if_pos hlocked]
    refine Safe.bind (Safe.read fun s rs hI hr => ?_)
    have hcpu : s.cpu l = some c ↔ l ∈ r.held := by rw [hI.marked, hr]
    simpa only [hcpu] using hlast
  · have hl : l ∉ r.held := fun hl => hlocked (by simp [(hI.locked c l).2 (.inl (hr ▸ hl))])
    rw [if_neg hlocked]
    refine Safe.bind (Safe.pure ?_)
    simpa [hl] using hlast

theorem acquire_safe (hl : l ∉ r.held) (hdepth : r.depth = 0) (howns : r.owns = none) :
    Safe Inv bad c (acquire c l) r fun _ r' => r' = { r with held := l :: r.held } := by
  refine Safe.bind (pushcli_safe (Safe.bind (holding_safe ?_)))
  rw [decide_eq_false hl, if_neg Bool.false_ne_true]
  refine Safe.bind (Safe.await fun s rs _ hI hr hready => .ok ⟨{ r with depth := 1, owns := some l }, ?_, ?_⟩)
  · -- Nobody had written a 1 to `l`, so nobody holds it.
    rcases hI with ⟨hheld, hnested, hnodup, hother, hlocked, hmarked⟩
    constructor
    all_goals grind [Function.update_apply]
  · refine Safe.modify fun s rs hI hr => ⟨{ r with held := l :: r.held }, ?_, rfl⟩
    rcases hI with ⟨hheld, hnested, hnodup, hother, hlocked, hmarked⟩
    have howner := (hlocked c l).2 (.inr (by rw [hr]))
    constructor
    all_goals grind [Function.update_apply]

theorem release_safe (hl : l ∈ r.held) (hdepth : r.depth = 0) (howns : r.owns = none) :
    Safe Inv bad c (release c l) r fun _ r' => r' = { r with held := r.held.erase l } := by
  refine Safe.bind (holding_safe ?_)
  rw [decide_eq_true hl, if_pos rfl]
  refine Safe.bind (Safe.modify fun s rs hI hr => ⟨⟨r.held.erase l, 1, some l⟩, ?_, Safe.bind ?_⟩)
  · rcases hI with ⟨hheld, hnested, hnodup, hother, hlocked, hmarked⟩
    have hmem : ∀ m, m ∈ r.held.erase l ↔ m ≠ l ∧ m ∈ r.held := fun m => (hr ▸ hnodup c : r.held.Nodup).mem_erase_iff
    have hlen := List.length_erase_add_one hl
    have hnodup' := (hr ▸ hnodup c : r.held.Nodup).erase l
    have howner := (hlocked c l).2 (.inl (hr ▸ hl))
    constructor
    all_goals grind [Function.update_apply]
  refine Safe.modify fun s rs hI hr => ⟨⟨r.held.erase l, 1, none⟩, ?_, popcli_safe rfl (by rw [hdepth, howns])⟩
  rcases hI with ⟨hheld, hnested, hnodup, hother, hlocked, hmarked⟩
  have howner := (hlocked c l).2 (.inr (by rw [hr]))
  constructor
  all_goals grind [Function.update_apply]

end Safe

/-! ## Mutual exclusion -/

/-- Between calls only the locks that are held keep interrupts off. -/
structure Account.Settled (r : Account L) : Prop where
  depth : r.depth = 0
  owns : r.owns = none

theorem body_safe {s : State L C} {rs : C → Account L} {c : C} (hI : Inv s rs) (hr : (rs c).Settled) (k : Call L)
    (hmay : may c k s = true) : Safe Inv (fun _ => True) c (body c k) (rs c) fun _ => Account.Settled := by
  have hheld := hI.held c
  cases k with
  | acquire l =>
    refine (acquire_safe ?_ hr.depth hr.owns).mono fun _ r' hr' => hr' ▸ ⟨hr.depth, hr.owns⟩
    simpa [may, hheld] using hmay
  | release l =>
    refine (release_safe ?_ hr.depth hr.owns).mono fun _ r' hr' => hr' ▸ ⟨hr.depth, hr.owns⟩
    simpa [may, hheld] using hmay
  | eflags fl =>
    have hnil : (rs c).held = [] := by simpa [may, hheld] using hmay
    refine Safe.modify fun t rs' hI' hr' => ⟨_, hI'.setCli (n := 0) hr' ?_, rfl, hr.owns⟩
    have hncli := (hI'.nested c).ncli
    rw [hr', hnil, hr.depth] at hncli
    rw [hnil]
    exact ⟨hncli, by simp, fun _ => rfl⟩

theorem holds_of_reachable {m : Machine L C} (h : (spinlocks L C).Reachable m) :
    Holds Inv (fun _ _ => True) (fun _ => True) Account.Settled m := by
  refine h.invariant (fun m hm => ?_) fun m t m' hm hstep => ?_
  · refine ⟨fun _ => ⟨[], 0, none⟩, ?_, fun c => ?_⟩
    · refine ⟨fun c => (hm.held c).symm, fun c => ⟨(hm.cli c).1, by simp, fun _ => (hm.cli c).2⟩, by simp, by simp, ?_, ?_⟩
      · simp [hm.lock]
      · simp [hm.lock]
    · rw [hm.code c]
      exact Safe.pure ⟨rfl, rfl⟩
  · refine (hm.step (fun _ => trivial) (fun c k s rs hI hr hmay => ⟨rs c, ?_, body_safe hI hr k hmay⟩) hstep).2
    rwa [Function.update_eq_self]

structure Excludes (m : Machine L C) : Prop where
  /-- No CPU panics. -/
  running : ∀ c e, m.code c ≠ .halt e
  single : ∀ c d l, l ∈ m.shared.held c → l ∈ m.shared.held d → c = d
  off : ∀ c, m.shared.held c ≠ [] → (m.shared.cli c).fl = false
  /-- The last `release` leaves interrupts as they were before the first `acquire`. -/
  restored : ∀ c, m.code c = .pure () → m.shared.held c = [] →
    (m.shared.cli c).ncli = 0 ∧ (m.shared.cli c).fl = m.shared.base c

/-- However the CPUs' accesses to memory are interleaved. -/
theorem excludes_of_reachable {m : Machine L C} (h : (spinlocks L C).Reachable m) : Excludes m := by
  have hholds := holds_of_reachable h
  have hhalt : ∀ c e, m.code c ≠ .halt e := fun c e => hholds.not_halt trivial c
  rcases hholds with ⟨rs, hI, hsafe⟩
  refine ⟨hhalt, fun c d l hc hd => ?_, fun c hc => ?_, fun c hcode hc => ?_⟩
  · -- Both would have written the 1 that is in `locked`.
    have hlocked := hI.locked c l
    have hlocked' := hI.locked d l
    grind [hI.held c, hI.held d]
  · refine ((hI.nested c).off ?_).1
    rw [hI.held]
    exact Nat.add_pos_left (List.length_pos_iff.2 hc) _
  · have hsettled := hsafe c
    rw [hcode] at hsettled
    have hnested := hI.nested c
    rw [hI.held, hc, hsettled.depth] at hnested
    exact ⟨hnested.ncli, hnested.on rfl⟩

def twoCpus : Machine (Fin 1) (Fin 2) :=
  { shared :=
      { locked := fun _ => none
        cpu := fun _ => none
        cli := fun _ => ⟨0, false, true⟩
        held := fun _ => []
        base := fun _ => true }
    code := fun _ => .pure () }

/-- Both CPUs call `acquire`, and the second one comes too late for its `xchg`. -/
def twoCpusRun : List (Turn (Fin 2) (Call (Fin 1)) Unit) :=
  [.start 0 (.acquire 0), .start 1 (.acquire 0)] ++ List.replicate 4 (.run 0 ()) ++ List.replicate 4 (.run 1 ()) ++
    List.replicate 2 (.run 0 ())

theorem excludes_twoCpusRun : ∃ m, (spinlocks (Fin 1) (Fin 2)).Reachable m ∧ m.shared.held 0 = [0] ∧
    m.shared.held 1 = [] ∧ Excludes m := by
  have hexec : (System.execute (Threads.step may body) twoCpus twoCpusRun).map
      (fun m => decide (m.shared.held 0 = [0] ∧ m.shared.held 1 = [])) = some true := by decide
  rcases Option.map_eq_some_iff.1 hexec with ⟨m, hm, hdec⟩
  rcases System.run_of_execute hm with ⟨es, hrun, -⟩
  have hreach : (spinlocks (Fin 1) (Fin 2)).Reachable m :=
    ⟨twoCpus, es, ⟨fun _ => rfl, fun _ => ⟨rfl, rfl⟩, fun _ => ⟨rfl, rfl⟩, fun _ => rfl⟩, hrun⟩
  rcases of_decide_eq_true hdec with ⟨h0, h1⟩
  exact ⟨m, hreach, h0, h1, excludes_of_reachable hreach⟩

end Xv6.Spinlock
