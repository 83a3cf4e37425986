import Mathlib.Data.Fintype.Card
import Xv6.Common.Linked
import Xv6.Common.Transition
import Xv6.Disk.Block

/-!
# Ide — the request queue of the disk driver

Processes call `iderw` for buffers whose sleep lock they hold, and the disk raises one interrupt for each request
that was started.  `idelock` is held from one `sleep` to the next, so that a step is what one process or one
`ideintr` does in between.

The state also counts: `enqueued` lists the buffers in the order in which calls of `iderw` appended them, so that a
call is known by its place there, and `interrupts` lists the buffers whose requests the disk has completed.
-/

namespace Xv6.Ide

open Function (update update_of_ne update_self)
open Common

/-! ## The code -/

def sectorSize : ℕ := 512

def sectorPerBlock : ℕ := bsize / sectorSize

/-- What `struct buf` holds besides its lock and its place in the queue. -/
structure Buf where
  /-- `B_VALID` -/
  valid : Bool
  /-- `B_DIRTY` -/
  dirty : Bool
  dev : UInt32
  blockno : UInt32
  data : Block

def Buf.synced (b : Buf) : Bool :=
  b.valid && !b.dirty

/-- A command in the device, and the buffer that it was started for. -/
structure Request (B : Type) where
  buf : B
  /-- Disk 0 or disk 1. -/
  disk : Bool
  sector : ℕ
  /-- What is to be written; `none` if the command is to read. -/
  write : Option Block

inductive Phase (B : Type)
  | idle
  /-- In the loop of `iderw(b)`, asleep or already woken up; the number of the call counts from 0. -/
  | waiting (b : B) (call : ℕ) (asleep : Bool)

structure State (B P : Type) where
  havedisk1 : Bool
  buf : B → Buf
  /-- The holders of the buffers' sleep locks. -/
  lock : B → Option P
  idequeue : Option B
  qnext : B → Option B
  /-- The contents of the two disks, by sector. -/
  disk : Bool → ℕ → Block
  /-- Commands that the device has been given and has not completed. -/
  started : List (Request B)
  phase : P → Phase B
  enqueued : List B
  interrupts : List B

inductive Panic
  | notLocked
  | nothingToDo
  | noDisk1
  | idestart
  | incorrectBlockno
  deriving DecidableEq

inductive Action (B P : Type)
  | acquiresleep (p : P) (b : B)
  | releasesleep (p : P) (b : B)
  /-- Flags, block number and data are changed by the holder of the lock, or by `bget` if there is none. -/
  | change (b : B) (new : Buf)
  | iderw (p : P) (b : B)
  /-- A process that has been woken up goes on. -/
  | resume (p : P)
  /-- A process is woken up for another reason. -/
  | wake (p : P)
  /-- The device has completed a request; `err` is what `idewait(1)` finds. -/
  | interrupt (err : Bool)

namespace State

variable {B P : Type}

/-- `*pp`, where `pp` is `&idequeue` or `&b->qnext`. -/
def cell (s : State B P) : Option B → Option B
  | none => s.idequeue
  | some b => s.qnext b

/-- The command that `idestart` gives the device. -/
def request (s : State B P) (b : B) : Request B :=
  { buf := b
    disk := (s.buf b).dev &&& 1 == 1
    sector := (s.buf b).blockno.toNat * sectorPerBlock
    write := if (s.buf b).dirty then some (s.buf b).data else none }

def idestart (s : State B P) : Option B → Except Panic (State B P)
  | none => .error .idestart
  | some b =>
    if (s.buf b).blockno.toNat ≥ fssize then .error .incorrectBlockno
    else if sectorPerBlock > 7 then .error .idestart
    else .ok { s with started := s.started ++ [s.request b] }

def complete (s : State B P) (r : Request B) (rest : List (Request B)) : State B P :=
  { s with
    started := rest
    interrupts := s.interrupts ++ [r.buf]
    disk :=
      match r.write with
      | some data => update s.disk r.disk (update (s.disk r.disk) r.sector data)
      | none => s.disk }

structure Fresh (s : State B P) : Prop where
  idequeue : s.idequeue = none
  started : s.started = []
  idle : ∀ p, s.phase p = .idle
  enqueued : s.enqueued = []
  interrupts : s.interrupts = []

variable [DecidableEq B]

def setCell (s : State B P) (pp v : Option B) : State B P :=
  match pp with
  | none => { s with idequeue := v }
  | some b => { s with qnext := update s.qnext b v }

def wakeup (s : State B P) (b : B) : State B P :=
  { s with
    phase := fun p =>
      match s.phase p with
      | .idle => .idle
      | .waiting c k asleep => .waiting c k (asleep && c ≠ b) }

/-- The first part of `ideintr`: the buffer leaves the queue, and whoever waits for it is woken up. -/
def finish (s : State B P) (b : B) (err : Bool) (data : Block) : State B P :=
  let old := s.buf b
  let new :=
    { old with
      valid := true
      dirty := false
      data := if !old.dirty && !err then data else old.data }
  { s with
    idequeue := s.qnext b
    buf := update s.buf b new }.wakeup b

/-- `ideintr`, where `data` is what `insl` gets from the device. -/
def ideintr (s : State B P) (err : Bool) (data : Block) : Except Panic (State B P) :=
  match s.idequeue with
  | none => .ok s
  | some b =>
    let s := s.finish b err data
    match s.idequeue with
    | none => .ok s
    | some c => s.idestart (some c)

variable [DecidableEq P]

/-- The loop at the end of `iderw`. -/
def wait (s : State B P) (p : P) (b : B) (call : ℕ) : State B P :=
  { s with
    phase := update s.phase p (if (s.buf b).synced then .idle else .waiting b call true) }

/-- The loop that finds the end of the queue; `pp` starts at `&idequeue`. -/
def tail [Fintype B] (s : State B P) : Option B :=
  seek s.cell (fun pp => s.cell pp = none) (Fintype.card B) none

def append [Fintype B] (s : State B P) (b : B) : State B P :=
  let s := s.setCell (some b) none
  { s.setCell s.tail (some b) with enqueued := s.enqueued ++ [b] }

/-- Start the disk if the buffer is the only one in the queue. -/
def startFirst (s : State B P) (b : B) : Except Panic (State B P) :=
  if s.idequeue = some b then s.idestart (some b) else .ok s

def iderw [Fintype B] (s : State B P) (p : P) (b : B) : Except Panic (State B P) :=
  if s.lock b ≠ some p then .error .notLocked
  else if (s.buf b).synced then .error .nothingToDo
  else if (s.buf b).dev ≠ 0 ∧ s.havedisk1 = false then .error .noDisk1
  else
    ((s.append b).startFirst b).map fun t => t.wait p b s.enqueued.length

/-- `none` if the action is not possible. -/
def step [Fintype B] (s : State B P) : Action B P → Option (Except Panic (State B P))
  | .acquiresleep p b =>
    match s.phase p, s.lock b with
    | .idle, none => some (.ok { s with lock := update s.lock b (some p) })
    | _, _ => none
  | .releasesleep p b =>
    match s.phase p with
    | .idle => if s.lock b = some p then some (.ok { s with lock := update s.lock b none }) else none
    | _ => none
  | .change b new =>
    match (s.lock b).map s.phase with
    | some (.waiting _ _ _) => none
    | _ => some (.ok { s with buf := update s.buf b new })
  | .iderw p b =>
    match s.phase p with
    | .idle => some (s.iderw p b)
    | _ => none
  | .resume p =>
    match s.phase p with
    | .waiting b call false => some (.ok (s.wait p b call))
    | _ => none
  | .wake p =>
    match s.phase p with
    | .waiting b call _ => some (.ok { s with phase := update s.phase p (.waiting b call false) })
    | .idle => none
  | .interrupt err =>
    match s.started with
    | [] => none
    | r :: rest => some ((s.complete r rest).ideintr err (s.disk r.disk r.sector))

/-- The action, if it is possible and does not panic. -/
def act [Fintype B] (s : State B P) (a : Action B P) : Option (State B P) :=
  match s.step a with
  | some (.ok t) => some t
  | _ => none

theorem step_of_act [Fintype B] {s t : State B P} {a : Action B P} (h : s.act a = some t) :
    s.step a = some (.ok t) := by
  unfold act at h
  split at h
  · rw [← Option.some.inj h]
    assumption
  · cases h

end State

def ideSystem (B P : Type) [DecidableEq B] [DecidableEq P] [Fintype B] :
    System (State B P) (Action B P) :=
  { init := State.Fresh
    tr := fun s a t => s.step a = some (.ok t) }

/-! ## The queue -/

section Queue

variable {B P : Type} {s t : State B P} {q rest : List B} {p : P} {b c : B} {k : ℕ}

def State.Waits (s : State B P) (p : P) (b : B) (k : ℕ) : Prop :=
  ∃ asleep, s.phase p = .waiting b k asleep

theorem not_waits_of_idle (h : s.phase p = .idle) : ¬ s.Waits p b k := by
  rintro ⟨asleep, hw⟩
  rw [h] at hw
  cases hw

def State.Lists (s : State B P) (q : List B) : Prop :=
  Linked s.cell (none :: q.map some)

/-- The queue, the device and the calls that wait. -/
structure Queued (s : State B P) (q : List B) : Prop where
  lists : s.Lists q
  history : s.enqueued = s.interrupts ++ q
  started : s.started = (q.take 1).map s.request
  owner : ∀ b ∈ q, ∃ p k, s.Waits p b k ∧ s.interrupts.length ≤ k
  locked : ∀ p b k, s.Waits p b k → s.lock b = some p
  call : ∀ p b k, s.Waits p b k → s.enqueued[k]? = some b
  synced : ∀ p b k, s.Waits p b k → ((s.buf b).synced = true ↔ k < s.interrupts.length)

/-- Nothing has happened to the queue or to a buffer in it. -/
structure Undisturbed (s t : State B P) : Prop where
  cell : t.cell = s.cell
  enqueued : t.enqueued = s.enqueued
  interrupts : t.interrupts = s.interrupts
  started : t.started = s.started
  waits : ∀ p b k, t.Waits p b k ↔ s.Waits p b k
  lock : ∀ p b k, s.Waits p b k → t.lock b = s.lock b
  buf : ∀ p b k, s.Waits p b k → t.buf b = s.buf b

theorem State.Lists.nodup (h : s.Lists q) : q.Nodup :=
  (List.nodup_cons.1 h.1).2.of_map

theorem State.Lists.head (h : s.Lists q) : s.idequeue = q.head? := by
  cases q with
  | nil => exact (List.cons.inj (Linked.cons_iff.1 h).2).1
  | cons b q => exact h.next_front

theorem request_eq (h : t.buf b = s.buf b) : t.request b = s.request b := by
  simp only [State.request, h]

theorem Queued.undisturbed (h : Queued s q) (hu : Undisturbed s t) : Queued t q := by
  refine ⟨?_, ?_, ?_, ?_, ?_, ?_, ?_⟩
  · unfold State.Lists
    rw [hu.cell]
    exact h.lists
  · rw [hu.enqueued, hu.interrupts]
    exact h.history
  · rw [hu.started, h.started]
    refine List.map_congr_left fun b hb => ?_
    rcases h.owner b (List.mem_of_mem_take hb) with ⟨p, k, hw, _⟩
    exact (request_eq (hu.buf p b k hw)).symm
  · intro b hb
    rcases h.owner b hb with ⟨p, k, hw, hk⟩
    exact ⟨p, k, (hu.waits p b k).2 hw, hu.interrupts ▸ hk⟩
  · intro p b k hw
    have hs := (hu.waits p b k).1 hw
    rw [hu.lock p b k hs]
    exact h.locked p b k hs
  · intro p b k hw
    rw [hu.enqueued]
    exact h.call p b k ((hu.waits p b k).1 hw)
  · intro p b k hw
    have hs := (hu.waits p b k).1 hw
    rw [hu.buf p b k hs, hu.interrupts]
    exact h.synced p b k hs

/-- A holder that is not in `iderw` has its buffer not in the queue. -/
theorem Queued.not_mem (h : Queued s q) (hidle : s.phase p = .idle) (hlock : s.lock b = some p) : b ∉ q := by
  intro hb
  rcases h.owner b hb with ⟨p', k, hw, _⟩
  obtain rfl : p' = p := by simpa [h.locked p' b k hw] using hlock
  exact not_waits_of_idle hidle hw

variable [DecidableEq B]

theorem cell_setCell (pp v : Option B) : (s.setCell pp v).cell = update s.cell pp v := by
  funext pp'
  cases pp with
  | none =>
    cases pp' with
    | none => rfl
    | some b => rfl
  | some c =>
    cases pp' with
    | none => rfl
    | some b =>
      by_cases hb : b = c
      · simp [State.setCell, State.cell, hb]
      · simp [State.setCell, State.cell, hb]

variable [DecidableEq P] [Fintype B]

omit [DecidableEq P] in
theorem State.Lists.append (h : s.Lists q) (hb : b ∉ q) : (s.append b).Lists (q ++ [b]) := by
  have hnew : some b ∉ none :: q.map some := by simpa using hb
  -- Clearing `b->qnext` does not touch the queue.
  have hclear : (s.setCell (some b) none).Lists q := by
    refine h.congr fun pp hpp => ?_
    have hne : pp ≠ some b := fun heq => hnew (heq ▸ hpp)
    rw [cell_setCell, update_of_ne hne]
  obtain ⟨l, z, hsplit⟩ : ∃ l z, none :: q.map some = l ++ [z] :=
    ⟨_, _, (List.dropLast_append_getLast (List.cons_ne_nil _ _)).symm⟩
  have hhead : (l ++ [z]).head? = some none := by
    rw [← hsplit]
    rfl
  have hlen : l.length ≤ Fintype.card B := by
    have hsame := congrArg List.length hsplit
    have hcard := h.nodup.length_le_card
    simp only [List.length_cons, List.length_map, List.length_append, List.length_nil] at hsame
    omega
  unfold State.Lists at h hclear
  rw [hsplit] at h hclear hnew
  have htail : (s.setCell (some b) none).tail = z := hclear.seek_last hhead hlen
  have hlast : s.cell z = none := h.next_last hhead
  have hcell : (s.append b).cell = update (update s.cell (some b) none) z (some b) := by
    unfold State.append
    change ((s.setCell (some b) none).setCell (s.setCell (some b) none).tail (some b)).cell = _
    rw [htail, cell_setCell, cell_setCell]
  have hpush := h.insert_after hnew
  rw [hlast, ← hcell] at hpush
  have hlist : none :: (q ++ [b]).map some = l ++ [z, some b] := by
    rw [List.map_append, ← List.cons_append, hsplit, List.append_assoc]
    rfl
  rw [State.Lists, hlist]
  exact hpush

/-! ## One step -/

omit [DecidableEq P] [Fintype B] in
theorem setCell_frame (pp v : Option B) :
    (s.setCell pp v).buf = s.buf ∧ (s.setCell pp v).lock = s.lock ∧ (s.setCell pp v).phase = s.phase ∧
      (s.setCell pp v).started = s.started ∧ (s.setCell pp v).enqueued = s.enqueued ∧
      (s.setCell pp v).interrupts = s.interrupts := by
  cases pp with
  | none => exact ⟨rfl, rfl, rfl, rfl, rfl, rfl⟩
  | some b => exact ⟨rfl, rfl, rfl, rfl, rfl, rfl⟩

omit [DecidableEq P] in
theorem append_frame (s : State B P) (b : B) :
    (s.append b).buf = s.buf ∧ (s.append b).lock = s.lock ∧ (s.append b).phase = s.phase ∧
      (s.append b).started = s.started ∧ (s.append b).enqueued = s.enqueued ++ [b] ∧
      (s.append b).interrupts = s.interrupts := by
  rcases setCell_frame (s.setCell (some b) none).tail (some b) with
    ⟨hbuf, hlock, hphase, hstarted, _, hinterrupts⟩
  exact ⟨hbuf, hlock, hphase, hstarted, rfl, hinterrupts⟩

omit [DecidableEq B] [DecidableEq P] [Fintype B] in
theorem idestart_eq (h : s.idestart (some b) = .ok t) : t = { s with started := s.started ++ [s.request b] } := by
  unfold State.idestart at h
  simp only at h
  split_ifs at h
  exact (Except.ok.inj h).symm

omit [DecidableEq P] [Fintype B] in
theorem startFirst_eq (h : s.startFirst b = .ok t) :
    t = { s with started := s.started ++ (if s.idequeue = some b then [s.request b] else []) } := by
  unfold State.startFirst at h
  split_ifs at h with hfirst
  · rw [idestart_eq h, if_pos hfirst]
  · rw [if_neg hfirst, List.append_nil]
    exact (Except.ok.inj h).symm

theorem iderw_eq (h : s.iderw p b = .ok t) :
    s.lock b = some p ∧ (s.buf b).synced = false ∧ t.cell = (s.append b).cell ∧ t.buf = s.buf ∧ t.lock = s.lock ∧
      t.phase = update s.phase p (.waiting b s.enqueued.length true) ∧
      t.enqueued = s.enqueued ++ [b] ∧ t.interrupts = s.interrupts ∧
      t.started = s.started ++ (if (s.append b).idequeue = some b then [s.request b] else []) := by
  rcases append_frame s b with ⟨hbuf, hlock, hphase, hstarted, henqueued, hinterrupts⟩
  have hrequest : (s.append b).request b = s.request b := request_eq (congrFun hbuf b)
  unfold State.iderw at h
  split_ifs at h with hheld hsynced hdisk
  have hnot : (s.buf b).synced = false := Bool.eq_false_iff.2 hsynced
  refine ⟨not_not.1 hheld, hnot, ?_⟩
  cases hstart : (s.append b).startFirst b with
  | error e =>
    rw [hstart] at h
    cases h
  | ok s' =>
    rw [hstart] at h
    obtain rfl : s'.wait p b s.enqueued.length = t := Except.ok.inj h
    obtain rfl := startFirst_eq hstart
    have hphase' : update (s.append b).phase p
        (if ((s.append b).buf b).synced then .idle else .waiting b s.enqueued.length true) =
          update s.phase p (.waiting b s.enqueued.length true) := by
      rw [hbuf, hnot, hphase]
      rfl
    have hstarted' : (s.append b).started ++
        (if (s.append b).idequeue = some b then [(s.append b).request b] else []) =
          s.started ++ (if (s.append b).idequeue = some b then [s.request b] else []) := by
      rw [hstarted, hrequest]
    exact ⟨rfl, hbuf, hlock, hphase', henqueued, hinterrupts, hstarted'⟩

theorem Queued.iderw (h : Queued s q) (hidle : s.phase p = .idle) (ht : s.iderw p b = .ok t) :
    Queued t (q ++ [b]) := by
  rcases iderw_eq ht with ⟨hheld, hsynced, hcell, hbuf, hlock, hphase, henqueued, hinterrupts, hstarted⟩
  have hb : b ∉ q := h.not_mem hidle hheld
  have happend := h.lists.append hb
  have hcount : s.enqueued.length = s.interrupts.length + q.length := by
    rw [h.history, List.length_append]
  -- Who waits now waited before, or is the caller.
  have hwaits : ∀ p' b' k', t.Waits p' b' k' →
      (p' = p ∧ b' = b ∧ k' = s.enqueued.length) ∨ (p' ≠ p ∧ s.Waits p' b' k') := by
    rintro p' b' k' ⟨asleep, hw⟩
    rw [hphase] at hw
    by_cases hp : p' = p
    · rw [hp, update_self] at hw
      cases hw
      exact .inl ⟨hp, rfl, rfl⟩
    · rw [update_of_ne hp] at hw
      exact .inr ⟨hp, asleep, hw⟩
  refine ⟨?_, ?_, ?_, ?_, ?_, ?_, ?_⟩
  · unfold State.Lists
    rw [hcell]
    exact happend
  · rw [henqueued, hinterrupts, h.history, List.append_assoc]
  · have hrequest : ∀ c, t.request c = s.request c := fun c => request_eq (congrFun hbuf c)
    rw [hstarted, happend.head, h.started, funext hrequest]
    cases q with
    | nil => simp
    | cons c q =>
      have hcb : c ≠ b := fun heq => hb (heq ▸ List.mem_cons_self)
      simp [hcb]
  · intro c hc
    rcases List.mem_append.1 hc with hc | hc
    · rcases h.owner c hc with ⟨p', k', ⟨asleep, hw⟩, hk⟩
      have hp : p' ≠ p := by
        rintro rfl
        exact not_waits_of_idle hidle ⟨asleep, hw⟩
      refine ⟨p', k', ⟨asleep, ?_⟩, hinterrupts ▸ hk⟩
      rw [hphase, update_of_ne hp, hw]
    · obtain rfl : c = b := by simpa using hc
      refine ⟨p, s.enqueued.length, ⟨true, ?_⟩, ?_⟩
      · rw [hphase, update_self]
      · rw [hinterrupts, hcount]
        exact Nat.le_add_right _ _
  · intro p' b' k' hw
    rw [hlock]
    rcases hwaits p' b' k' hw with ⟨rfl, rfl, rfl⟩ | ⟨_, hw'⟩
    · exact hheld
    · exact h.locked p' b' k' hw'
  · intro p' b' k' hw
    rw [henqueued]
    rcases hwaits p' b' k' hw with ⟨rfl, rfl, rfl⟩ | ⟨_, hw'⟩
    · simp
    · have hcall := h.call p' b' k' hw'
      rw [List.getElem?_append_left (List.getElem?_eq_some_iff.1 hcall).1]
      exact hcall
  · intro p' b' k' hw
    rw [hbuf, hinterrupts]
    rcases hwaits p' b' k' hw with ⟨rfl, rfl, rfl⟩ | ⟨_, hw'⟩
    · rw [hsynced, hcount]
      simp
    · exact h.synced p' b' k' hw'

omit [DecidableEq P] [Fintype B] in
theorem waits_wakeup {p : P} {c : B} {k : ℕ} : (s.wakeup b).Waits p c k ↔ s.Waits p c k := by
  unfold State.Waits State.wakeup
  cases hphase : s.phase p with
  | idle => simp [hphase]
  | waiting d j asleep => simp [hphase]

omit [DecidableEq P] [Fintype B] in
theorem cell_finish (err : Bool) (data : Block) : (s.finish b err data).cell = update s.cell none (s.qnext b) := by
  funext pp
  cases pp with
  | none => rfl
  | some c => rfl

omit [DecidableEq P] [Fintype B] in
theorem ideintr_eq {err : Bool} {data : Block} (hhead : s.idequeue = some b) (h : s.ideintr err data = .ok t) :
    t = { s.finish b err data with
          started := s.started ++ (s.qnext b).toList.map (s.finish b err data).request } := by
  simp only [State.ideintr, hhead] at h
  have hidequeue : (s.finish b err data).idequeue = s.qnext b := rfl
  cases hnext : s.qnext b with
  | none =>
    rw [hnext] at hidequeue
    simp only [hidequeue] at h
    obtain rfl := Except.ok.inj h
    simp only [Option.toList_none, List.map_nil, List.append_nil]
    rfl
  | some c =>
    rw [hnext] at hidequeue
    simp only [hidequeue] at h
    exact idestart_eq h

omit [DecidableEq P] [Fintype B] in
theorem State.Lists.finish (h : s.Lists (b :: rest)) (err : Bool) (data : Block) :
    (s.finish b err data).Lists rest := by
  unfold State.Lists
  rw [cell_finish]
  have hremove := Linked.remove h
  exact hremove

omit [DecidableEq B] [DecidableEq P] [Fintype B] in
theorem Queued.call_head (h : Queued s (b :: rest)) (hw : s.Waits p c k) (hk : k = s.interrupts.length) : c = b := by
  have hcall := h.call p c k hw
  rw [h.history, hk] at hcall
  simpa using hcall.symm

omit [DecidableEq B] [DecidableEq P] [Fintype B] in
theorem Queued.call_rest (h : Queued s (b :: rest)) (hw : s.Waits p c k) (hk : s.interrupts.length < k) :
    c ∈ rest := by
  have hcall := h.call p c k hw
  obtain ⟨j, rfl⟩ : ∃ j, k = s.interrupts.length + (j + 1) := ⟨k - s.interrupts.length - 1, by omega⟩
  rw [h.history, List.getElem?_append_right (Nat.le_add_right _ _), Nat.add_sub_cancel_left,
    List.getElem?_cons_succ] at hcall
  exact List.mem_of_getElem? hcall

theorem Queued.interrupt {err : Bool} (h : Queued s q) (ht : s.step (.interrupt err) = some (.ok t)) :
    ∃ b rest, q = b :: rest ∧ Queued t rest ∧ t.interrupts = s.interrupts ++ [b] ∧ (t.buf b).valid = true ∧
      (t.buf b).dirty = false ∧ ∀ c, c ≠ b → t.buf c = s.buf c := by
  have hstarted := h.started
  cases q with
  | nil => simp [State.step, hstarted] at ht
  | cons b rest =>
    rw [List.take_succ_cons, List.take_zero, List.map_singleton] at hstarted
    simp only [State.step, hstarted, Option.some.injEq] at ht
    have hhead : (s.complete (s.request b) []).idequeue = some b := h.lists.head
    obtain rfl := ideintr_eq hhead ht
    have hlists := h.lists.finish err (s.disk (s.request b).disk (s.request b).sector)
    have hb : b ∉ rest := (List.nodup_cons.1 h.lists.nodup).1
    have hother : ∀ c, c ≠ b → (s.finish b err (s.disk (s.request b).disk (s.request b).sector)).buf c = s.buf c :=
      fun c hc => update_of_ne hc _ _
    refine ⟨b, rest, rfl, ⟨hlists, ?_, ?_, ?_, ?_, ?_, ?_⟩, rfl, ?_, ?_, hother⟩
    · change s.enqueued = s.interrupts ++ [b] ++ rest
      rw [h.history, List.append_assoc]
      rfl
    · have hnext : (s.complete (s.request b) []).qnext b = rest.head? := hlists.head
      have hfirst : rest.head?.toList = rest.take 1 := by
        cases rest with
        | nil => rfl
        | cons c rest => rfl
      rw [hnext, hfirst]
      rfl
    · intro c hc
      rcases h.owner c (List.mem_cons_of_mem _ hc) with ⟨p, k, hw, hk⟩
      refine ⟨p, k, waits_wakeup.2 hw, ?_⟩
      have hne : k ≠ s.interrupts.length := fun hk' => hb (h.call_head hw hk' ▸ hc)
      change (s.interrupts ++ [b]).length ≤ k
      rw [List.length_append, List.length_singleton]
      omega
    · intro p c k hw
      exact h.locked p c k (waits_wakeup.1 hw)
    · intro p c k hw
      exact h.call p c k (waits_wakeup.1 hw)
    · intro p c k hw
      have hw' : s.Waits p c k := waits_wakeup.1 hw
      change (_ : Prop) ↔ k < (s.interrupts ++ [b]).length
      rw [List.length_append, List.length_singleton]
      by_cases hc : c = b
      · -- The buffer is synced, and no later call can be for it.
        have hle : k ≤ s.interrupts.length := by
          by_contra hlt
          exact hb (hc ▸ h.call_rest hw' (Nat.lt_of_not_le hlt))
        subst hc
        simp [State.finish, State.wakeup, Buf.synced, State.complete]
        omega
      · have hne : k ≠ s.interrupts.length := fun hk' => hc (h.call_head hw' hk')
        have hsynced := h.synced p c k hw'
        rw [← hother c hc] at hsynced
        change ((s.finish b err (s.disk (s.request b).disk (s.request b).sector)).buf c).synced = true ↔ _
        rw [hsynced]
        omega
    · simp [State.finish, State.wakeup]
    · simp [State.finish, State.wakeup]

omit [DecidableEq B] [Fintype B] in
theorem Queued.wait {asleep : Bool} (h : Queued s q) (hphase : s.phase p = .waiting b k asleep) :
    Queued (s.wait p b k) q := by
  have hw : s.Waits p b k := ⟨asleep, hphase⟩
  cases hsynced : (s.buf b).synced with
  | false =>
    refine h.undisturbed ⟨rfl, rfl, rfl, rfl, ?_, fun _ _ _ _ => rfl, fun _ _ _ _ => rfl⟩
    intro p' c k'
    by_cases hp : p' = p
    · simp [State.Waits, State.wait, hp, hphase, hsynced]
    · simp [State.Waits, State.wait, hp]
  | true =>
    have hdone : k < s.interrupts.length := (h.synced p b k hw).1 hsynced
    have hwaits : ∀ p' c k', (s.wait p b k).Waits p' c k' → s.Waits p' c k' := by
      intro p' c k' hw'
      by_cases hp : p' = p
      · simp [State.Waits, State.wait, hp, hsynced] at hw'
      · simpa [State.Waits, State.wait, hp] using hw'
    refine ⟨h.lists, h.history, h.started, ?_, fun p' c k' hw' => h.locked p' c k' (hwaits p' c k' hw'),
      fun p' c k' hw' => h.call p' c k' (hwaits p' c k' hw'),
      fun p' c k' hw' => h.synced p' c k' (hwaits p' c k' hw')⟩
    -- The call that returns is not the one that a buffer in the queue belongs to.
    intro c hc
    rcases h.owner c hc with ⟨p', k', ⟨asleep', hphase'⟩, hk'⟩
    have hp : p' ≠ p := by
      rintro rfl
      rw [hphase] at hphase'
      obtain ⟨_, rfl, _⟩ := Phase.waiting.inj hphase'
      omega
    refine ⟨p', k', ⟨asleep', ?_⟩, hk'⟩
    exact (update_of_ne hp _ _).trans hphase'

theorem Queued.step {a : Action B P} (h : Queued s q) (ht : s.step a = some (.ok t)) : ∃ q', Queued t q' := by
  cases a with
  | acquiresleep p b =>
    simp only [State.step] at ht
    split at ht
    · rename_i hidle hfree
      obtain rfl := Except.ok.inj (Option.some.inj ht)
      refine ⟨q, h.undisturbed ⟨rfl, rfl, rfl, rfl, fun _ _ _ => Iff.rfl, ?_, fun _ _ _ _ => rfl⟩⟩
      intro p' c k hw
      refine update_of_ne ?_ _ _
      rintro rfl
      rw [h.locked p' c k hw] at hfree
      cases hfree
    · cases ht
  | releasesleep p b =>
    simp only [State.step] at ht
    split at ht
    · rename_i hidle
      split_ifs at ht with hheld
      obtain rfl := Except.ok.inj (Option.some.inj ht)
      refine ⟨q, h.undisturbed ⟨rfl, rfl, rfl, rfl, fun _ _ _ => Iff.rfl, ?_, fun _ _ _ _ => rfl⟩⟩
      intro p' c k hw
      refine update_of_ne ?_ _ _
      rintro rfl
      obtain rfl : p' = p := by simpa [h.locked p' c k hw] using hheld
      exact not_waits_of_idle hidle hw
    · cases ht
  | change b new =>
    simp only [State.step] at ht
    split at ht
    · cases ht
    rename_i hnot
    obtain rfl := Except.ok.inj (Option.some.inj ht)
    refine ⟨q, h.undisturbed ⟨rfl, rfl, rfl, rfl, fun _ _ _ => Iff.rfl, fun _ _ _ _ => rfl, ?_⟩⟩
    intro p' c k hw
    refine update_of_ne ?_ _ _
    rintro rfl
    rcases hw with ⟨asleep, hphase⟩
    refine hnot c k asleep ?_
    rw [h.locked p' c k ⟨asleep, hphase⟩, Option.map_some, hphase]
  | iderw p b =>
    simp only [State.step] at ht
    split at ht
    · exact ⟨q ++ [b], h.iderw ‹_› (Option.some.inj ht)⟩
    · cases ht
  | resume p =>
    simp only [State.step] at ht
    split at ht
    · rename_i b k hphase
      obtain rfl := Except.ok.inj (Option.some.inj ht)
      exact ⟨q, h.wait hphase⟩
    · cases ht
  | wake p =>
    simp only [State.step] at ht
    split at ht
    · rename_i b k asleep hphase
      obtain rfl := Except.ok.inj (Option.some.inj ht)
      refine ⟨q, h.undisturbed ⟨rfl, rfl, rfl, rfl, ?_, fun _ _ _ _ => rfl, fun _ _ _ _ => rfl⟩⟩
      intro p' c k'
      by_cases hp : p' = p
      · simp [State.Waits, hp, hphase]
      · simp [State.Waits, hp]
    · cases ht
  | interrupt err =>
    rcases h.interrupt ht with ⟨b, rest, _, hrest, _⟩
    exact ⟨rest, hrest⟩

theorem queued_of_reachable (h : (ideSystem B P).Reachable s) : ∃ q, Queued s q := by
  refine System.Reachable.invariant (P := fun s => ∃ q, Queued s q) ?_ ?_ h
  · intro s hs
    have hnone : ∀ p b k, ¬ s.Waits p b k := fun p b k => not_waits_of_idle (hs.idle p)
    refine ⟨[], ?_, ?_, ?_, ?_, ?_, ?_, ?_⟩
    · refine Linked.cons_iff.2 ⟨by simp, ?_⟩
      simp [State.cell, hs.idequeue]
    · rw [hs.enqueued, hs.interrupts]
      rfl
    · exact hs.started
    · simp
    · exact fun p b k hw => absurd hw (hnone p b k)
    · exact fun p b k hw => absurd hw (hnone p b k)
    · exact fun p b k hw => absurd hw (hnone p b k)
  · rintro s a t ⟨q, hq⟩ ht
    exact hq.step ht

/-- The queue `q` of a state is served in order. -/
structure Serves (s : State B P) (q : List B) : Prop where
  /-- `idequeue` lists the buffers that are pending, in the order in which calls of `iderw` enqueued them. -/
  lists : s.Lists q
  nodup : q.Nodup
  pending : s.enqueued = s.interrupts ++ q
  /-- The disk has been given the request for the first one, and no other. -/
  started : s.started = (q.take 1).map s.request
  /-- `ideintr` completes the buffer whose request the disk has completed, and no other. -/
  completes : ∀ err t, s.step (.interrupt err) = some (.ok t) →
    ∃ b rest, q = b :: rest ∧ t.Lists rest ∧ t.interrupts = s.interrupts ++ [b] ∧ (t.buf b).valid = true ∧
      (t.buf b).dirty = false ∧ ∀ c, c ≠ b → t.buf c = s.buf c
  /-- Call `k` returns after interrupt `k`, which was for its buffer. -/
  returns : ∀ p b k asleep t, s.phase p = .waiting b k asleep → s.step (.resume p) = some (.ok t) →
    t.phase p = .idle →
      s.enqueued[k]? = some b ∧ s.interrupts[k]? = some b ∧ (s.buf b).valid = true ∧ (s.buf b).dirty = false

/-- In every reachable state the queue is served in order. -/
theorem queue_of_reachable (h : (ideSystem B P).Reachable s) : ∃ q, Serves s q := by
  rcases queued_of_reachable h with ⟨q, hq⟩
  refine ⟨q, hq.lists, hq.lists.nodup, hq.history, hq.started, ?_, ?_⟩
  · intro err t ht
    rcases hq.interrupt ht with ⟨b, rest, hrest, hqt, hdone⟩
    exact ⟨b, rest, hrest, hqt.lists, hdone⟩
  intro p b k asleep t hphase ht hidle
  have hsynced : (s.buf b).synced = true := by
    cases asleep with
    | true => simp [State.step, hphase] at ht
    | false =>
      simp only [State.step, hphase] at ht
      obtain rfl := Except.ok.inj (Option.some.inj ht)
      by_contra hnot
      simp [State.wait, hnot] at hidle
  have hw : s.Waits p b k := ⟨asleep, hphase⟩
  have hdone := (hq.synced p b k hw).1 hsynced
  have hcall := hq.call p b k hw
  refine ⟨hcall, ?_, by simpa [Buf.synced] using hsynced⟩
  rwa [hq.history, List.getElem?_append_left hdone] at hcall

/-- Two processes read two blocks, and the first request is completed. -/
def twoReads : State (Fin 2) (Fin 2) :=
  System.follow State.act
    { havedisk1 := true
      buf := fun b => { valid := false, dirty := false, dev := 1, blockno := UInt32.ofNat b, data := fun _ => 0 }
      lock := fun _ => none
      idequeue := none
      qnext := fun _ => none
      disk := fun _ _ _ => 0
      started := []
      phase := fun _ => .idle
      enqueued := []
      interrupts := [] }
    [.acquiresleep 0 1, .acquiresleep 1 0, .iderw 0 1, .iderw 1 0, .interrupt false]

theorem queue_twoReads :
    twoReads.enqueued = [1, 0] ∧ twoReads.idequeue = some 0 ∧ (twoReads.buf 1).valid = true ∧
      ∃ q, Serves twoReads q := by
  refine ⟨by decide, by decide, by decide, queue_of_reachable ?_⟩
  refine System.Reachable.follow (fun s a t ht => State.step_of_act ht) ?_ _
  exact System.Reachable.of_init ⟨rfl, rfl, fun _ => rfl, rfl, rfl⟩

end Queue

end Xv6.Ide
