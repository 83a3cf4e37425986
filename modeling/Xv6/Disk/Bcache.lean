import Mathlib.Data.Fintype.Option
import Mathlib.Data.List.FinRange
import Xv6.Common.Linked
import Xv6.Common.Transition
import Xv6.Log.Commit

/-!
# Bcache — the buffer cache

`bio.c` with the disk of `memide.c` below it.  A call of `bread` is two steps, one under `bcache.lock` and one from
`acquiresleep` on, and so is a call of `brelse`; any number of processes take turns and may hold several buffers.

A process that changes a buffer calls `bwrite` or `log_write` before it releases the buffer.  `modified` records
that it has not done so yet, `stored` what each block was when one of the two was called last.
-/

namespace Xv6.Bcache

open Function (update update_of_ne)
open Common

/-! ## The list of buffers -/

/-- A buffer of `bcache.buf`, or `bcache.head`. -/
abbrev Cell := Option (Fin nbuf)

structure Links where
  next : Cell → Cell
  prev : Cell → Cell

namespace Links

/-- The buffer leaves the list. -/
def unlink (k : Links) (b : Cell) : Links :=
  let k := { k with prev := update k.prev (k.next b) (k.prev b) }
  { k with next := update k.next (k.prev b) (k.next b) }

/-- The buffer comes right after `bcache.head`. -/
def pushFront (k : Links) (b : Cell) : Links :=
  let k := { k with next := update k.next b (k.next none) }
  let k := { k with prev := update k.prev b none }
  let k := { k with prev := update k.prev (k.next none) b }
  { k with next := update k.next none b }

def binit : Links :=
  (List.finRange nbuf).foldl (fun k b => k.pushFront (some b))
    { next := fun _ => none
      prev := fun _ => none }

end Links

/-! ## The code -/

structure Buf where
  /-- `B_VALID` -/
  valid : Bool
  /-- `B_DIRTY` -/
  dirty : Bool
  dev : UInt32
  blockno : UInt32
  refcnt : ℕ
  data : Block

inductive Phase
  | idle
  /-- In `bread`, in front of `acquiresleep`. -/
  | locking (dev blockno : UInt32) (b : Fin nbuf)
  /-- In `brelse`, after `releasesleep`. -/
  | dropping (b : Fin nbuf)

structure State (P : Type) where
  links : Links
  buf : Fin nbuf → Buf
  /-- The holders of the buffers' sleep locks. -/
  lock : Fin nbuf → Option P
  disksize : ℕ
  /-- `memdisk` -/
  disk : UInt32 → Block
  phase : P → Phase
  /-- Changed in place since the last `bwrite` or `log_write`. -/
  modified : Fin nbuf → Bool
  /-- `memdisk` at the beginning. -/
  image : UInt32 → Block
  /-- What `bwrite` and `log_write` have been called for, by device and block. -/
  stored : UInt32 → UInt32 → Option Block

inductive Panic
  | noBuffers
  | bwrite
  | brelse
  | notLocked
  | nothingToDo
  | notDisk1
  | outOfRange
  deriving DecidableEq

inductive Action (P : Type)
  /-- `bread(dev, blockno)` as far as `bget` holds `bcache.lock`. -/
  | bget (p : P) (dev blockno : UInt32)
  /-- The rest of `bread`. -/
  | lock (p : P)
  | modify (p : P) (b : Fin nbuf) (data : Block)
  | bwrite (p : P) (b : Fin nbuf)
  | logWrite (p : P) (b : Fin nbuf)
  /-- `brelse(b)` up to `releasesleep`. -/
  | brelse (p : P) (b : Fin nbuf)
  /-- The rest of `brelse`. -/
  | drop (p : P)

namespace State

variable {P : Type} (s : State P)

/-- The contents most recently stored for a block, or else those of the disk. -/
def expected (dev blockno : UInt32) : Block :=
  (s.stored dev blockno).getD (s.image blockno)

def setBuf (b : Fin nbuf) (v : Buf) : State P :=
  { s with buf := update s.buf b v }

def isBlock (dev blockno : UInt32) : Cell → Bool
  | none => false
  | some b => (s.buf b).dev == dev && (s.buf b).blockno == blockno

def unused : Cell → Bool
  | none => false
  | some b => (s.buf b).refcnt == 0 && !(s.buf b).dirty

/-- The first loop of `bget`. -/
def cached (dev blockno : UInt32) : Cell :=
  seek s.links.next (fun c => c = none || s.isBlock dev blockno c) nbuf (s.links.next none)

/-- The second loop of `bget`. -/
def victim : Cell :=
  seek s.links.prev (fun c => c = none || s.unused c) nbuf (s.links.prev none)

variable [DecidableEq P]

def setPhase (p : P) (phase : Phase) : State P :=
  { s with phase := update s.phase p phase }

def bget (p : P) (dev blockno : UInt32) : Except Panic (State P) :=
  match s.cached dev blockno with
  | some b =>
    let old := s.buf b
    .ok ((s.setBuf b { old with refcnt := old.refcnt + 1 }).setPhase p (.locking dev blockno b))
  | none =>
    match s.victim with
    | some b =>
      let new :=
        { s.buf b with
          dev := dev
          blockno := blockno
          valid := false
          dirty := false
          refcnt := 1 }
      .ok ((s.setBuf b new).setPhase p (.locking dev blockno b))
    | none => .error .noBuffers

/-- The end of `bget`. -/
def acquiresleep (p : P) (b : Fin nbuf) : State P :=
  { s.setPhase p .idle with lock := update s.lock b (some p) }

/-- `iderw` of `memide.c`. -/
def iderw (p : P) (b : Fin nbuf) : Except Panic (State P) :=
  let old := s.buf b
  if s.lock b ≠ some p then .error .notLocked
  else if old.valid && !old.dirty then .error .nothingToDo
  else if old.dev ≠ 1 then .error .notDisk1
  else if old.blockno.toNat ≥ s.disksize then .error .outOfRange
  else if old.dirty then
    .ok { s.setBuf b { old with dirty := false, valid := true } with
          disk := update s.disk old.blockno old.data }
  else .ok (s.setBuf b { old with data := s.disk old.blockno, valid := true })

def store (b : Fin nbuf) : State P :=
  let dev := (s.buf b).dev
  { s with
    modified := update s.modified b false
    stored := update s.stored dev (update (s.stored dev) (s.buf b).blockno (some (s.buf b).data)) }

def drop (p : P) (b : Fin nbuf) : State P :=
  let s := (s.setBuf b { s.buf b with refcnt := (s.buf b).refcnt - 1 }).setPhase p .idle
  -- No one is waiting for it.
  if (s.buf b).refcnt = 0 then { s with links := (s.links.unlink (some b)).pushFront (some b) } else s

/-- `none` if the action is not possible. -/
def step : Action P → Option (Except Panic (State P))
  | .bget p dev blockno =>
    match s.phase p with
    | .idle => if dev ≠ 0 then some (s.bget p dev blockno) else none
    | _ => none
  | .lock p =>
    match s.phase p with
    | .locking _ _ b =>
      if s.lock b = none then
        some (if (s.buf b).valid then .ok (s.acquiresleep p b) else (s.acquiresleep p b).iderw p b)
      else none
    | _ => none
  | .modify p b data =>
    if s.lock b = some p then
      some (.ok { s.setBuf b { s.buf b with data := data } with modified := update s.modified b true })
    else none
  | .bwrite p b =>
    if s.lock b ≠ some p then some (.error .bwrite)
    else some ((s.setBuf b { s.buf b with dirty := true }).store b |>.iderw p b)
  | .logWrite p b =>
    if s.lock b = some p then some (.ok ((s.setBuf b { s.buf b with dirty := true }).store b)) else none
  | .brelse p b =>
    match s.phase p with
    | .idle =>
      if s.lock b ≠ some p then some (.error .brelse)
      else if s.modified b then none
      else some (.ok { s.setPhase p (.dropping b) with lock := update s.lock b none })
    | _ => none
  | .drop p =>
    match s.phase p with
    | .dropping b => some (.ok (s.drop p b))
    | _ => none

omit [DecidableEq P] in
structure Fresh (s : State P) : Prop where
  links : s.links = Links.binit
  buf : ∀ b, (s.buf b).valid = false ∧ (s.buf b).dirty = false ∧ (s.buf b).dev = 0 ∧ (s.buf b).refcnt = 0
  lock : ∀ b, s.lock b = none
  phase : ∀ p, s.phase p = .idle
  modified : ∀ b, s.modified b = false
  disk : s.image = s.disk
  stored : ∀ dev blockno, s.stored dev blockno = none

end State

/-! ## `commit` -/

namespace State

variable {P : Type} [DecidableEq P] (s : State P)

/-- The action, if it is possible and does not panic. -/
def act (a : Action P) : Option (State P) :=
  match s.step a with
  | some (.ok t) => some t
  | _ => none

/-- A whole call of `bread`, if the buffer is not locked. -/
def bread (p : P) (dev blockno : UInt32) : Option (State P × Fin nbuf) := do
  let s ← s.act (.bget p dev blockno)
  match s.phase p with
  | .locking _ _ b => do
      let s ← s.act (.lock p)
      return (s, b)
  | _ => none

def release (p : P) (b : Fin nbuf) : Option (State P) := do
  let s ← s.act (.brelse p b)
  s.act (.drop p)

/-- `memmove` from one buffer to the other, `bwrite`, and both are released. -/
def copy (p : P) (src dst : Fin nbuf) : Option (State P) := do
  let s ← s.act (.modify p dst (s.buf src).data)
  let s ← s.act (.bwrite p dst)
  let s ← s.release p src
  s.release p dst

def writeLog (p : P) (dev start : UInt32) : State P → UInt32 → List ℕ → Option (State P)
  | s, _, [] => some s
  | s, tail, b :: bs => do
      let (s, dst) ← s.bread p dev (start + tail + 1)
      let (s, src) ← s.bread p dev (UInt32.ofNat b)
      let s ← s.copy p src dst
      writeLog p dev start s (tail + 1) bs

def installTrans (p : P) (dev start : UInt32) : State P → UInt32 → List ℕ → Option (State P)
  | s, _, [] => some s
  | s, tail, b :: bs => do
      let (s, lbuf) ← s.bread p dev (start + tail + 1)
      let (s, dbuf) ← s.bread p dev (UInt32.ofNat b)
      let s ← s.copy p lbuf dbuf
      installTrans p dev start s (tail + 1) bs

def writeHead (p : P) (dev start : UInt32) (lh : Log.LogHeader) : Option (State P) := do
  let (s, b) ← s.bread p dev start
  let s ← s.act (.modify p b (Log.encodeHead lh (s.buf b).data))
  let s ← s.act (.bwrite p b)
  s.release p b

def commit (p : P) (dev start : UInt32) (lh : Log.LogHeader) : Option (State P) :=
  if 0 < lh.n then do
    let s ← writeLog p dev start s 0 lh.block
    let s ← s.writeHead p dev start lh
    let s ← installTrans p dev start s 0 lh.block
    s.writeHead p dev start Log.LogHeader.empty
  else some s

end State

def bcacheSystem (P : Type) [DecidableEq P] : System (State P) (Action P) :=
  { init := State.Fresh
    tr := fun s a t => s.step a = some (.ok t) }

/-! ## The list is a cycle -/

namespace Links

variable {k : Links} {l : List Cell} {b : Cell}

/-- The list leads through `bcache.head` and each of the buffers exactly once, in both directions. -/
def Complete (k : Links) : Prop :=
  ∃ l : List Cell, (∀ c, c ∈ l) ∧ Doubly k.next k.prev l

theorem doubly_pushFront (h : Doubly k.next k.prev (none :: l)) (hb : b ∉ none :: l) :
    Doubly (k.pushFront b).next (k.pushFront b).prev (none :: b :: l) := by
  have hne : none ≠ b := fun heq => hb (heq ▸ List.mem_cons_self)
  have hinsert := h.insert hb
  simpa only [pushFront, update_of_ne hne] using hinsert

theorem doubly_unlink (h : Doubly k.next k.prev (b :: l)) (hl : l ≠ []) :
    Doubly (k.unlink b).next (k.unlink b).prev l := by
  -- `b->prev` is not the pointer that has just been changed.
  have hne : b ≠ k.next b := by
    intro heq
    cases l with
    | nil => exact hl rfl
    | cons a l =>
      have hnodup := (List.nodup_cons.1 h.1.nodup).1
      rw [h.1.next_front] at heq
      exact hnodup (heq ▸ List.mem_cons_self)
  have hremove := h.remove hl
  simpa only [unlink, update_of_ne hne] using hremove

theorem doubly_foldl (bs : List (Fin nbuf)) (h : Doubly k.next k.prev (none :: l))
    (hnodup : bs.Nodup) (hnew : ∀ b ∈ bs, some b ∉ l) :
    Doubly (bs.foldl (fun k b => k.pushFront (some b)) k).next
      (bs.foldl (fun k b => k.pushFront (some b)) k).prev (none :: (bs.reverse.map some ++ l)) := by
  induction bs generalizing k l with
  | nil => exact h
  | cons b bs ih =>
    rcases List.nodup_cons.1 hnodup with ⟨hb, hbs⟩
    have hfront : Doubly (k.pushFront (some b)).next (k.pushFront (some b)).prev (none :: some b :: l) :=
      doubly_pushFront h (by simpa using hnew b List.mem_cons_self)
    have hrest := ih hfront hbs ?_
    · simpa using hrest
    intro c hc hmem
    rcases List.mem_cons.1 hmem with heq | hmem
    · obtain rfl := Option.some.inj heq
      exact hb hc
    · exact hnew c (List.mem_cons_of_mem _ hc) hmem

theorem complete_binit : binit.Complete := by
  have hempty : Doubly (fun _ : Cell => (none : Cell)) (fun _ => none) [none] :=
    ⟨Linked.cons_iff.2 ⟨by simp, rfl⟩, Linked.cons_iff.2 ⟨by simp, rfl⟩⟩
  have hall := doubly_foldl (k := { next := fun _ => none, prev := fun _ => none }) (List.finRange nbuf) hempty
    (List.nodup_finRange nbuf) (by simp)
  refine ⟨_, fun c => ?_, hall⟩
  cases c with
  | none => simp
  | some b => simp

theorem Complete.touch (h : k.Complete) (b : Fin nbuf) : ((k.unlink (some b)).pushFront (some b)).Complete := by
  rcases h with ⟨l, hall, hl⟩
  rcases hl.exists_front (hall (some b)) with ⟨m, hr, hm⟩
  have hmem : ∀ c, c ≠ some b → c ∈ m := by
    intro c hc
    have hc' := hr.mem_iff.1 (hall c)
    rcases List.mem_cons.1 hc' with heq | hc'
    · exact absurd heq hc
    · exact hc'
  have hhead : none ∈ m := hmem none nofun
  have hout := doubly_unlink hm (List.ne_nil_of_mem hhead)
  rcases hout.exists_front hhead with ⟨m', hr', hm'⟩
  have hnew : some b ∉ none :: m' := by
    rw [← hr'.mem_iff]
    exact (List.nodup_cons.1 hm.1.nodup).1
  refine ⟨_, fun c => ?_, doubly_pushFront hm' hnew⟩
  by_cases hc : c = some b
  · simp [hc]
  · have hc' := hr'.mem_iff.1 (hmem c hc)
    rw [List.mem_cons] at hc'
    rw [List.mem_cons, List.mem_cons]
    exact hc'.imp id .inr

/-- A loop over the buffers in one of the two directions. -/
theorem seek_spec {next : Cell → Cell} (hall : ∀ c, c ∈ l) (h : Linked next l) (stop : Cell → Bool) :
    (∀ b, seek next (fun c => c = none || stop c) nbuf (next none) = some b → stop (some b) = true) ∧
      (seek next (fun c => c = none || stop c) nbuf (next none) = none → ∀ b, stop (some b) = false) := by
  rcases h.exists_front (hall none) with ⟨m, hr, hm⟩
  have hlen : m.length ≤ nbuf := by
    have hcard := hm.nodup.length_le_card
    rw [List.length_cons, Fintype.card_option, Fintype.card_fin] at hcard
    omega
  have hnone : none ∉ m := (List.nodup_cons.1 hm.nodup).1
  rcases hm.seek_around stop hlen with ⟨hstop, hmem⟩ | ⟨hseek, hno⟩
  · refine ⟨fun b hb => hb ▸ hstop, fun hb => ?_⟩
    rw [hb] at hmem
    exact absurd hmem hnone
  refine ⟨fun b hb => ?_, fun _ b => hno _ ?_⟩
  · rw [hseek] at hb
    cases hb
  · have hb := hr.mem_iff.1 (hall (some b))
    simpa using hb

end Links

end Xv6.Bcache
