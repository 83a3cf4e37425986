import Xv6.Common.Ring
import Xv6.Common.Transition

/-!
# Pipe — `pipewrite` and `piperead`

Any number of processes write to one pipe and read from it.  `p->lock` is held from one `sleep` to the
next, so that a step is what one process does in between.  The state records which bytes have been stored
and delivered so far; `fifo_of_reachable` says that the pipe is a bounded queue of bytes.
-/

namespace Xv6.Pipes

open Common

/-! ## The code -/

def pipesize : ℕ := 512

structure Pipe where
  data : ℕ → UInt8
  /-- Number of bytes read. -/
  nread : UInt32
  /-- Number of bytes written. -/
  nwrite : UInt32
  /-- Read fd is still open. -/
  readopen : Bool
  /-- Write fd is still open. -/
  writeopen : Bool

namespace Pipe

def full (p : Pipe) : Bool :=
  p.nwrite == p.nread + UInt32.ofNat pipesize

def empty (p : Pipe) : Bool :=
  p.nread == p.nwrite

def put (p : Pipe) (a : UInt8) : Pipe :=
  { p with
    data := Function.update p.data (p.nwrite.toNat % pipesize) a
    nwrite := p.nwrite + 1 }

def buffered (p : Pipe) : List UInt8 :=
  contents pipesize p.data p.nread p.nwrite

end Pipe

/-- How a stretch without `sleep` ends. -/
inductive Outcome
  | returns
  | fails
  | sleeps

/-- `pipewrite` from the `while` on, with the bytes that are still to be stored: how it ends, what is still to
be stored then, and the pipe. -/
def pipewrite (killed : Bool) : List UInt8 → Pipe → Outcome × List UInt8 × Pipe
  | [], p => (.returns, [], p)
  | a :: rest, p =>
    if p.full then
      if !p.readopen || killed then (.fails, a :: rest, p) else (.sleeps, a :: rest, p)
    else pipewrite killed rest (p.put a)

/-- The loop of `piperead` that copies at most `n` bytes. -/
def pipecopy : ℕ → Pipe → List UInt8 × Pipe
  | 0, p => ([], p)
  | n + 1, p =>
    if p.empty then ([], p)
    else
      let (rest, p') := pipecopy n { p with nread := p.nread + 1 }
      (p.data (p.nread.toNat % pipesize) :: rest, p')

/-- `piperead` from the `while` on. -/
def piperead (killed : Bool) (n : ℕ) (p : Pipe) : Outcome × List UInt8 × Pipe :=
  if p.empty && p.writeopen then
    if killed then (.fails, [], p) else (.sleeps, [], p)
  else
    let (bytes, p) := pipecopy n p
    (.returns, bytes, p)

/-! ## Processes -/

inductive Phase
  | idle
  /-- In `pipewrite`, asleep or already woken up, with `rest` of `bytes` still to store. -/
  | writing (id : ℕ) (bytes rest : List UInt8) (asleep : Bool)
  | reading (n : ℕ) (asleep : Bool)

/-- What a call returns. -/
inductive Answer
  | wrote (id : ℕ) (bytes : List UInt8)
  | got (n : ℕ) (bytes : List UInt8)
  | error

structure State (P : Type) where
  pipe : Pipe
  phase : P → Phase
  killed : P → Bool
  /-- The number of calls of `pipewrite` so far. -/
  calls : ℕ
  /-- All bytes that have been stored, with the number of the call. -/
  stored : List (ℕ × UInt8)
  /-- All bytes that calls of `piperead` have returned. -/
  delivered : List UInt8

inductive Action (P : Type)
  | write (p : P) (bytes : List UInt8)
  | read (p : P) (n : ℕ)
  /-- A process that has been woken up goes on. -/
  | resume (p : P)
  | kill (p : P)
  /-- `pipeclose` -/
  | close (writable : Bool)

namespace State

variable {P : Type} [DecidableEq P]

omit [DecidableEq P] in
def wakeupReaders (s : State P) : State P :=
  { s with
    phase := fun p =>
      match s.phase p with
      | .reading n _ => .reading n false
      | phase => phase }

omit [DecidableEq P] in
def wakeupWriters (s : State P) : State P :=
  { s with
    phase := fun p =>
      match s.phase p with
      | .writing id bytes rest _ => .writing id bytes rest false
      | phase => phase }

def setPhase (s : State P) (p : P) (phase : Phase) : State P :=
  { s with phase := Function.update s.phase p phase }

def write (s : State P) (p : P) (id : ℕ) (bytes rest : List UInt8) : State P × Option Answer :=
  let (o, rest', pipe) := pipewrite (s.killed p) rest s.pipe
  let s :=
    { s with
      pipe := pipe
      stored := s.stored ++ (rest.take (rest.length - rest'.length)).map fun a => (id, a) }
  match o with
  | .returns => (s.wakeupReaders.setPhase p .idle, some (.wrote id bytes))
  | .fails => (s.setPhase p .idle, some .error)
  | .sleeps => (s.wakeupReaders.setPhase p (.writing id bytes rest' true), none)

def read (s : State P) (p : P) (n : ℕ) : State P × Option Answer :=
  let (o, bytes, pipe) := piperead (s.killed p) n s.pipe
  match o with
  | .returns =>
    let s :=
      { s with
        pipe := pipe
        delivered := s.delivered ++ bytes }
    (s.wakeupWriters.setPhase p .idle, some (.got n bytes))
  | .fails => (s.setPhase p .idle, some .error)
  | .sleeps => (s.setPhase p (.reading n true), none)

/-- The state after the action, and what the call that it belongs to returns. -/
def step (s : State P) : Action P → Option (State P × Option Answer)
  | .write p bytes =>
    match s.phase p with
    | .idle => some ({ s with calls := s.calls + 1 }.write p s.calls bytes bytes)
    | _ => none
  | .read p n =>
    match s.phase p with
    | .idle => some (s.read p n)
    | _ => none
  | .resume p =>
    match s.phase p with
    | .writing id bytes rest false => some (s.write p id bytes rest)
    | .reading n false => some (s.read p n)
    | _ => none
  | .kill p =>
    -- A sleeping process is made runnable.
    let phase :=
      match s.phase p with
      | .writing id bytes rest _ => .writing id bytes rest false
      | .reading n _ => .reading n false
      | phase => phase
    some ({ s with killed := Function.update s.killed p true }.setPhase p phase, none)
  | .close true => some ({ s with pipe := { s.pipe with writeopen := false } }.wakeupReaders, none)
  | .close false => some ({ s with pipe := { s.pipe with readopen := false } }.wakeupWriters, none)

structure Fresh (s : State P) : Prop where
  nread : s.pipe.nread = 0
  nwrite : s.pipe.nwrite = 0
  idle : ∀ p, s.phase p = .idle
  calls : s.calls = 0
  stored : s.stored = []
  delivered : s.delivered = []

end State

def pipeSystem (P : Type) [DecidableEq P] : System (State P) (Action P) :=
  { init := State.Fresh
    tr := fun s a t => ∃ answer, s.step a = some (t, answer) }

/-! ## One stretch -/

section Stretch

variable {p p' : Pipe} {o : Outcome} {l rest : List UInt8} {killed : Bool} {n : ℕ}

/-- The two counters are no more than a buffer apart. -/
def Pipe.Bounded (p : Pipe) : Prop :=
  between p.nread p.nwrite ≤ pipesize

theorem pipesize_dvd : pipesize ∣ 2 ^ 32 :=
  ⟨2 ^ 23, rfl⟩

theorem Pipe.full_iff : p.full = true ↔ between p.nread p.nwrite = pipesize := by
  have hsize : (UInt32.ofNat pipesize).toNat = pipesize := rfl
  simp [Pipe.full, between_eq_iff, hsize]

theorem Pipe.empty_iff : p.empty = true ↔ p.nread = p.nwrite := by
  simp [Pipe.empty]

theorem Pipe.buffered_put (hb : p.Bounded) (hfull : p.full = false) (a : UInt8) :
    (p.put a).buffered = p.buffered ++ [a] ∧ (p.put a).Bounded := by
  have hlt : between p.nread p.nwrite < pipesize := by
    refine Nat.lt_of_le_of_ne hb fun heq => ?_
    rw [Pipe.full_iff.2 heq] at hfull
    cases hfull
  refine ⟨contents_push pipesize_dvd hlt (by decide), ?_⟩
  have hnext : between p.nread (p.nwrite + 1) = between p.nread p.nwrite + 1 := by
    refine between_succ_right ?_
    unfold pipesize at hlt
    omega
  rw [← Nat.succ_le_iff] at hlt
  exact Nat.le_trans (Nat.le_of_eq hnext) hlt

/-- What a stretch of `pipewrite` stores goes to the end of the buffer. -/
theorem pipewrite_spec (hb : p.Bounded) (h : pipewrite killed l p = (o, rest, p')) :
    ∃ new, l = new ++ rest ∧ p'.buffered = p.buffered ++ new ∧ p'.Bounded ∧ (o = .returns → rest = []) := by
  induction l generalizing p with
  | nil =>
    obtain ⟨rfl, rfl, rfl⟩ : _ = o ∧ [] = rest ∧ p = p' := by simpa [pipewrite] using h
    exact ⟨[], rfl, by simp, hb, fun _ => rfl⟩
  | cons a l ih =>
    cases hfull : p.full with
    | true =>
      -- Nothing more is stored in this stretch.
      have hsame : rest = a :: l ∧ p' = p ∧ o ≠ .returns := by
        simp only [pipewrite, hfull, if_true] at h
        split_ifs at h
        · obtain ⟨rfl, rfl, rfl⟩ : _ = o ∧ _ = rest ∧ p = p' := by simpa using h
          exact ⟨rfl, rfl, nofun⟩
        · obtain ⟨rfl, rfl, rfl⟩ : _ = o ∧ _ = rest ∧ p = p' := by simpa using h
          exact ⟨rfl, rfl, nofun⟩
      rcases hsame with ⟨rfl, rfl, hne⟩
      exact ⟨[], rfl, by simp, hb, fun ho => absurd ho hne⟩
    | false =>
      simp only [pipewrite, hfull] at h
      rcases Pipe.buffered_put hb hfull a with ⟨hput, hb'⟩
      rcases ih hb' h with ⟨new, hl, hbuf, hb'', hdone⟩
      refine ⟨a :: new, by rw [hl]; rfl, ?_, hb'', hdone⟩
      rw [hbuf, hput, List.append_assoc]
      rfl

theorem pipecopy_spec (hb : p.Bounded) (h : pipecopy n p = (l, p')) :
    p.buffered = l ++ p'.buffered ∧ p'.Bounded ∧ (l = [] → n = 0 ∨ p.nread = p.nwrite) := by
  induction n generalizing p l with
  | zero =>
    obtain ⟨rfl, rfl⟩ : [] = l ∧ p = p' := by simpa [pipecopy] using h
    exact ⟨rfl, hb, fun _ => .inl rfl⟩
  | succ n ih =>
    by_cases hempty : p.nread = p.nwrite
    · have he : p.empty = true := Pipe.empty_iff.2 hempty
      obtain ⟨rfl, rfl⟩ : [] = l ∧ p = p' := by simpa [pipecopy, he] using h
      exact ⟨rfl, hb, fun _ => .inr hempty⟩
    have he : p.empty = false := by simpa [Pipe.empty] using hempty
    rcases hrest : pipecopy n { p with nread := p.nread + 1 } with ⟨rest, p1⟩
    simp only [pipecopy, he, hrest] at h
    obtain ⟨rfl, rfl⟩ : _ = l ∧ p1 = p' := by simpa using h
    have hless := between_succ_left hempty
    have hb' : Pipe.Bounded { p with nread := p.nread + 1 } := by
      unfold Pipe.Bounded at hb ⊢
      simp only
      omega
    rcases ih hb' hrest with ⟨hbuf, hb'', _⟩
    refine ⟨?_, hb'', nofun⟩
    have hpop : p.buffered = p.data (p.nread.toNat % pipesize) ::
        Pipe.buffered { p with nread := p.nread + 1 } := contents_pop pipesize_dvd hempty
    rw [hpop, hbuf]
    rfl

end Stretch

/-! ## All interleavings -/

section Interleaving

variable {P : Type} [DecidableEq P] {s t : State P} {p q : P} {id n : ℕ} {bytes rest : List UInt8} {b : Bool}
  {answer : Option Answer} {a : Action P}

omit [DecidableEq P] in
/-- The bytes that a call of `pipewrite` has stored. -/
def State.storedBy (s : State P) (id : ℕ) : List UInt8 :=
  (s.stored.filter fun e => e.1 = id).map Prod.snd

/-- The pipe is a bounded queue: the bytes delivered, then those in the buffer, are the bytes stored. -/
structure Fifo (s : State P) : Prop where
  bounded : s.pipe.Bounded
  queue : s.delivered ++ s.pipe.buffered = s.stored.map Prod.snd

/-- Every call of `pipewrite` that is not finished has stored what it does not have to store any more. -/
structure Writers (s : State P) : Prop where
  old : ∀ e ∈ s.stored, e.1 < s.calls
  lt : ∀ p id bytes rest b, s.phase p = .writing id bytes rest b → id < s.calls
  unique : ∀ p q id bytes rest b bytes' rest' b', s.phase p = .writing id bytes rest b →
    s.phase q = .writing id bytes' rest' b' → p = q
  stored : ∀ p id bytes rest b, s.phase p = .writing id bytes rest b → s.storedBy id ++ rest = bytes

structure SamePhases (s t : State P) : Prop where
  writing : ∀ q id bytes rest b, t.phase q = .writing id bytes rest b → ∃ b', s.phase q = .writing id bytes rest b'

omit [DecidableEq P] in
theorem samePhases_wakeupReaders (s : State P) : SamePhases s s.wakeupReaders := by
  refine ⟨fun q id bytes rest b h => ⟨b, ?_⟩⟩
  simp only [State.wakeupReaders] at h
  split at h
  next => cases h
  next => exact h

attribute [local simp] State.setPhase

/-- It does not matter whether readers are woken up before or after the phase of a process is set. -/
theorem samePhases_wakeupReaders_setPhase (s : State P) (p : P) (phase : Phase) :
    SamePhases (s.setPhase p phase) (s.wakeupReaders.setPhase p phase) := by
  refine ⟨fun q id bytes rest b h => ?_⟩
  by_cases hq : q = p
  · exact ⟨b, by simpa [hq] using h⟩
  · have hq' : s.wakeupReaders.phase q = .writing id bytes rest b := by simpa [hq] using h
    rcases (samePhases_wakeupReaders s).writing q _ _ _ _ hq' with ⟨b', hb'⟩
    exact ⟨b', by simpa [hq] using hb'⟩

omit [DecidableEq P] in
theorem samePhases_wakeupWriters (s : State P) : SamePhases s s.wakeupWriters := by
  refine ⟨fun q id bytes rest b h => ?_⟩
  simp only [State.wakeupWriters] at h
  split at h
  next id' bytes' rest' b' hq =>
      obtain ⟨rfl, rfl, rfl, _⟩ : id' = id ∧ bytes' = bytes ∧ rest' = rest ∧ _ := by simpa using h
      exact ⟨b', hq⟩
  next => exact ⟨b, h⟩

omit [DecidableEq P] in
theorem Writers.of_same (h : Writers s) (hp : SamePhases s t) (hs : t.stored = s.stored)
    (hc : t.calls = s.calls) : Writers t := by
  refine ⟨?_, fun p id bytes rest b hw => ?_, fun p q id bytes rest b bytes' rest' b' hw hw' => ?_,
    fun p id bytes rest b hw => ?_⟩
  · rw [hs, hc]
    exact h.old
  · rcases hp.writing p _ _ _ _ hw with ⟨b', hw'⟩
    rw [hc]
    exact h.lt _ _ _ _ _ hw'
  · rcases hp.writing p _ _ _ _ hw with ⟨c, hold⟩
    rcases hp.writing q _ _ _ _ hw' with ⟨c', hold'⟩
    exact h.unique _ _ _ _ _ _ _ _ _ hold hold'
  · rcases hp.writing p _ _ _ _ hw with ⟨b', hw'⟩
    have hstored := h.stored _ _ _ _ _ hw'
    rwa [State.storedBy, hs]

theorem samePhases_idle (s : State P) (p : P) : SamePhases s (s.setPhase p .idle) := by
  refine ⟨fun q id bytes rest b h => ⟨b, ?_⟩⟩
  by_cases hq : q = p
  · simp [hq] at h
  · simpa [hq] using h

omit [DecidableEq P] in
theorem SamePhases.trans {u : State P} (h1 : SamePhases s t) (h2 : SamePhases t u) : SamePhases s u := by
  refine ⟨fun q id bytes rest b h => ?_⟩
  rcases h2.writing q _ _ _ _ h with ⟨b', h'⟩
  exact h1.writing q _ _ _ _ h'

/-! ### Writing -/

omit [DecidableEq P] in
theorem storedBy_append (s : State P) (pipe : Pipe) (new : List UInt8) (id id' : ℕ) : State.storedBy
        { s with
          pipe := pipe
          stored := s.stored ++ new.map fun a => (id, a) } id' =
      if id' = id then s.storedBy id ++ new else s.storedBy id' := by
  simp only [State.storedBy, List.filter_append, List.map_append]
  split_ifs with h
  · subst h
    simp [List.filter_map, Function.comp_def]
  · have hne : ∀ a ∈ new, ¬ decide (id = id') = true := fun _ _ => by simpa using Ne.symm h
    simp [List.filter_map, Function.comp_def, Ne.symm h]

theorem Writers.write (h : Writers s) (hid : id < s.calls) (pipe : Pipe) (new : List UInt8)
    (hstored : s.storedBy id ++ (new ++ rest) = bytes)
    (hown : ∀ q bytes' rest' b', s.phase q = .writing id bytes' rest' b' → q = p) (phase : Phase)
    (hphase : phase = .idle ∨ phase = .writing id bytes rest true) :
    Writers (State.setPhase
      { s with
        pipe := pipe
        stored := s.stored ++ new.map fun a => (id, a) } p phase) := by
  have hcases : ∀ q id' bytes' rest' b', Function.update s.phase p phase q = .writing id' bytes' rest' b' →
      (q = p ∧ id' = id ∧ bytes' = bytes ∧ rest' = rest) ∨
        (q ≠ p ∧ id' ≠ id ∧ s.phase q = .writing id' bytes' rest' b') := by
    intro q id' bytes' rest' b' hq
    by_cases hqp : q = p
    · subst hqp
      rw [Function.update_self] at hq
      rcases hphase with rfl | rfl
      · cases hq
      · obtain ⟨rfl, rfl, rfl, _⟩ : id = id' ∧ bytes = bytes' ∧ rest = rest' ∧ _ := by simpa using hq
        exact .inl ⟨rfl, rfl, rfl, rfl⟩
    · rw [Function.update_of_ne hqp] at hq
      refine .inr ⟨hqp, fun heq => ?_, hq⟩
      subst heq
      exact hqp (hown q _ _ _ hq)
  refine ⟨fun e he => ?_, fun q id' bytes' rest' b' hq => ?_,
    fun q q' id' bytes1 rest1 b1 bytes2 rest2 b2 hq hq' => ?_, fun q id' bytes' rest' b' hq => ?_⟩
  · rcases List.mem_append.1 he with hold | hnew
    · exact h.old e hold
    · rcases List.mem_map.1 hnew with ⟨a, _, rfl⟩
      exact hid
  · rcases hcases q _ _ _ _ hq with ⟨rfl, rfl, _⟩ | ⟨_, _, hold⟩
    · exact hid
    · exact h.lt _ _ _ _ _ hold
  · rcases hcases q _ _ _ _ hq with ⟨rfl, rfl, _⟩ | ⟨_, hne, hold⟩
    · rcases hcases q' _ _ _ _ hq' with ⟨rfl, _⟩ | ⟨_, hne', _⟩
      · rfl
      · exact absurd rfl hne'
    · rcases hcases q' _ _ _ _ hq' with ⟨_, rfl, _⟩ | ⟨_, _, hold'⟩
      · exact absurd rfl hne
      · exact h.unique _ _ _ _ _ _ _ _ _ hold hold'
  · have hby := storedBy_append s pipe new id id'
    rcases hcases q _ _ _ _ hq with ⟨rfl, rfl, rfl, rfl⟩ | ⟨_, hne, hold⟩
    · rw [if_pos rfl] at hby
      rw [← hstored, ← List.append_assoc, ← hby]
      rfl
    · rw [if_neg hne] at hby
      rw [← h.stored _ _ _ _ _ hold, ← hby]
      rfl

theorem write_spec (hf : Fifo s) (hw : Writers s) (hid : id < s.calls) (hrest : s.storedBy id ++ rest = bytes)
    (hown : ∀ q bytes' rest' b', s.phase q = .writing id bytes' rest' b' → q = p)
    (h : s.write p id bytes rest = (t, answer)) :
    Fifo t ∧ Writers t ∧ (∀ id' bytes', answer = some (.wrote id' bytes') → t.storedBy id' = bytes') ∧
      ∀ n l, answer ≠ some (.got n l) := by
  rcases hrun : pipewrite (s.killed p) rest s.pipe with ⟨o, rest', pipe⟩
  rcases pipewrite_spec hf.bounded hrun with ⟨new, hsplit, hbuf, hbounded, hdone⟩
  have hnew : rest.take (rest.length - rest'.length) = new := by
    rw [hsplit]
    simp
  have hfifo : ∀ u : State P, u.pipe = pipe → u.delivered = s.delivered →
      u.stored = s.stored ++ new.map (fun a => (id, a)) → Fifo u := by
    intro u hpipe hdel hst
    refine ⟨hpipe ▸ hbounded, ?_⟩
    rw [hpipe, hdel, hst, hbuf, ← List.append_assoc, hf.queue]
    simp [Function.comp_def]
  have hstored : s.storedBy id ++ (new ++ rest') = bytes := by rw [← hsplit, hrest]
  simp only [State.write, hrun, hnew] at h
  cases o with
  | returns =>
    obtain ⟨rfl, rfl⟩ : _ = t ∧ some (Answer.wrote id bytes) = answer := by simpa using h
    refine ⟨hfifo _ rfl rfl rfl, ?_, fun id' bytes' heq => ?_, nofun⟩
    · exact (hw.write hid pipe new hstored hown .idle (.inl rfl)).of_same
        (samePhases_wakeupReaders_setPhase _ p _) rfl rfl
    obtain ⟨rfl, rfl⟩ : id = id' ∧ bytes = bytes' := by simpa using heq
    have hby := storedBy_append s pipe new id id
    rw [if_pos rfl] at hby
    rw [hdone rfl, List.append_nil] at hstored
    rw [← hstored, ← hby]
    rfl
  | fails =>
    obtain ⟨rfl, rfl⟩ : _ = t ∧ some Answer.error = answer := by simpa using h
    exact ⟨hfifo _ rfl rfl rfl, hw.write hid pipe new hstored hown .idle (.inl rfl), nofun, nofun⟩
  | sleeps =>
    obtain ⟨rfl, rfl⟩ : _ = t ∧ none = answer := by simpa using h
    refine ⟨hfifo _ rfl rfl rfl, ?_, nofun, nofun⟩
    exact (hw.write hid pipe new hstored hown _ (.inr rfl)).of_same
      (samePhases_wakeupReaders_setPhase _ p _) rfl rfl

/-! ### Reading -/

theorem samePhases_reading (s : State P) (p : P) (n : ℕ) (b : Bool) : SamePhases s (s.setPhase p (.reading n b)) := by
  refine ⟨fun q id bytes rest b h => ⟨b, ?_⟩⟩
  by_cases hq : q = p
  · simp [hq] at h
  · simpa [hq] using h

theorem read_spec (hf : Fifo s) (hw : Writers s) (h : s.read p n = (t, answer)) :
    Fifo t ∧ Writers t ∧ (∀ id bytes, answer ≠ some (.wrote id bytes)) ∧
      ∀ m l, answer = some (.got m l) → m = n ∧ (l = [] → 0 < n →
        s.pipe.nread = s.pipe.nwrite ∧ s.pipe.writeopen = false) := by
  unfold State.read at h
  unfold piperead at h
  by_cases hwait : (s.pipe.empty && s.pipe.writeopen) = true
  · simp only [hwait, if_true] at h
    cases hk : s.killed p with
    | true =>
      simp only [hk, if_true] at h
      obtain ⟨rfl, rfl⟩ : _ = t ∧ some Answer.error = answer := by simpa using h
      exact ⟨⟨hf.bounded, hf.queue⟩, hw.of_same (samePhases_idle s p) rfl rfl, nofun, nofun⟩
    | false =>
      simp only [hk, Bool.false_eq_true, if_false] at h
      obtain ⟨rfl, rfl⟩ : _ = t ∧ none = answer := by simpa using h
      exact ⟨⟨hf.bounded, hf.queue⟩, hw.of_same (samePhases_reading s p n true) rfl rfl, nofun, nofun⟩
  rcases hcopy : pipecopy n s.pipe with ⟨bytes, pipe⟩
  rcases pipecopy_spec hf.bounded hcopy with ⟨hbuf, hbounded, hempty⟩
  simp only [hwait, Bool.false_eq_true, if_false, hcopy] at h
  obtain ⟨rfl, rfl⟩ : _ = t ∧ some (Answer.got n bytes) = answer := by simpa using h
  refine ⟨⟨hbounded, ?_⟩, ?_, nofun, fun m l heq => ?_⟩
  · have hqueue := hf.queue
    rw [hbuf, ← List.append_assoc] at hqueue
    exact hqueue
  · refine hw.of_same (SamePhases.trans ?_ (samePhases_idle _ p)) rfl rfl
    exact ⟨(samePhases_wakeupWriters { s with pipe := pipe, delivered := s.delivered ++ bytes }).writing⟩
  obtain ⟨rfl, rfl⟩ : n = m ∧ bytes = l := by simpa using heq
  refine ⟨rfl, fun hnil hpos => ?_⟩
  have heq : s.pipe.nread = s.pipe.nwrite := (hempty hnil).resolve_left (Nat.ne_of_gt hpos)
  have he : s.pipe.empty = true := Pipe.empty_iff.2 heq
  refine ⟨heq, ?_⟩
  simpa [he] using hwait

/-! ### The theorem -/

/-- What the answers of the calls tell. -/
structure Answers (s t : State P) (answer : Option Answer) : Prop where
  /-- A call of `pipewrite` that returns `n` has stored all its bytes, in order. -/
  wrote : ∀ id bytes, answer = some (.wrote id bytes) → t.storedBy id = bytes
  /-- No bytes for a positive `n` mean the end of the file. -/
  got : ∀ n, answer = some (.got n []) → 0 < n → s.pipe.nread = s.pipe.nwrite ∧ s.pipe.writeopen = false

omit [DecidableEq P] in
theorem answers_none (s t : State P) : Answers s t none := ⟨nofun, nofun⟩

theorem step_spec (hf : Fifo s) (hw : Writers s) (h : s.step a = some (t, answer)) :
    Fifo t ∧ Writers t ∧ Answers s t answer := by
  cases a with
  | write p bytes =>
    simp only [State.step] at h
    split at h
    next hidle =>
        have hf' : Fifo { s with calls := s.calls + 1 } := ⟨hf.bounded, hf.queue⟩
        have hw' : Writers { s with calls := s.calls + 1 } := ⟨fun e he => Nat.lt_succ_of_lt (hw.old e he),
            fun q id bytes rest b hq => Nat.lt_succ_of_lt (hw.lt q id bytes rest b hq), hw.unique, hw.stored⟩
        -- The number of the call is new.
        have hnone : State.storedBy { s with calls := s.calls + 1 } s.calls = [] := by
          have hfilter : s.stored.filter (fun e => e.1 = s.calls) = [] := by
            refine List.filter_eq_nil_iff.2 fun e he => ?_
            have hlt := hw.old e he
            simp only [decide_eq_true_eq]
            omega
          simp only [State.storedBy, hfilter, List.map_nil]
        obtain heq : State.write { s with calls := s.calls + 1 } p s.calls bytes bytes = (t, answer) := by
          simpa using h
        rcases write_spec hf' hw' (Nat.lt_succ_self _) (by rw [hnone, List.nil_append])
          (fun q bytes' rest' b' hq => absurd (hw.lt _ _ _ _ _ hq) (Nat.lt_irrefl _)) heq with
          ⟨hfifo, hwriters, hwrote, hgot⟩
        exact ⟨hfifo, hwriters, hwrote, fun n hn => absurd hn (hgot n [])⟩
    next => cases h
  | read p n =>
    simp only [State.step] at h
    split at h
    next hidle =>
        rcases read_spec hf hw (by simpa using h) with ⟨hfifo, hwriters, hwrote, hgot⟩
        exact ⟨hfifo, hwriters, fun id bytes hid => absurd hid (hwrote id bytes),
          fun m hm hpos => (hgot m [] hm).2 rfl ((hgot m [] hm).1 ▸ hpos)⟩
    next => cases h
  | resume p =>
    simp only [State.step] at h
    split at h
    next id bytes rest hphase =>
        rcases write_spec hf hw (hw.lt _ _ _ _ _ hphase) (hw.stored _ _ _ _ _ hphase)
          (fun q bytes' rest' b' hq => hw.unique _ _ _ _ _ _ _ _ _ hq hphase) (by simpa using h) with
          ⟨hfifo, hwriters, hwrote, hgot⟩
        exact ⟨hfifo, hwriters, hwrote, fun n hn => absurd hn (hgot n [])⟩
    next n hphase =>
        rcases read_spec hf hw (by simpa using h) with ⟨hfifo, hwriters, hwrote, hgot⟩
        exact ⟨hfifo, hwriters, fun id bytes hid => absurd hid (hwrote id bytes),
          fun m hm hpos => (hgot m [] hm).2 rfl ((hgot m [] hm).1 ▸ hpos)⟩
    next => cases h
  | kill p =>
    obtain ⟨rfl, rfl⟩ : _ = t ∧ none = answer := by simpa [State.step] using h
    refine ⟨⟨hf.bounded, hf.queue⟩, hw.of_same ⟨fun q id bytes rest b hq => ?_⟩ rfl rfl, answers_none _ _⟩
    by_cases hqp : q = p
    · subst hqp
      simp only [Function.update_self] at hq
      split at hq
      next id' bytes' rest' b' hold =>
          obtain ⟨rfl, rfl, rfl, _⟩ : id' = id ∧ bytes' = bytes ∧ rest' = rest ∧ _ := by simpa using hq
          exact ⟨b', hold⟩
      next => cases hq
      next => exact ⟨b, hq⟩
    · exact ⟨b, by simpa [hqp] using hq⟩
  | close writable =>
    cases writable with
    | true =>
      obtain ⟨rfl, rfl⟩ : _ = t ∧ none = answer := by simpa [State.step] using h
      exact ⟨⟨hf.bounded, hf.queue⟩,
        hw.of_same ⟨(samePhases_wakeupReaders { s with pipe := { s.pipe with writeopen := false } }).writing⟩ rfl rfl,
        answers_none _ _⟩
    | false =>
      obtain ⟨rfl, rfl⟩ : _ = t ∧ none = answer := by simpa [State.step] using h
      exact ⟨⟨hf.bounded, hf.queue⟩,
        hw.of_same ⟨(samePhases_wakeupWriters { s with pipe := { s.pipe with readopen := false } }).writing⟩ rfl rfl,
        answers_none _ _⟩

omit [DecidableEq P] in
theorem fifo_of_fresh (h : s.Fresh) : Fifo s ∧ Writers s := by
  have hphase : ∀ q id bytes rest b, s.phase q ≠ .writing id bytes rest b := fun q id bytes rest b hq => by
    rw [h.idle q] at hq
    cases hq
  refine ⟨⟨?_, ?_⟩, ?_, fun q id bytes rest b hq => absurd hq (hphase q _ _ _ _),
    fun q _ id bytes rest b _ _ _ hq => absurd hq (hphase q _ _ _ _),
    fun q id bytes rest b hq => absurd hq (hphase q _ _ _ _)⟩
  · rw [Pipe.Bounded, h.nread, h.nwrite, between_self]
    exact Nat.zero_le _
  · rw [Pipe.buffered, h.nread, h.nwrite, h.stored, h.delivered, contents_self]
    rfl
  · rw [h.stored]
    exact nofun

/-- In every interleaving, however many bytes go through it, the pipe is a bounded queue, and the calls
return what they say. -/
theorem fifo_of_reachable (h : (pipeSystem P).Reachable s) : between s.pipe.nread s.pipe.nwrite ≤ pipesize ∧
      s.delivered ++ s.pipe.buffered = s.stored.map Prod.snd ∧
      ∀ a t answer, s.step a = some (t, answer) → Answers s t answer := by
  have hinv : Fifo s ∧ Writers s := by
    refine h.invariant (P := fun s => Fifo s ∧ Writers s) (fun s hs => fifo_of_fresh hs) fun s a t hst hstep => ?_
    rcases hstep with ⟨answer, hstep⟩
    rcases step_spec hst.1 hst.2 hstep with ⟨hf, hw, _⟩
    exact ⟨hf, hw⟩
  exact ⟨hinv.1.bounded, hinv.1.queue, fun a t answer hstep => (step_spec hinv.1 hinv.2 hstep).2.2⟩

end Interleaving

def freshPipe : State Bool :=
  { pipe :=
      { data := fun _ => 0
        nread := 0
        nwrite := 0
        readopen := true
        writeopen := true }
    phase := fun _ => .idle
    killed := fun _ => false
    calls := 0
    stored := []
    delivered := [] }

/-- One process has written a byte, and the other one then reads it. -/
theorem fifo_freshPipe : ∃ s t, freshPipe.step (.write true [7]) = some (s, some (.wrote 0 [7])) ∧
      s.step (.read false 5) = some (t, some (.got 5 [7])) ∧ Answers s t (some (.got 5 [7])) := by
  refine ⟨_, _, rfl, rfl, ?_⟩
  have hfresh : freshPipe.Fresh := ⟨rfl, rfl, fun _ => rfl, rfl, rfl, rfl⟩
  exact (fifo_of_reachable ((System.Reachable.of_init (M := pipeSystem Bool) hfresh).step
    (a := .write true [7]) ⟨_, rfl⟩)).2.2 (.read false 5) _ _ rfl

end Xv6.Pipes
