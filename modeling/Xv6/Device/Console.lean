import Xv6.Common.Ring
import Xv6.Common.Transition

/-!
# Console — `consoleintr` and `consoleread`

The input buffer of the console holds the characters that have been committed and not yet read, between `r` and
`w`, and the line that is being edited, between `w` and `e`.  Interrupts and any number of reading processes take
turns; `cons.lock` is held from one `sleep` to the next.

`Terminal` is what the processes and the interrupt see of an input buffer.  The code is one terminal; a queue and
a line, as two lists, are another one.  `console_refines` says that no process can tell them apart.
-/

namespace Xv6.Console

open Common

def inputBuf : ℕ := 128

def ctrl (x : Char) : UInt8 :=
  x.toUInt8 - '@'.toUInt8

def newline : UInt8 := '\n'.toUInt8

def carriageReturn : UInt8 := '\r'.toUInt8

def delete : UInt8 := 0x7f

/-- How a stretch of `consoleread` without `sleep` ends. -/
inductive Outcome
  | returns
  | fails
  | sleeps

/-! ## The code -/

structure Input where
  buf : ℕ → UInt8
  /-- Read index. -/
  r : UInt32
  /-- Write index. -/
  w : UInt32
  /-- Edit index. -/
  e : UInt32

namespace Input

/-- The loop of `C('U')`.  It takes no more rounds than there are characters from `w` to `e`. -/
def killLine : ℕ → Input → Input
  | 0, i => i
  | n + 1, i =>
    if i.e ≠ i.w ∧ i.buf ((i.e - 1).toNat % inputBuf) ≠ newline then killLine n { i with e := i.e - 1 } else i

def put (i : Input) (c : UInt8) : Input :=
  { i with
    buf := Function.update i.buf (i.e.toNat % inputBuf) c
    e := i.e + 1 }

/-- A character goes into the line; a newline, ^D or a full buffer makes the line readable. -/
def store (i : Input) (c : UInt8) : Input × Bool :=
  let i := i.put c
  if c = newline ∨ c = ctrl 'D' ∨ i.e = i.r + UInt32.ofNat inputBuf then ({ i with w := i.e }, true) else (i, false)

/-- The `switch` of `consoleintr`, for one character, and whether it wakes the readers up. -/
def type (i : Input) (c : UInt8) : Input × Bool :=
  if c = ctrl 'P' then (i, false)
  else if c = ctrl 'U' then (i.killLine (between i.w i.e), false)
  else if c = ctrl 'H' ∨ c = delete then
    (if i.e ≠ i.w then { i with e := i.e - 1 } else i, false)
  else if c ≠ 0 ∧ i.e - i.r < UInt32.ofNat inputBuf then
    i.store (if c = carriageReturn then newline else c)
  else (i, false)

/-- `consoleread` from the `while` on, with `n` characters still to be read: how it ends, `n` then, the characters
that it has copied, and the input. -/
def consoleread (killed : Bool) (target : ℕ) : ℕ → Input → Outcome × ℕ × List UInt8 × Input
  | 0, i => (.returns, 0, [], i)
  | n + 1, i =>
    if i.r = i.w then (if killed then .fails else .sleeps, n + 1, [], i)
    else
      let c := i.buf (i.r.toNat % inputBuf)
      let i := { i with r := i.r + 1 }
      if c = ctrl 'D' then
        -- Save ^D for next time, to make sure the caller gets a 0-byte result.
        (.returns, n + 1, [], if n + 1 < target then { i with r := i.r - 1 } else i)
      else if c = newline then (.returns, n, [c], i)
      else
        let (o, left, bytes, i) := consoleread killed target n i
        (o, left, c :: bytes, i)

def zero : Input :=
  { buf := fun _ => 0
    r := 0
    w := 0
    e := 0 }

end Input

/-! ## What it is for -/

/-- The characters that can be read, and the line that is still edited. -/
structure Lines where
  committed : List UInt8
  line : List UInt8
  deriving DecidableEq

namespace Lines

def held (l : Lines) : ℕ :=
  l.committed.length + l.line.length

def commit (l : Lines) : Lines :=
  { committed := l.committed ++ l.line
    line := [] }

def store (l : Lines) (c : UInt8) : Lines × Bool :=
  let l := { l with line := l.line ++ [c] }
  if c = newline ∨ c = ctrl 'D' ∨ l.held = inputBuf then (l.commit, true) else (l, false)

def type (l : Lines) (c : UInt8) : Lines × Bool :=
  if c = ctrl 'P' then (l, false)
  else if c = ctrl 'U' then ({ l with line := [] }, false)
  else if c = ctrl 'H' ∨ c = delete then ({ l with line := l.line.dropLast }, false)
  else if c ≠ 0 ∧ l.held < inputBuf then
    l.store (if c = carriageReturn then newline else c)
  else (l, false)

/-- What a reader takes from the front of the committed characters. -/
def take (killed : Bool) (target : ℕ) : ℕ → List UInt8 → Outcome × ℕ × List UInt8 × List UInt8
  | 0, queue => (.returns, 0, [], queue)
  | n + 1, [] => (if killed then .fails else .sleeps, n + 1, [], [])
  | n + 1, c :: queue =>
    if c = ctrl 'D' then (.returns, n + 1, [], if n + 1 < target then c :: queue else queue)
    else if c = newline then (.returns, n, [c], queue)
    else
      let (o, left, bytes, queue) := take killed target n queue
      (o, left, c :: bytes, queue)

def read (killed : Bool) (target n : ℕ) (l : Lines) : Outcome × ℕ × List UInt8 × Lines :=
  let (o, left, bytes, queue) := take killed target n l.committed
  (o, left, bytes, { l with committed := queue })

end Lines

/-! ## Terminals -/

structure Terminal (I : Type) where
  start : I
  type : I → UInt8 → I × Bool
  read : Bool → ℕ → ℕ → I → Outcome × ℕ × List UInt8 × I

def terminal : Terminal Input :=
  { start := Input.zero
    type := Input.type
    read := Input.consoleread }

def lineTerminal : Terminal Lines :=
  { start := { committed := [], line := [] }
    type := Lines.type
    read := Lines.read }

inductive Phase
  | idle
  /-- In `consoleread` for `target` characters, asleep or already woken up, with `n` to go after `bytes`. -/
  | reading (target n : ℕ) (bytes : List UInt8) (asleep : Bool)

/-- Made runnable, if it is in `consoleread` at all. -/
def Phase.woken : Phase → Phase
  | .idle => .idle
  | .reading target n bytes _ => .reading target n bytes false

/-- What `consoleread` returns: the characters in `dst`, or `-1`. -/
inductive Answer
  | got (bytes : List UInt8)
  | error

structure State (I P : Type) where
  input : I
  phase : P → Phase
  killed : P → Bool

inductive Action (P : Type)
  /-- `consoleintr` with the characters that `getc` returns. -/
  | intr (chars : List UInt8)
  | read (p : P) (n : ℕ)
  /-- A process that has been woken up goes on. -/
  | resume (p : P)
  | kill (p : P)

namespace Terminal

variable {I P : Type} [DecidableEq P]

def consoleintr (T : Terminal I) : List UInt8 → I → I × Bool
  | [], i => (i, false)
  | c :: chars, i =>
    let (i, woken) := T.type i c
    let (i, woken') := T.consoleintr chars i
    (i, woken || woken')

def stretch (T : Terminal I) (s : State I P) (p : P) (target n : ℕ) (bytes : List UInt8) :
    State I P × Option Answer :=
  let (o, n, more, i) := T.read (s.killed p) target n s.input
  let s := { s with input := i }
  match o with
  | .returns => ({ s with phase := Function.update s.phase p .idle }, some (.got (bytes ++ more)))
  | .fails => ({ s with phase := Function.update s.phase p .idle }, some .error)
  | .sleeps => ({ s with phase := Function.update s.phase p (.reading target n (bytes ++ more) true) }, none)

/-- The state after the action, and what the call that it belongs to returns. -/
def step (T : Terminal I) (s : State I P) : Action P → Option (State I P × Option Answer)
  | .intr chars =>
    let (i, woken) := T.consoleintr chars s.input
    some ({ s with
      input := i
      phase := fun p => if woken then (s.phase p).woken else s.phase p }, none)
  | .read p n =>
    match s.phase p with
    | .idle => some (T.stretch s p n n [])
    | _ => none
  | .resume p =>
    match s.phase p with
    | .reading target n bytes false => some (T.stretch s p target n bytes)
    | _ => none
  | .kill p =>
    some ({ s with
      killed := Function.update s.killed p true
      phase := Function.update s.phase p (s.phase p).woken }, none)

def system (T : Terminal I) (P : Type) [DecidableEq P] : System (State I P) (Action P) :=
  { init := fun s => s.input = T.start ∧ ∀ p, s.phase p = .idle
    tr := fun s a t => ∃ answer, T.step s a = some (t, answer) }

end Terminal

/-! ## The indices -/

/-- `w` lies between `r` and `e`, no more than a buffer apart, and the line that is edited is not ended. -/
structure Input.Ordered (i : Input) : Prop where
  write_le : between i.r i.w ≤ between i.r i.e
  edit_le : between i.r i.e ≤ inputBuf
  line : newline ∉ contents inputBuf i.buf i.w i.e

def Input.lines (i : Input) : Lines :=
  { committed := contents inputBuf i.buf i.r i.w
    line := contents inputBuf i.buf i.w i.e }

section Indices

variable {i : Input} {c : UInt8}

theorem inputBuf_dvd : inputBuf ∣ 2 ^ 32 := ⟨2 ^ 25, rfl⟩

theorem toNat_inputBuf : (UInt32.ofNat inputBuf).toNat = inputBuf := rfl

theorem Input.Ordered.held (h : i.Ordered) : i.lines.held = between i.r i.e := by
  unfold Lines.held Input.lines
  rw [length_contents, length_contents]
  exact between_add h.write_le

theorem Input.Ordered.erase (h : i.Ordered) (hne : i.e ≠ i.w) : Input.Ordered { i with e := i.e - 1 } := by
  have hless := between_pred_right hne.symm
  have hsum := between_add h.write_le
  have hshort : contents inputBuf i.buf i.w (i.e - 1) = (contents inputBuf i.buf i.w i.e).dropLast :=
    contents_unpush hne.symm
  have hre : i.r ≠ i.e := by
    intro heq
    rw [← between_eq_zero] at heq
    omega
  have hless' := between_pred_right hre
  have hfull := h.edit_le
  refine ⟨?_, ?_, ?_⟩
  · simp only
    omega
  · simp only
    omega
  · simp only [hshort]
    exact fun hmem => h.line (List.dropLast_subset _ hmem)

/-- No newline stops `C('U')` before the beginning of the line. -/
theorem Input.killLine_eq (h : i.Ordered) {n : ℕ} (hn : between i.w i.e = n) :
    i.killLine n = { i with e := i.w } := by
  induction n generalizing i with
  | zero =>
    have heq : i.w = i.e := between_eq_zero.1 hn
    rw [Input.killLine]
    exact congrArg (fun w => { i with e := w }) heq.symm
  | succ n ih =>
    have hne : i.e ≠ i.w := by
      intro heq
      rw [heq, between_self] at hn
      cases hn
    have hlast : i.buf ((i.e - 1).toNat % inputBuf) ≠ newline := by
      intro heq
      have hget : (contents inputBuf i.buf i.w i.e).getLast? = some (i.buf ((i.e - 1).toNat % inputBuf)) :=
        getLast_contents inputBuf_dvd hne.symm
      rw [heq] at hget
      exact h.line (List.mem_of_getLast? hget)
    have hless := between_pred_right hne.symm
    rw [Input.killLine, if_pos ⟨hne, hlast⟩]
    exact ih (h.erase hne) (by simp only; omega)

theorem Input.Ordered.lines_put (h : i.Ordered) (hroom : between i.r i.e < inputBuf) :
    (i.put c).lines = { i.lines with line := i.lines.line ++ [c] } ∧ between i.r (i.e + 1) = between i.r i.e + 1 := by
  have hsum := between_add h.write_le
  have hroom' : between i.w i.e < inputBuf := by omega
  refine ⟨?_, ?_⟩
  · simp only [Input.lines, Input.put]
    rw [contents_update inputBuf_dvd h.write_le hroom, contents_push inputBuf_dvd hroom' (by decide)]
  · refine between_succ_right ?_
    unfold inputBuf at hroom
    omega

theorem Input.lines_commit (h : between i.r i.w ≤ between i.r i.e) :
    Input.lines { i with w := i.e } = i.lines.commit := by
  simp only [Input.lines, Lines.commit, contents_self]
  rw [contents_append inputBuf_dvd h]

theorem Input.Ordered.commit (h : between i.r i.e ≤ inputBuf) : Input.Ordered { i with w := i.e } := by
  refine ⟨Nat.le_refl _, h, ?_⟩
  simp

end Indices

/-! ## The code and the two lists -/

section Refinement

variable {i : Input}

theorem Input.Ordered.store (h : i.Ordered) (hroom : between i.r i.e < inputBuf) (c : UInt8) :
    (i.store c).1.Ordered ∧ i.lines.store c = ((i.store c).1.lines, (i.store c).2) := by
  rcases h.lines_put (c := c) hroom with ⟨hlines, hnext⟩
  have hwrite : between (i.put c).r (i.put c).w ≤ between (i.put c).r (i.put c).e := calc
      between i.r i.w ≤ between i.r i.e := h.write_le
      _ ≤ between i.r i.e + 1 := Nat.le_succ _
      _ = between i.r (i.e + 1) := hnext.symm
  have hedit : between (i.put c).r (i.put c).e ≤ inputBuf := by
    simp only [Input.put]
    omega
  have hheld : (i.put c).lines.held = between (i.put c).r (i.put c).e := by
    have hold := h.held
    rw [hlines]
    simp only [Lines.held, List.length_append, List.length_singleton, Input.put] at hold ⊢
    omega
  have hfull : (i.put c).e = (i.put c).r + UInt32.ofNat inputBuf ↔ (i.put c).lines.held = inputBuf := by
    rw [between_eq_iff, toNat_inputBuf, hheld]
  simp only [Input.store, Lines.store, hfull]
  rw [← hlines]
  split_ifs with hends
  · exact ⟨Input.Ordered.commit hedit, by rw [Input.lines_commit hwrite]⟩
  refine ⟨⟨hwrite, hedit, ?_⟩, rfl⟩
  -- What is stored is no newline, otherwise the line would have been committed.
  have hline : contents inputBuf (i.put c).buf (i.put c).w (i.put c).e =
      contents inputBuf i.buf i.w i.e ++ [c] := congrArg Lines.line hlines
  rw [hline, List.mem_append, List.mem_singleton]
  rintro (hmem | heq)
  · exact h.line hmem
  · exact hends (.inl heq.symm)

theorem Input.Ordered.type (h : i.Ordered) (c : UInt8) :
    (i.type c).1.Ordered ∧ i.lines.type c = ((i.type c).1.lines, (i.type c).2) := by
  have hroom : i.e - i.r < UInt32.ofNat inputBuf ↔ i.lines.held < inputBuf := by
    rw [h.held, UInt32.lt_iff_toNat_lt, toNat_inputBuf]
    rfl
  simp only [Input.type, Lines.type, hroom]
  generalize (if c = carriageReturn then newline else c) = stored
  split_ifs with hprocdump hkill hback hne hstore
  · exact ⟨h, rfl⟩
  · rw [Input.killLine_eq h rfl]
    have hsum := between_add h.write_le
    have hfull := h.edit_le
    refine ⟨⟨Nat.le_refl _, ?_, by simp⟩, ?_⟩
    · simp only
      omega
    · simp [Input.lines]
  · refine ⟨h.erase hne, ?_⟩
    simp only [Input.lines]
    rw [contents_unpush hne.symm]
  · -- There is nothing to erase.
    have hempty : i.e = i.w := not_not.1 hne
    refine ⟨h, ?_⟩
    simp [Input.lines, hempty]
  · exact h.store (by rw [← h.held]; exact hstore.2) _
  · exact ⟨h, rfl⟩

theorem Input.Ordered.pop (h : i.Ordered) (hne : i.r ≠ i.w) : Input.Ordered { i with r := i.r + 1 } ∧
      i.lines.committed = i.buf (i.r.toNat % inputBuf) :: (Input.lines { i with r := i.r + 1 }).committed := by
  have hwrite := between_succ_left hne
  have hle := h.write_le
  have hfull := h.edit_le
  have hne' : i.r ≠ i.e := by
    intro heq
    rw [← between_eq_zero] at heq
    omega
  have hedit := between_succ_left hne'
  refine ⟨⟨?_, ?_, h.line⟩, contents_pop inputBuf_dvd hne⟩
  · simp only
    omega
  · simp only
    omega

theorem Input.Ordered.consoleread (h : i.Ordered) (killed : Bool) (target n : ℕ) :
    (Input.consoleread killed target n i).2.2.2.Ordered ∧
      (Input.consoleread killed target n i).2.2.2.lines.line = i.lines.line ∧
      Lines.take killed target n i.lines.committed =
        ((Input.consoleread killed target n i).1, (Input.consoleread killed target n i).2.1,
          (Input.consoleread killed target n i).2.2.1,
          (Input.consoleread killed target n i).2.2.2.lines.committed) := by
  induction n generalizing i with
  | zero => exact ⟨h, rfl, rfl⟩
  | succ n ih =>
    by_cases hempty : i.r = i.w
    · have hnone : i.lines.committed = [] := by simp [Input.lines, hempty]
      rw [Input.consoleread, if_pos hempty]
      refine ⟨h, rfl, ?_⟩
      simp only [hnone, Lines.take]
    rcases h.pop hempty with ⟨h', hpop⟩
    rw [Input.consoleread, if_neg hempty, hpop]
    simp only [Lines.take]
    split_ifs with heof hmore hline
    · -- ^D is put back.
      have hback : ({ i with r := i.r + 1 - 1 } : Input) = i := by
        rw [UInt32.add_sub_cancel]
      simp only [hback, hpop]
      exact ⟨h, trivial, trivial⟩
    · exact ⟨h', rfl, rfl⟩
    · exact ⟨h', rfl, rfl⟩
    · rcases ih h' with ⟨hord, hsame, htake⟩
      refine ⟨hord, hsame, ?_⟩
      rw [htake]

end Refinement

/-! ## All interleavings -/

section Interleaving

variable {P : Type} [DecidableEq P] {s t : State Input P}

omit [DecidableEq P] in
def State.lines (s : State Input P) : State Lines P :=
  { input := s.input.lines
    phase := s.phase
    killed := s.killed }

theorem consoleintr_refines {i : Input} (h : i.Ordered) (chars : List UInt8) :
    (terminal.consoleintr chars i).1.Ordered ∧ lineTerminal.consoleintr chars i.lines =
        ((terminal.consoleintr chars i).1.lines, (terminal.consoleintr chars i).2) := by
  induction chars generalizing i with
  | nil => exact ⟨h, rfl⟩
  | cons c chars ih =>
    rcases h.type c with ⟨h', htype⟩
    rcases ih h' with ⟨h'', hchars⟩
    refine ⟨h'', ?_⟩
    simp only [Terminal.consoleintr, terminal, lineTerminal] at hchars ⊢
    rw [htype, hchars]

theorem stretch_refines (h : s.input.Ordered) (p : P) (target n : ℕ) (bytes : List UInt8) :
    (terminal.stretch s p target n bytes).1.input.Ordered ∧ lineTerminal.stretch s.lines p target n bytes =
        ((terminal.stretch s p target n bytes).1.lines, (terminal.stretch s p target n bytes).2) := by
  rcases h.consoleread (s.killed p) target n with ⟨h', hline, htake⟩
  have hread : lineTerminal.read (s.killed p) target n s.input.lines =
      ((terminal.read (s.killed p) target n s.input).1, (terminal.read (s.killed p) target n s.input).2.1,
        (terminal.read (s.killed p) target n s.input).2.2.1,
        (terminal.read (s.killed p) target n s.input).2.2.2.lines) := by
    simp only [lineTerminal, terminal, Lines.read, htake, ← hline]
  have hord : (terminal.read (s.killed p) target n s.input).2.2.2.Ordered := h'
  unfold Terminal.stretch
  simp only [State.lines, hread]
  cases (terminal.read (s.killed p) target n s.input).1 with
  | returns => exact ⟨hord, rfl⟩
  | fails => exact ⟨hord, rfl⟩
  | sleeps => exact ⟨hord, rfl⟩

attribute [local simp] Terminal.step

/-- An action does the same at the code and at the two lists, and the processes see the same. -/
theorem step_refines (h : s.input.Ordered) (a : Action P) :
    lineTerminal.step s.lines a = (terminal.step s a).map (fun x => (x.1.lines, x.2)) ∧
      ∀ t answer, terminal.step s a = some (t, answer) → t.input.Ordered := by
  cases a with
  | intr chars =>
    rcases consoleintr_refines h chars with ⟨h', hchars⟩
    have hchars' : lineTerminal.consoleintr chars s.lines.input = _ := hchars
    refine ⟨?_, ?_⟩
    · simp only [Terminal.step, hchars', Option.map_some]
      rfl
    · intro t answer ht
      obtain ⟨rfl, _⟩ : _ = t ∧ _ := by simpa using ht
      exact h'
  | read p n =>
    rcases stretch_refines h p n n [] with ⟨h', hstretch⟩
    cases hphase : s.phase p with
    | idle =>
      refine ⟨?_, ?_⟩
      · simp [State.lines, hphase] at hstretch ⊢
        exact hstretch
      · intro t answer ht
        have heq : terminal.stretch s p n n [] = (t, answer) := by simpa [hphase] using ht
        rwa [heq] at h'
    | reading target left bytes asleep => simp [State.lines, hphase]
  | resume p =>
    cases hphase : s.phase p with
    | idle => simp [State.lines, hphase]
    | reading target n bytes asleep =>
      rcases stretch_refines h p target n bytes with ⟨h', hstretch⟩
      cases asleep with
      | true => simp [State.lines, hphase]
      | false =>
        refine ⟨?_, ?_⟩
        · simp [State.lines, hphase] at hstretch ⊢
          exact hstretch
        · intro t answer ht
          have heq : terminal.stretch s p target n bytes = (t, answer) := by
            simpa [hphase] using ht
          rwa [heq] at h'
  | kill p =>
    refine ⟨rfl, ?_⟩
    intro t answer ht
    obtain ⟨rfl, _⟩ : _ = t ∧ _ := by simpa using ht
    exact h

theorem refines_of_reachable (h : (terminal.system P).Reachable s) :
    s.input.Ordered ∧ (lineTerminal.system P).Reachable s.lines := by
  refine System.Reachable.invariant
    (P := fun s => s.input.Ordered ∧ (lineTerminal.system P).Reachable s.lines) ?_ ?_ h
  · rintro s ⟨hzero, hidle⟩
    refine ⟨?_, System.Reachable.of_init ⟨?_, hidle⟩⟩
    · rw [hzero]
      exact ⟨by decide, by decide, by simp [terminal, Input.zero]⟩
    · simp [State.lines, hzero, terminal, lineTerminal, Input.zero, Input.lines]
  · rintro s a t ⟨hs, hreach⟩ ⟨answer, hstep⟩
    rcases step_refines hs a with ⟨hlines, hord⟩
    rw [hstep] at hlines
    exact ⟨hord t answer hstep, hreach.step ⟨answer, hlines⟩⟩

/-- In every reachable state the write index lies between the other two, which are at most a buffer apart.  The
console behaves like a queue and a line: they reach the same states, and each action has the same effect and the
same answer. -/
theorem console_refines (h : (terminal.system P).Reachable s) : (s.input.e - s.input.r).toNat ≤ inputBuf ∧
      (s.input.w - s.input.r).toNat ≤ (s.input.e - s.input.r).toNat ∧
      (lineTerminal.system P).Reachable s.lines ∧
      ∀ a, lineTerminal.step s.lines a = (terminal.step s a).map fun x => (x.1.lines, x.2) := by
  rcases refines_of_reachable h with ⟨hord, hreach⟩
  exact ⟨hord.edit_le, hord.write_le, hreach, fun a => (step_refines hord a).1⟩

/-- A line and the beginning of another one, with a character erased. -/
def typed : State Input Unit :=
  { input := (terminal.consoleintr ("ls\nab".toList.map Char.toUInt8 ++ [delete]) Input.zero).1
    phase := fun _ => .idle
    killed := fun _ => false }

theorem console_refines_typed :
    typed.lines.input = { committed := "ls\n".toList.map Char.toUInt8, line := [97] } ∧
      (typed.input.e - typed.input.r).toNat ≤ inputBuf ∧
      (typed.input.w - typed.input.r).toNat ≤ (typed.input.e - typed.input.r).toNat ∧
      (lineTerminal.system Unit).Reachable typed.lines ∧
      ∀ a, lineTerminal.step typed.lines a = (terminal.step typed a).map fun x => (x.1.lines, x.2) := by
  refine ⟨by decide, console_refines ?_⟩
  have hinit : (terminal.system Unit).Reachable
      { input := Input.zero, phase := fun _ => .idle, killed := fun _ => false } :=
    System.Reachable.of_init ⟨rfl, fun _ => rfl⟩
  exact hinit.step (a := .intr ("ls\nab".toList.map Char.toUInt8 ++ [delete])) ⟨none, rfl⟩

end Interleaving

end Xv6.Console
