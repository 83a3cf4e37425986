import Mathlib.Data.Int.Notation
import Mathlib.Logic.Function.Basic
import Xv6.Common.Chunks

/-!
# History — the commands that the shell saves

`save_to_history` of `sh.c` and the program `history.c`.  Both name the file `.sh_history`, which is looked up in the
current directory: a file system is here the content of that file in each directory, and `chdir` may lead from any
directory to any other.  The commands that the shell runs do not touch these files.
-/

namespace Xv6.History

open Common (chunk)

def newline : UInt8 := 10

def historyWord : List UInt8 := [104, 105, 115, 116, 111, 114, 121]

def cdWord : List UInt8 := [99, 100, 32]

/-! ## The shell -/

variable {D : Type} [DecidableEq D]

structure Shell (D : Type) where
  cwd : D
  /-- The content of `.sh_history` in each directory, if there is one. -/
  files : D → Option (List UInt8)

/-- What `getcmd` leaves in the buffer: at most 99 bytes, and a newline can only be the last one. -/
structure IsLine (buf : List UInt8) : Prop where
  ne_nil : buf ≠ []
  length : buf.length ≤ 99
  inner : newline ∉ buf.dropLast

def Saved (buf : List UInt8) : Prop :=
  ¬ (buf.head? = none ∨ buf.head? = some 32 ∨ buf.head? = some newline) ∧ buf.take 7 ≠ historyWord

instance (buf : List UInt8) : Decidable (Saved buf) :=
  inferInstanceAs (Decidable (_ ∧ _))

def written (buf : List UInt8) : List UInt8 :=
  if buf.getLast? ≠ some newline then buf ++ [newline] else buf

def saveToHistory (s : Shell D) (buf : List UInt8) : Shell D :=
  if Saved buf then { s with files := Function.update s.files s.cwd (some ((s.files s.cwd).getD [] ++ written buf)) }
  else s

/-- The directory after a command; `chdir` gets the bytes behind `cd` without the last one. -/
def next (chdir : D → List UInt8 → Option D) (d : D) (buf : List UInt8) : D :=
  if buf.take 3 = cdWord then (chdir d (buf.dropLast.drop 3)).getD d else d

def turn (chdir : D → List UInt8 → Option D) (s : Shell D) (buf : List UInt8) : Shell D :=
  let s := saveToHistory s buf
  { s with cwd := next chdir s.cwd buf }

/-- A shell in `d`, on a file system without history files, after some commands. -/
def run (chdir : D → List UInt8 → Option D) (d : D) (bufs : List (List UInt8)) : Shell D :=
  bufs.foldl (turn chdir) { cwd := d, files := fun _ => none }

/-! ## The program `history` -/

def maxLine : ℕ := 128

def reads (content : List UInt8) : List (List UInt8) :=
  (List.range ((content.length + maxLine - 1) / maxLine)).map (chunk maxLine content)

def totalLines (content : List UInt8) : ℕ :=
  (reads content).foldl (fun n buf => buf.foldl (fun n c => if c = newline then n + 1 else n) n) 0

structure Display where
  lineNum : ℕ
  /-- The bytes `line_buf[0]`, …, `line_buf[line_pos - 1]`. -/
  line : List UInt8
  /-- The lines that have been printed, with their numbers. -/
  printed : List (List UInt8 × ℕ)

/-- One byte in the second pass. -/
def showByte (start : ℤ) (p : Display) (c : UInt8) : Display :=
  if c = newline then
    { lineNum := p.lineNum + 1
      line := []
      printed := if start ≤ p.lineNum then p.printed ++ [(p.line, p.lineNum)] else p.printed }
  else if p.line.length < maxLine - 1 then { p with line := p.line ++ [c] }
  else p

def display (start : ℤ) (content : List UInt8) : Display :=
  (reads content).foldl (fun p buf => buf.foldl (showByte start) p) ⟨1, [], []⟩

/-- The lines that `history` prints in the current directory, with the value of its argument. -/
def history (k : ℤ) (s : Shell D) : List (List UInt8 × ℕ) :=
  match s.files s.cwd with
  | none => []
  | some content =>
    let linesToShow := if k ≤ 0 then 10 else k
    let start : ℤ := totalLines content - linesToShow + 1
    let start := if start < 1 then 1 else start
    (display start content).printed

/-! ## What is to be shown -/

def text (buf : List UInt8) : List UInt8 :=
  if buf.getLast? = some newline then buf.dropLast else buf

def content (lines : List (List UInt8)) : List UInt8 :=
  lines.flatMap (· ++ [newline])

variable {lines : List (List UInt8)} {buf : List UInt8}

theorem IsLine.text (h : IsLine buf) :
    written buf = text buf ++ [newline] ∧ newline ∉ History.text buf ∧ (History.text buf).length < maxLine := by
  obtain ⟨t, c, rfl⟩ := List.eq_nil_or_concat buf |>.resolve_left h.ne_nil
  have hlen := h.length
  have hinner := h.inner
  rw [List.concat_eq_append] at *
  rw [List.dropLast_concat] at hinner
  rw [List.length_append, List.length_singleton] at hlen
  rw [written, History.text, List.getLast?_concat, List.dropLast_concat, maxLine]
  by_cases hc : c = newline
  · simp [hc, hinner]
    omega
  · simp [hc, hinner, Ne.symm hc]
    omega

end Xv6.History
