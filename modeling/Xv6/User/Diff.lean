import Mathlib.Algebra.Group.Nat.Defs
import Mathlib.Data.Int.Notation
import Mathlib.Data.List.TakeWhile
import Xv6.Common.EditScript

/-!
# Diff — the program `diff.c`

Both files are read into arrays of lines, and the arrays are compared with a look one line ahead in each.  A line is
what `readline` has stored of it; the string that the other functions see ends at the first NUL byte.  What is
printed is the sequence of the commands, with the two numbers and the lines that each of them shows.
-/

namespace Xv6.Diff

open Common
open Common.Edit (replay replayFrom)

/-- The bytes in a line's buffer before the terminator that `readline` has put there. -/
abbrev Line := List UInt8

def newline : UInt8 := 10

def maxLine : ℕ := 512

def maxLines : ℕ := 1000

/-! ## Reading -/

/-- The loop of `readline` with room for `n` more bytes: what it stores, and what is left of the file. -/
def readlineLoop : ℕ → List UInt8 → Line × List UInt8
  | 0, file => ([], file)
  | _ + 1, [] => ([], [])
  | n + 1, c :: file =>
    if c = newline then ([c], file)
    else
      let r := readlineLoop n file
      (c :: r.1, r.2)

def readline (file : List UInt8) (max : ℕ) : Line × List UInt8 :=
  readlineLoop (max - 1) file

/-- The loop of `readlines` with room for `n` more lines. -/
def readlinesLoop : ℕ → List UInt8 → List Line
  | 0, _ => []
  | n + 1, file =>
    let r := readline file maxLine
    if r.1.length = 0 then [] else r.1 :: readlinesLoop n r.2

/-- Nothing if the file cannot be opened. -/
def readlines (file : Option (List UInt8)) (maxLines : ℕ) : Option (List Line) :=
  file.map (readlinesLoop maxLines)

/-! ## Comparing -/

def text (line : Line) : List UInt8 :=
  line.takeWhile fun c => decide (c ≠ 0)

def char (c : UInt8) : ℤ :=
  c.toInt8.toInt

def strcmpCustom : Line → Line → ℤ
  | a :: s1, b :: s2 => if a ≠ 0 ∧ b ≠ 0 ∧ a = b then strcmpCustom s1 s2 else char a - char b
  | a :: _, [] => char a - char 0
  | [], b :: _ => char 0 - char b
  | [], [] => char 0 - char 0

def line (lines : List Line) (i : ℕ) : Line :=
  lines.getD i []

def diffLoop (lines1 lines2 : List Line) (i j : ℕ) : List (Edit (List UInt8)) :=
  if i < lines1.length ∨ j < lines2.length then
    -- file 1 ended, file 2 has more lines
    if i ≥ lines1.length then
      .add i (j + 1) (text (line lines2 j)) :: diffLoop lines1 lines2 i (j + 1)
    -- file 2 ended, file 1 has more lines
    else if j ≥ lines2.length then
      .delete (i + 1) j (text (line lines1 i)) :: diffLoop lines1 lines2 (i + 1) j
    else if strcmpCustom (line lines1 i) (line lines2 j) = 0 then
      diffLoop lines1 lines2 (i + 1) (j + 1)
    else if j + 1 < lines2.length ∧ strcmpCustom (line lines1 i) (line lines2 (j + 1)) = 0 then
      .add i (j + 1) (text (line lines2 j)) :: diffLoop lines1 lines2 i (j + 1)
    else if i + 1 < lines1.length ∧ strcmpCustom (line lines1 (i + 1)) (line lines2 j) = 0 then
      .delete (i + 1) j (text (line lines1 i)) :: diffLoop lines1 lines2 (i + 1) j
    else
      .change (i + 1) (j + 1) (text (line lines1 i)) (text (line lines2 j)) ::
        diffLoop lines1 lines2 (i + 1) (j + 1)
  else []
termination_by lines1.length - i + (lines2.length - j)

def simpleDiff (lines1 lines2 : List Line) : List (Edit (List UInt8)) :=
  diffLoop lines1 lines2 0 0

inductive Printed
  /-- "diff: cannot open " and the name of the file -/
  | cannotOpen (argument : ℕ)
  | command (e : Edit (List UInt8))
  deriving DecidableEq

/-- What `diff file1 file2` prints. -/
def main (file1 file2 : Option (List UInt8)) : List Printed :=
  match readlines file1 maxLines with
  | none => [.cannotOpen 1]
  | some lines1 =>
    match readlines file2 maxLines with
    | none => [.cannotOpen 2]
    | some lines2 => (simpleDiff lines1 lines2).map .command

/-! ## `strcmp_custom` -/

theorem char_sub_eq_zero_iff {a b : UInt8} : char a - char b = 0 ↔ a = b := by
  constructor
  · intro h
    have hint : a.toInt8.toInt = b.toInt8.toInt := by
      unfold char at h
      omega
    have hbits : a.toInt8 = b.toInt8 := Int8.toInt_inj.1 hint
    rw [← UInt8.toUInt8_toInt8 a, hbits, UInt8.toUInt8_toInt8]
  · rintro rfl
    exact Int.sub_self _

/-- The lines are compared up to the first NUL byte. -/
theorem strcmpCustom_eq_zero_iff {s1 s2 : Line} : strcmpCustom s1 s2 = 0 ↔ text s1 = text s2 := by
  induction s1 generalizing s2 with
  | nil =>
    cases s2 with
    | nil => simp [strcmpCustom]
    | cons b s2 =>
      rw [strcmpCustom, char_sub_eq_zero_iff]
      by_cases hb : b = 0
      · simp [text, hb]
      · simp [text, hb, Ne.symm hb]
  | cons a s1 ih =>
    cases s2 with
    | nil =>
      rw [strcmpCustom, char_sub_eq_zero_iff]
      by_cases ha : a = 0
      · simp [text, ha]
      · simp [text, ha]
    | cons b s2 =>
      rw [strcmpCustom]
      split_ifs with h
      · rcases h with ⟨ha, _, rfl⟩
        rw [ih]
        simp [text, ha]
      rw [char_sub_eq_zero_iff]
      by_cases hab : a = b
      · subst hab
        have ha : a = 0 := by
          by_contra ha
          exact h ⟨ha, ha, rfl⟩
        simp [text, ha]
      by_cases ha : a = 0
      · have hb : b ≠ 0 := fun hb => hab (ha.trans hb.symm)
        simp [text, ha, hb, Ne.symm hb]
      · by_cases hb : b = 0
        · simp [text, ha, hb]
        · simp [text, ha, hb, hab]

/-! ## `simple_diff` -/

section SimpleDiff

variable {lines1 lines2 : List Line} {i j : ℕ}

theorem getElem?_map_text (h : i < lines1.length) : (lines1.map text)[i]? = some (text (line lines1 i)) := by
  rw [List.getElem?_map, line, List.getD_eq_getElem?_getD, List.getElem?_eq_getElem h]
  rfl

theorem take_map_text (h : j < lines2.length) :
    (lines2.map text).take (j + 1) = (lines2.map text).take j ++ [text (line lines2 j)] := by
  rw [List.take_add_one, getElem?_map_text h, Option.toList_some]

theorem length_take_map_text (h : j ≤ lines2.length) : ((lines2.map text).take j).length = j := by
  rw [List.length_take, List.length_map, Nat.min_eq_left h]

variable {c : Cursor (List UInt8)}

theorem replayFrom_add_line {es : List (Edit (List UInt8))} (hj : j < lines2.length)
    (h : c.At (lines1.map text) i ((lines2.map text).take j)) :
    replayFrom (lines1.map text) c (.add i (j + 1) (text (line lines2 j)) :: es) =
      replayFrom (lines1.map text) ⟨i, (lines2.map text).take (j + 1)⟩ es := by
  rw [Edit.replayFrom_add h (by rw [length_take_map_text (Nat.le_of_lt hj)]), take_map_text hj]

theorem replayFrom_delete_line {es : List (Edit (List UInt8))} (hi : i < lines1.length) (hj : j ≤ lines2.length)
    (h : c.At (lines1.map text) i ((lines2.map text).take j)) :
    replayFrom (lines1.map text) c (.delete (i + 1) j (text (line lines1 i)) :: es) =
      replayFrom (lines1.map text) ⟨i + 1, (lines2.map text).take j⟩ es :=
  Edit.replayFrom_delete h (getElem?_map_text hi) (length_take_map_text hj).symm

theorem at_line (hi : i ≤ lines1.length) (out : List (List UInt8)) : Cursor.At (lines1.map text) ⟨i, out⟩ i out :=
  Cursor.At.self (by rwa [List.length_map])

/-- The loop has used `i` lines of the first array and made `j` lines of the second.  The lines that it passes over
without a command are those that the replay copies. -/
theorem replayFrom_diffLoop (hi : i ≤ lines1.length) (hj : j ≤ lines2.length)
    (h : c.At (lines1.map text) i ((lines2.map text).take j)) :
    replayFrom (lines1.map text) c (diffLoop lines1 lines2 i j) = some (lines2.map text) := by
  induction i, j using diffLoop.induct lines1 lines2 generalizing c with
  | case1 i j hmore hend1 ih =>
    have hlt : j < lines2.length := hmore.resolve_left (Nat.not_lt.2 hend1)
    rw [diffLoop, if_pos hmore, if_pos hend1, replayFrom_add_line hlt h]
    exact ih hi hlt (at_line hi _)
  | case2 i j hmore hend1 hend2 ih =>
    have hlt : i < lines1.length := Nat.not_le.1 hend1
    rw [diffLoop, if_pos hmore, if_neg hend1, if_pos hend2, replayFrom_delete_line hlt hj h]
    exact ih hlt hj (at_line hlt _)
  | case3 i j hmore hend1 hend2 hsame ih =>
    have hlt : i < lines1.length := Nat.not_le.1 hend1
    have hlt2 : j < lines2.length := Nat.not_le.1 hend2
    rw [diffLoop, if_pos hmore, if_neg hend1, if_neg hend2, if_pos hsame]
    -- the line of the first array that is copied later is the line of the second
    refine ih hlt hlt2 ?_
    rw [take_map_text hlt2, ← strcmpCustom_eq_zero_iff.1 hsame]
    exact h.keep (getElem?_map_text hlt)
  | case4 i j hmore hend1 hend2 hsame hahead ih =>
    have hlt2 : j < lines2.length := Nat.not_le.1 hend2
    rw [diffLoop, if_pos hmore, if_neg hend1, if_neg hend2, if_neg hsame, if_pos hahead, replayFrom_add_line hlt2 h]
    exact ih hi hlt2 (at_line hi _)
  | case5 i j hmore hend1 hend2 hsame hahead hahead1 ih =>
    have hlt : i < lines1.length := Nat.not_le.1 hend1
    rw [diffLoop, if_pos hmore, if_neg hend1, if_neg hend2, if_neg hsame, if_neg hahead, if_pos hahead1,
      replayFrom_delete_line hlt hj h]
    exact ih hlt hj (at_line hlt _)
  | case6 i j hmore hend1 hend2 hsame hahead hahead1 ih =>
    have hlt : i < lines1.length := Nat.not_le.1 hend1
    have hlt2 : j < lines2.length := Nat.not_le.1 hend2
    rw [diffLoop, if_pos hmore, if_neg hend1, if_neg hend2, if_neg hsame, if_neg hahead, if_neg hahead1,
      Edit.replayFrom_change h (getElem?_map_text hlt) (by rw [length_take_map_text hj]),
      ← take_map_text hlt2]
    exact ih hlt hlt2 (at_line hlt _)
  | case7 i j hmore =>
    rw [not_or, Nat.not_lt, Nat.not_lt] at hmore
    obtain rfl : i = lines1.length := Nat.le_antisymm hi hmore.1
    obtain rfl : j = lines2.length := Nat.le_antisymm hj hmore.2
    rw [diffLoop, if_neg (by simp)]
    rw [List.take_of_length_le (Nat.le_of_eq (List.length_map text))] at h
    exact Edit.replayFrom_nil (by rwa [List.length_map])

theorem diffLoop_self (h : lines1.map text = lines2.map text) (i : ℕ) : diffLoop lines1 lines2 i i = [] := by
  have hlen : lines1.length = lines2.length := by simpa using congrArg List.length h
  induction hn : lines1.length - i generalizing i with
  | zero => rw [diffLoop, if_neg (by omega)]
  | succ n ih =>
    have hi : i < lines1.length := by omega
    have hsame : strcmpCustom (line lines1 i) (line lines2 i) = 0 := by
      rw [strcmpCustom_eq_zero_iff, ← Option.some.injEq, ← getElem?_map_text hi, h, getElem?_map_text (by omega)]
    rw [diffLoop, if_pos (.inl hi), if_neg (Nat.not_le.2 hi), if_neg (by omega), if_pos hsame]
    exact ih (i + 1) (by omega)

theorem replay_eq : replay (lines1.map text) (simpleDiff lines1 lines2) = some (lines2.map text) :=
  replayFrom_diffLoop (Nat.zero_le _) (Nat.zero_le _) (at_line (Nat.zero_le _) _)

theorem simpleDiff_eq_nil_iff : simpleDiff lines1 lines2 = [] ↔ lines1.map text = lines2.map text := by
  refine ⟨fun hnil => ?_, fun h => diffLoop_self h 0⟩
  -- a replay without commands copies the first array
  have hreplay : replay (lines1.map text) (simpleDiff lines1 lines2) = some (lines2.map text) := replay_eq
  have hcopy : Cursor.At (lines1.map text) ⟨0, []⟩ (lines1.map text).length (lines1.map text) :=
    ⟨Nat.zero_le _, Nat.le_refl _, List.take_length⟩
  rw [hnil] at hreplay
  exact Option.some.inj ((Edit.replayFrom_nil hcopy).symm.trans hreplay)

end SimpleDiff

/-- The commands that `simple_diff` prints turn the first array into the second, at the line numbers that they show,
and there are none if and only if the arrays are the same line by line. -/
theorem replay_simpleDiff (lines1 lines2 : List Line) :
    replay (lines1.map text) (simpleDiff lines1 lines2) = some (lines2.map text) ∧
      (simpleDiff lines1 lines2 = [] ↔ lines1.map text = lines2.map text) :=
  ⟨replay_eq, simpleDiff_eq_nil_iff⟩

/-! ## What is compared -/

/-- The pieces that a file falls into if it is cut behind each newline and wherever a piece has reached
`maxLine - 1` bytes; `cur` are the bytes since the last cut. -/
def piecesFrom (cur : Line) : List UInt8 → List Line
  | [] => if cur = [] then [] else [cur]
  | c :: file =>
    if c = newline ∨ cur.length + 1 = maxLine - 1 then (cur ++ [c]) :: piecesFrom [] file
    else piecesFrom (cur ++ [c]) file

def pieces (file : List UInt8) : List Line :=
  piecesFrom [] file

/-- The files differ in one of the first `maxLines` pieces, before the first NUL byte in it. -/
def Shown (file1 file2 : List UInt8) : Prop :=
  ∃ n < maxLines, ((pieces file1)[n]?).map text ≠ ((pieces file2)[n]?).map text

/-- One call of `readline` reads one piece, the rest of which has room for `n` more bytes. -/
theorem piecesFrom_readlineLoop {cur : Line} {n : ℕ} (file : List UInt8) (hn : cur.length + n = maxLine - 1)
    (hpos : 0 < n) :
    piecesFrom cur file = let r := readlineLoop n file
      if cur ++ r.1 = [] then [] else (cur ++ r.1) :: pieces r.2 := by
  induction n generalizing cur file with
  | zero => exact absurd hpos (Nat.lt_irrefl 0)
  | succ n ih =>
    cases file with
    | nil => simp [piecesFrom, readlineLoop, pieces]
    | cons c file =>
      by_cases hc : c = newline
      · simp [piecesFrom, readlineLoop, pieces, hc]
      rcases Nat.eq_zero_or_pos n with rfl | hn'
      · -- the buffer is full
        simp [piecesFrom, readlineLoop, pieces, hc, hn]
      have hroom : cur.length + 1 ≠ maxLine - 1 := by omega
      have hlen : (cur ++ [c]).length + n = maxLine - 1 := by
        rw [List.length_append, List.length_singleton]
        omega
      have hrest := ih file hlen hn'
      simp only [piecesFrom, readlineLoop, hc, hroom, or_self, if_false, hrest, List.append_assoc,
        List.singleton_append]

theorem pieces_readline (file : List UInt8) : pieces file = if (readline file maxLine).1.length = 0 then []
      else (readline file maxLine).1 :: pieces (readline file maxLine).2 := by
  have hroom : ([] : Line).length + 511 = maxLine - 1 := rfl
  have h := piecesFrom_readlineLoop file hroom (by decide)
  simp only [List.length_eq_zero_iff]
  exact h

theorem readlinesLoop_eq (n : ℕ) (file : List UInt8) : readlinesLoop n file = (pieces file).take n := by
  induction n generalizing file with
  | zero => rfl
  | succ n ih =>
    rw [pieces_readline]
    show (if (readline file maxLine).1.length = 0 then _ else _) = _
    split_ifs
    · rfl
    · rw [List.take_succ_cons, ih]

variable {file1 file2 : List UInt8}

theorem not_shown_iff :
    ¬ Shown file1 file2 ↔ ((pieces file1).take maxLines).map text = ((pieces file2).take maxLines).map text := by
  rw [Shown, List.ext_getElem?_iff]
  push Not
  refine forall_congr' fun n => ?_
  rw [List.getElem?_map, List.getElem?_map]
  by_cases hn : n < maxLines
  · rw [List.getElem?_take_of_lt hn, List.getElem?_take_of_lt hn]
    exact ⟨fun h => h hn, fun h _ => h⟩
  · rw [List.getElem?_take_eq_none (Nat.not_lt.1 hn), List.getElem?_take_eq_none (Nat.not_lt.1 hn)]
    exact iff_of_true (fun h => absurd h hn) rfl

theorem main_eq_nil_iff : main (some file1) (some file2) = [] ↔ ¬ Shown file1 file2 := by
  rw [not_shown_iff, ← readlinesLoop_eq, ← readlinesLoop_eq, ← simpleDiff_eq_nil_iff]
  exact List.map_eq_nil_iff

theorem not_shown_self (file : List UInt8) : ¬ Shown file file := not_shown_iff.2 rfl

theorem flatten_piecesFrom (cur : Line) (file : List UInt8) : (piecesFrom cur file).flatten = cur ++ file := by
  induction file generalizing cur with
  | nil =>
    rw [piecesFrom]
    split_ifs with h
    · simp [h]
    · simp
  | cons c file ih =>
    rw [piecesFrom]
    split_ifs
    · simp [ih]
    · simp [ih]

theorem map_text_pieces {file : List UInt8} (hnul : 0 ∉ file) : (pieces file).map text = pieces file := by
  refine (List.map_congr_left fun piece hpiece => ?_).trans (List.map_id _)
  refine List.takeWhile_eq_self_iff.2 fun c hc => ?_
  have hmem : c ∈ (pieces file).flatten := List.mem_flatten.2 ⟨piece, hpiece, hc⟩
  rw [pieces, flatten_piecesFrom, List.nil_append] at hmem
  have hc0 : c ≠ 0 := fun h0 => hnul (h0 ▸ hmem)
  exact decide_eq_true hc0

theorem shown_of_ne (h1 : (pieces file1).length ≤ maxLines) (h2 : (pieces file2).length ≤ maxLines)
    (hnul1 : 0 ∉ file1) (hnul2 : 0 ∉ file2) (hne : file1 ≠ file2) : Shown file1 file2 := by
  by_contra hsame
  rw [not_shown_iff, List.take_of_length_le h1, List.take_of_length_le h2, map_text_pieces hnul1,
    map_text_pieces hnul2] at hsame
  apply hne
  calc
    file1 = (pieces file1).flatten := (flatten_piecesFrom [] file1).symm
    _ = (pieces file2).flatten := by rw [hsame]
    _ = file2 := flatten_piecesFrom [] file2

/-- The program prints nothing just for equal files, unless two files differ in a place that is not shown. -/
theorem silent_iff (file1 file2 : List UInt8) :
    (main (some file1) (some file2) = [] ↔ file1 = file2) ↔ file1 = file2 ∨ Shown file1 file2 := by
  rw [main_eq_nil_iff]
  constructor
  · intro h
    by_cases hshown : Shown file1 file2
    · exact .inr hshown
    · exact .inl (h.1 hshown)
  rintro (rfl | hshown)
  · exact iff_of_true (not_shown_self file1) rfl
  · refine iff_of_false (not_not.2 hshown) ?_
    rintro rfl
    exact not_shown_self file1 hshown

/-- Two files that are the same up to a NUL byte. -/
theorem silent_nul : main (some [0, 97]) (some [0, 98]) = [] ∧ ([0, 97] : List UInt8) ≠ [0, 98] := by
  refine ⟨main_eq_nil_iff.2 (not_shown_iff.2 rfl), by decide⟩

end Xv6.Diff
