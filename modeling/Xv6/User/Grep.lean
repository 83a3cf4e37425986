import Mathlib.Algebra.GroupWithZero.Nat
import Mathlib.Computability.Language

/-!
# Grep — the matcher of `grep.c`

A string is the list of its bytes before the NUL.  `matchhere` goes through the pattern, so the recursion is on it,
and `matchstar` gets what `matchhere` does with the pattern behind the star.
-/

namespace Xv6.Grep

open scoped Computability

def caret : UInt8 := 94

def dollar : UInt8 := 36

def dot : UInt8 := 46

def star : UInt8 := 42

/-- The loop of `matchstar`, `here` being `matchhere` at the rest of the pattern. -/
def matchstar (c : UInt8) (here : List UInt8 → Bool) : List UInt8 → Bool
  | [] => here []
  | a :: text => here (a :: text) || (decide (a = c ∨ c = dot) && matchstar c here text)

/-- One character of the pattern and one of the text, and then the rest. -/
def matchchar (c : UInt8) (here : List UInt8 → Bool) : List UInt8 → Bool
  | [] => false
  | a :: text => decide (c = dot ∨ c = a) && here text

def matchhere : List UInt8 → List UInt8 → Bool
  | [], _ => true
  | [c], text => if c = dollar then text.isEmpty else matchchar c (fun _ => true) text
  | c :: d :: re, text => if d = star then matchstar c (matchhere re) text else matchchar c (matchhere (d :: re)) text

def matchLoop (here : List UInt8 → Bool) : List UInt8 → Bool
  | [] => here []
  | a :: text => here (a :: text) || matchLoop here text

def matchText (re text : List UInt8) : Bool :=
  if re.head? = some caret then matchhere re.tail text else matchLoop (matchhere re) text

/-! ## Patterns and their languages -/

/-- A character of a pattern, `*` behind it or not. -/
structure Atom where
  char : UInt8
  starred : Bool
  deriving DecidableEq

/-- The words of one character that the character of an atom stands for. -/
def Atom.chars (a : Atom) : Language UInt8 :=
  {w | ∃ x, w = [x] ∧ (a.char = dot ∨ a.char = x)}

def Atom.lang (a : Atom) : Language UInt8 :=
  if a.starred then a.chars∗ else a.chars

def atoms : List UInt8 → List Atom
  | [] => []
  | [c] => [⟨c, false⟩]
  | c :: d :: re => if d = star then ⟨c, true⟩ :: atoms re else ⟨c, false⟩ :: atoms (d :: re)

/-- A last `$` without a star is the end of the text. -/
def anchored (l : List Atom) : Bool :=
  decide (l.getLast? = some ⟨dollar, false⟩)

def body (l : List Atom) : List Atom :=
  if anchored l then l.dropLast else l

def lang (l : List Atom) : Language UInt8 :=
  (l.map Atom.lang).prod

/-- The text begins with a word of the atoms, and that is all of it if they are anchored. -/
def Begins (l : List Atom) (text : List UInt8) : Prop :=
  ∃ s t, text = s ++ t ∧ s ∈ lang (body l) ∧ (anchored l = true → t = [])

section

variable {a : Atom} {l : List Atom} {c : UInt8} {s text : List UInt8} {here : List UInt8 → Bool}

theorem body_cons (h : l ≠ [] ∨ a ≠ ⟨dollar, false⟩) :
    body (a :: l) = a :: body l ∧ anchored (a :: l) = anchored l := by
  cases l with
  | nil => simp_all [body, anchored]
  | cons b l =>
    have hlast : anchored (a :: b :: l) = anchored (b :: l) := by rw [anchored, List.getLast?_cons_cons, anchored]
    refine ⟨?_, hlast⟩
    rw [body, body, hlast]
    split <;> rfl

theorem begins_nil : Begins [] text := ⟨[], text, rfl, rfl, fun h => absurd h (by decide)⟩

theorem begins_cons (h : l ≠ [] ∨ a ≠ ⟨dollar, false⟩) :
    Begins (a :: l) text ↔ ∃ u v, text = u ++ v ∧ u ∈ a.lang ∧ Begins l v := by
  rw [Begins, (body_cons h).1, (body_cons h).2, lang, List.map_cons, List.prod_cons]
  constructor
  · rintro ⟨s, t, rfl, hs, ht⟩
    obtain ⟨u, hu, v, hv, rfl⟩ := hs
    exact ⟨u, v ++ t, List.append_assoc u v t, hu, v, t, rfl, hv, ht⟩
  · rintro ⟨u, v, rfl, hu, s, t, rfl, hs, ht⟩
    exact ⟨u ++ s, t, (List.append_assoc u s t).symm, Language.append_mem_mul hu hs, ht⟩

theorem mem_lang_starred : s ∈ Atom.lang ⟨c, true⟩ ↔ ∀ x ∈ s, c = dot ∨ c = x := by
  rw [Atom.lang, if_pos rfl, Language.mem_kstar]
  constructor
  · rintro ⟨ws, rfl, hws⟩ x hx
    obtain ⟨w, hw, hxw⟩ := List.mem_flatten.mp hx
    obtain ⟨y, rfl, hy⟩ := hws w hw
    rwa [List.mem_singleton.mp hxw]
  intro h
  refine ⟨s.map fun x => [x], ?_, ?_⟩
  · induction s with
    | nil => rfl
    | cons x s ih => rw [List.map_cons, List.flatten_cons, ← ih fun y hy => h y (.tail x hy), List.singleton_append]
  · intro w hw
    obtain ⟨x, hx, rfl⟩ := List.mem_map.mp hw
    exact ⟨x, rfl, h x hx⟩

/-! ## What the functions find -/

theorem matchstar_iff :
    matchstar c here text = true ↔ ∃ u v, text = u ++ v ∧ u ∈ Atom.lang ⟨c, true⟩ ∧ here v = true := by
  simp only [mem_lang_starred]
  induction text with
  | nil =>
    constructor
    · exact fun h => ⟨[], [], rfl, List.forall_mem_nil _, h⟩
    · rintro ⟨u, v, h, -, hv⟩
      rwa [(List.nil_eq_append_iff.mp h).2] at hv
  | cons a text ih =>
    rw [matchstar, Bool.or_eq_true, Bool.and_eq_true, decide_eq_true_iff, ih]
    constructor
    · rintro (h | ⟨ha, u, v, rfl, hu, hv⟩)
      · exact ⟨[], _, rfl, List.forall_mem_nil _, h⟩
      · exact ⟨a :: u, v, rfl, List.forall_mem_cons.mpr ⟨by tauto, hu⟩, hv⟩
    rintro ⟨u, v, h, hu, hv⟩
    rcases List.cons_eq_append_iff.mp h with ⟨rfl, rfl⟩ | ⟨u, rfl, rfl⟩
    · exact .inl hv
    · rw [List.forall_mem_cons] at hu
      exact .inr ⟨by tauto, u, v, rfl, hu.2, hv⟩

theorem matchLoop_iff : matchLoop here text = true ↔ ∃ p t, text = p ++ t ∧ here t = true := by
  -- the loop of `match` is that of `.*`
  have heq : matchLoop here text = matchstar dot here text := by
    induction text with
    | nil => rfl
    | cons a text ih => simp [matchLoop, matchstar, ih]
  rw [heq, matchstar_iff]
  simp [mem_lang_starred]

theorem matchchar_iff :
    matchchar c here text = true ↔ ∃ u v, text = u ++ v ∧ u ∈ Atom.lang ⟨c, false⟩ ∧ here v = true := by
  constructor
  · cases text with
    | nil => exact fun h => absurd h Bool.false_ne_true
    | cons a text =>
      rw [matchchar, Bool.and_eq_true, decide_eq_true_iff]
      exact fun h => ⟨[a], text, rfl, ⟨a, rfl, h.1⟩, h.2⟩
  · rintro ⟨_, v, rfl, ⟨a, rfl, ha⟩, hv⟩
    exact Bool.and_eq_true_iff.mpr ⟨decide_eq_true ha, hv⟩

end

theorem atoms_ne_nil (c : UInt8) (re : List UInt8) : atoms (c :: re) ≠ [] := by
  cases re with
  | nil => exact List.cons_ne_nil _ _
  | cons d re =>
    rw [atoms]
    split <;> exact List.cons_ne_nil _ _

/-- Over the pattern: the atom in front takes what it can of the text, and the rest is as before. -/
theorem matchhere_iff (re text : List UInt8) : matchhere re text = true ↔ Begins (atoms re) text := by
  induction re using atoms.induct generalizing text with
  | case1 => exact iff_of_true rfl begins_nil
  | case2 c =>
    rw [matchhere]
    split
    case isTrue hc =>
      rw [List.isEmpty_iff, hc]
      constructor
      · rintro rfl
        exact ⟨[], [], rfl, rfl, fun _ => rfl⟩
      · rintro ⟨s, t, rfl, hs, ht⟩
        obtain rfl : s = [] := hs
        exact ht rfl
    case isFalse hc =>
      rw [matchchar_iff, atoms, begins_cons (.inr (by simpa using hc))]
      simp only [begins_nil]
  | case3 c re ih =>
    rw [matchhere, if_pos rfl, matchstar_iff, atoms, if_pos rfl, begins_cons (.inr (by simp))]
    simp only [ih]
  | case4 c d re hd ih =>
    rw [matchhere, if_neg hd, matchchar_iff, atoms, if_neg hd, begins_cons (.inl (atoms_ne_nil d re))]
    simp only [ih]

def unanchored (re : List UInt8) : List UInt8 :=
  if re.head? = some caret then re.tail else re

/-- `match` finds a word of the atoms in the text: from the beginning on if there is a leading `^`, and up to the end
if there is a final `$`. -/
theorem matchText_iff (re text : List UInt8) : matchText re text = true ↔
      ∃ p s t, text = p ++ s ++ t ∧ s ∈ lang (body (atoms (unanchored re))) ∧
        (re.head? = some caret → p = []) ∧ (anchored (atoms (unanchored re)) = true → t = []) := by
  rw [matchText, unanchored]
  split
  case isTrue hre =>
    rw [matchhere_iff]
    constructor
    · rintro ⟨s, t, rfl, hs, ht⟩
      exact ⟨[], s, t, rfl, hs, fun _ => rfl, ht⟩
    · rintro ⟨p, s, t, rfl, hs, hp, ht⟩
      obtain rfl := hp hre
      exact ⟨s, t, rfl, hs, ht⟩
  case isFalse hre =>
    simp only [matchLoop_iff, matchhere_iff]
    constructor
    · rintro ⟨p, v, rfl, s, t, rfl, hs, ht⟩
      exact ⟨p, s, t, (List.append_assoc p s t).symm, hs, fun h => absurd h hre, ht⟩
    · rintro ⟨p, s, t, rfl, hs, -, ht⟩
      exact ⟨p, s ++ t, List.append_assoc p s t, s, t, rfl, hs, ht⟩

/-! ## `grep` -/

def newline : UInt8 := 10

def bufSize : ℕ := 1024

/-- The loop over the lines in the buffer, with the bytes from `p` to where `strchr` is and those behind them: the lines
that are written. -/
def lineLoop (re : List UInt8) : List UInt8 → List UInt8 → List (List UInt8)
  | _, [] => []
  | line, c :: s =>
    if c = newline then
      if matchText re line then line :: lineLoop re [] s else lineLoop re [] s
    else lineLoop re (line ++ [c]) s

def rest : List UInt8 → List UInt8 → List UInt8
  | line, [] => line
  | line, c :: s => if c = newline then rest [] s else rest (line ++ [c]) s

/-- The bytes that stay in the buffer; none if `p` is still `buf`. -/
def carry (buf : List UInt8) : List UInt8 :=
  if newline ∈ buf then rest [] buf else []

/-- The lines that `grep` writes, with the bytes in the buffer and what the calls of `read` return. -/
def grep (re : List UInt8) : List UInt8 → List (List UInt8) → List (List UInt8)
  | _, [] => []
  | kept, piece :: pieces => lineLoop re [] (kept ++ piece) ++ grep re (carry (kept ++ piece)) pieces

/-- Each piece is not empty and fits into the space that is left. -/
def Reads : List UInt8 → List (List UInt8) → Prop
  | _, [] => True
  | kept, piece :: pieces =>
    piece ≠ [] ∧ piece.length ≤ bufSize - kept.length - 1 ∧ Reads (carry (kept ++ piece)) pieces

def terminated : List UInt8 → List UInt8 → List (List UInt8)
  | _, [] => []
  | line, c :: s => if c = newline then line :: terminated [] s else terminated (line ++ [c]) s

/-- The lines that are in the buffer at some time. -/
def seen : List UInt8 → List (List UInt8) → List (List UInt8)
  | _, [] => []
  | kept, piece :: pieces => terminated [] (kept ++ piece) ++ seen (carry (kept ++ piece)) pieces

/-- When the buffer has no newline after a read, none comes any more. -/
def Whole : List UInt8 → List (List UInt8) → Prop
  | _, [] => True
  | kept, piece :: pieces =>
    (newline ∉ kept ++ piece → newline ∉ pieces.flatten) ∧ Whole (carry (kept ++ piece)) pieces

def size (lines : List (List UInt8)) : ℕ :=
  (lines.map fun line => line.length + 1).sum

section

variable {re line kept s t : List UInt8} {pieces : List (List UInt8)}

theorem lineLoop_eq : lineLoop re line s = (terminated line s).filter (matchText re) := by
  induction s generalizing line with
  | nil => rfl
  | cons c s ih =>
    rw [lineLoop, terminated]
    split
    · rw [List.filter_cons, ih]
    · exact ih

theorem grep_eq : grep re kept pieces = (seen kept pieces).filter (matchText re) := by
  induction pieces generalizing kept with
  | nil => rfl
  | cons piece pieces ih => rw [grep, seen, List.filter_append, lineLoop_eq, ih]

theorem terminated_append : terminated line (s ++ t) = terminated line s ++ terminated (rest line s) t := by
  induction s generalizing line with
  | nil => rfl
  | cons c s ih =>
    rw [List.cons_append, terminated, terminated, rest]
    split
    · rw [ih, List.cons_append]
    · exact ih

theorem of_newline_notMem (hs : newline ∉ s) : terminated line s = [] ∧ rest line s = line ++ s := by
  induction s generalizing line with
  | nil => exact ⟨rfl, (List.append_nil line).symm⟩
  | cons c s ih =>
    rw [List.mem_cons, not_or] at hs
    rw [terminated, rest, if_neg (Ne.symm hs.1), if_neg (Ne.symm hs.1), List.append_cons line c s]
    exact ih hs.2

theorem newline_notMem_rest (h : newline ∉ line) : newline ∉ rest line s := by
  induction s generalizing line with
  | nil => exact h
  | cons c s ih =>
    rw [rest]
    split
    · exact ih List.not_mem_nil
    case isFalse hc => exact ih (by simp [h, Ne.symm hc])

theorem terminated_nil (hs : newline ∉ s) : terminated [] (s ++ t) = terminated s t := by
  rw [terminated_append, (of_newline_notMem hs).1, (of_newline_notMem hs).2, List.nil_append, List.nil_append]

theorem terminated_read : terminated [] (s ++ t) = terminated [] s ++ terminated [] (rest [] s ++ t) := by
  rw [terminated_append, terminated_nil (newline_notMem_rest List.not_mem_nil)]

theorem size_terminated (line : List UInt8) (hs : newline ∈ s) :
    size (terminated line s) = line.length + size (terminated [] s) := by
  induction s generalizing line with
  | nil => exact absurd hs List.not_mem_nil
  | cons c s ih =>
    rw [terminated, terminated]
    split
    · simp [size, Nat.add_assoc]
    case isFalse hc =>
      have hs' := List.mem_of_ne_of_mem (Ne.symm hc) hs
      rw [ih _ hs', ih ([] ++ [c]) hs', List.length_append, List.nil_append, Nat.add_assoc]

theorem size_terminated_le : size (terminated [] s) ≤ size (terminated line s) := by
  by_cases hs : newline ∈ s
  · rw [size_terminated line hs]
    exact Nat.le_add_left _ _
  · rw [(of_newline_notMem hs).1, (of_newline_notMem hs).1]

theorem size_seen_le : size (seen kept pieces) ≤ size (terminated [] (kept ++ pieces.flatten)) := by
  induction pieces generalizing kept with
  | nil => exact Nat.zero_le _
  | cons piece pieces ih =>
    rw [seen, carry, List.flatten_cons, ← List.append_assoc]
    generalize kept ++ piece = buf
    split
    case isTrue h =>
      rw [terminated_read, size, List.map_append, List.sum_append, size, List.map_append, List.sum_append]
      exact Nat.add_le_add_left ih _
    case isFalse h =>
      rw [(of_newline_notMem h).1, terminated_nil h]
      exact ih.trans size_terminated_le

/-- Over the reads: a line that is in the buffer without its newline is lost, which shows when the newline comes. -/
theorem seen_eq_iff (hkept : newline ∉ kept) (h : Reads kept pieces) :
    seen kept pieces = terminated [] (kept ++ pieces.flatten) ↔ Whole kept pieces := by
  induction pieces generalizing kept with
  | nil =>
    rw [List.flatten_nil, List.append_nil, (of_newline_notMem hkept).1]
    exact iff_of_true rfl trivial
  | cons piece pieces ih =>
    obtain ⟨hne, -, h⟩ := h
    have hlen := List.length_pos_iff.mpr (List.append_ne_nil_of_right_ne_nil kept hne)
    rw [seen, Whole, List.flatten_cons, ← List.append_assoc]
    generalize kept ++ piece = buf at h hlen ⊢
    rw [carry] at h ⊢
    split at h
    case isTrue hnl =>
      rw [if_pos hnl, terminated_read, List.append_cancel_left_eq, ih (newline_notMem_rest List.not_mem_nil) h]
      exact (and_iff_right fun h => absurd hnl h).symm
    case isFalse hnl =>
      rw [if_neg hnl, (of_newline_notMem hnl).1, terminated_nil hnl, List.nil_append, ← ih List.not_mem_nil h,
        List.nil_append]
      by_cases hlater : newline ∈ pieces.flatten
      · refine iff_of_false (fun heq => ?_) fun h => h.1 hnl hlater
        have hsize := size_terminated buf hlater
        have hle := @size_seen_le [] pieces
        rw [← heq] at hsize
        rw [List.nil_append] at hle
        omega
      · rw [(of_newline_notMem hlater).1, (of_newline_notMem hlater).1]
        exact (and_iff_right fun _ => hlater).symm

end

theorem matchText_nil (text : List UInt8) : matchText [] text = true := by
  cases text <;> rfl

/-- `grep` writes the matching lines among those it sees.  It is right for every pattern just if no read leaves a
line in the buffer whose newline is to come and no newline before it. -/
theorem grep_iff (pieces : List (List UInt8)) (h : Reads [] pieces) :
    (∀ re, grep re [] pieces = (seen [] pieces).filter (matchText re)) ∧
      ((∀ re, grep re [] pieces = (terminated [] pieces.flatten).filter (matchText re)) ↔ Whole [] pieces) := by
  refine ⟨fun re => grep_eq, ?_⟩
  rw [← seen_eq_iff List.not_mem_nil h, List.nil_append]
  constructor
  · intro heq
    have hall := heq []
    rwa [grep_eq, List.filter_eq_self.mpr fun line _ => matchText_nil line,
      List.filter_eq_self.mpr fun line _ => matchText_nil line] at hall
  · intro heq re
    rw [grep_eq, heq]

/-- The pieces `a`, newline, `b`, newline of a pipe that is written line by line. -/
theorem grep_iff_lines : Reads [] [[97, 10], [98, 10]] ∧ Whole [] [[97, 10], [98, 10]] ∧
      ∀ re, grep re [] [[97, 10], [98, 10]] = List.filter (matchText re) [[97], [98]] := by
  have hreads : Reads [] [[97, 10], [98, 10]] := by simp [Reads, carry, rest, bufSize, newline]
  have hwhole : Whole [] [[97, 10], [98, 10]] := by simp [Whole, carry, rest, newline]
  exact ⟨hreads, hwhole, (grep_iff _ hreads).2.mpr hwhole⟩

/-- The line `ab` that comes in two reads is not found by the pattern `ab`. -/
theorem grep_split_line : grep [97, 98] [] [[97], [98, 10]] = [] ∧ grep [97, 98] [] [[97, 98, 10]] = [[97, 98]] := by
  decide

end Xv6.Grep
