import Mathlib.Algebra.GroupWithZero.Nat
import Mathlib.Data.List.GetD
import Mathlib.Data.List.Infix
import Mathlib.Data.List.TakeWhile

/-!
# Search — the program `search.c`

`search_file` collects the bytes of a line in a buffer and counts the occurrences of the word in it when the newline
comes.  When the buffer is full, the line is handled as if it ended there: the byte that does not fit is lost, and
the line number goes up.
-/

namespace Xv6.Search

def newline : UInt8 := 10

def lineSize : ℕ := 512

def text (s : List UInt8) : List UInt8 :=
  s.takeWhile fun c => decide (c ≠ 0)

def strlen (s : List UInt8) : ℕ :=
  (text s).length

/-! ## `count_occ` -/

/-- The inner loop, with `j` and the number of turns that are left: the `j` it ends with. -/
def compareLoop (line word : List UInt8) (i : ℕ) : ℕ → ℕ → ℕ
  | j, 0 => j
  | j, n + 1 => if line.getD (i + j) 0 ≠ word.getD j 0 then j else compareLoop line word i (j + 1) n

/-- The outer loop, with `i` and the number of turns that are left. -/
def countLoop (line word : List UInt8) (m : ℕ) : ℕ → ℕ → ℕ → ℕ
  | _, 0, count => count
  | i, n + 1, count => countLoop line word m (i + 1) n (if compareLoop line word i 0 m = m then count + 1 else count)

def countOcc (line word : List UInt8) : ℕ :=
  let n := strlen line
  let m := strlen word
  if m = 0 then 0 else countLoop line word m 0 (n + 1 - m) 0

/-! ## `search_file` -/

structure Scan where
  /-- The bytes `line[0]`, …, `line[len - 1]`. -/
  line : List UInt8
  lineNo : ℕ
  totalOcc : ℕ
  matchedLines : ℕ
  /-- The lines that have been printed, with their numbers. -/
  printed : List (ℕ × List UInt8)

/-- The line in the buffer is printed if it contains the word. -/
def handle (word : List UInt8) (s : Scan) : Scan :=
  let occ := countOcc s.line word
  if 0 < occ then
    { s with
      totalOcc := s.totalOcc + occ
      matchedLines := s.matchedLines + 1
      printed := s.printed ++ [(s.lineNo, text s.line)] }
  else s

def step (word : List UInt8) (s : Scan) (c : UInt8) : Scan :=
  if c = newline ∨ s.line.length ≥ lineSize - 1 then
    { handle word s with line := [], lineNo := s.lineNo + 1 }
  else { s with line := s.line ++ [c] }

inductive Output
  /-- "search: cannot open " and the name of the file -/
  | cannotOpen
  /-- The lines, then the totals of occurrences and of lines, or that there are no occurrences. -/
  | report (lines : List (ℕ × List UInt8)) (totals : Option (ℕ × ℕ))
  deriving DecidableEq

def finish (word : List UInt8) (s : Scan) : Output :=
  let s := if 0 < s.line.length then handle word s else s
  .report s.printed (if s.matchedLines = 0 then none else some (s.totalOcc, s.matchedLines))

def searchFile (file : Option (List UInt8)) (word : List UInt8) : Output :=
  match file with
  | none => .cannotOpen
  | some content => finish word (content.foldl (step word) ⟨[], 1, 0, 0, []⟩)

/-! ## What should be reported -/

def occurrences (word line : List UInt8) : ℕ :=
  line.tails.countP fun t => decide (word <+: t)

def found (word : List UInt8) : ℕ → List (List UInt8) → List (ℕ × List UInt8)
  | _, [] => []
  | n, l :: ls => if word <:+: l then (n, l) :: found word (n + 1) ls else found word (n + 1) ls

def report (word : List UInt8) (lines : List (List UInt8)) : Output :=
  let hits := found word 1 lines
  .report hits (if hits.length = 0 then none else some ((hits.map fun hit => occurrences word hit.2).sum, hits.length))

def linesOf (content : List UInt8) : List (List UInt8) :=
  content.splitOn newline

/-! ## Counting -/

section Count

variable {line word : List UInt8} {i j m n count : ℕ}

theorem text_eq_self (h : 0 ∉ line) : text line = line :=
  List.takeWhile_eq_self_iff.2 fun _ hc => decide_eq_true fun h0 => h (h0 ▸ hc)

/-- Where all of the rest of the word lies inside the line, the inner loop runs to its end if it stands there. -/
theorem compareLoop_eq_iff (hn : j + n = word.length) (hline : i + word.length ≤ line.length) :
    compareLoop line word i j n = word.length ↔ word.drop j <+: line.drop (i + j) := by
  induction n generalizing j with
  | zero =>
    rw [compareLoop, List.drop_eq_nil_of_le (by omega)]
    exact iff_of_true (by omega) List.nil_prefix
  | succ n ih =>
    have hj : j < word.length := by omega
    have hij : i + j < line.length := by omega
    have hstep := ih (j := j + 1) (by omega)
    rw [compareLoop, List.getD_eq_getElem _ _ hij, List.getD_eq_getElem _ _ hj, List.drop_eq_getElem_cons hj,
      List.drop_eq_getElem_cons hij]
    split_ifs with hne
    · refine iff_of_false (by omega) fun hpre => hne ?_
      rw [List.cons_prefix_cons] at hpre
      exact hpre.1.symm
    · rw [hstep, Nat.add_assoc, List.cons_prefix_cons, not_not.1 hne]
      simp

theorem countLoop_eq (hword : word ≠ []) (hi : i + n = line.length + 1 - word.length) (hle : i ≤ line.length) :
    countLoop line word word.length i n count = count + occurrences word (line.drop i) := by
  induction n generalizing i count with
  | zero =>
    have hnone : occurrences word (line.drop i) = 0 := by
      rw [occurrences, List.countP_eq_zero]
      intro t ht
      have hlen := ((List.mem_tails t _).1 ht).length_le
      rw [List.length_drop] at hlen
      simp only [decide_eq_true_eq]
      intro hpre
      have := hpre.length_le
      omega
    rw [countLoop, hnone, Nat.add_zero]
  | succ n ih =>
    have hword' : 0 < word.length := List.length_pos_iff.2 hword
    have hlt : i < line.length := by omega
    have htails : (line.drop i).tails = line.drop i :: (line.drop (i + 1)).tails := by
      rw [List.drop_eq_getElem_cons hlt, List.tails_cons]
    have hhere : compareLoop line word i 0 word.length = word.length ↔ word <+: line.drop i :=
      compareLoop_eq_iff (Nat.zero_add _) (by omega)
    rw [countLoop, ih (i := i + 1) (by omega) (by omega), occurrences, occurrences, htails, List.countP_cons]
    by_cases hpre : word <+: line.drop i
    · rw [if_pos (hhere.2 hpre), if_pos (decide_eq_true hpre)]
      omega
    · rw [if_neg fun h => hpre (hhere.1 h), if_neg (by simpa using hpre)]
      rfl

theorem countOcc_eq (hline : 0 ∉ line) (hnul : 0 ∉ word) (hword : word ≠ []) :
    countOcc line word = occurrences word line := by
  have hpos : word.length ≠ 0 := fun h => hword (List.eq_nil_of_length_eq_zero h)
  simp only [countOcc, strlen, text_eq_self hline, text_eq_self hnul, if_neg hpos]
  rw [countLoop_eq hword (Nat.zero_add _) (Nat.zero_le _), Nat.zero_add, List.drop_zero]

theorem occurrences_pos_iff : 0 < occurrences word line ↔ word <:+: line := by
  rw [occurrences, List.countP_pos_iff]
  constructor
  · rintro ⟨t, ht, hpre⟩
    exact (of_decide_eq_true hpre).isInfix.trans ((List.mem_tails t line).1 ht).isInfix
  · rintro ⟨u, v, rfl⟩
    refine ⟨word ++ v, (List.mem_tails _ _).2 ⟨u, by simp⟩, decide_eq_true (List.prefix_append word v)⟩

end Count

/-! ## From bytes to pieces of lines -/

/-- The pieces of a line that come into the buffer one after the other; between two of them a byte is lost. -/
def cut (l : List UInt8) : List (List UInt8) :=
  if l.length < lineSize then [l] else l.take (lineSize - 1) :: cut (l.drop lineSize)
termination_by l.length
decreasing_by
  rw [List.length_drop]
  have : 0 < lineSize := by decide
  omega

/-- The buffer holds the piece `p` when the line ends. -/
def record (word : List UInt8) (s : Scan) (p : List UInt8) : Scan :=
  { handle word { s with line := p } with line := [], lineNo := s.lineNo + 1 }

section Pieces

variable {word cur l : List UInt8}

theorem cut_of_lt (h : l.length < lineSize) : cut l = [l] := by
  rw [cut, if_pos h]

variable {c : UInt8} {s : Scan} {n : ℕ} {ls : List (List UInt8)}

theorem cut_of_full (h : cur.length = lineSize - 1) : cut (cur ++ c :: l) = cur :: cut l := by
  have hsize : 0 < lineSize := by decide
  have hlen : ¬ (cur ++ c :: l).length < lineSize := by
    rw [List.length_append, List.length_cons]
    omega
  have hfull : lineSize = cur.length + 1 := by omega
  rw [cut, if_neg hlen, List.take_left' h, hfull, List.drop_length_add_append, List.drop_one, List.tail_cons]

theorem step_of_full (h : cur.length = lineSize - 1) :
    step word { s with line := cur } c = { record word s cur with line := [] } := by
  rw [step, if_pos (.inr (Nat.le_of_eq h.symm))]
  rfl

theorem step_of_room (hc : c ≠ newline) (hcur : cur.length < lineSize) (h : cur.length ≠ lineSize - 1) :
    step word { s with line := cur } c = { s with line := cur ++ [c] } := by
  rw [step, if_neg]
  rintro (hc' | hge)
  · exact hc hc'
  · simp only at hge
    omega

theorem foldl_step_line (word cur : List UInt8) (s : Scan) (hcur : cur.length < lineSize) (hl : newline ∉ l) :
    (l ++ [newline]).foldl (step word) { s with line := cur } = (cut (cur ++ l)).foldl (record word) s := by
  induction l generalizing s cur with
  | nil =>
    rw [List.append_nil, cut_of_lt hcur]
    simp [step, record]
  | cons c l ih =>
    rw [List.mem_cons, not_or] at hl
    by_cases hfull : cur.length = lineSize - 1
    · rw [List.cons_append, List.foldl_cons, step_of_full hfull, ih [] _ (by decide) hl.2, cut_of_full hfull,
        List.foldl_cons, List.nil_append]
    · rw [List.cons_append, List.foldl_cons, step_of_room (Ne.symm hl.1) hcur hfull, ih (cur ++ [c]) _ (by simp; omega) hl.2,
        List.append_assoc, List.singleton_append]

theorem countOcc_nil : countOcc [] word = 0 := by
  by_cases h : strlen word = 0
  · simp [countOcc, h]
  · have hturns : strlen [] + 1 - strlen word = 0 := by
      have : strlen [] = 0 := rfl
      omega
    simp [countOcc, h, hturns, countLoop]

/-- The last line has no newline; it is handled when the file ends. -/
theorem finish_step_newline (word : List UInt8) (s : Scan) : finish word (step word s newline) = finish word s := by
  rw [step, if_pos (.inl rfl)]
  rcases s with ⟨_ | ⟨c, line⟩, lineNo, totalOcc, matchedLines, printed⟩
  · simp [finish, handle, countOcc_nil]
  · simp [finish]

theorem line_foldl_record (ps : List (List UInt8)) (hs : s.line = []) : (ps.foldl (record word) s).line = [] := by
  induction ps generalizing s with
  | nil => exact hs
  | cons p ps ih => exact ih rfl

theorem beq_newline_eq_false (hl : newline ∉ l) : ∀ c ∈ l, (c == newline) = false := fun _ hc =>
  beq_false_of_ne fun h => hl (h ▸ hc)

theorem linesOf_eq_singleton (hl : newline ∉ l) : linesOf l = [l] :=
  List.splitOnP_eq_singleton (beq_newline_eq_false hl)

theorem linesOf_append (hl : newline ∉ l) (rest : List UInt8) : linesOf (l ++ newline :: rest) = l :: linesOf rest :=
  List.splitOnP_append_cons_of_forall_mem (beq_newline_eq_false hl) newline (beq_self_eq_true newline) rest

theorem lines_induction {motive : List UInt8 → Prop} (last : ∀ l, newline ∉ l → motive l)
    (line : ∀ l rest, newline ∉ l → motive rest → motive (l ++ newline :: rest)) (content : List UInt8) :
    motive content := by
  induction hn : content.length using Nat.strong_induction_on generalizing content with
  | _ n ih =>
    by_cases hmem : newline ∈ content
    · rcases List.eq_append_cons_of_mem hmem with ⟨l, rest, rfl, hl⟩
      have hlt : rest.length < n := by
        rw [← hn, List.length_append, List.length_cons]
        omega
      exact line l rest hl (ih _ hlt rest rfl)
    · exact last content hmem

theorem mem_of_mem_linesOf {content : List UInt8} (hl : l ∈ linesOf content) (hc : c ∈ l) : c ∈ content := by
  induction content using lines_induction with
  | last l' hl' =>
    rw [linesOf_eq_singleton hl', List.mem_singleton] at hl
    exact hl ▸ hc
  | line l' rest hl' ih =>
    rw [linesOf_append hl', List.mem_cons] at hl
    rcases hl with rfl | hl
    · exact List.mem_append_left _ hc
    · exact List.mem_append_right _ (List.mem_cons_of_mem _ (ih hl))

theorem finish_content (content : List UInt8) (hs : s.line = []) : finish word (content.foldl (step word) s) =
      finish word (((linesOf content).flatMap cut).foldl (record word) s) := by
  have hline : ∀ s : Scan, s.line = [] → ∀ l, newline ∉ l →
      (l ++ [newline]).foldl (step word) s = (cut l).foldl (record word) s := by
    intro s hs l hl
    have hself : { s with line := [] } = s := by rw [← hs]
    have h := foldl_step_line word [] s (by decide) hl
    rwa [hself, List.nil_append] at h
  induction content using lines_induction generalizing s with
  | last l hl =>
    have h := hline s hs l hl
    rw [List.foldl_concat] at h
    rw [← finish_step_newline, h, linesOf_eq_singleton hl, List.flatMap_singleton]
  | line l rest hl ih =>
    rw [← List.singleton_append, ← List.append_assoc, List.foldl_append, hline s hs l hl, List.append_assoc,
      List.singleton_append, linesOf_append hl, List.flatMap_cons, List.foldl_append]
    exact ih (line_foldl_record (cut l) hs)

theorem foldl_record (hnul : 0 ∉ word) (hword : word ≠ []) (ps : List (List UInt8)) (hps : ∀ p ∈ ps, 0 ∉ p)
    (s : Scan) :
    (ps.foldl (record word) s).printed = s.printed ++ found word s.lineNo ps ∧
      (ps.foldl (record word) s).matchedLines = s.matchedLines + (found word s.lineNo ps).length ∧
      (ps.foldl (record word) s).totalOcc =
        s.totalOcc + ((found word s.lineNo ps).map fun hit => occurrences word hit.2).sum := by
  induction ps generalizing s with
  | nil => simp [found]
  | cons p ps ih =>
    have hp : 0 ∉ p := hps p List.mem_cons_self
    have hocc : 0 < countOcc p word ↔ word <:+: p := by rw [countOcc_eq hp hnul hword, occurrences_pos_iff]
    rcases ih (fun q hq => hps q (List.mem_cons_of_mem p hq)) (record word s p) with ⟨hprinted, hmatched, htotal⟩
    rw [List.foldl_cons, hprinted, hmatched, htotal]
    by_cases hin : word <:+: p
    · have hpos : 0 < occurrences word p := occurrences_pos_iff.2 hin
      simp only [record, handle, found, hpos, hin, text_eq_self hp, countOcc_eq hp hnul hword, if_true,
        List.append_assoc, List.singleton_append, List.length_cons, List.map_cons, List.sum_cons, true_and]
      omega
    · simp [record, handle, found, hocc, hin]

theorem finish_foldl_record (hnul : 0 ∉ word) (hword : word ≠ []) (ps : List (List UInt8)) (hps : ∀ p ∈ ps, 0 ∉ p) :
    finish word (ps.foldl (record word) ⟨[], 1, 0, 0, []⟩) = report word ps := by
  rcases foldl_record hnul hword ps hps ⟨[], 1, 0, 0, []⟩ with ⟨hprinted, hmatched, htotal⟩
  have hline : (ps.foldl (record word) ⟨[], 1, 0, 0, []⟩).line = [] := line_foldl_record ps rfl
  simp only [finish, hline, List.length_nil, Nat.lt_irrefl, if_false, hprinted, hmatched, htotal, report,
    List.nil_append, Nat.zero_add]

theorem mem_cut {p : List UInt8} (hp : p ∈ cut l) : p <:+: l ∧ p.length < lineSize := by
  induction l using cut.induct with
  | case1 l hlt => 
    rw [cut_of_lt hlt, List.mem_singleton] at hp
    subst hp
    exact ⟨List.infix_rfl, hlt⟩
  | case2 l hlt ih =>
    rw [cut, if_neg hlt, List.mem_cons] at hp
    rcases hp with rfl | hp
    · refine ⟨(List.take_prefix _ l).isInfix, Nat.lt_of_le_of_lt (List.length_take_le _ l) (by decide)⟩
    · exact ⟨(ih hp).1.trans (List.drop_suffix _ l).isInfix, (ih hp).2⟩

theorem one_lt_length_cut (h : ¬ l.length < lineSize) : 1 < (cut l).length := by
  have hpos : ∀ l, 0 < (cut l).length := by
    intro l
    rw [cut]
    split_ifs <;> simp
  rw [cut, if_neg h, List.length_cons]
  exact Nat.succ_lt_succ (hpos _)

theorem searchFile_eq {content : List UInt8} (hcontent : 0 ∉ content) (hnul : 0 ∉ word) (hword : word ≠ []) :
    searchFile (some content) word = report word ((linesOf content).flatMap cut) := by
  rw [searchFile, finish_content content rfl, finish_foldl_record hnul hword]
  intro p hp
  rcases List.mem_flatMap.1 hp with ⟨l, hl, hp⟩
  intro h0
  exact hcontent (mem_of_mem_linesOf hl ((mem_cut hp).1.subset h0))

/-! ## Where the pieces give the same report as the lines -/

theorem found_append (ls ls' : List (List UInt8)) :
    found word n (ls ++ ls') = found word n ls ++ found word (n + ls.length) ls' := by
  induction ls generalizing n with
  | nil => rfl
  | cons l ls ih =>
    rw [List.cons_append, found, found, ih, List.length_cons, Nat.add_right_comm, Nat.add_assoc n]
    split_ifs <;> rfl

theorem found_eq_nil (h : ∀ l ∈ ls, ¬ word <:+: l) : found word n ls = [] := by
  induction ls generalizing n with
  | nil => rfl
  | cons l ls ih =>
    rw [found, if_neg (h l List.mem_cons_self)]
    exact ih fun l' hl' => h l' (List.mem_cons_of_mem l hl')

theorem of_mem_found {hit : ℕ × List UInt8} (h : hit ∈ found word n ls) : n ≤ hit.1 ∧ hit.2 ∈ ls := by
  induction ls generalizing n with
  | nil => simp [found] at h
  | cons l ls ih =>
    have hlater : hit ∈ found word (n + 1) ls → n ≤ hit.1 ∧ hit.2 ∈ l :: ls := fun h =>
      ⟨Nat.le_of_succ_le (ih h).1, List.mem_cons_of_mem l (ih h).2⟩
    rw [found] at h
    split_ifs at h with hin
    · rcases List.mem_cons.1 h with rfl | h
      · exact ⟨Nat.le_refl n, List.mem_cons_self⟩
      · exact hlater h
    · exact hlater h

theorem found_cut (h : ¬ word <:+: l) (ls : List (List UInt8)) :
    found word n (cut l ++ ls) = found word (n + (cut l).length) ls := by
  rw [found_append, found_eq_nil fun p hp hin => h (hin.trans (mem_cut hp).1), List.nil_append]

theorem found_shifted_iff {k : ℕ} (hnk : n < k) (ls : List (List UInt8)) :
    found word k (ls.flatMap cut) = found word n ls ↔ ∀ l ∈ ls, ¬ word <:+: l := by
  induction ls generalizing n k with
  | nil => simp [found]
  | cons l ls ih =>
    by_cases hin : word <:+: l
    · refine iff_of_false (fun heq => ?_) fun h => h l List.mem_cons_self hin
      have hmem : (n, l) ∈ found word k ((l :: ls).flatMap cut) := by
        rw [heq, found, if_pos hin]
        exact List.mem_cons_self
      exact Nat.not_le.2 hnk (of_mem_found hmem).1
    have hpos : 0 < (cut l).length := by
      rw [cut]
      split_ifs <;> simp
    rw [List.flatMap_cons, found_cut hin, found, if_neg hin, ih (by omega), List.forall_mem_cons]
    exact ⟨fun h => ⟨hin, h⟩, fun h => h.2⟩

/-- A line that does not fit into the buffer spoils the report if it, or a line behind it, contains the word. -/
theorem found_flatMap_cut_iff (n : ℕ) (ls : List (List UInt8)) : found word n (ls.flatMap cut) = found word n ls ↔
      ∀ l ∈ ls.dropWhile (fun l => decide (l.length < lineSize)), ¬ word <:+: l := by
  induction ls generalizing n with
  | nil => simp [found]
  | cons l ls ih =>
    by_cases hlt : l.length < lineSize
    · rw [List.dropWhile_cons_of_pos (by simpa using hlt), ← ih (n + 1), List.flatMap_cons, cut_of_lt hlt,
        List.singleton_append, found, found]
      split_ifs
      · rw [List.cons_inj_right]
      · rfl
    rw [List.dropWhile_cons_of_neg (by simpa using hlt)]
    by_cases hin : word <:+: l
    · -- no piece is as long as the line
      refine iff_of_false (fun heq => ?_) fun h => h l List.mem_cons_self hin
      have hmem : (n, l) ∈ found word n ((l :: ls).flatMap cut) := by
        rw [heq, found, if_pos hin]
        exact List.mem_cons_self
      rcases List.mem_flatMap.1 (of_mem_found hmem).2 with ⟨l', _, hl'⟩
      exact hlt (mem_cut hl').2
    · have hmore := one_lt_length_cut hlt
      rw [List.flatMap_cons, found_cut hin, found, if_neg hin, found_shifted_iff (by omega), List.forall_mem_cons]
      exact ⟨fun h => ⟨hin, h⟩, fun h => h.2⟩

theorem report_eq_report_iff {ls' : List (List UInt8)} :
    report word ls = report word ls' ↔ found word 1 ls = found word 1 ls' := by
  constructor
  · intro h
    exact (Output.report.inj h).1
  · intro h
    rw [report, report, h]

end Pieces

/-- The report is right unless the word is in a line of 512 bytes or more, or in a line behind one. -/
theorem searchFile_eq_report_iff {content word : List UInt8} (hcontent : 0 ∉ content) (hnul : 0 ∉ word)
    (hword : word ≠ []) :
    searchFile (some content) word = report word (linesOf content) ↔
      ∀ l ∈ (linesOf content).dropWhile (fun l => decide (l.length < lineSize)), ¬ word <:+: l := by
  rw [searchFile_eq hcontent hnul hword, report_eq_report_iff, found_flatMap_cut_iff]

theorem searchFile_two_lines :
    searchFile (some [97, 10, 98, 97, 97]) [97] = report [97] (linesOf [97, 10, 98, 97, 97]) ↔
      ∀ l ∈ (linesOf [97, 10, 98, 97, 97]).dropWhile (fun l => decide (l.length < lineSize)), ¬ [97] <:+: l :=
  searchFile_eq_report_iff (by decide) (by decide) (by decide)

/-- A line of one byte more than the buffer holds. -/
theorem searchFile_long_line :
    searchFile (some (List.replicate 512 97)) [97] ≠ report [97] (linesOf (List.replicate 512 97)) := by
  have hmem : ∀ c : UInt8, c ≠ 97 → c ∉ List.replicate 512 (97 : UInt8) := fun c hc h =>
    hc (List.eq_of_mem_replicate h)
  rw [searchFile_eq (hmem 0 (by decide)) (by decide) (by decide), Ne, report_eq_report_iff, found_flatMap_cut_iff,
    linesOf_eq_singleton (hmem newline (by decide)),
    List.dropWhile_cons_of_neg (by rw [List.length_replicate]; decide)]
  intro h
  refine h _ (List.mem_singleton_self _) ⟨[], List.replicate 511 97, ?_⟩
  rw [List.nil_append, List.singleton_append, ← List.replicate_succ]

end Xv6.Search
