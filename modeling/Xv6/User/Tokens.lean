import Mathlib.Tactic.Common
import Xv6.User.Shell

/-!
# Tokens — the line as a sequence of tokens

The tokens of a line are those that `gettoken` returns when it is called again and again.  A pointer into the line
stands before a sequence of tokens: `peek` tells what the first of them is and `gettoken` takes it off.
-/

namespace Xv6.Shell

/-- The string in `b` ends at `es`. -/
structure Ends (b : List Char) (es : ℕ) : Prop where
  stop : char b es = nul
  before : ∀ i < es, char b i ≠ nul
  lt : es < b.length

theorem Ends.of_nul_mem {b : List Char} (h : nul ∈ b) : Ends b (strlen b) := by
  induction b with
  | nil => simp at h
  | cons c b ih =>
    by_cases hc : c = nul
    · subst hc
      exact ⟨rfl, fun i hi => absurd hi (Nat.not_lt_zero i), by simp [strlen]⟩
    have hlen : strlen (c :: b) = strlen b + 1 := by simp [strlen, hc]
    have hb := ih ((List.mem_cons.1 h).resolve_left (Ne.symm hc))
    rw [hlen]
    refine ⟨hb.stop, fun i hi => ?_, Nat.succ_lt_succ hb.lt⟩
    cases i with
    | zero => exact hc
    | succ i => exact hb.before i (Nat.lt_of_succ_lt_succ hi)

/-! ## Scanning -/

section Skip

variable {b : List Char} {es : ℕ} {p : Char → Bool} {n s : ℕ}

theorem le_skip : s ≤ skip b p n s := by
  induction n generalizing s with
  | zero => exact Nat.le_refl s
  | succ n ih =>
    unfold skip
    split
    · exact Nat.le_trans (Nat.le_succ s) ih
    · exact Nat.le_refl s

theorem skip_le : skip b p n s ≤ s + n := by
  induction n generalizing s with
  | zero => exact Nat.le_refl s
  | succ n ih =>
    unfold skip
    split
    · exact Nat.le_trans ih (by omega)
    · exact Nat.le_add_right s _

theorem skip_passed {i : ℕ} (hle : s ≤ i) (hlt : i < skip b p n s) : p (char b i) = true := by
  induction n generalizing s with
  | zero => exact absurd hlt (Nat.not_lt.2 hle)
  | succ n ih =>
    unfold skip at hlt
    split at hlt
    case isTrue hp =>
      rcases Nat.eq_or_lt_of_le hle with rfl | hle
      · exact hp
      · exact ih hle hlt
    case isFalse => exact absurd hlt (Nat.not_lt.2 hle)

theorem skip_stops (hlt : skip b p n s < s + n) : p (char b (skip b p n s)) = false := by
  induction n generalizing s with
  | zero => exact absurd hlt (Nat.lt_irrefl s)
  | succ n ih =>
    unfold skip at hlt ⊢
    split
    case isTrue hp =>
      rw [if_pos hp] at hlt
      exact ih (by omega)
    case isFalse hp => simpa using hp

theorem skip_of_not (h : p (char b s) = false) : skip b p n s = s := by
  cases n with
  | zero => rfl
  | succ n => simp [skip, h]

theorem le_skipWhite : s ≤ skipWhite b es s := le_skip

theorem skipWhite_le (hs : s ≤ es) : skipWhite b es s ≤ es := by
  have hle : skipWhite b es s ≤ s + (es - s) := skip_le
  omega

theorem skipWhite_stops (hs : s ≤ es) (hlt : skipWhite b es s < es) : char b (skipWhite b es s) ∉ whitespace := by
  have hstop := skip_stops (b := b) (n := es - s) (s := s) (p := fun c => whitespace.contains c)
    (by unfold skipWhite at hlt; omega)
  simpa [skipWhite] using hstop

theorem skipWhite_skipWhite (hs : s ≤ es) : skipWhite b es (skipWhite b es s) = skipWhite b es s := by
  rcases Nat.eq_or_lt_of_le (skipWhite_le (b := b) hs) with heq | hlt
  · rw [heq]
    simp [skipWhite, skip]
  · exact skip_of_not (by simpa using skipWhite_stops hs hlt)

end Skip

/-! ## One token -/

section Token

variable {b : List Char} {es q s : ℕ}

/-- The word is in the line, all of it. -/
structure IsWord (b : List Char) (es : ℕ) (w : Span) : Prop where
  lt : w.1 < w.2
  le : w.2 ≤ es
  inside : ∀ i, w.1 ≤ i → i < w.2 → char b i ∉ whitespace ∧ char b i ∉ symbols
  after : w.2 = es ∨ char b w.2 ∈ whitespace ∨ char b w.2 ∈ symbols

/-- The character that a symbol starts with. -/
def Token.symbol {W : Type} : Token W → Option Char
  | .word _ => none
  | .bar => some '|'
  | .lparen => some '('
  | .rparen => some ')'
  | .semi => some ';'
  | .amp => some '&'
  | .lt => some '<'
  | .gt => some '>'
  | .gtgt => some '>'

/-- What `scan` finds before the end of the line. -/
structure Scanned (b : List Char) (es q : ℕ) (t : Token Span) (e : ℕ) : Prop where
  lt : q < e
  le : e ≤ es
  word : ∀ w, t = .word w → IsWord b es w
  symbol : t.symbol = if char b q ∈ symbols then some (char b q) else none

theorem isWord_skipWord (hq : q < es) (hwhite : char b q ∉ whitespace) (hsym : char b q ∉ symbols) :
    IsWord b es (q, skipWord b es q) := by
  have hle : skipWord b es q ≤ es := by
    have := skip_le (b := b) (n := es - q) (s := q) (p := fun c => !whitespace.contains c && !symbols.contains c)
    unfold skipWord
    omega
  have hinside : ∀ i, q ≤ i → i < skipWord b es q → char b i ∉ whitespace ∧ char b i ∉ symbols := by
    intro i hi hlt
    simpa using skip_passed hi hlt
  refine ⟨?_, hle, hinside, ?_⟩
  · -- the first character is in the word
    have hsucc : skipWord b es q = skip b (fun c => !whitespace.contains c && !symbols.contains c) (es - q - 1) (q + 1) := by
      obtain ⟨m, hm⟩ : ∃ m, es - q = m + 1 := ⟨es - q - 1, by omega⟩
      simp [skipWord, hm, skip, hwhite, hsym]
    show q < skipWord b es q
    rw [hsucc]
    exact le_skip
  rcases Nat.eq_or_lt_of_le hle with heq | hlt
  · exact .inl heq
  right
  have hstop := skip_stops (b := b) (n := es - q) (s := q)
    (p := fun c => !whitespace.contains c && !symbols.contains c) (by unfold skipWord at hlt; omega)
  simp only [Bool.and_eq_false_iff, Bool.not_eq_false', List.contains_iff_mem] at hstop
  exact hstop

theorem scan_end (h : Ends b es) : scan b es es = (none, es) := by
  have hnul : char b es = '\x00' := h.stop
  simp [scan, hnul]

theorem scan_some (h : Ends b es) (hq : q < es) (hwhite : char b q ∉ whitespace) :
    ∃ t e, scan b es q = (some t, e) ∧ Scanned b es q t e := by
  have hnul := h.before q hq
  have hnext : char b (q + 1) = '>' → q + 1 < es := by
    intro hgt
    rcases Nat.eq_or_lt_of_le (Nat.succ_le_of_lt hq) with heq | hlt
    · have hend : char b (q + 1) = nul := by rw [show q + 1 = es from heq]; exact h.stop
      rw [hgt] at hend
      exact absurd hend (by decide)
    · exact hlt
  unfold scan
  split
  case h_1 hc => exact absurd hc hnul
  case h_8 hc =>
    by_cases hgt : char b (q + 1) = '>'
    · rw [if_pos hgt]
      exact ⟨_, _, rfl, by omega, hnext hgt, by simp, by rw [hc]; decide⟩
    · rw [if_neg hgt]
      exact ⟨_, _, rfl, by omega, hq, by simp, by rw [hc]; decide⟩
  case h_9 hbar hl hr hsemi hamp hlt hgt =>
    have hsym : char b q ∉ symbols := by
      simp only [symbols, List.mem_cons, List.not_mem_nil, or_false]
      tauto
    have hword := isWord_skipWord hq hwhite hsym
    refine ⟨_, _, rfl, hword.lt, hword.le, ?_, by rw [if_neg hsym]; rfl⟩
    rintro w ⟨⟩
    exact hword
  all_goals
    next hc => exact ⟨_, _, rfl, by omega, hq, by simp, by rw [hc]; decide⟩

end Token

/-! ## All tokens -/

def tokens (b : List Char) (es s : ℕ) : List (Token Span) :=
  match gettoken b es s with
  | (none, _) => []
  | (some t, s') => if s < s' ∧ s' ≤ es then t :: tokens b es s' else []
termination_by es - s

/-- The pointer `s` stands before the tokens `ts`. -/
structure Reads (b : List Char) (es s : ℕ) (ts : List (Token Span)) : Prop where
  le : s ≤ es
  eq : tokens b es s = ts

/-- One of `toks` comes next. -/
def startsWith {W : Type} (toks : List Char) : List (Token W) → Bool
  | [] => false
  | t :: _ => t.symbol.any toks.contains

section Reads

variable {b : List Char} {es s : ℕ} {t : Token Span} {ts : List (Token Span)}

theorem gettoken_skipWhite (hs : s ≤ es) : gettoken b es (skipWhite b es s) = gettoken b es s := by
  unfold gettoken
  rw [skipWhite_skipWhite hs]

theorem gettoken_end (h : Ends b es) (hs : skipWhite b es s = es) : gettoken b es s = (none, es) := by
  have hskip : skipWhite b es es = es := by simp [skipWhite, skip]
  simp only [gettoken, hs, scan_end h, hskip]

/-- A token is found unless only white space is left. -/
theorem gettoken_some (h : Ends b es) (hs : s ≤ es) (hlt : skipWhite b es s < es) :
    ∃ t s', gettoken b es s = (some t, s') ∧ s < s' ∧ s' ≤ es ∧ ∃ e, Scanned b es (skipWhite b es s) t e := by
  rcases scan_some h hlt (skipWhite_stops hs hlt) with ⟨t, e, hscan, hsc⟩
  refine ⟨t, skipWhite b es e, by simp [gettoken, hscan], ?_, skipWhite_le hsc.le, e, hsc⟩
  calc s ≤ skipWhite b es s := le_skipWhite
    _ < e := hsc.lt
    _ ≤ skipWhite b es e := le_skipWhite

theorem tokens_end (h : Ends b es) (hs : skipWhite b es s = es) : tokens b es s = [] := by
  rw [tokens, gettoken_end h hs]

theorem tokens_some {s' : ℕ} (hget : gettoken b es s = (some t, s')) (hlt : s < s') (hle : s' ≤ es) :
    tokens b es s = t :: tokens b es s' := by
  rw [tokens, hget]
  simp [hlt, hle]

theorem Reads.skipWhite (h : Ends b es) (hr : Reads b es s ts) : Reads b es (skipWhite b es s) ts := by
  refine ⟨skipWhite_le hr.le, ?_⟩
  rw [← hr.eq]
  rcases Nat.eq_or_lt_of_le (skipWhite_le (b := b) hr.le) with heq | hlt
  · rw [tokens_end h heq, tokens_end h (by rw [skipWhite_skipWhite hr.le]; exact heq)]
  have hlt' : Shell.skipWhite b es (Shell.skipWhite b es s) < es := by rwa [skipWhite_skipWhite hr.le]
  rcases gettoken_some h (skipWhite_le hr.le) hlt' with ⟨t, s', hget, hss, hle, -⟩
  rw [tokens_some hget hss hle]
  rw [gettoken_skipWhite hr.le] at hget
  exact (tokens_some hget (Nat.lt_of_le_of_lt le_skipWhite hss) hle).symm

theorem Reads.gettoken_nil (h : Ends b es) (hr : Reads b es s []) : gettoken b es s = (none, es) := by
  rcases Nat.eq_or_lt_of_le (skipWhite_le (b := b) hr.le) with heq | hlt
  · exact gettoken_end h heq
  · rcases gettoken_some h hr.le hlt with ⟨t, s', hget, hss, hle, -⟩
    have hnil := hr.eq
    rw [tokens_some hget hss hle] at hnil
    exact absurd hnil (List.cons_ne_nil _ _)

theorem Reads.gettoken_cons (h : Ends b es) (hr : Reads b es s (t :: ts)) :
    ∃ s', gettoken b es s = (some t, s') ∧ Reads b es s' ts := by
  rcases Nat.eq_or_lt_of_le (skipWhite_le (b := b) hr.le) with heq | hlt
  · have hnil := hr.eq
    rw [tokens_end h heq] at hnil
    exact absurd hnil.symm (List.cons_ne_nil _ _)
  rcases gettoken_some h hr.le hlt with ⟨t', s', hget, hss, hle, -⟩
  have hcons := hr.eq
  rw [tokens_some hget hss hle] at hcons
  rcases List.cons.inj hcons with ⟨rfl, hts⟩
  exact ⟨s', hget, hle, hts⟩

theorem Reads.peek (h : Ends b es) (hr : Reads b es s ts) (toks : List Char) (htoks : toks ⊆ symbols) :
    Shell.peek b es s toks = (startsWith toks ts, Shell.skipWhite b es s) := by
  have hfst : (decide (char b (Shell.skipWhite b es s) ≠ nul) && toks.contains (char b (Shell.skipWhite b es s))) =
      startsWith toks ts := by
    rcases Nat.eq_or_lt_of_le (skipWhite_le (b := b) hr.le) with heq | hlt
    · have hnil := hr.eq
      rw [tokens_end h heq] at hnil
      subst hnil
      simp [heq, h.stop, startsWith]
    rcases gettoken_some h hr.le hlt with ⟨t, s', hget, hss, hle, e, hsc⟩
    have hcons := hr.eq
    rw [tokens_some hget hss hle] at hcons
    subst hcons
    have hnul := h.before _ hlt
    by_cases hsym : char b (Shell.skipWhite b es s) ∈ symbols
    · simp [startsWith, hsc.symbol, hsym, hnul]
    · have hnot : char b (Shell.skipWhite b es s) ∉ toks := fun hmem => hsym (htoks hmem)
      simp [startsWith, hsc.symbol, hsym, hnot]
  simp only [Shell.peek, hfst]

theorem Reads.skipWhite_eq_iff (h : Ends b es) (hr : Reads b es s ts) : Shell.skipWhite b es s = es ↔ ts = [] := by
  constructor
  · intro heq
    rw [← hr.eq, tokens_end h heq]
  rintro rfl
  have hget := hr.gettoken_nil h
  by_contra hne
  rcases gettoken_some h hr.le (Nat.lt_of_le_of_ne (skipWhite_le hr.le) hne) with ⟨t, s', hget', -⟩
  rw [hget] at hget'
  exact absurd hget' (by simp)

theorem length_tokens_le (hs : s ≤ es) : (tokens b es s).length ≤ es - s := by
  induction hk : es - s using Nat.strongRecOn generalizing s with
  | _ k ih =>
    rw [tokens]
    split
    · exact Nat.zero_le _
    split_ifs with hlt
    · have hrest := ih (es - _) (by omega) hlt.2 rfl
      rw [List.length_cons]
      omega
    · exact Nat.zero_le _

theorem isWord_of_mem {w : Span} (h : Ends b es) (hr : Reads b es s ts) (hw : Token.word w ∈ ts) : IsWord b es w := by
  induction ts generalizing s with
  | nil => simp at hw
  | cons t ts ih =>
    rcases hr.gettoken_cons h with ⟨s', hget, hr'⟩
    rcases List.mem_cons.1 hw with rfl | hw
    · rcases Nat.eq_or_lt_of_le (skipWhite_le (b := b) hr.le) with heq | hlt
      · rw [gettoken_end h heq] at hget
        exact absurd hget (by simp)
      · rcases gettoken_some h hr.le hlt with ⟨t, s'', hget', -, -, e, hsc⟩
        rw [hget] at hget'
        exact hsc.word w (by simpa using (Prod.mk.inj hget').1.symm)
    · exact ih hr' hw

end Reads

end Xv6.Shell
