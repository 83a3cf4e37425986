import Xv6.Common.Outcome
import Xv6.User.Tokens

/-!
# Parser — the shell's parser accepts its grammar

Each parsing function takes tokens that derive from its nonterminal off the line, and if the tokens before the
pointer derive from it, followed by something that may follow it, it takes just these.  The words of the command
are the words of the line, also when their ends have been overwritten.
-/

namespace Xv6.Shell

open Common

/-- The computation is not `unfinished`, and what it returns satisfies `Q`. -/
abbrev Finishes {α : Type} (m : Except Stop α) (Q : α → Prop) : Prop :=
  Ensures (· = Stop.unfinished) m Q

abbrev Returns {α : Type} (m : Except Stop α) (Q : α → Prop) : Prop :=
  Ensures (fun _ => True) m Q

/-- No token is left, or one that starts with a character of `F`. -/
def Follows {W : Type} (F : List Char) (vs : List (Token W)) : Prop :=
  vs = [] ∨ startsWith F vs = true

section Follows

variable {W : Type} {F G toks : List Char} {t : Token W} {vs : List (Token W)}

theorem startsWith_iff : startsWith toks vs = true ↔ ∃ t us c, vs = t :: us ∧ t.symbol = some c ∧ c ∈ toks := by
  cases vs with
  | nil => simp [startsWith]
  | cons t us =>
    simp only [startsWith, Option.any_eq_true, List.contains_iff_mem, List.cons.injEq]
    constructor
    · rintro ⟨c, hc, hmem⟩
      exact ⟨t, us, c, ⟨rfl, rfl⟩, hc, hmem⟩
    · rintro ⟨t', us', c, ⟨rfl, rfl⟩, hc, hmem⟩
      exact ⟨c, hc, hmem⟩

theorem Follows.mono (h : Follows F vs) (hFG : F ⊆ G) : Follows G vs := by
  refine h.imp_right fun h => ?_
  rcases startsWith_iff.1 h with ⟨t, us, c, hvs, hc, hmem⟩
  exact startsWith_iff.2 ⟨t, us, c, hvs, hc, hFG hmem⟩

theorem Follows.not_startsWith (h : Follows F vs) (toks : List Char) (hF : ∀ c ∈ F, c ∉ toks) :
    startsWith toks vs = false := by
  rcases h with rfl | h
  · rfl
  · rcases startsWith_iff.1 h with ⟨t, us, c, rfl, hc, hmem⟩
    simp [startsWith, hc, hF c hmem]

theorem startsWith_arrow (h : startsWith ['<', '>'] vs = true) : ∃ a us, vs = Arrow.token a :: us := by
  rcases startsWith_iff.1 h with ⟨t, us, c, rfl, hc, hmem⟩
  cases t with
  | lt => exact ⟨.lt, us, rfl⟩
  | gt => exact ⟨.gt, us, rfl⟩
  | gtgt => exact ⟨.gtgt, us, rfl⟩
  | word w => cases hc
  | _ =>
    cases hc
    simp at hmem

/-- A symbol is known by its character, unless it may be `>` or `>>`. -/
theorem symbol_inj {u : Token W} {x : Char} (ht : t.symbol = some x) (hu : u.symbol = some x) (hx : x ≠ '>') :
    u = t := by
  cases t <;> cases ht <;> cases u <;> simp_all [Token.symbol]

theorem startsWith_singleton {x : Char} (h : startsWith [x] vs = true) (ht : t.symbol = some x) (hx : x ≠ '>') :
    ∃ us, vs = t :: us := by
  rcases startsWith_iff.1 h with ⟨u, us, c, rfl, hc, hmem⟩
  obtain rfl : c = x := by simpa using hmem
  exact ⟨us, by rw [symbol_inj ht hc hx]⟩

end Follows

variable {b : List Char} {es n s argc : ℕ} {c : Cmd Span} {ts us vs : List (Token Span)} {rs : List (Arrow × Span)}
  {ws : List Span}

/-! ## Redirections -/

theorem redircmd_token (a : Arrow) (w : Span) : redircmd (some a.token) c w = .redir c w a.mode a.fd := by
  cases a <;> rfl

theorem Cmd.addArg_redirect (c : Cmd Span) (rs : List (Arrow × Span)) (w : Span) :
    (c.redirect rs).addArg w = (c.addArg w).redirect rs := by
  induction rs generalizing c with
  | nil => rfl
  | cons r rs ih => exact ih _

theorem Cmd.redirect_append (rs rs' : List (Arrow × Span)) :
    (c.redirect rs).redirect rs' = c.redirect (rs ++ rs') := by
  simp [Cmd.redirect]

theorem parseredirs_sound (h : Ends b es) (hr : Reads b es s ts) (hn : ts.length < n) :
    Finishes (parseredirs b es n c s) fun r =>
      ∃ rs vs, ts = redirTokens rs ++ vs ∧ r.1 = c.redirect rs ∧ Reads b es r.2 vs := by
  induction n generalizing c s ts with
  | zero => omega
  | succ n ih =>
    simp only [parseredirs, hr.peek h ['<', '>'] (by decide)]
    split_ifs with hmore
    · rcases startsWith_arrow hmore with ⟨a, us, rfl⟩
      rcases (hr.skipWhite h).gettoken_cons h with ⟨s1, hget, hr1⟩
      rw [hget]
      cases us with
      | nil =>
        rw [hr1.gettoken_nil h]
        exact Ensures.error (by simp)
      | cons t us =>
        rcases hr1.gettoken_cons h with ⟨s2, hget2, hr2⟩
        rw [hget2]
        cases t with
        | word w =>
          refine (ih hr2 (by simp only [List.length_cons] at hn; omega)).mono ?_
          rintro r ⟨rs, vs, rfl, hcmd, hrest⟩
          refine ⟨(a, w) :: rs, vs, rfl, ?_, hrest⟩
          rw [hcmd, redircmd_token]
          rfl
        | _ => exact Ensures.error (by simp)
    · exact Ensures.ok ⟨[], ts, rfl, rfl, hr.skipWhite h⟩

theorem parseredirs_complete (h : Ends b es) (hr : Reads b es s (redirTokens rs ++ vs))
    (hvs : startsWith ['<', '>'] vs = false) (hn : (redirTokens rs ++ vs).length < n) :
    Returns (parseredirs b es n c s) fun r => r.1 = c.redirect rs ∧ Reads b es r.2 vs := by
  induction rs generalizing n c s with
  | nil =>
    cases n with
    | zero => exact absurd hn (Nat.not_lt_zero _)
    | succ n =>
      have hr' : Reads b es s vs := hr
      simp only [parseredirs, hr'.peek h ['<', '>'] (by decide), hvs]
      exact Ensures.ok ⟨rfl, hr'.skipWhite h⟩
  | cons r rs ih =>
    rcases r with ⟨a, w⟩
    have hcons : redirTokens ((a, w) :: rs) ++ vs = a.token :: .word w :: (redirTokens rs ++ vs) := rfl
    rw [hcons] at hr hn
    cases n with
    | zero => exact absurd hn (Nat.not_lt_zero _)
    | succ n =>
      have hmore : startsWith ['<', '>'] (a.token :: Token.word w :: (redirTokens rs ++ vs)) = true := by
        cases a <;> rfl
      rcases (hr.skipWhite h).gettoken_cons h with ⟨s1, hget, hr1⟩
      rcases hr1.gettoken_cons h with ⟨s2, hget2, hr2⟩
      simp only [parseredirs, hr.peek h ['<', '>'] (by decide), hmore, hget, hget2, if_true, redircmd_token]
      exact ih hr2 (by simp only [List.length_cons] at hn; omega)

/-! ## Arguments -/

/-- What may come after an `exec`, a `pipe` and a `line`. -/
def follow : Nonterminal → List Char
  | .line => [')']
  | .pipe => [')', '&', ';']
  | .exec => [')', '&', ';', '|']

theorem Reads.at_end (h : Ends b es) : Reads b es es [] :=
  ⟨Nat.le_refl es, tokens_end h (Nat.le_antisymm (skipWhite_le (Nat.le_refl es)) le_skipWhite)⟩

theorem addArg_words (rs rs' : List (Arrow × Span)) (w : Span) :
    (((Cmd.exec ws).redirect rs).addArg w).redirect rs' = (Cmd.exec (ws ++ [w])).redirect (rs ++ rs') := by
  rw [Cmd.addArg_redirect, Cmd.redirect_append]
  rfl

variable {as : List (Span × List (Arrow × Span))}

/-- Where the loop of `parseredirs` stops. -/
theorem not_arrow (hvs : Follows (follow .exec) vs) : startsWith ['<', '>'] (argTokens as ++ vs) = false := by
  cases as with
  | nil => exact hvs.not_startsWith _ (by simp [follow])
  | cons a as => rfl

theorem parseargs_sound (h : Ends b es) (hr : Reads b es s ts) (hn : ts.length < n) (hargc : argc ≤ maxargs - 1) :
    Finishes (parseargs b es n ((Cmd.exec ws).redirect rs) argc s) fun r =>
      ∃ as vs, ts = argTokens as ++ vs ∧ argc + as.length ≤ maxargs - 1 ∧
        r.1 = (Cmd.exec (ws ++ as.map Prod.fst)).redirect (rs ++ as.flatMap Prod.snd) ∧ Reads b es r.2 vs := by
  induction n generalizing s ts argc ws rs with
  | zero => omega
  | succ n ih =>
    have hnone : ∀ s', Reads b es s' ts → ∃ as vs, ts = argTokens as ++ vs ∧ argc + as.length ≤ maxargs - 1 ∧
        (Cmd.exec ws).redirect rs = (Cmd.exec (ws ++ as.map Prod.fst)).redirect (rs ++ as.flatMap Prod.snd) ∧
          Reads b es s' vs :=
      fun s' hr' => ⟨[], ts, rfl, hargc, by simp, hr'⟩
    simp only [parseargs, hr.peek h ['|', ')', '&', ';'] (by decide)]
    by_cases hstop : startsWith ['|', ')', '&', ';'] ts = true
    · rw [if_pos hstop]
      exact Ensures.ok (hnone _ (hr.skipWhite h))
    rw [if_neg hstop]
    cases ts with
    | nil =>
      rw [(hr.skipWhite h).gettoken_nil h]
      exact Ensures.ok (hnone _ (Reads.at_end h))
    | cons t us =>
      rcases (hr.skipWhite h).gettoken_cons h with ⟨s1, hget, hr1⟩
      rw [hget]
      simp only [List.length_cons] at hn
      cases t with
      | word w =>
        simp only
        split_ifs with hmax
        · exact Ensures.error (by simp)
        refine (parseredirs_sound h hr1 (by omega)).bind ?_
        rintro ⟨cmd, s2⟩ ⟨rs', vs, rfl, rfl, hr2⟩
        simp only [addArg_words, List.length_append] at hn ⊢
        refine (ih hr2 (by omega) (by omega)).mono ?_
        rintro r ⟨as, vs, rfl, hlen, hcmd, hrest⟩
        refine ⟨(w, rs') :: as, vs, by simp [argTokens], ?_, by simpa using hcmd, hrest⟩
        rw [List.length_cons]
        omega
      | _ => exact Ensures.error (by simp)

theorem parseargs_complete (h : Ends b es) (hr : Reads b es s (argTokens as ++ vs)) (hvs : Follows (follow .exec) vs)
    (hn : (argTokens as ++ vs).length < n) (hargc : argc + as.length ≤ maxargs - 1) :
    Returns (parseargs b es n ((Cmd.exec ws).redirect rs) argc s) fun r =>
      r.1 = (Cmd.exec (ws ++ as.map Prod.fst)).redirect (rs ++ as.flatMap Prod.snd) ∧ Reads b es r.2 vs := by
  induction as generalizing n s argc ws rs with
  | nil =>
    cases n with
    | zero => exact absurd hn (Nat.not_lt_zero _)
    | succ n =>
      have hr' : Reads b es s vs := hr
      simp only [parseargs, hr'.peek h ['|', ')', '&', ';'] (by decide)]
      rcases hvs with rfl | hvs
      · rw [(hr'.skipWhite h).gettoken_nil h]
        exact Ensures.ok ⟨by simp, Reads.at_end h⟩
      have hstop : startsWith ['|', ')', '&', ';'] vs = true := by
        rcases startsWith_iff.1 hvs with ⟨t, us, c, hcons, hc, hmem⟩
        refine startsWith_iff.2 ⟨t, us, c, hcons, hc, ?_⟩
        revert hmem
        simp only [follow, List.mem_cons, List.not_mem_nil, or_false]
        tauto
      rw [if_pos hstop]
      exact Ensures.ok ⟨by simp, hr'.skipWhite h⟩
  | cons a as ih =>
    rcases a with ⟨w, rs'⟩
    have hcons : argTokens ((w, rs') :: as) ++ vs = .word w :: (redirTokens rs' ++ (argTokens as ++ vs)) := by
      simp [argTokens]
    rw [hcons] at hr hn
    simp only [List.length_cons] at hn hargc
    cases n with
    | zero => exact absurd hn (Nat.not_lt_zero _)
    | succ n =>
      rcases (hr.skipWhite h).gettoken_cons h with ⟨s1, hget, hr1⟩
      have hword : startsWith ['|', ')', '&', ';']
          (Token.word w :: (redirTokens rs' ++ (argTokens as ++ vs))) = false := rfl
      simp only [parseargs, hr.peek h ['|', ')', '&', ';'] (by decide), hword, hget]
      rw [if_neg (by simp), if_neg (by omega)]
      refine (parseredirs_complete h hr1 (not_arrow hvs) (by omega)).bind ?_
      rintro ⟨cmd, s2⟩ ⟨rfl, hr2⟩
      simp only [addArg_words]
      refine (ih hr2 (by simp only [List.length_append] at hn ⊢; omega) (by omega)).mono ?_
      rintro r ⟨hcmd, hrest⟩
      exact ⟨by simpa using hcmd, hrest⟩

/-! ## Background -/

theorem parseback_sound (h : Ends b es) (hr : Reads b es s ts) (hn : ts.length < n) :
    Finishes (parseback b es n c s) fun r =>
      ∃ k vs, ts = List.replicate k .amp ++ vs ∧ r.1 = Cmd.back^[k] c ∧ Reads b es r.2 vs := by
  induction n generalizing c s ts with
  | zero => omega
  | succ n ih =>
    simp only [parseback, hr.peek h ['&'] (by decide)]
    split_ifs with hmore
    · rcases startsWith_singleton hmore (t := .amp) rfl (by decide) with ⟨us, rfl⟩
      rcases (hr.skipWhite h).gettoken_cons h with ⟨s1, hget, hr1⟩
      rw [hget]
      refine (ih hr1 (by simp only [List.length_cons] at hn; omega)).mono ?_
      rintro r ⟨k, vs, rfl, hcmd, hrest⟩
      exact ⟨k + 1, vs, rfl, hcmd, hrest⟩
    · exact Ensures.ok ⟨0, ts, rfl, rfl, hr.skipWhite h⟩

theorem parseback_complete {k : ℕ} (h : Ends b es) (hr : Reads b es s (List.replicate k .amp ++ vs))
    (hvs : startsWith ['&'] vs = false) (hn : k + vs.length < n) :
    Returns (parseback b es n c s) fun r => r.1 = Cmd.back^[k] c ∧ Reads b es r.2 vs := by
  induction k generalizing n c s with
  | zero =>
    cases n with
    | zero => exact absurd hn (Nat.not_lt_zero _)
    | succ n =>
      have hr' : Reads b es s vs := hr
      simp only [parseback, hr'.peek h ['&'] (by decide), hvs]
      exact Ensures.ok ⟨rfl, hr'.skipWhite h⟩
  | succ k ih =>
    cases n with
    | zero => exact absurd hn (Nat.not_lt_zero _)
    | succ n =>
      have hr' : Reads b es s (.amp :: (List.replicate k .amp ++ vs)) := hr
      have hmore : startsWith ['&'] (Token.amp :: (List.replicate k .amp ++ vs)) = true := rfl
      rcases (hr'.skipWhite h).gettoken_cons h with ⟨s1, hget, hr1⟩
      simp only [parseback, hr'.peek h ['&'] (by decide), hmore, hget, if_true]
      exact ih hr1 (by omega)

/-! ## The recursive functions -/

def parse (b : List Char) (es : ℕ) : Nonterminal → ℕ → ℕ → Except Stop (Cmd Span × ℕ)
  | .line => parseline b es
  | .pipe => parsepipe b es
  | .exec => parseexec b es

/-- The steps that are enough for a line of `k` tokens. -/
def steps (k : ℕ) : Nonterminal → ℕ
  | .line => 4 * k + 4
  | .pipe => 4 * k + 3
  | .exec => 4 * k + 2

/-- What has been parsed derives from `N`. -/
def Parsed (b : List Char) (es : ℕ) (N : Nonterminal) (ts : List (Token Span)) (r : Cmd Span × ℕ) : Prop :=
  ∃ us vs, ts = us ++ vs ∧ Derives N us r.1 ∧ Reads b es r.2 vs

/-- The functions with `n` steps take off what derives from their nonterminal. -/
structure Sound (b : List Char) (es n : ℕ) : Prop where
  parse : ∀ N s ts, Reads b es s ts → steps ts.length N ≤ n → Finishes (parse b es N n s) (Parsed b es N ts)
  block : ∀ s ts, Reads b es s ts → 4 * ts.length + 1 ≤ n → Finishes (parseblock b es n s) (Parsed b es .exec ts)

theorem Sound.line (h : Ends b es) (hs : Sound b es n) (hr : Reads b es s ts) (hn : steps ts.length .line ≤ n + 1) :
    Finishes (parseline b es (n + 1) s) (Parsed b es .line ts) := by
  simp only [steps] at hn
  unfold parseline
  refine (hs.parse .pipe s ts hr (by simp only [steps]; omega)).bind ?_
  rintro ⟨cmd, s1⟩ ⟨us, vs, rfl, hus, hr1⟩
  simp only [List.length_append] at hn
  refine (parseback_sound h hr1 (by omega)).bind ?_
  rintro ⟨cmd, s2⟩ ⟨k, xs, rfl, rfl, hr2⟩
  simp only [hr2.peek h [';'] (by decide)]
  split_ifs with hsemi
  · rcases startsWith_singleton hsemi (t := .semi) rfl (by decide) with ⟨ys, rfl⟩
    rcases (hr2.skipWhite h).gettoken_cons h with ⟨s3, hget, hr3⟩
    rw [hget]
    simp only [List.length_append, List.length_cons] at hn
    refine (hs.parse .line s3 ys hr3 (by simp only [steps]; omega)).bind ?_
    rintro ⟨right, s4⟩ ⟨zs, rest, rfl, hzs, hr4⟩
    exact Ensures.ok ⟨_, rest, by simp, .list k hus hzs, hr4⟩
  · exact Ensures.ok ⟨_, xs, by simp, .line k hus, hr2.skipWhite h⟩

theorem Sound.pipe (h : Ends b es) (hs : Sound b es n) (hr : Reads b es s ts) (hn : steps ts.length .pipe ≤ n + 1) :
    Finishes (parsepipe b es (n + 1) s) (Parsed b es .pipe ts) := by
  simp only [steps] at hn
  unfold parsepipe
  refine (hs.parse .exec s ts hr (by simp only [steps]; omega)).bind ?_
  rintro ⟨cmd, s1⟩ ⟨us, xs, rfl, hus, hr1⟩
  simp only [hr1.peek h ['|'] (by decide)]
  split_ifs with hbar
  · rcases startsWith_singleton hbar (t := .bar) rfl (by decide) with ⟨ys, rfl⟩
    rcases (hr1.skipWhite h).gettoken_cons h with ⟨s2, hget, hr2⟩
    rw [hget]
    simp only [List.length_append, List.length_cons] at hn
    refine (hs.parse .pipe s2 ys hr2 (by simp only [steps]; omega)).bind ?_
    rintro ⟨right, s3⟩ ⟨zs, rest, rfl, hzs, hr3⟩
    exact Ensures.ok ⟨_, rest, by simp, .pipe hus hzs, hr3⟩
  · exact Ensures.ok ⟨us, xs, rfl, .exec hus, hr1.skipWhite h⟩

theorem Sound.parseblock (h : Ends b es) (hs : Sound b es n) (hr : Reads b es s ts) (hn : 4 * ts.length + 1 ≤ n + 1) :
    Finishes (parseblock b es (n + 1) s) (Parsed b es .exec ts) := by
  simp only [Shell.parseblock, hr.peek h ['('] (by decide)]
  split_ifs with hl
  · rcases startsWith_singleton hl (t := .lparen) rfl (by decide) with ⟨us, rfl⟩
    rcases (hr.skipWhite h).gettoken_cons h with ⟨s1, hget, hr1⟩
    rw [hget]
    simp only [List.length_cons] at hn
    refine (hs.parse .line s1 us hr1 (by simp only [steps]; omega)).bind ?_
    rintro ⟨cmd, s2⟩ ⟨us, xs, rfl, hus, hr2⟩
    simp only [hr2.peek h [')'] (by decide)]
    split_ifs with hrp
    · rcases startsWith_singleton hrp (t := .rparen) rfl (by decide) with ⟨ys, rfl⟩
      rcases (hr2.skipWhite h).gettoken_cons h with ⟨s3, hget3, hr3⟩
      rw [hget3]
      simp only [List.length_append, List.length_cons] at hn
      refine (parseredirs_sound h hr3 (by omega)).mono ?_
      rintro ⟨cmd, s4⟩ ⟨rs, vs, rfl, rfl, hr4⟩
      exact ⟨_, vs, by simp, .block rs hus, hr4⟩
    · exact Ensures.error (by simp)
  · exact Ensures.error (by simp)

theorem Sound.exec (h : Ends b es) (hs : Sound b es n) (hr : Reads b es s ts) (hn : steps ts.length .exec ≤ n + 1) :
    Finishes (parseexec b es (n + 1) s) (Parsed b es .exec ts) := by
  simp only [steps] at hn
  simp only [parseexec, hr.peek h ['('] (by decide)]
  split_ifs with hl
  · exact hs.block _ ts (hr.skipWhite h) (by omega)
  refine (parseredirs_sound h (hr.skipWhite h) (by omega)).bind ?_
  rintro ⟨cmd, s1⟩ ⟨rs, us, rfl, rfl, hr1⟩
  simp only [List.length_append] at hn
  refine (parseargs_sound h hr1 (by omega) (Nat.zero_le _)).mono ?_
  rintro ⟨cmd, s2⟩ ⟨as, vs, rfl, hlen, rfl, hr2⟩
  refine ⟨_, vs, by rw [List.append_assoc], ?_, hr2⟩
  simpa using Derives.words rs as (by simpa using hlen)

theorem sound (h : Ends b es) (n : ℕ) : Sound b es n := by
  induction n with
  | zero =>
    refine ⟨fun N s ts _ hn => ?_, fun s ts _ hn => by omega⟩
    cases N <;> simp [steps] at hn
  | succ n ih =>
    refine ⟨fun N s ts hr hn => ?_, fun s ts hr hn => ih.parseblock h hr hn⟩
    cases N with
    | line => exact ih.line h hr hn
    | pipe => exact ih.pipe h hr hn
    | exec => exact ih.exec h hr hn

/-! ## Completeness -/

theorem Follows.amps {k : ℕ} (hvs : Follows (follow .pipe) vs) :
    Follows (follow .pipe) (List.replicate k .amp ++ vs) := by
  cases k with
  | zero => exact hvs
  | succ k => exact .inr rfl

theorem not_lparen (hvs : Follows (follow .exec) vs) :
    startsWith ['('] (redirTokens rs ++ (argTokens as ++ vs)) = false := by
  cases rs with
  | nil =>
    cases as with
    | nil => exact hvs.not_startsWith _ (by simp [follow])
    | cons a as => rfl
  | cons r rs =>
    rcases r with ⟨a, w⟩
    cases a <;> rfl

/-- Tokens that derive from `N` are taken off, and the command is that of the derivation. -/
theorem complete {N : Nonterminal} (h : Ends b es) (hd : Derives N us c) :
    ∀ n s vs, Reads b es s (us ++ vs) → Follows (follow N) vs → steps (us ++ vs).length N ≤ n →
      Returns (parse b es N n s) fun r => r.1 = c ∧ Reads b es r.2 vs := by
  induction hd with
  | @line ts c k _ ih =>
    intro n s vs hr hvs hn
    obtain ⟨n, rfl⟩ : ∃ m, n = m + 1 := ⟨n - 1, by simp only [steps] at hn; omega⟩
    rw [List.append_assoc] at hr hn
    simp only [steps, List.length_append, List.length_replicate] at hn
    have hpipe := ih n s _ hr (hvs.mono (by decide)).amps
      (by simp only [steps, List.length_append, List.length_replicate]; omega)
    simp only [parse, parseline]
    refine hpipe.bind ?_
    rintro ⟨cmd, s1⟩ ⟨rfl, hr1⟩
    refine (parseback_complete h hr1 (hvs.not_startsWith _ (by simp [follow])) (by omega)).bind ?_
    rintro ⟨cmd, s2⟩ ⟨rfl, hr2⟩
    simp only [hr2.peek h [';'] (by decide), hvs.not_startsWith [';'] (by simp [follow])]
    exact Ensures.ok ⟨rfl, hr2.skipWhite h⟩
  | @list ts us c d k _ _ ihc ihd =>
    intro n s vs hr hvs hn
    obtain ⟨n, rfl⟩ : ∃ m, n = m + 1 := ⟨n - 1, by simp only [steps] at hn; omega⟩
    have happ : ts ++ (List.replicate k .amp ++ .semi :: us) ++ vs =
        ts ++ (List.replicate k .amp ++ (.semi :: (us ++ vs))) := by simp
    rw [happ] at hr hn
    simp only [steps, List.length_append, List.length_replicate, List.length_cons] at hn
    have hsemi : Follows (follow .pipe) (Token.semi :: (us ++ vs)) := .inr rfl
    have hpipe := ihc n s _ hr hsemi.amps
      (by simp only [steps, List.length_append, List.length_replicate, List.length_cons]; omega)
    simp only [parse, parseline]
    refine hpipe.bind ?_
    rintro ⟨cmd, s1⟩ ⟨rfl, hr1⟩
    have hback := parseback_complete (c := cmd) (n := n) h hr1 rfl
      (by simp only [List.length_append, List.length_cons]; omega)
    refine hback.bind ?_
    rintro ⟨cmd', s2⟩ ⟨rfl, hr2⟩
    rcases (hr2.skipWhite h).gettoken_cons h with ⟨s3, hget, hr3⟩
    have hmore : startsWith [';'] (Token.semi :: (us ++ vs)) = true := rfl
    simp only [hr2.peek h [';'] (by decide), hmore, if_true, hget]
    refine (ihd n s3 vs hr3 hvs (by simp only [steps, List.length_append]; omega)).bind ?_
    rintro ⟨right, s4⟩ ⟨rfl, hr4⟩
    exact Ensures.ok ⟨rfl, hr4⟩
  | @exec ts c _ ih =>
    intro n s vs hr hvs hn
    obtain ⟨n, rfl⟩ : ∃ m, n = m + 1 := ⟨n - 1, by simp only [steps] at hn; omega⟩
    simp only [steps] at hn
    simp only [parse, parsepipe]
    refine (ih n s vs hr (hvs.mono (by decide)) (by simp only [steps]; omega)).bind ?_
    rintro ⟨cmd, s1⟩ ⟨rfl, hr1⟩
    simp only [hr1.peek h ['|'] (by decide), hvs.not_startsWith ['|'] (by simp [follow])]
    exact Ensures.ok ⟨rfl, hr1.skipWhite h⟩
  | @pipe ts us c d _ _ ihc ihd =>
    intro n s vs hr hvs hn
    obtain ⟨n, rfl⟩ : ∃ m, n = m + 1 := ⟨n - 1, by simp only [steps] at hn; omega⟩
    rw [List.append_assoc, List.cons_append] at hr hn
    simp only [steps, List.length_append, List.length_cons] at hn
    simp only [parse, parsepipe]
    refine (ihc n s _ hr (.inr rfl) (by simp only [steps, List.length_append, List.length_cons]; omega)).bind ?_
    rintro ⟨cmd, s1⟩ ⟨rfl, hr1⟩
    rcases (hr1.skipWhite h).gettoken_cons h with ⟨s2, hget, hr2⟩
    have hmore : startsWith ['|'] (Token.bar :: (us ++ vs)) = true := rfl
    simp only [hr1.peek h ['|'] (by decide), hmore, if_true, hget]
    refine (ihd n s2 vs hr2 hvs (by simp only [steps, List.length_append]; omega)).bind ?_
    rintro ⟨right, s3⟩ ⟨rfl, hr3⟩
    exact Ensures.ok ⟨rfl, hr3⟩
  | @block ts c rs _ ih =>
    intro n s vs hr hvs hn
    obtain ⟨n, rfl⟩ : ∃ m, n = m + 1 + 1 := ⟨n - 2, by simp only [steps] at hn; omega⟩
    have happ : Token.lparen :: (ts ++ .rparen :: redirTokens rs) ++ vs =
        .lparen :: (ts ++ .rparen :: (redirTokens rs ++ vs)) := by simp
    rw [happ] at hr hn
    simp only [steps, List.length_append, List.length_cons] at hn
    have hl : startsWith ['('] (Token.lparen :: (ts ++ .rparen :: (redirTokens rs ++ vs))) = true := rfl
    have hr' := hr.skipWhite h
    rcases (hr'.skipWhite h).gettoken_cons h with ⟨s1, hget, hr1⟩
    simp only [parse, parseexec, parseblock, hr.peek h ['('] (by decide),
      hr'.peek h ['('] (by decide), hl, if_true, hget]
    refine (ih n s1 _ hr1 (.inr rfl) (by simp only [steps, List.length_append, List.length_cons]; omega)).bind ?_
    rintro ⟨cmd, s2⟩ ⟨rfl, hr2⟩
    rcases (hr2.skipWhite h).gettoken_cons h with ⟨s3, hget3, hr3⟩
    have hrp : startsWith [')'] (Token.rparen :: (redirTokens rs ++ vs)) = true := rfl
    simp only [hr2.peek h [')'] (by decide), hrp, if_true, hget3]
    exact parseredirs_complete h hr3 (hvs.not_startsWith _ (by simp [follow]))
      (by simp only [List.length_append]; omega)
  | words rs as hlen =>
    intro n s vs hr hvs hn
    obtain ⟨n, rfl⟩ : ∃ m, n = m + 1 := ⟨n - 1, by simp only [steps] at hn; omega⟩
    rw [List.append_assoc] at hr hn
    simp only [steps, List.length_append] at hn
    simp only [parse, parseexec, hr.peek h ['('] (by decide), not_lparen hvs]
    refine (parseredirs_complete h (hr.skipWhite h) (not_arrow hvs)
      (by simp only [List.length_append]; omega)).bind ?_
    rintro ⟨cmd, s1⟩ ⟨rfl, hr1⟩
    have hargs : Returns (parseargs b es n ((Cmd.exec []).redirect rs) 0 s1) _ :=
      parseargs_complete h hr1 hvs (by simp only [List.length_append]; omega) (by simpa using hlen)
    exact hargs.mono fun r hr => ⟨by simpa using hr.1, hr.2⟩

/-! ## Words -/

/-- The word `w` of the line. -/
def text (b : List Char) (w : Span) : List Char :=
  (b.drop w.1).take (w.2 - w.1)

/-- The tree is walked from word to word. -/
theorem nulterminate_eq (b : List Char) (c : Cmd Span) :
    nulterminate b c = c.words.foldl (fun b w => b.set w.2 nul) b := by
  induction c generalizing b with
  | exec argv => rfl
  | redir cmd file mode fd ih =>
    simp only [nulterminate, ih, Cmd.words, List.foldl_append, List.foldl_cons, List.foldl_nil]
  | pipe left right ihl ihr => simp only [nulterminate, ihl, ihr, Cmd.words, List.foldl_append]
  | list left right ihl ihr => simp only [nulterminate, ihl, ihr, Cmd.words, List.foldl_append]
  | back cmd ih => exact ih b

theorem char_set (j i : ℕ) : char (b.set j nul) i = if i = j then nul else char b i := by
  unfold char
  rw [List.getD_eq_getElem?_getD, List.getD_eq_getElem?_getD, List.getElem?_set]
  by_cases hij : i = j
  · subst hij
    simp only [if_true]
    split_ifs <;> rfl
  · rw [if_neg (Ne.symm hij), if_neg hij]

theorem char_foldl_set (b : List Char) (ws : List Span) (i : ℕ) :
    char (ws.foldl (fun b w => b.set w.2 nul) b) i = if i ∈ ws.map Prod.snd then nul else char b i := by
  induction ws generalizing b with
  | nil => simp
  | cons w ws ih =>
    rw [List.foldl_cons, ih, char_set, List.map_cons]
    by_cases hi : i ∈ ws.map Prod.snd
    · rw [if_pos hi, if_pos (List.mem_cons_of_mem _ hi)]
    · rw [if_neg hi]
      simp only [List.mem_cons, hi, or_false]

theorem length_foldl_set (b : List Char) (ws : List Span) :
    (ws.foldl (fun b w => b.set w.2 nul) b).length = b.length := by
  induction ws generalizing b with
  | nil => rfl
  | cons w ws ih => rw [List.foldl_cons, ih, List.length_set]

theorem drop_eq_char_cons {q : ℕ} (hq : q < b.length) : b.drop q = char b q :: b.drop (q + 1) := by
  rw [List.drop_eq_getElem_cons hq]
  congr 1
  simp [char, List.getD_eq_getElem?_getD, List.getElem?_eq_getElem hq]

theorem cstring_eq {q e : ℕ} (hle : q ≤ e) (he : e < b.length) (hbefore : ∀ i, q ≤ i → i < e → char b i ≠ nul)
    (hnul : char b e = nul) : cstring b q = text b (q, e) := by
  obtain ⟨k, rfl⟩ := Nat.exists_eq_add_of_le hle
  clear hle
  induction k generalizing q with
  | zero =>
    have hq : q < b.length := he
    have hdrop : b.drop q = nul :: b.drop (q + 1) := by
      rw [drop_eq_char_cons hq]
      exact congrArg (· :: _) hnul
    simp [cstring, text, hdrop]
  | succ k ih =>
    have hq : q < b.length := by omega
    have hdrop := drop_eq_char_cons hq
    have hne : char b q ≠ nul := hbefore q (Nat.le_refl q) (by omega)
    have hrest := ih (q := q + 1) (by omega) (fun i hi hlt => hbefore i (by omega) (by omega))
      (by rw [show q + 1 + k = q + (k + 1) by omega]; exact hnul)
    have hlen : q + 1 + k - (q + 1) = k := by omega
    have hlen' : q + (k + 1) - q = k + 1 := by omega
    simp only [cstring, text, hlen] at hrest
    simp only [cstring, text, hdrop, hlen', List.take_succ_cons]
    rw [List.takeWhile_cons_of_pos (by simpa using hne), hrest]

theorem text_congr {b' : List Char} {w : Span} (hlen : b'.length = b.length)
    (h : ∀ i, w.1 ≤ i → i < w.2 → char b' i = char b i) : text b' w = text b w := by
  unfold text
  apply List.ext_getElem?
  intro i
  rw [List.getElem?_take, List.getElem?_take]
  split_ifs with hi
  · rw [List.getElem?_drop, List.getElem?_drop]
    have hchar := h (w.1 + i) (by omega) (by omega)
    unfold char at hchar
    rw [List.getD_eq_getElem?_getD, List.getD_eq_getElem?_getD] at hchar
    by_cases hlt : w.1 + i < b.length
    · have hlt' : w.1 + i < b'.length := by omega
      rw [List.getElem?_eq_getElem hlt, List.getElem?_eq_getElem hlt'] at hchar ⊢
      exact congrArg some hchar
    · rw [List.getElem?_eq_none (by omega), List.getElem?_eq_none (by omega)]
  · rfl

theorem cstring_nulterminate {w : Span} (h : Ends b es) (hwords : ∀ w ∈ c.words, IsWord b es w) (hw : w ∈ c.words) :
    cstring (nulterminate b c) w.1 = text b w := by
  have hword := hwords w hw
  rw [nulterminate_eq]
  have hlen := length_foldl_set b c.words
  -- a character of a word is not the end of another one
  have hinside : ∀ i, w.1 ≤ i → i < w.2 → char (c.words.foldl (fun b w => b.set w.2 nul) b) i = char b i := by
    intro i hi hlt
    rw [char_foldl_set, if_neg]
    intro hmem
    rcases List.mem_map.1 hmem with ⟨v, hv, rfl⟩
    have hin := hword.inside v.2 hi hlt
    rcases (hwords v hv).after with hend | hwhite | hsym
    · have hle := hword.le
      omega
    · exact hin.1 hwhite
    · exact hin.2 hsym
  have hend : char (c.words.foldl (fun b w => b.set w.2 nul) b) w.2 = nul := by
    rw [char_foldl_set, if_pos (List.mem_map.2 ⟨w, hw, rfl⟩)]
  have hlt : w.2 < (c.words.foldl (fun b w => b.set w.2 nul) b).length := by
    rw [hlen]
    exact Nat.lt_of_le_of_lt hword.le h.lt
  have hbefore : ∀ i, w.1 ≤ i → i < w.2 → char (c.words.foldl (fun b w => b.set w.2 nul) b) i ≠ nul := by
    intro i hi hlt'
    rw [hinside i hi hlt']
    exact h.before i (Nat.lt_of_lt_of_le hlt' hword.le)
  rw [cstring_eq (Nat.le_of_lt hword.lt) hlt hbefore hend]
  exact text_congr hlen hinside

/-! ## The whole line -/

theorem reads_zero (b : List Char) : Reads b (strlen b) 0 (tokens b (strlen b) 0) := ⟨Nat.zero_le _, rfl⟩

/-- `parsecmd` returns the command that the line derives, or it panics because there is none. -/
theorem parsecmd_derives {b : List Char} {n : ℕ} (hb : nul ∈ b) (hn : 4 * strlen b + 4 ≤ n) :
    (∃ c b', parsecmd b n = .ok (c, b') ∧ Derives .line (tokens b (strlen b) 0) c ∧
        (∀ d, Derives .line (tokens b (strlen b) 0) d → d = c) ∧
        ∀ w ∈ c.words, cstring b' w.1 = text b w) ∨
      (∃ p, parsecmd b n = .error (.panic p) ∧ ∀ d, ¬ Derives .line (tokens b (strlen b) 0) d) := by
  have h := Ends.of_nul_mem hb
  have hr := reads_zero b
  have hlen : (tokens b (strlen b) 0).length ≤ strlen b := length_tokens_le (Nat.zero_le _)
  -- a derivation of all tokens leaves the parser at the end of the line
  have hall : ∀ d, Derives .line (tokens b (strlen b) 0) d →
      ∃ s, parseline b (strlen b) n 0 = .ok (d, s) ∧ Reads b (strlen b) s [] := by
    intro d hd
    have hret := complete h hd n 0 [] (by simpa using hr) (.inl rfl) (by simp only [steps, List.append_nil]; omega)
    cases hparse : parseline b (strlen b) n 0 with
    | error e => exact absurd trivial (hret.not_bad hparse)
    | ok r =>
      have hok := hret.of_ok hparse
      exact ⟨r.2, by rw [← hok.1], hok.2⟩
  have hsound := (sound h n).parse .line 0 _ hr (by simp only [steps]; omega)
  cases hparse : parseline b (strlen b) n 0 with
  | error e =>
    right
    cases e with
    | unfinished => exact absurd rfl (hsound.not_bad hparse)
    | panic p =>
      refine ⟨p, by simp only [parsecmd, hparse]; rfl, fun d hd => ?_⟩
      rcases hall d hd with ⟨s, hok, -⟩
      rw [hparse] at hok
      cases hok
  | ok r =>
    rcases r with ⟨c, s⟩
    rcases hsound.of_ok hparse with ⟨us, vs, htokens, hus, hr'⟩
    have hlast : (peek b (strlen b) s []).2 = strlen b ↔ vs = [] := hr'.skipWhite_eq_iff h
    by_cases hvs : vs = []
    · left
      have hd : Derives .line (tokens b (strlen b) 0) c := by simpa [htokens, hvs] using hus
      refine ⟨c, nulterminate b c, ?_, hd, fun d hd' => ?_, fun w hw => ?_⟩
      · simp only [parsecmd, hparse]
        show (if (peek b (strlen b) s []).2 ≠ strlen b then _ else _) = _
        rw [if_neg (not_not.2 (hlast.2 hvs))]
        rfl
      · rcases hall d hd' with ⟨s', hok, -⟩
        rw [hparse] at hok
        cases hok
        rfl
      · exact cstring_nulterminate h (fun v hv => isWord_of_mem h hr (hd.mem_words v hv)) hw
    · right
      refine ⟨.leftovers (cstring b (peek b (strlen b) s []).2), ?_, fun d hd => ?_⟩
      · simp only [parsecmd, hparse]
        show (if (peek b (strlen b) s []).2 ≠ strlen b then _ else _) = _
        rw [if_pos (fun heq => hvs (hlast.1 heq))]
      · rcases hall d hd with ⟨s', hok, hnil⟩
        rw [hparse] at hok
        cases hok
        exact hvs (by rw [← hr'.eq, hnil.eq])

/-- A line with a redirection and a block. -/
def blockLine : List Char :=
  ['(', 'a', '>', 'b', ')', '|', 'c', nul]

theorem parsecmd_blockLine :
    nul ∈ blockLine ∧
      ((∃ c b', parsecmd blockLine 40 = .ok (c, b') ∧ Derives .line (tokens blockLine (strlen blockLine) 0) c ∧
          (∀ d, Derives .line (tokens blockLine (strlen blockLine) 0) d → d = c) ∧
          ∀ w ∈ c.words, cstring b' w.1 = text blockLine w) ∨
        (∃ p, parsecmd blockLine 40 = .error (.panic p) ∧
          ∀ d, ¬ Derives .line (tokens blockLine (strlen blockLine) 0) d)) :=
  ⟨by decide, parsecmd_derives (by decide) (by decide)⟩

end Xv6.Shell
