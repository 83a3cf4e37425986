import Mathlib.Data.List.Basic
import Mathlib.Logic.Function.Iterate

/-!
# Grammar — the shell's command language

Command lines over tokens, with the commands that they stand for:

* `line ::= pipe '&'* [';' line]`
* `pipe ::= exec ['|' pipe]`
* `exec ::= '(' line ')' redir* | redir* (word redir*)*`
* `redir ::= ('<' | '>' | '>>') word`

Words are of any type `W`.
-/

namespace Xv6.Shell

/-! ## Tokens and commands -/

inductive Token (W : Type)
  | word (w : W)
  | bar
  | lparen
  | rparen
  | semi
  | amp
  | lt
  | gt
  | gtgt
  deriving DecidableEq

inductive Cmd (W : Type)
  | exec (argv : List W)
  | redir (cmd : Cmd W) (file : W) (mode fd : ℕ)
  | pipe (left right : Cmd W)
  | list (left right : Cmd W)
  | back (cmd : Cmd W)
  deriving DecidableEq

def oRdonly : ℕ := 0x000

def oWronly : ℕ := 0x001

def oCreate : ℕ := 0x200

/-- At most `maxargs - 1` words make a command. -/
def maxargs : ℕ := 10

/-- The operators of redirections. -/
inductive Arrow
  | lt
  | gt
  | gtgt
  deriving DecidableEq

variable {W : Type}

namespace Arrow

def token : Arrow → Token W
  | .lt => .lt
  | .gt => .gt
  | .gtgt => .gtgt

def mode : Arrow → ℕ
  | .lt => oRdonly
  | .gt => oWronly ||| oCreate
  | .gtgt => oWronly ||| oCreate

def fd : Arrow → ℕ
  | .lt => 0
  | .gt => 1
  | .gtgt => 1

end Arrow

def redirTokens (rs : List (Arrow × W)) : List (Token W) :=
  rs.flatMap fun r => [r.1.token, .word r.2]

def argTokens (as : List (W × List (Arrow × W))) : List (Token W) :=
  as.flatMap fun a => .word a.1 :: redirTokens a.2

/-- The command under its redirections, the last one outermost. -/
def Cmd.redirect (c : Cmd W) (rs : List (Arrow × W)) : Cmd W :=
  rs.foldl (fun c r => .redir c r.2 r.1.mode r.1.fd) c

/-! ## The grammar -/

inductive Nonterminal
  | line
  | pipe
  | exec

/-- `Derives N ts c`: the tokens `ts` derive from `N`, and `c` is the command of the derivation. -/
inductive Derives : Nonterminal → List (Token W) → Cmd W → Prop
  | line {ts : List (Token W)} {c : Cmd W} (k : ℕ) :
      Derives .pipe ts c → Derives .line (ts ++ List.replicate k .amp) (Cmd.back^[k] c)
  | list {ts us : List (Token W)} {c d : Cmd W} (k : ℕ) :
      Derives .pipe ts c → Derives .line us d →
        Derives .line (ts ++ (List.replicate k .amp ++ .semi :: us)) (.list (Cmd.back^[k] c) d)
  | exec {ts : List (Token W)} {c : Cmd W} : Derives .exec ts c → Derives .pipe ts c
  | pipe {ts us : List (Token W)} {c d : Cmd W} :
      Derives .exec ts c → Derives .pipe us d → Derives .pipe (ts ++ .bar :: us) (.pipe c d)
  | block {ts : List (Token W)} {c : Cmd W} (rs : List (Arrow × W)) :
      Derives .line ts c → Derives .exec (.lparen :: (ts ++ .rparen :: redirTokens rs)) (c.redirect rs)
  | words (rs : List (Arrow × W)) (as : List (W × List (Arrow × W))) :
      as.length ≤ maxargs - 1 →
        Derives .exec (redirTokens rs ++ argTokens as)
          ((Cmd.exec (as.map Prod.fst)).redirect (rs ++ as.flatMap Prod.snd))

/-! ## Words -/

namespace Cmd

def words : Cmd W → List W
  | .exec argv => argv
  | .redir cmd file _ _ => cmd.words ++ [file]
  | .pipe left right => left.words ++ right.words
  | .list left right => left.words ++ right.words
  | .back cmd => cmd.words

theorem words_back (c : Cmd W) (k : ℕ) : (Cmd.back^[k] c).words = c.words := by
  induction k with
  | zero => rfl
  | succ k ih => rw [Function.iterate_succ_apply']; exact ih

theorem words_redirect (c : Cmd W) (rs : List (Arrow × W)) : (c.redirect rs).words = c.words ++ rs.map Prod.snd := by
  induction rs generalizing c with
  | nil => simp [redirect]
  | cons r rs ih =>
    have hrest := ih (.redir c r.2 r.1.mode r.1.fd)
    simpa [redirect, words] using hrest

end Cmd

theorem mem_redirTokens {rs : List (Arrow × W)} {w : W} (h : w ∈ rs.map Prod.snd) :
    Token.word w ∈ redirTokens rs := by
  rcases List.mem_map.1 h with ⟨r, hr, rfl⟩
  exact List.mem_flatMap.2 ⟨r, hr, by simp⟩

theorem mem_argTokens {as : List (W × List (Arrow × W))} {w : W}
    (h : w ∈ as.map Prod.fst ∨ w ∈ (as.flatMap Prod.snd).map Prod.snd) : Token.word w ∈ argTokens as := by
  rcases h with h | h
  · rcases List.mem_map.1 h with ⟨a, ha, rfl⟩
    exact List.mem_flatMap.2 ⟨a, ha, by simp⟩
  · rcases List.mem_map.1 h with ⟨r, hr, rfl⟩
    rcases List.mem_flatMap.1 hr with ⟨a, ha, hra⟩
    refine List.mem_flatMap.2 ⟨a, ha, List.mem_cons_of_mem _ (mem_redirTokens ?_)⟩
    exact List.mem_map.2 ⟨r, hra, rfl⟩

theorem Derives.mem_words {N : Nonterminal} {ts : List (Token W)} {c : Cmd W} (h : Derives N ts c) :
    ∀ w ∈ c.words, Token.word w ∈ ts := by
  induction h with
  | line k _ ih =>
    intro w hw
    rw [Cmd.words_back] at hw
    exact List.mem_append_left _ (ih w hw)
  | list k _ _ ihc ihd =>
    intro w hw
    rcases List.mem_append.1 hw with hw | hw
    · rw [Cmd.words_back] at hw
      exact List.mem_append_left _ (ihc w hw)
    · exact List.mem_append_right _ (List.mem_append_right _ (List.mem_cons_of_mem _ (ihd w hw)))
  | exec _ ih => exact ih
  | pipe _ _ ihc ihd =>
    intro w hw
    rcases List.mem_append.1 hw with hw | hw
    · exact List.mem_append_left _ (ihc w hw)
    · exact List.mem_append_right _ (List.mem_cons_of_mem _ (ihd w hw))
  | block rs _ ih =>
    intro w hw
    rw [Cmd.words_redirect] at hw
    refine List.mem_cons_of_mem _ ?_
    rcases List.mem_append.1 hw with hw | hw
    · exact List.mem_append_left _ (ih w hw)
    · exact List.mem_append_right _ (List.mem_cons_of_mem _ (mem_redirTokens hw))
  | words rs as _ =>
    intro w hw
    rw [Cmd.words_redirect, List.map_append, List.mem_append, List.mem_append] at hw
    rcases hw with hw | hw | hw
    · exact List.mem_append_right _ (mem_argTokens (.inl hw))
    · exact List.mem_append_left _ (mem_redirTokens hw)
    · exact List.mem_append_right _ (mem_argTokens (.inr hw))

end Xv6.Shell
