import Xv6.Param
import Xv6.User.Grammar

/-!
# Runcmd — how the shell connects commands

`runcmd` makes redirections and pipes out of `close`, `open`, `pipe` and `dup`, and counts on each new descriptor
being the lowest free one.  `wires` says what a command means without descriptors.
-/

namespace Xv6.Shell

/-! ## The code -/

inductive Obj (W : Type)
  /-- What the shell was started with. -/
  | given (fd : ℕ)
  | file (name : W) (mode : ℕ)
  /-- An end of the pipe made at a place of the command. -/
  | pipe (place : List ℕ) (write : Bool)

/-- `ofile` of a process. -/
abbrev Ofile (W : Type) := List (Option (Obj W))

variable {W : Type}

def fdalloc (f : Obj W) : Ofile W → Option (ℕ × Ofile W)
  | [] => none
  | none :: t => some (0, some f :: t)
  | some g :: t => (fdalloc f t).map fun r => (r.1 + 1, some g :: r.2)

def close (fd : ℕ) (t : Ofile W) : Ofile W := t.set fd none

def dup (fd : ℕ) (t : Ofile W) : Ofile W :=
  match t.getD fd none with
  | none => t
  | some f => ((fdalloc f t).map Prod.snd).getD t

def pipe (place : List ℕ) (t : Ofile W) : Option (ℕ × ℕ × Ofile W) := do
  let (fd0, t) ← fdalloc (.pipe place false) t
  let (fd1, t) ← fdalloc (.pipe place true) t
  return (fd0, fd1, t)

/-- The calls of `exec`, each with the descriptors at that moment.  Of the calls of `open`, `pipe` and `fork` that
`runcmd` makes for the command at a place, in order, the first `env place` succeed. -/
def runcmd (env : List ℕ → ℕ) (place : List ℕ) (t : Ofile W) : Cmd W → List (List W × Ofile W)
  | .exec argv => if argv.isEmpty then [] else [(argv, t)]
  | .redir cmd file mode fd =>
    match fdalloc (.file file mode) (close fd t) with
    | some (_, t) => if 0 < env place then runcmd env (0 :: place) t cmd else []
    | none => []
  | .list left right =>
    if 0 < env place then runcmd env (0 :: place) t left ++ runcmd env (1 :: place) t right else []
  | .pipe left right =>
    match if 0 < env place then pipe place t else none with
    | none => []
    | some (fd0, fd1, t) =>
      (if 1 < env place then runcmd env (0 :: place) (close fd1 (close fd0 (dup fd1 (close 1 t)))) left else []) ++
        if 2 < env place then runcmd env (1 :: place) (close fd1 (close fd0 (dup fd0 (close 0 t)))) right else []
  | .back cmd => if 0 < env place then runcmd env (0 :: place) t cmd else []

/-! ## What a command means -/

structure Std (W : Type) where
  input : Obj W
  output : Obj W
  messages : Obj W

/-- The descriptors 0, 1 and 2, and no others. -/
def Std.ofile (σ : Std W) : Ofile W :=
  some σ.input :: some σ.output :: some σ.messages :: List.replicate (nofile - 3) none

def Std.redirect (σ : Std W) (fd : ℕ) (f : Obj W) : Std W :=
  if fd = 0 then { σ with input := f } else { σ with output := f }

def wires (env : List ℕ → ℕ) (place : List ℕ) (σ : Std W) : Cmd W → List (List W × Std W)
  | .exec argv => if argv.isEmpty then [] else [(argv, σ)]
  | .redir cmd file mode fd =>
    if 0 < env place then wires env (0 :: place) (σ.redirect fd (.file file mode)) cmd else []
  | .list left right =>
    if 0 < env place then wires env (0 :: place) σ left ++ wires env (1 :: place) σ right else []
  | .pipe left right =>
    (if 1 < env place then wires env (0 :: place) (σ.redirect 1 (.pipe place true)) left else []) ++
      if 2 < env place then wires env (1 :: place) (σ.redirect 0 (.pipe place false)) right else []
  | .back cmd => if 0 < env place then wires env (0 :: place) σ cmd else []

/-- Only the input and the output are redirected. -/
def Cmd.Plain : Cmd W → Prop
  | .exec _ => True
  | .redir cmd _ _ fd => fd ≤ 1 ∧ cmd.Plain
  | .pipe left right | .list left right => left.Plain ∧ right.Plain
  | .back cmd => cmd.Plain

theorem Cmd.Plain.redirect {c : Cmd W} (h : c.Plain) (rs : List (Arrow × W)) : (c.redirect rs).Plain := by
  induction rs generalizing c with
  | nil => exact h
  | cons r rs ih =>
    refine ih (c := .redir c r.2 r.1.mode r.1.fd) ⟨?_, h⟩
    cases r.1 <;> decide

theorem Cmd.Plain.back {c : Cmd W} (h : c.Plain) (k : ℕ) : (Cmd.back^[k] c).Plain := by
  induction k with
  | zero => exact h
  | succ k ih => rwa [Function.iterate_succ_apply']

theorem Derives.plain {N : Nonterminal} {ts : List (Token W)} {c : Cmd W} (h : Derives N ts c) : c.Plain := by
  induction h with
  | line k _ ih => exact ih.back k
  | list k _ _ ih ih' => exact ⟨ih.back k, ih'⟩
  | exec _ ih => exact ih
  | pipe _ _ ih ih' => exact ⟨ih, ih'⟩
  | block rs _ ih => exact ih.redirect rs
  | words rs as _ => exact Cmd.Plain.redirect (c := .exec _) trivial _

theorem runcmd_of_plain {c : Cmd W} (h : c.Plain) (env : List ℕ → ℕ) (place : List ℕ) (σ : Std W) :
    runcmd env place σ.ofile c = (wires env place σ c).map fun x => (x.1, x.2.ofile) := by
  induction c generalizing place σ with
  | exec argv =>
    cases argv <;> rfl
  | redir cmd file mode fd ih =>
    have hopen : fdalloc (.file file mode) (close fd σ.ofile) = some (fd, (σ.redirect fd (.file file mode)).ofile) := by
      -- The lowest free descriptor is the one that has just been closed.
      obtain rfl | rfl : fd = 0 ∨ fd = 1 := Nat.le_one_iff_eq_zero_or_eq_one.1 h.1
      · rfl
      · rfl
    simp only [runcmd, wires, hopen]
    split_ifs
    exacts [ih h.2 _ _, rfl]
  | pipe left right ihl ihr =>
    by_cases henv : 0 < env place
    · -- The ends of the pipe get the descriptors 3 and 4, and both children close them again.
      have hpipe : pipe place σ.ofile = some (3, 4, some σ.input :: some σ.output :: some σ.messages ::
          some (.pipe place false) :: some (.pipe place true) :: List.replicate (nofile - 5) none) := rfl
      have hleft := ihl h.1 (0 :: place) (σ.redirect 1 (.pipe place true))
      have hright := ihr h.2 (1 :: place) (σ.redirect 0 (.pipe place false))
      simp only [runcmd, wires, if_pos henv, hpipe, List.map_append]
      refine congrArg₂ (· ++ ·) ?_ ?_
      all_goals split_ifs
      exacts [hleft, rfl, hright, rfl]
    · simp [runcmd, wires, henv, show ¬ 1 < env place by omega, show ¬ 2 < env place by omega]
  | list left right ihl ihr =>
    simp only [runcmd, wires]
    split_ifs
    · rw [ihl h.1, ihr h.2, List.map_append]
    · rfl
  | back cmd ih =>
    simp only [runcmd, wires]
    split_ifs
    exacts [ih h _ _, rfl]

/-- Whatever a line is and whichever system calls fail, a command that is executed has the files that it should have as
descriptors 0, 1 and 2, and no other descriptor. -/
theorem runcmd_eq_wires {N : Nonterminal} {ts : List (Token W)} {c : Cmd W} (h : Derives N ts c) (env : List ℕ → ℕ)
    (place : List ℕ) (σ : Std W) :
    runcmd env place σ.ofile c = (wires env place σ c).map fun x => (x.1, x.2.ofile) :=
  runcmd_of_plain h.plain env place σ

/-- The three descriptors of the console. -/
def console : Std String := ⟨.given 0, .given 1, .given 2⟩

def catWc : Cmd String := .pipe (.redir (.exec ["cat"]) "f" oRdonly 0) (.exec ["wc"])

/-- `cat < f | wc`, with `f` that cannot be opened: only `wc` is executed, with the pipe for its input. -/
theorem runcmd_catWc : Derives .pipe [.word "cat", .lt, .word "f", .bar, .word "wc"] catWc ∧
    runcmd (fun place => if place = [0] then 0 else 3) [] console.ofile catWc =
      [(["wc"], (console.redirect 0 (.pipe [] false)).ofile)] := by
  have h : Derives .pipe [.word "cat", .lt, .word "f", .bar, .word "wc"] catWc :=
    .pipe (.words [] [("cat", [(.lt, "f")])] (by decide)) (.exec (.words [] [("wc", [])] (by decide)))
  exact ⟨h, runcmd_eq_wires h _ _ console⟩

end Xv6.Shell
