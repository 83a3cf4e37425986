import Mathlib.Data.List.Basic
import Mathlib.Tactic.Basic

/-!
# Transition — labelled transition systems, recorded runs, invariant rules

A system is given by its initial states and a labelled step relation.  A *run* keeps every step it
took (`pre`, `act`, `post`), so that a property of all states reached and a condition on all steps
taken are both statements about one list.

The rules below are the only inductions over runs that the developments on top of this file need:

* `System.Reachable.invariant` — an inductive invariant holds in every reachable state;
* `System.Run.invariant_of` — an invariant that is kept only by steps meeting a condition holds
  along every run whose steps all meet it;
* `System.Run.forall_post_iff` — when a step keeps a property *exactly* under the condition, the
  property of the states and the condition on the steps agree along every run.
-/

namespace Xv6.Common

universe u v

/-- A labelled transition system over states `σ` and actions `α`. -/
structure System (σ : Type u) (α : Type v) where
  init : σ → Prop
  tr : σ → α → σ → Prop

/-- One recorded step of a run. -/
structure Taken (σ : Type u) (α : Type v) where
  pre : σ
  act : α
  post : σ

namespace System

variable {σ : Type u} {α : Type v}

/-- The system of a partial step function. -/
def ofStep (init : σ → Prop) (step : σ → α → Option σ) : System σ α :=
  { init := init
    tr := fun s a t => step s a = some t }

@[simp] theorem ofStep_tr (init : σ → Prop) (step : σ → α → Option σ) (s : σ) (a : α) (t : σ) :
    (ofStep init step).tr s a t ↔ step s a = some t :=
  Iff.rfl

@[simp] theorem ofStep_init (init : σ → Prop) (step : σ → α → Option σ) (s : σ) :
    (ofStep init step).init s ↔ init s :=
  Iff.rfl

variable (M : System σ α)

/-! ## Runs -/

/-- `M.Run s es t`: from `s` the steps `es` are taken in order and end in `t`. -/
inductive Run : σ → List (Taken σ α) → σ → Prop
  | nil (s : σ) : Run s [] s
  | cons {s t u : σ} {a : α} {es : List (Taken σ α)} :
      M.tr s a t → Run t es u → Run s ({ pre := s, act := a, post := t } :: es) u

def Reachable (t : σ) : Prop :=
  ∃ s es, M.init s ∧ M.Run s es t

variable {M} {s t : σ} {es fs : List (Taken σ α)} {P : σ → Prop}

theorem Run.append {u : σ} (h1 : M.Run s es t) (h2 : M.Run t fs u) : M.Run s (es ++ fs) u := by
  induction h1 with
  | nil s => simpa using h2
  | cons hstep _ ih => exact Run.cons hstep (ih h2)

theorem Run.single {a : α} (h : M.tr s a t) : M.Run s [{ pre := s, act := a, post := t }] t := Run.cons h (Run.nil t)

theorem Run.tr_of_mem (h : M.Run s es t) {e : Taken σ α} (he : e ∈ es) : M.tr e.pre e.act e.post := by
  induction h with
  | nil s => simp at he
  | cons hstep _ ih =>
    rcases List.mem_cons.1 he with rfl | he'
    · exact hstep
    · exact ih he'

theorem Run.split {e : Taken σ α} (h : M.Run s (es ++ e :: fs) t) :
    M.Run s es e.pre ∧ M.tr e.pre e.act e.post ∧ M.Run e.post fs t := by
  induction es generalizing s with
  | nil =>
    cases h with
    | cons hstep hrest => exact ⟨Run.nil _, hstep, hrest⟩
  | cons f es ih =>
    cases h with
    | cons hstep hrest =>
      rcases ih hrest with ⟨h1, h2, h3⟩
      exact ⟨Run.cons hstep h1, h2, h3⟩

theorem Run.append_split (h : M.Run s (es ++ fs) t) : ∃ u, M.Run s es u ∧ M.Run u fs t := by
  induction es generalizing s with
  | nil => exact ⟨s, Run.nil s, h⟩
  | cons e es ih =>
    cases h with
    | cons hstep hrest =>
      rcases ih hrest with ⟨u, h1, h2⟩
      exact ⟨u, Run.cons hstep h1, h2⟩

theorem Reachable.of_init (h : M.init s) : M.Reachable s := ⟨s, [], h, Run.nil s⟩

theorem Reachable.run (h : M.Reachable s) (hr : M.Run s es t) : M.Reachable t := by
  rcases h with ⟨s0, fs, hinit, hrun⟩
  exact ⟨s0, fs ++ es, hinit, hrun.append hr⟩

theorem Reachable.step {a : α} (h : M.Reachable s) (hs : M.tr s a t) : M.Reachable t := h.run (Run.single hs)

/-- The steps of a step function for these actions, without those that are not possible. -/
def follow (step : σ → α → Option σ) (s : σ) (as : List α) : σ :=
  as.foldl (fun s a => (step s a).getD s) s

theorem Reachable.follow {step : σ → α → Option σ} (hstep : ∀ s a t, step s a = some t → M.tr s a t)
    (h : M.Reachable s) (as : List α) : M.Reachable (follow step s as) := by
  induction as generalizing s with
  | nil => exact h
  | cons a as ih =>
    rw [System.follow, List.foldl_cons]
    cases ht : step s a with
    | none => exact ih h
    | some t => exact ih (h.step (hstep s a t ht))

/-! ## Invariant rules -/

/-- An invariant kept by the steps that meet `C` holds at both ends of every step of a run whose
steps all meet `C`, and in its last state. -/
theorem Run.invariant_of {C : σ → α → Prop} (hstep : ∀ s a t, P s → C s a → M.tr s a t → P t) (h : M.Run s es t)
    (hs : P s) (hC : ∀ e ∈ es, C e.pre e.act) : P t ∧ ∀ e ∈ es, P e.pre ∧ P e.post := by
  induction h with
  | nil s => exact ⟨hs, by simp⟩
  | @cons s t u a es htr _ ih =>
    have ht : P t := hstep s a t hs (hC _ List.mem_cons_self) htr
    rcases ih ht (fun e he => hC e (List.mem_cons_of_mem _ he)) with ⟨hu, hes⟩
    refine ⟨hu, ?_⟩
    intro e he
    rcases List.mem_cons.1 he with rfl | he'
    · exact ⟨hs, ht⟩
    · exact hes e he'

theorem Run.invariant (hstep : ∀ s a t, P s → M.tr s a t → P t) (h : M.Run s es t) (hs : P s) :
    P t ∧ ∀ e ∈ es, P e.pre ∧ P e.post :=
  h.invariant_of (C := fun _ _ => True) (fun s a t hP _ htr => hstep s a t hP htr) hs (by simp)

theorem Reachable.invariant (hinit : ∀ s, M.init s → P s) (hstep : ∀ s a t, P s → M.tr s a t → P t)
    (h : M.Reachable t) : P t := by
  rcases h with ⟨s, es, hs, hrun⟩
  exact (hrun.invariant hstep (hinit s hs)).1

/-- Steps that meet `C` keep the invariant `P`, which implies `Q`; a step that leads to `Q` meets `C`.
Then the steps of a run all lead to `Q` exactly if they all meet `C`: the first step that breaks one
breaks the other. -/
theorem Run.forall_post_iff {Q : σ → Prop} {C : σ → α → Prop} (hPQ : ∀ s, P s → Q s)
    (hkeep : ∀ s a t, P s → C s a → M.tr s a t → P t) (hneed : ∀ s a t, P s → M.tr s a t → Q t → C s a)
    (h : M.Run s es t) (hs : P s) : (∀ e ∈ es, Q e.post) ↔ ∀ e ∈ es, C e.pre e.act := by
  constructor
  · intro hall
    induction h with
    | nil s => simp
    | @cons s t u a es htr _ ih =>
      have hC : C s a := hneed s a t hs htr (hall _ List.mem_cons_self)
      have hrest := ih (hkeep s a t hs hC htr) (fun e he => hall e (List.mem_cons_of_mem _ he))
      intro e he
      rcases List.mem_cons.1 he with rfl | he'
      · exact hC
      · exact hrest e he'
  · intro hall e he
    exact hPQ _ ((h.invariant_of hkeep hs hall).2 e he).2

/-! ## History variables -/

section Observe

variable {μ : Type*} {step : σ → α → Option σ} {note : σ → α → μ → μ} {x y : σ × μ} {a : α}

/-- A step with a history beside the state, which `note` writes from the state before and the action. -/
def observeStep (step : σ → α → Option σ) (note : σ → α → μ → μ) (x : σ × μ) (a : α) : Option (σ × μ) :=
  (step x.1 a).map fun t => (t, note x.1 a x.2)

theorem observeStep_eq_some : observeStep step note x a = some y ↔ step x.1 a = some y.1 ∧ y.2 = note x.1 a x.2 := by
  rw [observeStep, Option.map_eq_some_iff]
  constructor
  · rintro ⟨t, ht, rfl⟩
    exact ⟨ht, rfl⟩
  · rintro ⟨ht, hnote⟩
    exact ⟨y.1, ht, by rw [← hnote]⟩

end Observe

/-! ## Executing a list of actions -/

/-- Run a partial step function over a list of actions. -/
def execute (step : σ → α → Option σ) : σ → List α → Option σ
  | s, [] => some s
  | s, a :: as =>
    match step s a with
    | none => none
    | some t => execute step t as

theorem run_of_execute {init : σ → Prop} {step : σ → α → Option σ} {as : List α} (h : execute step s as = some t) :
    ∃ es, (ofStep init step).Run s es t ∧ es.map Taken.act = as := by
  induction as generalizing s with
  | nil =>
    have hst : s = t := by simpa [execute] using h
    subst hst
    exact ⟨[], Run.nil _, rfl⟩
  | cons a as ih =>
    cases hstep : step s a with
    | none => simp [execute, hstep] at h
    | some u =>
      have hrest : execute step u as = some t := by simpa [execute, hstep] using h
      rcases ih hrest with ⟨es, hrun, hacts⟩
      exact ⟨_, Run.cons hstep hrun, by simp [hacts]⟩

def trace (step : σ → α → Option σ) : σ → List α → Option (List (Taken σ α) × σ)
  | s, [] => some ([], s)
  | s, a :: as =>
    match step s a with
    | none => none
    | some t =>
      match trace step t as with
      | none => none
      | some (es, u) => some ({ pre := s, act := a, post := t } :: es, u)

theorem run_of_trace {init : σ → Prop} {step : σ → α → Option σ} {as : List α} (h : trace step s as = some (es, t)) :
    (ofStep init step).Run s es t := by
  induction as generalizing s es with
  | nil =>
    have hnil : [] = es ∧ s = t := by simpa [trace] using h
    rcases hnil with ⟨rfl, rfl⟩
    exact Run.nil _
  | cons a as ih =>
    cases hstep : step s a with
    | none => simp [trace, hstep] at h
    | some u =>
      cases hrest : trace step u as with
      | none => simp [trace, hstep, hrest] at h
      | some r =>
        have hcons : { pre := s, act := a, post := u } :: r.1 = es ∧ r.2 = t := by
          simpa [trace, hstep, hrest] using h
        rcases hcons with ⟨rfl, rfl⟩
        exact Run.cons hstep (ih hrest)

end System

end Xv6.Common
