import Mathlib.Logic.Basic

/-!
# Traced — computations that may fail and leave a trace

A `Traced` computation returns a value and the list of events on the way to it, or fails.  `erase` forgets the
events; it commutes with everything computations are built from, so that an instrumented function can be shown to be
the plain one.  `Leaves` is what holds of a value together with its trace.
-/

namespace Xv6.Common

structure Traced (ε τ α : Type) where
  run : Except ε (α × List τ)

namespace Traced

variable {ε τ α β : Type}

def emit (t : τ) : Traced ε τ Unit := ⟨.ok ((), [t])⟩

def lift (m : Except ε α) : Traced ε τ α :=
  ⟨match m with
    | .ok a => .ok (a, [])
    | .error e => .error e⟩

/-- The events of the second computation come after those of the first. -/
def bind (m : Traced ε τ α) (f : α → Traced ε τ β) : Traced ε τ β :=
  ⟨match m.run with
    | .error e => .error e
    | .ok (a, w) =>
      match (f a).run with
      | .error e => .error e
      | .ok (b, w') => .ok (b, w ++ w')⟩

instance : Monad (Traced ε τ) where
  pure a := lift (.ok a)
  bind := bind

def erase (m : Traced ε τ α) : Except ε α :=
  match m.run with
  | .ok (a, _) => .ok a
  | .error e => .error e

/-! ## Erasing -/

@[simp] theorem erase_lift (m : Except ε α) : (lift m : Traced ε τ α).erase = m := by
  cases m with
  | ok a => rfl
  | error e => rfl

@[simp] theorem erase_pure (a : α) : (pure a : Traced ε τ α).erase = .ok a := rfl

@[simp] theorem erase_emit (t : τ) : (emit t : Traced ε τ Unit).erase = .ok () := rfl

@[simp] theorem erase_bind (m : Traced ε τ α) (f : α → Traced ε τ β) :
    (m >>= f).erase = m.erase >>= fun a => (f a).erase := by
  change (Traced.bind m f).erase = _
  rcases m with ⟨_ | ⟨a, w⟩⟩
  · rfl
  change _ = (f a).erase
  simp only [Traced.bind, erase]
  rcases (f a).run with _ | ⟨b, w'⟩
  · rfl
  · rfl

@[simp] theorem erase_ite (c : Prop) [Decidable c] (m n : Traced ε τ α) :
    (if c then m else n).erase = if c then m.erase else n.erase :=
  apply_ite erase c m n

/-! ## What is left -/

/-- If the computation returns, its value and its trace have `Q`. -/
def Leaves (m : Traced ε τ α) (Q : α → List τ → Prop) : Prop :=
  ∀ a w, m.run = .ok (a, w) → Q a w

theorem erase_of_run {m : Traced ε τ α} {a : α} {w : List τ} (h : m.run = .ok (a, w)) : m.erase = .ok a := by
  rw [erase, h]

variable {m : Traced ε τ α} {f : α → Traced ε τ β} {P Q : α → List τ → Prop} {R : β → List τ → Prop}

theorem Leaves.lift {x : Except ε α} (h : ∀ a, x = .ok a → Q a []) : Leaves (Traced.lift x) Q := by
  intro a w heq
  cases x with
  | error e => cases heq
  | ok a' =>
    cases heq
    exact h a rfl

theorem Leaves.pure {a : α} (h : Q a []) : Leaves (Pure.pure a : Traced ε τ α) Q := by
  intro a' w heq
  cases heq
  exact h

theorem Leaves.emit {t : τ} {Q : Unit → List τ → Prop} (h : Q () [t]) : Leaves (Traced.emit t : Traced ε τ Unit) Q := by
  intro a w heq
  cases heq
  exact h

theorem Leaves.error {e : ε} : Leaves (Traced.lift (.error e) : Traced ε τ α) Q := Leaves.lift fun a h => by cases h

theorem Leaves.mono (h : Leaves m P) (hPQ : ∀ a w, m.erase = .ok a → P a w → Q a w) : Leaves m Q :=
  fun a w heq => hPQ a w (erase_of_run heq) (h a w heq)

/-- One computation after the other: the second may use what is known of the value of the first. -/
theorem Leaves.bind (h : Leaves m P)
    (hf : ∀ a w, m.erase = .ok a → P a w → Leaves (f a) fun b w' => R b (w ++ w')) : Leaves (m >>= f) R := by
  intro b w heq
  change (Traced.bind m f).run = _ at heq
  simp only [Traced.bind] at heq
  cases hm : m.run with
  | error e =>
    rw [hm] at heq
    cases heq
  | ok p =>
    rcases p with ⟨a, w1⟩
    rw [hm] at heq
    simp only at heq
    cases hfa : (f a).run with
    | error e =>
      rw [hfa] at heq
      cases heq
    | ok q =>
      rcases q with ⟨b', w2⟩
      rw [hfa] at heq
      obtain ⟨rfl, rfl⟩ : b' = b ∧ w1 ++ w2 = w := by simpa using heq
      exact hf a w1 (erase_of_run hm) (h a w1 hm) b' w2 hfa

def Silent (m : Traced ε τ α) : Prop := Leaves m fun _ w => w = []

theorem Silent.lift (x : Except ε α) : Silent (Traced.lift x : Traced ε τ α) :=
  Leaves.lift fun _ _ => rfl

theorem Silent.pure (a : α) : Silent (Pure.pure a : Traced ε τ α) := Leaves.pure rfl

theorem Silent.bind (h : Silent m) (hf : ∀ a, m.erase = .ok a → Leaves (f a) R) : Leaves (m >>= f) R := by
  refine Leaves.bind h fun a w ha hw => ?_
  subst hw
  exact hf a ha

end Traced
end Xv6.Common
