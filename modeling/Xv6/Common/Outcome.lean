import Mathlib.Logic.Basic

/-!
# Outcome — postconditions of computations that may fail

`Ensures bad m Q` says that the computation `m` returns a value with `Q`, or fails in a way that `bad` does
not rule out.  With `bad` empty this is partial correctness; with `bad` everything it is total.
-/

namespace Xv6.Common

universe u v

variable {ε : Type u} {α β : Type v} {bad : ε → Prop} {m : Except ε α} {f : α → Except ε β} {Q R : α → Prop}
  {S : β → Prop}

def Ensures (bad : ε → Prop) (m : Except ε α) (Q : α → Prop) : Prop :=
  match m with
  | .ok a => Q a
  | .error e => ¬ bad e

theorem Ensures.intro (hok : ∀ a, m = .ok a → Q a) (herror : ∀ e, m = .error e → ¬ bad e) :
    Ensures bad m Q := by
  cases m with
  | ok a => exact hok a rfl
  | error e => exact herror e rfl

theorem Ensures.of_ok {a : α} (h : Ensures bad m Q) (hm : m = .ok a) : Q a := by
  subst hm
  exact h

theorem Ensures.not_bad {e : ε} (h : Ensures bad m Q) (hm : m = .error e) : ¬ bad e := by
  subst hm
  exact h

theorem Ensures.exists_ok (h : Ensures bad m Q) (hbad : ∀ e, bad e) : ∃ a, m = .ok a ∧ Q a := by
  cases m with
  | ok a => exact ⟨a, rfl, h⟩
  | error e => exact absurd (hbad e) h

theorem Ensures.ok {a : α} (h : Q a) : Ensures bad (Except.ok a : Except ε α) Q := h

theorem Ensures.error {e : ε} (h : ¬ bad e) : Ensures bad (Except.error e : Except ε α) Q := h

theorem Ensures.mono (h : Ensures bad m Q) (hQR : ∀ a, Q a → R a) : Ensures bad m R := by
  cases m with
  | ok a => exact hQR a h
  | error e => exact h

theorem Ensures.weaken {bad' : ε → Prop} (h : Ensures bad m Q) (hbad : ∀ e, bad' e → bad e) : Ensures bad' m Q := by
  cases m with
  | ok a => exact h
  | error e => exact fun he => h (hbad e he)

theorem Ensures.bind (h : Ensures bad m Q) (hf : ∀ a, Q a → Ensures bad (f a) S) : Ensures bad (m >>= f) S := by
  cases m with
  | ok a => exact hf a h
  | error e => exact h

end Xv6.Common
