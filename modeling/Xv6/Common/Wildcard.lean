import Mathlib.Data.List.Infix

/-!
# Wildcard — patterns with a letter that stands for any string

A pattern is a list of letters, one of which is the wildcard.  A word matches the pattern if it is the pattern with
each wildcard replaced by some word, the empty one included.
-/

namespace Xv6.Common

variable {α : Type*}

inductive Matches (star : α) : List α → List α → Prop
  | nil : Matches star [] []
  | letter {c : α} {p w : List α} (hc : c ≠ star) (h : Matches star p w) : Matches star (c :: p) (c :: w)
  | wild (u : List α) {p w : List α} (h : Matches star p w) : Matches star (star :: p) (u ++ w)

namespace Matches

variable {star : α} {p q s m w : List α}

theorem nil_iff : Matches star [] w ↔ w = [] := by
  constructor
  · intro h
    cases h
    rfl
  · rintro rfl
    exact .nil

theorem wild_iff : Matches star (star :: p) w ↔ ∃ u v, w = u ++ v ∧ Matches star p v := by
  constructor
  · intro h
    cases h with
    | letter hc _ => exact absurd rfl hc
    | wild u h => exact ⟨u, _, rfl, h⟩
  · rintro ⟨u, v, rfl, h⟩
    exact .wild u h

theorem append_iff (hp : star ∉ p) : Matches star (p ++ q) w ↔ ∃ v, w = p ++ v ∧ Matches star q v := by
  induction p generalizing w with
  | nil => simp
  | cons c p ih =>
    rw [List.mem_cons, not_or] at hp
    constructor
    · intro h
      cases h with
      | letter _ h =>
        rcases (ih hp.2).1 h with ⟨v, rfl, hv⟩
        exact ⟨v, rfl, hv⟩
      | wild _ _ => exact absurd rfl hp.1
    · rintro ⟨v, rfl, hv⟩
      exact .letter (Ne.symm hp.1) ((ih hp.2).2 ⟨v, rfl, hv⟩)

theorem literal_iff (hp : star ∉ p) : Matches star p w ↔ w = p := by
  have h := append_iff (q := []) (w := w) hp
  rw [List.append_nil] at h
  simp [h, nil_iff]

theorem ends_iff (hp : star ∉ p) (hs : star ∉ s) :
    Matches star (p ++ star :: s) w ↔ p <+: w ∧ s <:+ w ∧ p.length + s.length ≤ w.length := by
  rw [append_iff hp]
  constructor
  · rintro ⟨v, rfl, hv⟩
    rcases wild_iff.1 hv with ⟨u, t, rfl, ht⟩
    rw [(literal_iff hs).1 ht]
    refine ⟨List.prefix_append _ _, ⟨p ++ u, by simp⟩, ?_⟩
    simp only [List.length_append]
    omega
  rintro ⟨⟨v, rfl⟩, hsuffix, hlen⟩
  rw [List.length_append] at hlen
  -- what is left of the word after `p` is long enough to hold all of `s`
  have hv : s <:+ v :=
    List.suffix_of_suffix_length_le hsuffix (List.suffix_append p v) (Nat.le_of_add_le_add_left hlen)
  rcases hv with ⟨u, rfl⟩
  exact ⟨u ++ s, rfl, .wild u ((literal_iff hs).2 rfl)⟩

theorem factor_iff (hm : star ∉ m) : Matches star (star :: (m ++ [star])) w ↔ m <:+: w := by
  rw [wild_iff]
  constructor
  · rintro ⟨u, v, rfl, hv⟩
    rcases ((append_iff hm).1 hv) with ⟨t, rfl, _⟩
    exact ⟨u, t, by simp⟩
  · rintro ⟨u, t, rfl⟩
    refine ⟨u, m ++ t, by simp, (append_iff hm).2 ⟨t, rfl, ?_⟩⟩
    have ht : Matches star [star] (t ++ []) := .wild t .nil
    rwa [List.append_nil] at ht

theorem begins (hp : star ∉ p) (h : Matches star (p ++ q) w) : p <+: w := by
  rcases (append_iff hp).1 h with ⟨v, rfl, _⟩
  exact List.prefix_append p v

end Matches

end Xv6.Common
