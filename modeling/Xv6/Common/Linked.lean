import Mathlib.Data.List.Rotate
import Mathlib.Logic.Function.Basic

/-!
# Linked — circular lists through a `next` pointer

`Linked next l` says that the pointers lead through the elements of `l`, each one once, and from the last one
back to the first.  Where the list begins does not matter (`Linked.rotate`), so that inserting and removing an
element need only be known at the front.  A list that ends at a null pointer is a circular one, too, with
the null pointer and the variable that holds the first element as one more element.
-/

namespace Xv6.Common

open Function (update update_of_ne update_self)

universe u

variable {α : Type u} {next next' : α → α} {l m : List α} {a b c x : α}

/-- The pointers lead from every element to the one behind it. -/
def Linked (next : α → α) (l : List α) : Prop :=
  l.Nodup ∧ l.map next = l.rotate 1

namespace Linked

theorem nodup (h : Linked next l) : l.Nodup := h.1

theorem cons_iff : Linked next (a :: l) ↔ (a :: l).Nodup ∧ next a :: l.map next = l ++ [a] := by
  rw [Linked, List.map_cons, List.rotate_cons_succ, List.rotate_zero]

theorem of_isRotated (h : Linked next l) (hr : l ~r m) : Linked next m := by
  refine ⟨hr.nodup_iff.1 h.1, ?_⟩
  rcases hr with ⟨n, rfl⟩
  rw [List.map_rotate, h.2, List.rotate_rotate, List.rotate_rotate, Nat.add_comm]

theorem rotate (h : Linked next (l ++ m)) : Linked next (m ++ l) := h.of_isRotated List.isRotated_append

theorem exists_front (h : Linked next l) (hc : c ∈ l) : ∃ m, l ~r (c :: m) ∧ Linked next (c :: m) := by
  rcases List.append_of_mem hc with ⟨l1, l2, rfl⟩
  have hr : (l1 ++ c :: l2) ~r (c :: (l2 ++ l1)) := List.isRotated_append
  exact ⟨l2 ++ l1, hr, h.of_isRotated hr⟩

theorem next_front (h : Linked next (a :: b :: l)) : next a = b := by
  have hmap := (cons_iff.1 h).2
  rw [List.cons_append] at hmap
  exact (List.cons.inj hmap).1

theorem next_last (h : Linked next (l ++ [c])) (ha : (l ++ [c]).head? = some a) : next c = a := by
  have hfront : Linked next (c :: l) := h.rotate
  cases l with
  | nil =>
    obtain rfl : c = a := by simpa using ha
    exact (List.cons.inj (cons_iff.1 hfront).2).1
  | cons b l =>
    obtain rfl : b = a := by simpa using ha
    exact hfront.next_front

theorem head_next (h : Linked next (l ++ c :: m)) (ha : (l ++ c :: m).head? = some a) :
    (m ++ [a]).head? = some (next c) := by
  cases m with
  | nil => exact congrArg some (h.next_last ha).symm
  | cons b m =>
    have hfront : Linked next (c :: b :: (m ++ l)) := h.rotate
    exact congrArg some hfront.next_front.symm

theorem exists_next_eq (h : Linked next l) (ha : a ∈ l) : ∃ b ∈ l, next b = a := by
  rw [← List.mem_rotate (n := 1), ← h.2] at ha
  exact List.mem_map.1 ha

theorem next_inj (h : Linked next l) (ha : a ∈ l) (hb : b ∈ l) (heq : next a = next b) : a = b := by
  have hnodup : (l.map next).Nodup := by
    rw [h.2, List.nodup_rotate]
    exact h.1
  exact List.inj_on_of_nodup_map hnodup ha hb heq

theorem congr (h : Linked next l) (hsame : ∀ x ∈ l, next' x = next x) : Linked next' l :=
  ⟨h.1, (List.map_congr_left hsame).trans h.2⟩

variable [DecidableEq α]

theorem insert (h : Linked next (c :: l)) (hx : x ∉ c :: l) :
    Linked (update (update next x (next c)) c x) (c :: x :: l) := by
  rcases cons_iff.1 h with ⟨hnodup, hmap⟩
  have hcx : c ≠ x := fun heq => hx (heq ▸ List.mem_cons_self)
  have hxl : x ∉ l := fun hmem => hx (List.mem_cons_of_mem _ hmem)
  rcases List.nodup_cons.1 hnodup with ⟨hcl, hl⟩
  refine cons_iff.2 ⟨?_, ?_⟩
  · rw [List.nodup_cons, List.nodup_cons, List.mem_cons, not_or]
    exact ⟨⟨hcx, hcl⟩, hxl, hl⟩
  -- `x` points to where `c` pointed, and the others are as before.
  have hrest : l.map (update (update next x (next c)) c x) = l.map next := by
    refine List.map_congr_left fun y hy => ?_
    have hyc : y ≠ c := fun heq => hcl (heq ▸ hy)
    have hyx : y ≠ x := fun heq => hxl (heq ▸ hy)
    rw [update_of_ne hyc, update_of_ne hyx]
  rw [List.map_cons, hrest, update_self, update_of_ne hcx.symm, update_self, hmap, List.cons_append]

theorem remove (h : Linked next (c :: x :: l)) : Linked (update next c (next x)) (c :: l) := by
  rcases cons_iff.1 h with ⟨hnodup, hmap⟩
  rcases List.nodup_cons.1 hnodup with ⟨hc, hxl⟩
  have hcl : c ∉ l := fun hmem => hc (List.mem_cons_of_mem _ hmem)
  refine cons_iff.2 ⟨List.nodup_cons.2 ⟨hcl, (List.nodup_cons.1 hxl).2⟩, ?_⟩
  have hrest : l.map (update next c (next x)) = l.map next := by
    refine List.map_congr_left fun y hy => ?_
    have hyc : y ≠ c := fun heq => hcl (heq ▸ hy)
    exact update_of_ne hyc _ _
  rw [List.map_cons, List.cons_append, List.cons.injEq] at hmap
  rw [hrest, update_self, hmap.2]

theorem insert_after (h : Linked next (l ++ c :: m)) (hx : x ∉ l ++ c :: m) :
    Linked (update (update next x (next c)) c x) (l ++ c :: x :: m) := by
  have hfront : Linked next (c :: (m ++ l)) := h.rotate
  have hnew : x ∉ c :: (m ++ l) := by
    intro hmem
    refine hx ?_
    have hperm : ((c :: m) ++ l).Perm (l ++ c :: m) := List.perm_append_comm
    exact hperm.mem_iff.1 hmem
  have hins : Linked (update (update next x (next c)) c x) ((c :: x :: m) ++ l) := hfront.insert hnew
  exact hins.rotate

theorem remove_after (h : Linked next (l ++ c :: x :: m)) : Linked (update next c (next x)) (l ++ c :: m) := by
  have hfront : Linked next (c :: x :: (m ++ l)) := h.rotate
  have hrem : Linked (update next c (next x)) ((c :: m) ++ l) := hfront.remove
  exact hrem.rotate

end Linked

/-! ## Walking along the pointers -/

/-- `for(; !stop(p); p = next(p))` -/
def seek (next : α → α) (stop : α → Bool) : ℕ → α → α
  | 0, p => p
  | n + 1, p => if stop p then p else seek next stop n (next p)

theorem Linked.seek_eq {stop : α → Bool} {n : ℕ} (h : Linked next (l ++ c :: m)) (hl : ∀ x ∈ l, stop x = false)
    (hc : stop c = true) (hn : l.length ≤ n) (ha : (l ++ [c]).head? = some a) : seek next stop n a = c := by
  induction l generalizing m n a with
  | nil =>
    obtain rfl : c = a := by simpa using ha
    cases n with
    | zero => rfl
    | succ n => rw [seek, if_pos hc]
  | cons b l ih =>
    obtain rfl : b = a := by simpa using ha
    cases n with
    | zero => cases hn
    | succ n =>
      have hb : stop b = false := hl b List.mem_cons_self
      have hrest : Linked next (l ++ c :: (m ++ [b])) := by
        have hr : Linked next ([b] ++ (l ++ c :: m)) := h
        simpa using hr.rotate
      have hnext : (l ++ [c]).head? = some (next b) := by
        cases l with
        | nil => exact congrArg some h.next_front.symm
        | cons d l => exact congrArg some h.next_front.symm
      rw [seek, hb]
      exact ih hrest (fun x hx => hl x (List.mem_cons_of_mem _ hx)) (Nat.le_of_succ_le_succ hn) hnext

/-- The walk to the element that points to the beginning. -/
theorem Linked.seek_last [DecidableEq α] {n : ℕ} (h : Linked next (l ++ [c])) (ha : (l ++ [c]).head? = some a)
    (hn : l.length ≤ n) : seek next (fun x => next x = a) n a = c := by
  have hlast : next c = a := h.next_last ha
  refine h.seek_eq (fun x hx => decide_eq_false fun heq => ?_) (decide_eq_true hlast) hn ha
  -- Only the last element points to the beginning.
  have hxc : x = c := h.next_inj (List.mem_append_left _ hx) (by simp) (heq.trans hlast.symm)
  rw [hxc] at hx
  exact (List.nodup_append.1 h.1).2.2 c hx c (by simp) rfl

theorem eq_of_concat_eq {l1 l2 : List α} (h : l ++ [c] = l1 ++ c :: l2) (hc : c ∉ l) : l1 = l := by
  rcases List.eq_nil_or_concat l2 with rfl | ⟨l3, d, rfl⟩
  · exact (List.append_inj_left' h rfl).symm
  · rw [List.concat_eq_append, ← List.cons_append, ← List.append_assoc] at h
    have hl := List.append_inj_left' h rfl
    exact absurd (by simp [hl]) hc

/-- A walk around a list in which there is an element where it is to stop. -/
theorem Linked.seek_first {n : ℕ} (h : Linked next l) (stop : α → Bool) (ha : l.head? = some a)
    (hex : ∃ c ∈ l, stop c = true) (hn : l.length ≤ n + 1) :
    ∃ l1 l2, l = l1 ++ seek next stop n a :: l2 ∧ stop (seek next stop n a) = true ∧ ∀ x ∈ l1, stop x = false := by
  rcases hex with ⟨c0, hc0, hstop0⟩
  obtain ⟨c, hfind⟩ : ∃ c, l.find? stop = some c := by
    rw [← Option.isSome_iff_exists, List.find?_isSome]
    exact ⟨c0, hc0, hstop0⟩
  rcases List.find?_eq_some_iff_append.1 hfind with ⟨hc, l1, l2, rfl, hl1⟩
  have hno : ∀ x ∈ l1, stop x = false := fun x hx => by simpa using hl1 x hx
  have hhead : (l1 ++ [c]).head? = some a := by
    rw [← ha]
    cases l1 with
    | nil => rfl
    | cons b l1 => rfl
  have hlen : l1.length ≤ n := by
    rw [List.length_append, List.length_cons] at hn
    omega
  rw [h.seek_eq hno hc hlen hhead]
  exact ⟨l1, l2, rfl, hc, hno⟩

/-- A walk once around the list, from the element after `a` until it comes back to `a`. -/
theorem Linked.seek_around [DecidableEq α] {n : ℕ} (h : Linked next (a :: l)) (stop : α → Bool) (hn : l.length ≤ n) :
    (stop (seek next (fun x => x = a || stop x) n (next a)) = true ∧
        seek next (fun x => x = a || stop x) n (next a) ∈ l) ∨
      (seek next (fun x => x = a || stop x) n (next a) = a ∧ ∀ x ∈ l, stop x = false) := by
  have hl : Linked next (l ++ [a]) := Linked.rotate (l := [a]) h
  have ha : a ∉ l := (List.nodup_cons.1 h.1).1
  have hnext : (l ++ [a]).head? = some (next a) := by
    cases l with
    | nil => exact congrArg some (List.cons.inj (Linked.cons_iff.1 h).2).1.symm
    | cons b l => exact congrArg some h.next_front.symm
  have hlen : (l ++ [a]).length ≤ n + 1 := by
    rw [List.length_append, List.length_singleton]
    omega
  rcases hl.seek_first (fun x => x = a || stop x) hnext ⟨a, by simp, by simp⟩ hlen with
    ⟨l1, l2, hsplit, hstop, hno⟩
  generalize seek next (fun x => x = a || stop x) n (next a) = c at hsplit hstop ⊢
  by_cases hca : c = a
  · -- The walk has come back, past all the others.
    subst hca
    have hl1 : l1 = l := eq_of_concat_eq hsplit ha
    refine .inr ⟨rfl, fun x hx => ?_⟩
    have hx' := hno x (hl1 ▸ hx)
    simpa using (Bool.or_eq_false_iff.1 hx').2
  · have hmem : c ∈ l ++ [a] := by
      rw [hsplit]
      simp
    refine .inl ⟨by simpa [hca] using hstop, ?_⟩
    simpa [hca] using hmem

/-! ## Pointers in both directions -/

/-- `prev` leads through the list backwards. -/
def Doubly (next prev : α → α) (l : List α) : Prop :=
  Linked next l ∧ Linked prev l.reverse

namespace Doubly

variable {prev : α → α}

theorem of_isRotated (h : Doubly next prev l) (hr : l ~r m) : Doubly next prev m :=
  ⟨h.1.of_isRotated hr, h.2.of_isRotated hr.reverse⟩

theorem exists_front (h : Doubly next prev l) (hc : c ∈ l) : ∃ m, l ~r (c :: m) ∧ Doubly next prev (c :: m) := by
  rcases h.1.exists_front hc with ⟨m, hr, _⟩
  exact ⟨m, hr, h.of_isRotated hr⟩

theorem prev_next (h : Doubly next prev (a :: l)) : prev (next a) = a := by
  cases l with
  | nil =>
    have hnext : next a = a := (List.cons.inj (Linked.cons_iff.1 h.1).2).1
    have hprev : prev a = a := (List.cons.inj (Linked.cons_iff.1 h.2).2).1
    rw [hnext, hprev]
  | cons b l =>
    -- Backwards, `a` comes right after `b`.
    have hback : Linked prev (l.reverse ++ [b, a]) := by simpa using h.2
    rw [h.1.next_front]
    exact hback.rotate.next_front

variable [DecidableEq α]

theorem insert (h : Doubly next prev (c :: l)) (hx : x ∉ c :: l) : Doubly (update (update next x (next c)) c x)
      (update (update prev x c) (next c) x) (c :: x :: l) := by
  refine ⟨h.1.insert hx, ?_⟩
  have hpc := h.prev_next
  cases l with
  | nil =>
    have hnext : next c = c := (List.cons.inj (Linked.cons_iff.1 h.1).2).1
    have hins : Linked _ ([c] ++ [x]) := h.2.insert (c := c) (l := []) hx
    rw [hnext] at hpc ⊢
    rw [hpc] at hins
    exact hins.rotate
  | cons b l =>
    have hnext : next c = b := h.1.next_front
    have hback : Linked prev (l.reverse ++ [b, c]) := by simpa using h.2
    have hfront : Linked prev (b :: c :: l.reverse) := hback.rotate
    have hx' : x ∉ b :: c :: l.reverse := by
      intro hmem
      refine hx ?_
      rw [List.mem_cons, List.mem_cons, List.mem_reverse] at hmem
      rw [List.mem_cons, List.mem_cons]
      rcases hmem with hmem | hmem | hmem
      · exact .inr (.inl hmem)
      · exact .inl hmem
      · exact .inr (.inr hmem)
    have hins := hfront.insert hx'
    rw [hnext] at hpc ⊢
    rw [hpc] at hins
    have hrot : Linked _ ([b, x, c] ++ l.reverse) := hins
    simpa using hrot.rotate

theorem remove (h : Doubly next prev (x :: l)) (hl : l ≠ []) :
    Doubly (update next (prev x) (next x)) (update prev (next x) (prev x)) l := by
  constructor
  · obtain ⟨m, z, rfl⟩ : ∃ m z, l = m ++ [z] := ⟨_, _, (List.dropLast_append_getLast hl).symm⟩
    have hback : Linked prev (z :: (m.reverse ++ [x])) := by simpa using h.2
    have hprev : prev x = z := Linked.next_last (l := z :: m.reverse) hback rfl
    have hrot : Linked next (z :: x :: m) := Linked.rotate (l := x :: m) h.1
    rw [hprev]
    exact Linked.rotate (l := [z]) hrot.remove
  cases l with
  | nil => exact absurd rfl hl
  | cons a l =>
    have hnext : next x = a := h.1.next_front
    have hback : Linked prev (l.reverse ++ [a, x]) := by simpa using h.2
    have hfront : Linked prev (a :: x :: l.reverse) := hback.rotate
    rw [hnext, List.reverse_cons]
    exact Linked.rotate (l := [a]) hfront.remove

end Doubly

end Xv6.Common
