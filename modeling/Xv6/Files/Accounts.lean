import Mathlib.Tactic.Common
import Xv6.Common.Refs
import Xv6.Files.Table

/-!
# Accounts — what a call has in hand while it works on the file table

In the middle of a call the descriptors do not tell the whole story: a reference may be in a local variable
(`hand`), a descriptor may have been set before its reference is counted (`due`), or may still be set when its
reference is gone (`spent`).  With these, the references to a file are those of all processes together.

A pipe's end is open as long as there is one file for it, or one call that is about to close it.
-/

namespace Xv6.Files

open Function (update update_eq_self update_of_ne update_self)
open Common

variable {G : Type}

/-! ## References -/

/-- What a process has in hand. -/
structure Account (G : Type) where
  /-- References in local variables. -/
  hand : List FileNo
  /-- Files that nothing has been made of yet. -/
  fresh : List FileNo
  due : Option FileNo
  spent : Option FileNo
  /-- A descriptor that has been looked up. -/
  seen : Option (Fd × FileNo)
  /-- The slot that `allocproc` has found, and the descriptors that have not been set there. -/
  child : Option Slot
  blank : List Fd
  /-- Descriptors that `exit` has closed. -/
  emptied : List Fd
  page : Option G
  /-- An end that is about to be closed. -/
  closing : Option (G × Bool)
  /-- A pipe that is about to be freed. -/
  freeing : Option G
  busy : Bool

namespace Account

def owed (r : Account G) (f : FileNo) : ℕ :=
  (if r.due = some f then 1 else 0) + if r.spent = some f then 1 else 0

def begin : Account G where
  hand := []
  fresh := []
  due := none
  spent := none
  seen := none
  child := none
  blank := []
  emptied := []
  page := none
  closing := none
  freeing := none
  busy := true

structure Settled (r : Account G) : Prop where
  hand : r.hand = []
  fresh : r.fresh = []
  due : r.due = none
  spent : r.spent = none
  child : r.child = none
  page : r.page = none
  closing : r.closing = none
  freeing : r.freeing = none

end Account

def own (s : State G) (q : Slot) (f : FileNo) : ℕ :=
  ∑ fd, if s.ofile q fd = some f then 1 else 0

def share (s : State G) (q : Slot) (r : Account G) (f : FileNo) : ℕ :=
  own s q f + r.hand.count f - r.owed f

structure Counted (s : State G) (rs : Slot → Account G) : Prop where
  count : ∀ f, (s.file f).ref = ∑ q, share s q (rs q) f
  due : ∀ q f, (rs q).due = some f → 2 ≤ own s q f
  spent : ∀ q f, (rs q).spent = some f → 1 ≤ own s q f
  seen : ∀ q fd f, (rs q).seen = some (fd, f) → s.ofile q fd = some f
  free : ∀ f, (s.file f).ref = 0 → (s.file f).type = .none
  fresh : ∀ q, ∀ f ∈ (rs q).fresh,
    (s.file f).type = .none ∧ (s.file f).ref = 1 ∧ 1 ≤ share s q (rs q) f

/-- Only living processes have descriptors, and processes in the making. -/
structure Lives (s : State G) (rs : Slot → Account G) : Prop where
  empty : ∀ q fd f, s.ofile q fd = some f → s.life q = .alive ∨ ∃ p, (rs p).child = some q
  child : ∀ p q, (rs p).child = some q → s.life q = .embryo
  child_inj : ∀ p p' q, (rs p).child = some q → (rs p').child = some q → p = p'
  blank : ∀ p q, (rs p).child = some q → ∀ fd ∈ (rs p).blank, s.ofile q fd = none
  emptied : ∀ q, ∀ fd ∈ (rs q).emptied, s.ofile q fd = none ∧ s.life q = .alive
  busy : ∀ q, (rs q).busy = true → s.life q = .alive

/-! ## Pipes -/

def Pipe.isOpen (d : Pipe) (writable : Bool) : Bool :=
  if writable then d.writeopen else d.readopen

/-- The file is an end of the pipe in `g`. -/
structure File.IsEnd (x : File G) (g : G) (w : Bool) : Prop where
  type : x.type = .pipe
  pipe : x.pipe = some g
  writable : x.writable = w

/-- What keeps an end of a pipe open: a file, or a call that is about to close it. -/
def Keeps (s : State G) (rs : Slot → Account G) (h : FileNo ⊕ Slot) (g : G) (w : Bool) : Prop :=
  match h with
  | .inl f => (s.file f).IsEnd g w
  | .inr p => (rs p).closing = some (g, w)

structure Piped (s : State G) (rs : Slot → Account G) : Prop where
  typed : ∀ f, (s.file f).type = .pipe → ∃ g, (s.file f).pipe = some g
  isOpen : ∀ h g w, Keeps s rs h g w → ∃ d, s.page g = .pipe d ∧ d.isOpen w = true
  unique : ∀ h h' g w, Keeps s rs h g w → Keeps s rs h' g w → h = h'
  kept : ∀ g d w, s.page g = .pipe d → d.isOpen w = true → ∃ h, Keeps s rs h g w
  freeing : ∀ p g, (rs p).freeing = some g → ∃ d, s.page g = .pipe d ∧ ∀ w, d.isOpen w = false
  freeing_inj : ∀ p p' g, (rs p).freeing = some g → (rs p').freeing = some g → p = p'
  closed : ∀ g d, s.page g = .pipe d → (∀ w, d.isOpen w = false) → ∃ p, (rs p).freeing = some g
  taken : ∀ p g, (rs p).page = some g → s.page g = .taken (some p)
  ids : ∀ g d, s.page g = .pipe d → d.id < s.made ∧ s.frees d.id = 0
  ids_inj : ∀ g g' d d', s.page g = .pipe d → s.page g' = .pipe d' → d.id = d'.id → g = g'
  freed : ∀ i < s.made, (∃ g d, s.page g = .pipe d ∧ d.id = i) ∨ s.frees i = 1
  unmade : ∀ i, s.made ≤ i → s.frees i = 0

structure Inv (s : State G) (rs : Slot → Account G) : Prop where
  counted : Counted s rs
  lives : Lives s rs
  piped : Piped s rs

/-! ## What an action leaves alone -/

section Congr

variable {s s' : State G} {rs : Slot → Account G} {p q : Slot} {r : Account G} {f : FileNo}

theorem Inv.same (h : Inv s rs) (hr : rs p = r) : Inv s (update rs p r) := by
  rw [← hr, update_eq_self]
  exact h

theorem own_pos {fd : Fd} (h : s.ofile q fd = some f) : 1 ≤ own s q f := by
  have hle := le_sum (fun fd => if s.ofile q fd = some f then 1 else 0) fd
  simpa [h, own] using hle

theorem own_two {fd fd' : Fd} (hne : fd ≠ fd') (h : s.ofile q fd = some f) (h' : s.ofile q fd' = some f) :
    2 ≤ own s q f := by
  have hle := add_le_sum (fun fd => if s.ofile q fd = some f then 1 else 0) hne
  simpa [h, h', own] using hle

theorem own_congr (h : ∀ fd, s'.ofile q fd = s.ofile q fd) : own s' q f = own s q f := by
  unfold own
  simp only [h]

theorem own_setFd (s : State G) (q : Slot) (fd : Fd) (o : Option FileNo) (f : FileNo) :
    own (s.setFd q fd o) q f + (if s.ofile q fd = some f then 1 else 0) = own s q f + if o = some f then 1 else 0 := by
  have hsum := sum_add_eq (f := fun x => if (s.setFd q fd o).ofile q x = some f then 1 else 0)
    (g := fun x => if s.ofile q x = some f then 1 else 0) (p := fd) fun x hx => by
      simp [State.setFd, update_of_ne hx]
  simpa [own, State.setFd] using hsum

theorem Counted.owed_le (h : Counted s rs) (q : Slot) (f : FileNo) : (rs q).owed f ≤ own s q f := by
  unfold Account.owed
  by_cases hdue : (rs q).due = some f
  · have hown := h.due q f hdue
    rw [if_pos hdue]
    split_ifs <;> omega
  rw [if_neg hdue]
  by_cases hspent : (rs q).spent = some f
  · have hown := h.spent q f hspent
    rw [if_pos hspent]
    omega
  · rw [if_neg hspent]
    omega

theorem Counted.step (h : Counted s rs) (hothers : ∀ q, q ≠ p → ∀ fd, s'.ofile q fd = s.ofile q fd)
    (href : ∀ f, (s'.file f).ref + share s p (rs p) f = (s.file f).ref + share s' p r f)
    (hdue : ∀ f, r.due = some f → 2 ≤ own s' p f) (hspent : ∀ f, r.spent = some f → 1 ≤ own s' p f)
    (hseen : ∀ fd f, r.seen = some (fd, f) → s'.ofile p fd = some f)
    (hfree : ∀ f, (s'.file f).ref = 0 → (s'.file f).type = .none)
    (hfresh : ∀ f ∈ r.fresh, (s'.file f).type = .none ∧ (s'.file f).ref = 1 ∧ 1 ≤ share s' p r f)
    (hkeep : ∀ f, ((s'.file f).ref = (s.file f).ref ∧ (s'.file f).type = (s.file f).type) ∨ (s.file f).ref = 0 ∨
      1 ≤ share s p (rs p) f) :
    Counted s' (update rs p r) := by
  have hshare : ∀ q, q ≠ p → ∀ f, share s' q (update rs p r q) f = share s q (rs q) f := by
    intro q hq f
    rw [update_of_ne hq]
    unfold share
    rw [own_congr (hothers q hq)]
  have hother : ∀ q, q ≠ p → ∀ f, own s' q f = own s q f := fun q hq f => own_congr (hothers q hq)
  refine ⟨fun f => ?_, fun q f hf => ?_, fun q f hf => ?_, fun q fd f hf => ?_, hfree, fun q f hf => ?_⟩
  · have hsum := sum_add_eq (f := fun q => share s' q (update rs p r q) f)
      (g := fun q => share s q (rs q) f) (p := p) fun q hq => hshare q hq f
    have hcount := h.count f
    have hf := href f
    simp only [update_self] at hsum
    omega
  · by_cases hq : q = p
    · subst hq
      exact hdue f (by simpa using hf)
    · rw [hother q hq]
      exact h.due q f (by simpa [update_of_ne hq] using hf)
  · by_cases hq : q = p
    · subst hq
      exact hspent f (by simpa using hf)
    · rw [hother q hq]
      exact h.spent q f (by simpa [update_of_ne hq] using hf)
  · by_cases hq : q = p
    · subst hq
      exact hseen fd f (by simpa using hf)
    · rw [hothers q hq]
      exact h.seen q fd f (by simpa [update_of_ne hq] using hf)
  · by_cases hq : q = p
    · subst hq
      simpa using hfresh f (by simpa using hf)
    have hold := h.fresh q f (by simpa [update_of_ne hq] using hf)
    rw [hshare q hq f]
    -- nobody else has a reference to a fresh file
    rcases hkeep f with ⟨href', htype⟩ | hzero | hpos
    · exact ⟨htype.trans hold.1, href'.trans hold.2.1, hold.2.2⟩
    · omega
    · have htwo := add_le_sum (fun q => share s q (rs q) f) hq
      have hcount := h.count f
      omega

theorem Lives.congr (h : Lives s rs) (hofile : s'.ofile = s.ofile) (hlife : s'.life = s.life)
    (hchild : r.child = (rs p).child) (hblank : r.blank = (rs p).blank) (hemptied : r.emptied = (rs p).emptied)
    (hbusy : r.busy = (rs p).busy) : Lives s' (update rs p r) := by
  have hc := field_update_of_eq Account.child hchild
  have hb := field_update_of_eq Account.blank hblank
  have he := field_update_of_eq Account.emptied hemptied
  have hu := field_update_of_eq Account.busy hbusy
  constructor
  · simpa only [hofile, hlife, hc] using h.empty
  · simpa only [hlife, hc] using h.child
  · simpa only [hc] using h.child_inj
  · simpa only [hofile, hc, hb] using h.blank
  · simpa only [hofile, hlife, he] using h.emptied
  · simpa only [hlife, hu] using h.busy

theorem Keeps.congr (hends : ∀ f g w, (s'.file f).IsEnd g w ↔ (s.file f).IsEnd g w)
    (hclosing : r.closing = (rs p).closing) (h : FileNo ⊕ Slot) (g : G) (w : Bool) :
    Keeps s' (update rs p r) h g w ↔ Keeps s rs h g w := by
  cases h with
  | inl f => exact hends f g w
  | inr q =>
    show (update rs p r q).closing = some (g, w) ↔ _
    rw [field_update_of_eq Account.closing hclosing]
    rfl

theorem Piped.congr (h : Piped s rs) (hends : ∀ f g w, (s'.file f).IsEnd g w ↔ (s.file f).IsEnd g w)
    (htyped : ∀ f, (s'.file f).type = .pipe → ∃ g, (s'.file f).pipe = some g)
    (hpage : s'.page = s.page) (hmade : s'.made = s.made) (hfrees : s'.frees = s.frees)
    (hp : r.page = (rs p).page) (hclosing : r.closing = (rs p).closing) (hfreeing : r.freeing = (rs p).freeing) :
    Piped s' (update rs p r) := by
  have hk := Keeps.congr hends hclosing
  have hf := field_update_of_eq Account.freeing hfreeing
  have hg := field_update_of_eq Account.page hp
  constructor
  · exact htyped
  · simpa only [hk, hpage] using h.isOpen
  · simpa only [hk] using h.unique
  · simpa only [hk, hpage] using h.kept
  · simpa only [hf, hpage] using h.freeing
  · simpa only [hf] using h.freeing_inj
  · simpa only [hf, hpage] using h.closed
  · simpa only [hg, hpage] using h.taken
  · simpa only [hpage, hmade, hfrees] using h.ids
  · simpa only [hpage] using h.ids_inj
  · simpa only [hpage, hmade, hfrees] using h.freed
  · simpa only [hmade, hfrees] using h.unmade

theorem Piped.congr_file (h : Piped s rs) (hfile : s'.file = s.file) (hpage : s'.page = s.page)
    (hmade : s'.made = s.made) (hfrees : s'.frees = s.frees) (hp : r.page = (rs p).page)
    (hclosing : r.closing = (rs p).closing) (hfreeing : r.freeing = (rs p).freeing) :
    Piped s' (update rs p r) := by
  refine h.congr (fun f g w => by rw [hfile]) (fun f => ?_) hpage hmade hfrees hp hclosing hfreeing
  rw [hfile]
  exact h.typed f

theorem Piped.congr_setFile {x : File G} (h : Piped s rs) (hbefore : (s.file f).type ≠ .pipe) (hx : x.type ≠ .pipe)
    (hp : r.page = (rs p).page) (hclosing : r.closing = (rs p).closing) (hfreeing : r.freeing = (rs p).freeing) :
    Piped (s.setFile f x) (update rs p r) := by
  refine h.congr (fun f' g w => ?_) (fun f' hf' => ?_) rfl rfl rfl hp hclosing hfreeing
  · by_cases hf : f' = f
    · subst hf
      simp only [State.setFile, update_self]
      exact ⟨fun hend => absurd hend.type hx, fun hend => absurd hend.type hbefore⟩
    · simp only [State.setFile, update_of_ne hf]
  by_cases hf : f' = f
  · subst hf
    simp only [State.setFile, update_self] at hf'
    exact absurd hf' hx
  · simp only [State.setFile, update_of_ne hf] at hf' ⊢
    exact h.typed f' hf'

theorem Piped.congr_ref (h : Piped s rs) (n : ℕ) (hp : r.page = (rs p).page) (hclosing : r.closing = (rs p).closing)
    (hfreeing : r.freeing = (rs p).freeing) :
    Piped (s.setFile f { s.file f with ref := n }) (update rs p r) := by
  have hsame : ∀ f', (s.setFile f { s.file f with ref := n }).file f' = { s.file f' with
      ref := ((s.setFile f { s.file f with ref := n }).file f').ref } := by
    intro f'
    by_cases hf : f' = f
    · subst hf
      simp [State.setFile]
    · simp [State.setFile, update_of_ne hf]
  refine h.congr (fun f' g w => ?_) (fun f' hf' => ?_) rfl rfl rfl hp hclosing hfreeing
  · rw [hsame f']
    exact ⟨fun hend => ⟨hend.type, hend.pipe, hend.writable⟩, fun hend => ⟨hend.type, hend.pipe, hend.writable⟩⟩
  · rw [hsame f'] at hf' ⊢
    exact h.typed f' hf'

end Congr

end Xv6.Files
