import Mathlib.Tactic.Common
import Xv6.Common.Refs
import Xv6.Inodes.Cache

/-!
# Accounts — what a process knows about the inode it works on

Whoever has the sleep lock of an entry is the only one to change the copy and the disk inode; the account of a process
says how far its call has come with that.  `Cached` holds whatever inodes the processes look up.  `Alone` is what
becomes of it if nobody looks up an inode that has no name: then the reference count that `iput` has seen under
`icache.lock` is still 1 when the inode is freed.
-/

namespace Xv6.Inodes

open Function (update update_of_ne update_self)
open Common
open Fs (Dinode)

/-! ## Accounts -/

/-- How far a call has come with the inode that it has locked. -/
inductive Stage
  /-- `ilock` has the lock. -/
  | locking
  /-- It has to read the inode. -/
  | loading
  /-- `iput` has the lock. -/
  | putting
  /-- It has found a valid inode without links. -/
  | unlinked
  /-- It has found that there is no other reference. -/
  | sole
  /-- The copy has been truncated, the disk inode not. -/
  | truncated
  /-- The copy is free, the disk inode not. -/
  | cleared
  /-- The disk inode is free. -/
  | freed
  /-- The copy is not valid any more. -/
  | gone

/-- The stages of `iput` from the test of the reference count up to the free disk inode. -/
def Stage.Checked : Stage → Prop
  | .sole | .truncated | .cleared => True
  | _ => False

def Stage.Puts : Stage → Prop
  | .locking | .loading => False
  | _ => True

inductive Account
  | idle
  /-- The call uses a reference of the process. -/
  | has (e : Entry)
  /-- The call uses a lock of the process. -/
  | owns (e : Entry) (clean : Bool)
  /-- The call has taken the lock. -/
  | work (e : Entry) (st : Stage)
  /-- `iput` has released the lock, after it has freed the inode or not. -/
  | dropping (e : Entry) (freed : Bool)
  /-- `ialloc` has marked the inode as allocated. -/
  | fresh (d : ℕ × ℕ)

/-- Who has an entry locked, and what for. -/
inductive Mode
  | rest
  /-- A process has called `ilock`. -/
  | client
  | work (st : Stage)

def Account.mode (r : Account) (e : Entry) : Mode :=
  match r with
  | .work e' st => if e' = e then .work st else .client
  | _ => .client

/-- The entry of a call that has freed an inode. -/
inductive Account.Gone : Account → Entry → Prop
  | freed (e : Entry) : Account.Gone (.work e .freed) e
  | gone (e : Entry) : Account.Gone (.work e .gone) e
  | dropping (e : Entry) : Account.Gone (.dropping e true) e

/-- What is known of a copy `x` and the disk inode `y`. -/
def Mode.Fits (valid changed : Bool) (x y : Dinode) : Mode → Prop
  | .rest | .work .locking | .work .putting => changed = false ∧ (valid = true → x = y ∧ y.type ≠ 0)
  | .client => valid = true ∧ x.type ≠ 0 ∧ y.type ≠ 0 ∧ (changed = false → x = y)
  | .work .loading | .work .gone => changed = false ∧ valid = false
  | .work .unlinked | .work .sole => changed = false ∧ valid = true ∧ x = y ∧ y.type ≠ 0 ∧ y.nlink = 0
  | .work .truncated =>
    changed = false ∧ valid = true ∧ x.type ≠ 0 ∧ x.nlink = 0 ∧ y.type ≠ 0 ∧ y.nlink = 0
  | .work .cleared => changed = false ∧ valid = true ∧ x.type = 0 ∧ y.type ≠ 0 ∧ y.nlink = 0
  | .work .freed => changed = false

/-- A free inode may be allocated at any time. -/
theorem Mode.Fits.of_free {m : Mode} {valid changed : Bool} {x y y' : Dinode} (h : m.Fits valid changed x y)
    (hy : y.type = 0) : m.Fits valid changed x y' := by
  cases m with
  | rest => exact ⟨h.1, fun hv => absurd hy (h.2 hv).2⟩
  | client => exact absurd hy h.2.2.1
  | work st =>
    cases st with
    | locking => exact ⟨h.1, fun hv => absurd hy (h.2 hv).2⟩
    | loading => exact h
    | putting => exact ⟨h.1, fun hv => absurd hy (h.2 hv).2⟩
    | unlinked => exact absurd hy h.2.2.2.1
    | sole => exact absurd hy h.2.2.2.1
    | truncated => exact absurd hy h.2.2.2.2.1
    | cleared => exact absurd hy h.2.2.2.1
    | freed => exact h
    | gone => exact h

section Invariants

variable {P : Type} {s s' : State P} {rs : P → Account} {p q : P} {e : Entry} {r r' : Account}

def mode (s : State P) (rs : P → Account) (e : Entry) : Mode :=
  match (s.inode e).lock with
  | none => .rest
  | some p => (rs p).mode e

abbrev FitsAt (s : State P) (e : Entry) (m : Mode) : Prop :=
  m.Fits (s.inode e).valid (s.changed e) (s.inode e).copy (s.disk (s.inode e).key)

def Backed (s : State P) (p : P) : Account → Prop
  | .idle | .fresh _ => True
  | .has e => 0 < s.refs p e
  | .owns e clean => (s.inode e).lock = some p ∧ (clean = true → s.changed e = false)
  | .work e st => (s.inode e).lock = some p ∧ (st.Puts → s.putting p = some e)
  | .dropping e _ => 0 < s.refs p e ∧ (s.inode e).lock ≠ some p

structure Cached [Fintype P] (s : State P) (rs : P → Account) : Prop where
  unique : ∀ e e', 0 < (s.inode e).ref → 0 < (s.inode e').ref → (s.inode e).key = (s.inode e').key → e = e'
  count : ∀ e, (s.inode e).ref = ∑ p, s.refs p e
  owner : ∀ e p, (s.inode e).lock = some p → 0 < s.refs p e
  fits : ∀ e, 0 < (s.inode e).ref →
    (mode s rs e).Fits (s.inode e).valid (s.changed e) (s.inode e).copy (s.disk (s.inode e).key)
  unchanged : ∀ e, (s.inode e).lock = none → s.changed e = false
  backed : ∀ p, Backed s p (rs p)

/-- The only reference is that of a call of `iput` which has freed the inode. -/
def Dying (s : State P) (rs : P → Account) (e : Entry) : Prop :=
  (s.inode e).ref = 1 ∧ ∃ q, (rs q).Gone e

structure Alone (s : State P) (rs : P → Account) : Prop where
  one : ∀ p e st, rs p = .work e st → st.Checked → (s.inode e).ref = 1
  dying : ∀ e, 0 < (s.inode e).ref →
    ((s.disk (s.inode e).key).type = 0 ∨ ∃ p, rs p = .fresh (s.inode e).key) → Dying s rs e
  fresh : ∀ p d, rs p = .fresh d → (s.disk d).type ≠ 0 ∧ (s.disk d).nlink = 0
  fresh_inj : ∀ p q d, rs p = .fresh d → rs q = .fresh d → p = q

/-! ## References and locks -/

section Counting

variable [Fintype P]

theorem Cached.ref_pos (h : Cached s rs) (hp : 0 < s.refs p e) : 0 < (s.inode e).ref := by
  rw [h.count e]
  exact Nat.lt_of_lt_of_le hp (le_sum (fun q => s.refs q e) p)

theorem Cached.eq_of_ref_one (h : Cached s rs) (hone : (s.inode e).ref = 1) (hp : 0 < s.refs p e)
    (hq : 0 < s.refs q e) : p = q := by
  by_contra hne
  have hsum := add_le_sum (fun q => s.refs q e) hne
  rw [← h.count e, hone] at hsum
  omega

theorem Cached.backed_of (h : Cached s rs) (hr : rs p = r) : Backed s p r := by
  rw [← hr]
  exact h.backed p

theorem Cached.refs_of_work (h : Cached s rs) {st : Stage} (hp : rs p = .work e st) : 0 < s.refs p e :=
  h.owner e p (h.backed_of hp).1

theorem Cached.refs_of_gone (h : Cached s rs) (hp : (rs p).Gone e) : 0 < s.refs p e := by
  have hb := h.backed p
  generalize rs p = r at hb hp
  cases hp with
  | freed => exact h.owner e p hb.1
  | gone => exact h.owner e p hb.1
  | dropping => exact hb.1

/-- Whoever has a reference to an inode that is free on disk, or that is being allocated, has freed it. -/
theorem Alone.gone_of_refs (hc : Cached s rs) (h : Alone s rs) (hp : 0 < s.refs p e)
    (hfree : (s.disk (s.inode e).key).type = 0 ∨ ∃ q, rs q = .fresh (s.inode e).key) :
    (s.inode e).ref = 1 ∧ (rs p).Gone e := by
  rcases h.dying e (hc.ref_pos hp) hfree with ⟨hone, q, hq⟩
  obtain rfl : p = q := hc.eq_of_ref_one hone hp (hc.refs_of_gone hq)
  exact ⟨hone, hq⟩

end Counting

theorem Cached.fits_of_work [Fintype P] (h : Cached s rs) {st : Stage} (hr : rs p = .work e st) : FitsAt s e (.work st) := by
  have hb := h.backed_of hr
  have hfits := h.fits e (h.ref_pos (h.owner e p hb.1))
  simpa only [mode, hb.1, hr, Account.mode, if_true] using hfits

theorem Cached.fits_of_owns [Fintype P] (h : Cached s rs) {clean : Bool} (hr : rs p = .owns e clean) : FitsAt s e .client := by
  have hb := h.backed_of hr
  have hfits := h.fits e (h.ref_pos (h.owner e p hb.1))
  simpa only [mode, hb.1, hr, Account.mode] using hfits

theorem Cached.fits_of_unlocked [Fintype P] (h : Cached s rs) (hlock : (s.inode e).lock = none)
    (hpos : 0 < (s.inode e).ref) : FitsAt s e .rest := by
  have hfits := h.fits e hpos
  simpa only [mode, hlock] using hfits

/-! ## One action on one entry -/

/-- What an action of `p` on the entry `e` leaves alone. -/
structure Local (p : P) (e : Entry) (s s' : State P) : Prop where
  inode : ∀ e', e' ≠ e → s'.inode e' = s.inode e'
  disk : ∀ d, d ≠ (s.inode e).key → s'.disk d = s.disk d
  refs : ∀ q e', q ≠ p ∨ e' ≠ e → s'.refs q e' = s.refs q e'
  changed : ∀ e', e' ≠ e → s'.changed e' = s.changed e'
  putting : ∀ q, q ≠ p → s'.putting q = s.putting q
  key : (s'.inode e).key = (s.inode e).key

theorem Local.refl (p : P) (e : Entry) (s : State P) : Local p e s s :=
  ⟨fun _ _ => rfl, fun _ _ => rfl, fun _ _ _ => rfl, fun _ _ => rfl, fun _ _ => rfl, rfl⟩

theorem Local.trans {s'' : State P} (h : Local p e s s') (h' : Local p e s' s'') : Local p e s s'' where
  inode e' he := (h'.inode e' he).trans (h.inode e' he)
  disk d hd := (h'.disk d (h.key ▸ hd)).trans (h.disk d hd)
  refs q e' hq := (h'.refs q e' hq).trans (h.refs q e' hq)
  changed e' he := (h'.changed e' he).trans (h.changed e' he)
  putting q hq := (h'.putting q hq).trans (h.putting q hq)
  key := h'.key.trans h.key

theorem Local.setInode (x : Inode P) (hkey : x.key = (s.inode e).key) : Local p e s (s.setInode e x) := by
  refine { Local.refl p e s with inode := fun _ he => update_of_ne he _ _, key := ?_ }
  simp only [State.setInode, update_self]
  exact hkey

theorem Local.setDisk (y : Dinode) : Local p e s (s.setDisk (s.inode e).key y) :=
  { Local.refl p e s with disk := fun _ hd => update_of_ne hd _ _ }

theorem Local.setChanged (b : Bool) : Local p e s (s.setChanged e b) :=
  { Local.refl p e s with changed := fun _ he => update_of_ne he _ _ }

/-- What an action of `p` that may put another inode into the entry `e` leaves alone. -/
structure Touches (p : P) (e : Entry) (s s' : State P) : Prop where
  inode : ∀ e', e' ≠ e → s'.inode e' = s.inode e'
  disk : ∀ d, d ≠ (s'.inode e).key → s'.disk d = s.disk d
  refs : ∀ q e', q ≠ p ∨ e' ≠ e → s'.refs q e' = s.refs q e'
  changed : ∀ e', e' ≠ e → s'.changed e' = s.changed e'
  putting : ∀ q, q ≠ p → s'.putting q = s.putting q

theorem Local.touches (hl : Local p e s s') : Touches p e s s' :=
  ⟨hl.inode, hl.key ▸ hl.disk, hl.refs, hl.changed, hl.putting⟩

theorem Cached.key_ne [Fintype P] (h : Cached s rs) (hl : Local p e s s') (hpos : 0 < (s.inode e).ref) (e' : Entry)
    (he : e' ≠ e) (hpos' : 0 < (s.inode e').ref) : (s.inode e').key ≠ (s'.inode e).key := by
  rw [hl.key]
  exact fun heq => he (h.unique e' e hpos' hpos heq)

section Update

variable [DecidableEq P]

theorem Local.setPutting (o : Option Entry) : Local p e s (s.setPutting p o) :=
  { Local.refl p e s with putting := fun _ hq => update_of_ne hq _ _ }

theorem Local.setRefs (n : ℕ) : Local p e s (s.setRefs p e n) := by
  refine { Local.refl p e s with refs := fun q e' hq => ?_ }
  by_cases hqp : q = p
  · subst hqp
    have he : e' ≠ e := hq.resolve_left fun h => h rfl
    simp [State.setRefs, he]
  · simp [State.setRefs, hqp]

structure Account.On (r : Account) (e : Entry) : Prop where
  work : ∀ e' st, r = .work e' st → e' = e
  gone : ∀ e', r.Gone e' → e' = e
  fresh : ∀ d, r ≠ .fresh d

theorem Account.On.idle : Account.On .idle e :=
  ⟨by rintro _ _ ⟨⟩, by rintro _ ⟨⟩, by rintro _ ⟨⟩⟩

theorem Account.On.has : Account.On (.has e) e := ⟨by rintro _ _ ⟨⟩, by rintro _ ⟨⟩, by rintro _ ⟨⟩⟩

theorem Account.On.owns {clean : Bool} : Account.On (.owns e clean) e :=
  ⟨by rintro _ _ ⟨⟩, by rintro _ ⟨⟩, by rintro _ ⟨⟩⟩

theorem Account.On.at_work {st : Stage} : Account.On (.work e st) e := by
  refine ⟨fun e' st' h => ?_, fun e' h => ?_, by rintro _ ⟨⟩⟩
  · cases h
    rfl
  · cases h <;> rfl

theorem Account.On.dropping {b : Bool} : Account.On (.dropping e b) e := by
  refine ⟨by rintro _ _ ⟨⟩, ?_, by rintro _ ⟨⟩⟩
  rintro _ ⟨⟩
  rfl

/-- At other entries the process is a client, if anything. -/
theorem Account.On.mode_of_ne {e' : Entry} (h : r.On e) (he : e' ≠ e) : r.mode e' = .client := by
  cases r with
  | work e1 st =>
    obtain rfl : e1 = e := h.work e1 st rfl
    exact if_neg fun heq => he heq.symm
  | idle => rfl
  | has _ => rfl
  | owns _ _ => rfl
  | dropping _ _ => rfl
  | fresh _ => rfl

theorem mode_update {e' : Entry} (hlock : (s'.inode e').lock = (s.inode e').lock) (hr : rs p = r)
    (hmode : r'.mode e' = r.mode e') : mode s' (update rs p r') e' = mode s rs e' := by
  unfold mode
  rw [hlock]
  cases (s.inode e').lock with
  | none => rfl
  | some q =>
    by_cases hq : q = p
    · subst hq
      simp only [update_self, hr, hmode]
    · simp only [update_of_ne hq]

theorem of_update {r1 : Account} (h : update rs p r' q = r1) (hne : r' ≠ r1) : q ≠ p ∧ rs q = r1 := by
  by_cases hqp : q = p
  · subst hqp
    rw [update_self] at h
    exact absurd h hne
  · rw [update_of_ne hqp] at h
    exact ⟨hqp, h⟩

section Act

variable [Fintype P]

theorem Cached.act (h : Cached s rs) (hl : Touches p e s s') (hr : rs p = r)
    (hmode : ∀ e', e' ≠ e → r'.mode e' = r.mode e')
    (hnew : ∀ e', e' ≠ e → 0 < (s.inode e').ref → (s.inode e').key ≠ (s'.inode e).key)
    (hcount : (s'.inode e).ref + s.refs p e = (s.inode e).ref + s'.refs p e)
    (hlock : (s'.inode e).lock = (s.inode e).lock ∨ ((s.inode e).lock = none ∧ (s'.inode e).lock = some p) ∨
      ((s.inode e).lock = some p ∧ (s'.inode e).lock = none))
    (hchanged : s'.changed e = s.changed e ∨ (s.inode e).lock = some p)
    (howner : (s'.inode e).lock = some p → 0 < s'.refs p e)
    (hfits : (mode s' (update rs p r') e).Fits (s'.inode e).valid (s'.changed e) (s'.inode e).copy
      (s'.disk (s'.inode e).key))
    (hfree : (s'.inode e).lock = none → s'.changed e = false) (hback : Backed s' p r') :
    Cached s' (update rs p r') := by
  -- Another process keeps its lock.
  have hother : ∀ q, q ≠ p → ((s'.inode e).lock = some q ↔ (s.inode e).lock = some q) := by
    intro q hq
    have hne : (some p : Option P) ≠ some q := fun heq => hq (Option.some.inj heq).symm
    rcases hlock with hsame | ⟨hold, hnew⟩ | ⟨hold, hnew⟩
    · rw [hsame]
    · simp [hold, hnew, hq.symm]
    · simp [hold, hnew, hq.symm]
  refine ⟨fun e1 e2 h1 h2 hkey => ?_, fun e' => ?_, fun e' q hq => ?_, fun e' hpos' => ?_, fun e' hnone => ?_,
    fun q => ?_⟩
  · have hkeys : ∀ e', e' ≠ e → 0 < (s'.inode e').ref → (s'.inode e').key ≠ (s'.inode e).key := by
      intro e' he
      rw [hl.inode e' he]
      exact hnew e' he
    by_contra hne
    by_cases he1 : e1 = e
    · subst he1
      exact hkeys e2 (Ne.symm hne) h2 hkey.symm
    by_cases he2 : e2 = e
    · subst he2
      exact hkeys e1 he1 h1 hkey
    · rw [hl.inode e1 he1] at h1 hkey
      rw [hl.inode e2 he2] at h2 hkey
      exact hne (h.unique e1 e2 h1 h2 hkey)
  · by_cases he : e' = e
    · subst he
      have hsum := sum_add_eq (f := fun q => s'.refs q e') (g := fun q => s.refs q e') (p := p)
        fun q hq => hl.refs q e' (.inl hq)
      have hold := h.count e'
      omega
    · rw [hl.inode e' he, h.count e']
      exact Finset.sum_congr rfl fun q _ => (hl.refs q e' (.inr he)).symm
  · by_cases he : e' = e
    · subst he
      by_cases hqp : q = p
      · exact hqp ▸ howner (hqp ▸ hq)
      · rw [hl.refs q e' (.inl hqp)]
        exact h.owner e' q ((hother q hqp).1 hq)
    · rw [hl.inode e' he] at hq
      rw [hl.refs q e' (.inr he)]
      exact h.owner e' q hq
  · by_cases he : e' = e
    · subst he
      exact hfits
    · rw [hl.inode e' he] at hpos' ⊢
      rw [mode_update (congrArg Inode.lock (hl.inode e' he)) hr (hmode e' he), hl.changed e' he, hl.disk _ (hnew e' he hpos')]
      exact h.fits e' hpos'
  · by_cases he : e' = e
    · subst he
      exact hfree hnone
    · rw [hl.inode e' he] at hnone
      rw [hl.changed e' he]
      exact h.unchanged e' hnone
  · by_cases hqp : q = p
    · subst hqp
      rw [update_self]
      exact hback
    rw [update_of_ne hqp]
    have hlocks : ∀ e', (s'.inode e').lock = some q ↔ (s.inode e').lock = some q := by
      intro e'
      by_cases he : e' = e
      · exact he ▸ hother q hqp
      · rw [hl.inode e' he]
    have hb := h.backed q
    generalize rs q = rq at hb ⊢
    cases rq with
    | idle => trivial
    | fresh d => trivial
    | has e' =>
      show 0 < s'.refs q e'
      rw [hl.refs q e' (.inl hqp)]
      exact hb
    | owns e' clean =>
      refine ⟨(hlocks e').2 hb.1, fun hclean => ?_⟩
      by_cases he : e' = e
      · subst he
        rcases hchanged with hsame | hown
        · rw [hsame]
          exact hb.2 hclean
        · exact absurd (Option.some.inj (hown.symm.trans hb.1)) (Ne.symm hqp)
      · rw [hl.changed e' he]
        exact hb.2 hclean
    | work e' st =>
      refine ⟨(hlocks e').2 hb.1, fun hst => ?_⟩
      rw [hl.putting q hqp]
      exact hb.2 hst
    | dropping e' freed =>
      refine ⟨?_, fun heq => hb.2 ((hlocks e').1 heq)⟩
      rw [hl.refs q e' (.inl hqp)]
      exact hb.1

theorem Alone.act (hc : Cached s rs) (h : Alone s rs) (hl : Local p e s s') (hr : rs p = r) (hon : r.On e)
    (hon' : r'.On e) (hhas : 0 < s.refs p e)
    (hone : ∀ st, r' = .work e st → st.Checked → (s'.inode e).ref = 1)
    (hdying : (s'.disk (s.inode e).key).type = 0 ∨ ((s.inode e).ref = 1 ∧ r.Gone e) → 0 < (s'.inode e).ref →
      (s'.inode e).ref = 1 ∧ r'.Gone e)
    (hdisk : r.Gone e → s'.disk = s.disk) : Alone s' (update rs p r') := by
  have hpos := hc.ref_pos hhas
  -- The accounts of the others are as before, and so is whatever is fresh.
  have hfresh : ∀ q d, update rs p r' q = .fresh d → rs q = .fresh d := fun q d hq => (of_update hq (hon'.fresh d)).2
  have hsame : ∀ q d, rs q = .fresh d → s'.disk d = s.disk d := by
    intro q d hq
    by_cases hd : d = (s.inode e).key
    · subst hd
      have hgone := (Alone.gone_of_refs hc h hhas (.inr ⟨q, hq⟩)).2
      rw [hdisk (hr ▸ hgone)]
    · exact hl.disk d hd
  refine ⟨fun q e' st hq hst => ?_, fun e' hpos' hfree => ?_, fun q d hq => ?_, fun q q' d hq hq' => ?_⟩
  · by_cases hqp : q = p
    · subst hqp
      rw [update_self] at hq
      obtain rfl : e' = e := hon'.work e' st hq
      exact hone st hq hst
    rw [update_of_ne hqp] at hq
    have hold := h.one q e' st hq hst
    by_cases he : e' = e
    · subst he
      exact absurd (hc.eq_of_ref_one hold (hc.refs_of_work hq) hhas) hqp
    · rw [hl.inode e' he]
      exact hold
  · by_cases he : e' = e
    · subst he
      have hcase : (s'.disk (s.inode e').key).type = 0 ∨ ((s.inode e').ref = 1 ∧ r.Gone e') := by
        rcases hfree with hfree | ⟨q, hq⟩
        · exact .inl (hl.key ▸ hfree)
        · have hold := hfresh q _ hq
          rw [hl.key] at hold
          exact .inr (hr ▸ Alone.gone_of_refs hc h hhas (.inr ⟨q, hold⟩))
      rcases hdying hcase hpos' with ⟨href, hgone⟩
      exact ⟨href, p, by rw [update_self]; exact hgone⟩
    rw [hl.inode e' he] at hpos' hfree
    have hkey : (s.inode e').key ≠ (s.inode e).key := fun heq => he (hc.unique e' e hpos' hpos heq)
    rw [hl.disk _ hkey] at hfree
    have hold : Dying s rs e' := h.dying e' hpos' (hfree.imp_right fun ⟨q, hq⟩ => ⟨q, hfresh q _ hq⟩)
    rcases hold with ⟨href, q, hq⟩
    have hqp : q ≠ p := by
      rintro rfl
      exact he (hon.gone e' (hr ▸ hq))
    refine ⟨by rw [hl.inode e' he]; exact href, q, ?_⟩
    rw [update_of_ne hqp]
    exact hq
  · have hold := hfresh q d hq
    rw [hsame q d hold]
    exact h.fresh q d hold
  · exact h.fresh_inj q q' d (hfresh q d hq) (hfresh q' d hq')

theorem Cached.recycle {x : Inode P} {n : ℕ} (h : Cached s rs) (hr : rs p = r) (hmode : ∀ e', r'.mode e' = r.mode e')
    (hzero : (s.inode e).ref = 0) (hnew : ∀ e', 0 < (s.inode e').ref → (s.inode e').key ≠ x.key) (href : x.ref = 1)
    (hlock : x.lock = (s.inode e).lock) (hvalid : x.valid = false) (hn : n = s.refs p e + 1)
    (hback : Backed ((s.setInode e x).setRefs p e n) p r') :
    Cached ((s.setInode e x).setRefs p e n) (update rs p r') := by
  have hno : ∀ q, s.refs q e = 0 := by
    intro q
    by_contra hq
    have hpos := h.ref_pos (Nat.pos_of_ne_zero hq)
    omega
  have hfree : (s.inode e).lock = none := by
    cases hl : (s.inode e).lock with
    | none => rfl
    | some q =>
      have hpos := h.owner e q hl
      rw [hno q] at hpos
      exact absurd hpos (Nat.lt_irrefl 0)
  have hself : ((s.setInode e x).setRefs p e n).inode e = x := update_self _ _ _
  have hrefs : ((s.setInode e x).setRefs p e n).refs p e = n := by simp [State.setRefs]
  refine h.act ⟨fun e' he => update_of_ne he _ _, fun _ _ => rfl, (Local.setRefs (s := s.setInode e x) n).refs,
    fun _ _ => rfl, fun _ _ => rfl⟩ hr (fun e' _ => hmode e') (fun e' _ he' => ?_) ?_ (.inl ?_) (.inl rfl) (fun hq => ?_) ?_
    (fun _ => h.unchanged e hfree) hback
  · rw [hself]
    exact hnew e' he'
  · rw [hself, hrefs, href, hn, hzero, Nat.zero_add, Nat.add_comm]
  · rw [hself, hlock]
  · rw [hself, hlock, hfree] at hq
    cases hq
  · rw [hself, mode, hself, hlock, hfree]
    refine ⟨h.unchanged e hfree, fun hv => ?_⟩
    rw [hvalid] at hv
    cases hv

omit [Fintype P] in
/-- A process whose account says nothing of importance has another one that does not. -/
theorem Alone.account (h : Alone s rs) (hr : rs p = r) (hgone : ∀ e', ¬ r.Gone e') (hwork : ∀ e' st, r' ≠ .work e' st)
    (hfresh : ∀ d, r' ≠ .fresh d) : Alone s (update rs p r') := by
  have hold : ∀ q d, update rs p r' q = .fresh d → rs q = .fresh d := fun q d hq => (of_update hq (hfresh d)).2
  refine ⟨fun q e st hq => h.one q e st (of_update hq (hwork e st)).2, fun e hpos hcase => ?_,
    fun q d hq => h.fresh q d (hold q d hq), fun q q' d hq hq' => h.fresh_inj q q' d (hold q d hq) (hold q' d hq')⟩
  rcases h.dying e hpos (hcase.imp_right fun ⟨q, hq⟩ => ⟨q, hold q _ hq⟩) with ⟨hone, q, hq⟩
  have hqp : q ≠ p := by
    rintro rfl
    exact hgone e (hr ▸ hq)
  exact ⟨hone, q, by rw [update_of_ne hqp]; exact hq⟩

omit [Fintype P] in
/-- A new reference: nobody may be about to free the inode, and it may not be free. -/
theorem Alone.get (h : Alone s rs) (hr : rs p = r) (hgone : ∀ e', ¬ r.Gone e')
    (hinode : ∀ e', e' ≠ e → s'.inode e' = s.inode e') (hdisk : s'.disk = s.disk)
    (hcheck : ∀ q st, rs q = .work e st → ¬ st.Checked)
    (halloc : (s.disk (s'.inode e).key).type ≠ 0) (hfresh : ∀ q, rs q = .fresh (s'.inode e).key → q = p) :
    Alone s' (update rs p .idle) := by
  have hidle : Alone s (update rs p .idle) := h.account hr hgone (by rintro _ _ ⟨⟩) (by rintro _ ⟨⟩)
  refine ⟨fun q e' st hq hst => ?_, fun e' hpos' hfree => ?_, by rw [hdisk]; exact hidle.fresh, hidle.fresh_inj⟩
  · by_cases he : e' = e
    · subst he
      exact absurd hst (hcheck q st (of_update hq (by rintro ⟨⟩)).2)
    · rw [hinode e' he]
      exact hidle.one q e' st hq hst
  rw [hdisk] at hfree
  by_cases he : e' = e
  · subst he
    rcases hfree with htype | ⟨q, hq⟩
    · exact absurd htype halloc
    · rcases of_update hq (by rintro ⟨⟩) with ⟨hqp, hq⟩
      exact absurd (hfresh q hq) hqp
  · rw [hinode e' he] at hpos' hfree
    rw [Dying, hinode e' he]
    exact hidle.dying e' hpos' hfree

end Act

end Update

end Invariants

end Xv6.Inodes
