import Xv6.Inodes.Accounts

/-!
# Coherence — what an unlocked inode is worth

Every call keeps the invariant of the cache, whatever inodes are looked up: entries are unique, references are counted,
and a valid copy that nobody has locked is the inode on disk.  If only inodes that have a name are looked up, an inode
is freed by the `iput` of its only reference.
-/

namespace Xv6.Inodes

open Function (update update_eq_self update_of_ne update_self)
open Common
open Fs (Dinode)

variable {P : Type} [DecidableEq P]

/-- The inode has a name, or the process has a pointer to it already. -/
def Named (s : State P) (p : P) (d : ℕ × ℕ) : Prop :=
  ((s.disk d).type ≠ 0 ∧ (s.disk d).nlink ≠ 0) ∨ ∃ e, 0 < s.refs p e ∧ (s.inode e).key = d

instance (s : State P) (p : P) (d : ℕ × ℕ) : Decidable (Named s p d) :=
  inferInstanceAs (Decidable (_ ∨ _))

/-- Only inodes that have a name are looked up. -/
def Strict (ok : State P → P → ℕ × ℕ → Bool) : Prop :=
  ∀ s p d, ok s p d = true → Named s p d

/-- What is freed by the change is freed by an `iput` that has the only reference to an inode without links. -/
def FreesLast (s s' : State P) : Prop :=
  ∀ d, (s.disk d).type ≠ 0 → (s'.disk d).type = 0 → ∃ p e, s.putting p = some e ∧ (s.inode e).lock = some p ∧
    (s.inode e).key = d ∧ (s.inode e).ref = 1 ∧ (s.disk d).nlink = 0

def Allowed (ok : State P → P → ℕ × ℕ → Bool) (s s' : State P) : Prop :=
  Strict ok → FreesLast s s'

/-- The panics for misuse; the others are for a full cache, a full disk, or an inode that is not allocated. -/
def Unwanted (e : Panic) : Prop :=
  e = .ilock ∨ e = .iunlock

variable [Fintype P]

def Inv (ok : State P → P → ℕ × ℕ → Bool) (s : State P) (rs : P → Account) : Prop :=
  Cached s rs ∧ (Strict ok → Alone s rs)

variable {ok : State P → P → ℕ × ℕ → Bool} {s s' : State P} {rs : P → Account} {p : P} {e : Entry} {r r' : Account}

omit [DecidableEq P] [Fintype P] in
theorem allowed_of_disk (h : s'.disk = s.disk) : Allowed ok s s' := by
  intro _ d htype hfree
  rw [h] at hfree
  exact absurd hfree htype

omit [DecidableEq P] [Fintype P] in
theorem allowed_refl (s : State P) : Allowed ok s s := allowed_of_disk rfl

variable {d : ℕ × ℕ} {st : Stage}

omit [DecidableEq P] [Fintype P] in
/-- A disk inode that is written, but not as a free one. -/
theorem allowed_of_type {y : Dinode} (hdisk : s'.disk = update s.disk d y) (hy : y.type ≠ 0) : Allowed ok s s' := by
  intro _ d' htype hfree
  rw [hdisk] at hfree
  by_cases hd : d' = d
  · subst hd
    rw [update_self] at hfree
    exact absurd hfree hy
  · rw [update_of_ne hd] at hfree
    exact absurd hfree htype

/-- The call keeps the invariant and frees nothing that it should not. -/
abbrev Keeps {α : Type} (ok : State P → P → ℕ × ℕ → Bool) (p : P) (m : Code P α) (r : Account)
    (Q : α → Account → Prop) : Prop :=
  Moves (Inv ok) (Allowed ok) Unwanted p m r Q

/-! ## Actions that leave the disk alone -/

/-- The action neither counts references nor writes the inode to disk. -/
theorem Inv.same (h : Inv ok s rs) (hl : Local p e s s') (hr : rs p = r) (hon : r.On e) (hon' : r'.On e)
    (hhas : 0 < s.refs p e) (href : (s'.inode e).ref = (s.inode e).ref) (hrefs : s'.refs p e = s.refs p e)
    (hdisk : s'.disk = s.disk)
    (hlock : (s'.inode e).lock = (s.inode e).lock ∨ ((s.inode e).lock = none ∧ (s'.inode e).lock = some p) ∨
      ((s.inode e).lock = some p ∧ (s'.inode e).lock = none))
    (hchanged : s'.changed e = s.changed e ∨ (s.inode e).lock = some p)
    (hfits : (mode s' (update rs p r') e).Fits (s'.inode e).valid (s'.changed e) (s'.inode e).copy
      (s.disk (s.inode e).key))
    (hfree : (s'.inode e).lock = none → s'.changed e = false) (hback : Backed s' p r')
    (hgone : r.Gone e → r'.Gone e)
    (hone : Alone s rs → ∀ st, r' = .work e st → st.Checked → (s.inode e).ref = 1) :
    Inv ok s' (update rs p r') := by
  refine ⟨h.1.act hl.touches hr (fun _ he => (hon'.mode_of_ne he).trans (hon.mode_of_ne he).symm)
    (h.1.key_ne hl (h.1.ref_pos hhas)) (by rw [href, hrefs]) hlock hchanged (fun _ => hrefs ▸ hhas)
    (by rw [hdisk, hl.key]; exact hfits) hfree hback, fun hstrict => ?_⟩
  have halone := h.2 hstrict
  refine Alone.act h.1 halone hl hr hon hon' hhas (fun st hst hc => ?_) (fun hcase _ => ?_) (fun _ => hdisk)
  · rw [href]
    exact hone halone st hst hc
  rw [href]
  rcases hcase with htype | ⟨hone', hold⟩
  · rw [hdisk] at htype
    rcases Alone.gone_of_refs h.1 halone hhas (.inl htype) with ⟨hone', hold⟩
    exact ⟨hone', hgone (hr ▸ hold)⟩
  · exact ⟨hone', hgone hold⟩

attribute [local simp] State.setInode

theorem Inv.setCopy {st' : Stage} {x : Inode P} (h : Inv ok s rs) (hr : rs p = .work e st)
    (hx : x = { s.inode e with valid := x.valid, copy := x.copy })
    (hfits : FitsAt s e (.work st) → (Mode.work st').Fits x.valid (s.changed e) x.copy (s.disk (s.inode e).key))
    (hputs : st'.Puts → st.Puts) (hone : Alone s rs → st'.Checked → (s.inode e).ref = 1)
    (hgone : Account.Gone (.work e st) e → Account.Gone (.work e st') e) :
    Inv ok (s.setInode e x) (update rs p (.work e st')) := by
  have hb := h.1.backed_of hr
  have hkey : x.key = (s.inode e).key := by rw [hx]; rfl
  have hlock : x.lock = (s.inode e).lock := by rw [hx]
  have href : x.ref = (s.inode e).ref := by rw [hx]
  refine h.same (Local.setInode x hkey) hr .at_work .at_work (h.1.refs_of_work hr) ?_ rfl rfl (.inl ?_) (.inl rfl) ?_ ?_
    ⟨?_, fun hst => hb.2 (hputs hst)⟩ hgone fun ha st1 hst hc => ?_
  · simp [href]
  · simp [hlock]
  · simpa [mode, hlock, hb.1, Account.mode] using hfits (h.1.fits_of_work hr)
  · simp [hlock, hb.1]
  · simp [hlock, hb.1]
  · cases hst
    exact hone ha hc

theorem Inv.learn {st' : Stage} (h : Inv ok s rs) (hr : rs p = .work e st)
    (hfits : FitsAt s e (.work st) → FitsAt s e (.work st')) (hputs : st'.Puts → st.Puts)
    (hone : Alone s rs → st'.Checked → (s.inode e).ref = 1)
    (hgone : Account.Gone (.work e st) e → Account.Gone (.work e st') e) :
    Inv ok s (update rs p (.work e st')) := by
  have hcopy := h.setCopy hr (x := s.inode e) rfl hfits hputs hone hgone
  rwa [State.setInode, update_eq_self] at hcopy

/-! ## Locks -/

theorem Inv.acquire (h : Inv ok s rs) (hr : rs p = .has e) (hnone : (s.inode e).lock = none)
    (hl : Local p e (s.setInode e { s.inode e with lock := some p }) s')
    (hinode : s'.inode e = { s.inode e with lock := some p }) (hdisk : s'.disk = s.disk) (hrefs : s'.refs = s.refs)
    (hchanged : s'.changed = s.changed) (hfits : ∀ v c x y, Mode.rest.Fits v c x y → (Mode.work st).Fits v c x y)
    (hputting : st.Puts → s'.putting p = some e) (hst : ¬ st.Checked) : Inv ok s' (update rs p (.work e st)) := by
  have hhas : 0 < s.refs p e := h.1.backed_of hr
  have hlocal : Local p e s s' := (Local.setInode { s.inode e with lock := some p } rfl).trans hl
  have hnew : (s'.inode e).lock = some p := by rw [hinode]
  refine h.same hlocal hr .has .at_work hhas (by rw [hinode]) (by rw [hrefs]) hdisk (.inr (.inl ⟨hnone, hnew⟩))
    (.inl (by rw [hchanged])) ?_ (by simp [hnew]) ⟨hnew, hputting⟩ (by rintro ⟨⟩) fun _ st1 heq hc => ?_
  · have hrest := h.1.fits_of_unlocked hnone (h.1.ref_pos hhas)
    rw [hchanged, hinode]
    simpa [mode, hinode, Account.mode] using hfits _ _ _ _ hrest
  · cases heq
    exact absurd hc hst

theorem Inv.release (h : Inv ok s rs) (hr : rs p = r) (hon : r.On e) (hon' : r'.On e)
    (hlock : (s.inode e).lock = some p)
    (hfits : FitsAt s e .rest)
    (hback : Backed (s.setInode e { s.inode e with lock := none }) p r') (hgone : r.Gone e → r'.Gone e)
    (hwork : ∀ st, r' ≠ .work e st) :
    Inv ok (s.setInode e { s.inode e with lock := none }) (update rs p r') := by
  have hhas := h.1.owner e p hlock
  refine h.same (Local.setInode _ rfl) hr hon hon' hhas ?_ rfl rfl (.inr (.inr ⟨hlock, ?_⟩)) (.inl rfl) ?_ (fun _ => ?_)
    hback hgone fun _ st heq => absurd heq (hwork st)
  · simp
  · simp
  · simpa [mode] using hfits
  · exact hfits.1

/-! ## Writing the inode to disk -/

attribute [local simp] State.setChanged

theorem Inv.write (h : Inv ok s rs) (hr : rs p = r) (hon : r.On e) (hon' : r'.On e)
    (hlock : (s.inode e).lock = some p) (hgone : ¬ r.Gone e)
    (hfits : (r'.mode e).Fits (s.inode e).valid false (s.inode e).copy (s.inode e).copy)
    (hback : Backed ((s.setDisk (s.inode e).key (s.inode e).copy).setChanged e false) p r')
    (hone : Alone s rs → ∀ st, r' = .work e st → st.Checked → (s.inode e).ref = 1)
    (hfree : Alone s rs → (s.inode e).copy.type = 0 → (s.inode e).ref = 1 ∧ r'.Gone e) :
    Inv ok ((s.setDisk (s.inode e).key (s.inode e).copy).setChanged e false) (update rs p r') := by
  have hhas := h.1.owner e p hlock
  have hlocal : Local p e s ((s.setDisk (s.inode e).key (s.inode e).copy).setChanged e false) :=
    (Local.setDisk _).trans (Local.setChanged false)
  refine ⟨h.1.act hlocal.touches hr (fun _ he => (hon'.mode_of_ne he).trans (hon.mode_of_ne he).symm)
    (h.1.key_ne hlocal (h.1.ref_pos hhas)) rfl (.inl rfl) (.inr hlock) (fun _ => hhas) ?_ ?_ hback, fun hstrict => ?_⟩
  · simpa [State.setDisk, mode, hlock] using hfits
  · simp [State.setDisk]
  have halone := h.2 hstrict
  refine Alone.act h.1 halone hlocal hr hon hon' hhas (hone halone) (fun hcase _ => ?_)
    (fun hg => absurd hg hgone)
  rcases hcase with htype | ⟨_, hg⟩
  · exact hfree halone (by simpa [State.setDisk] using htype)
  · exact absurd hg hgone

/-! ## References -/

omit [Fintype P] in
theorem setRefs_refs_self (s : State P) (p : P) (e : Entry) (n : ℕ) : (s.setRefs p e n).refs p e = n := by
  simp [State.setRefs]

theorem Inv.dup (h : Inv ok s rs) (hr : rs p = r) (hpos : 0 < (s.inode e).ref)
    (hmode : ∀ e', r.mode e' = .client) (hgone : ∀ e', ¬ r.Gone e')
    (hcheck : Strict ok → ∀ q st, rs q = .work e st → ¬ st.Checked)
    (halloc : Strict ok → (s.disk (s.inode e).key).type ≠ 0)
    (hfresh : Strict ok → ∀ q, rs q = .fresh (s.inode e).key → q = p) :
    Inv ok ((s.setInode e { s.inode e with ref := (s.inode e).ref + 1 }).setRefs p e (s.refs p e + 1))
      (update rs p .idle) := by
  have hself : ((s.setInode e { s.inode e with ref := (s.inode e).ref + 1 }).setRefs p e (s.refs p e + 1)).inode e =
      { s.inode e with ref := (s.inode e).ref + 1 } := update_self _ _ _
  have hlocal : Local p e s
      ((s.setInode e { s.inode e with ref := (s.inode e).ref + 1 }).setRefs p e (s.refs p e + 1)) :=
    (Local.setInode { s.inode e with ref := (s.inode e).ref + 1 } rfl).trans (Local.setRefs _)
  refine ⟨h.1.act hlocal.touches hr (fun e' _ => (hmode e').symm) (h.1.key_ne hlocal hpos) ?_ (.inl ?_) (.inl rfl) (fun _ => ?_) ?_ ?_ trivial,
    fun hstrict => (h.2 hstrict).get hr hgone hlocal.inode rfl (hcheck hstrict) ?_ ?_⟩
  · rw [hself, setRefs_refs_self]
    show (s.inode e).ref + 1 + s.refs p e = (s.inode e).ref + (s.refs p e + 1)
    omega
  · rw [hself]
  · rw [setRefs_refs_self]
    exact Nat.succ_pos _
  · -- The process is a client of the entry before and after, if it has it locked.
    rw [mode_update (s := s) ?_ hr ?_, hself]
    · exact h.1.fits e hpos
    · rw [hself]
    · exact (hmode e).symm
  · rw [hself]
    exact h.1.unchanged e
  · rw [hlocal.key]
    exact halloc hstrict
  · rw [hlocal.key]
    exact hfresh hstrict

omit [DecidableEq P] [Fintype P] in
theorem cached_eq_some (h : s.cached d = some e) : 0 < (s.inode e).ref ∧ (s.inode e).key = d := by
  simpa using List.find?_some h

omit [DecidableEq P] [Fintype P] in
theorem cached_eq_none (h : s.cached d = none) (he : 0 < (s.inode e).ref) : (s.inode e).key ≠ d := by
  have hall := List.find?_eq_none.1 h e (List.mem_finRange e)
  intro hkey
  exact hall (by simp [he, hkey])

omit [DecidableEq P] [Fintype P] in
theorem empty_eq_some (h : s.empty = some e) : (s.inode e).ref = 0 := by
  simpa using List.find?_some h

theorem Inv.get (h : Inv ok s rs) (hr : rs p = r) (hmode : ∀ e', r.mode e' = .client) (hgone : ∀ e', ¬ r.Gone e')
    (hcheck : Strict ok → ∀ e, 0 < (s.inode e).ref → (s.inode e).key = d → ∀ q st, rs q = .work e st → ¬ st.Checked)
    (halloc : Strict ok → (s.disk d).type ≠ 0) (hfresh : Strict ok → ∀ q, rs q = .fresh d → q = p) :
    Ensures Unwanted (s.get p d) fun x =>
      Allowed ok s x.2 ∧ ∃ r', Inv ok x.2 (update rs p r') ∧ r' = .idle := by
  unfold State.get
  cases hfind : s.cached d with
  | some e =>
    rcases cached_eq_some hfind with ⟨hpos, rfl⟩
    exact .ok ⟨allowed_of_disk rfl, .idle,
      h.dup hr hpos hmode hgone (fun hs => hcheck hs e hpos rfl) halloc hfresh, rfl⟩
  | none =>
    cases hempty : s.empty with
    | none => exact .error (by simp [Unwanted])
    | some e =>
      have hzero := empty_eq_some hempty
      have hkey : ∀ (x : Inode P), Inode.key { x with dev := d.1, inum := d.2, ref := 1, valid := false } = d :=
        fun _ => rfl
      refine .ok ⟨allowed_of_disk rfl, .idle, ⟨?_, fun hstrict => ?_⟩, rfl⟩
      · exact h.1.recycle hr (fun e' => (hmode e').symm) hzero (fun e' he' => cached_eq_none hfind he') rfl rfl rfl
          rfl trivial
      have hself : ((s.setInode e { s.inode e with dev := d.1, inum := d.2, ref := 1, valid := false }).setRefs p e
          (s.refs p e + 1)).inode e = { s.inode e with dev := d.1, inum := d.2, ref := 1, valid := false } :=
        update_self _ _ _
      refine (h.2 hstrict).get hr hgone (fun e' he => update_of_ne he _ _) rfl (fun q st hq _ => ?_) ?_ ?_
      · have hpos := h.1.ref_pos (h.1.refs_of_work hq)
        omega
      · rw [hself, hkey]
        exact halloc hstrict
      · rw [hself, hkey]
        exact hfresh hstrict

/-! ## The calls -/

theorem iget_keeps : Keeps ok p (iget ok p d) .idle fun _ r => r = .idle := by
  refine Moves.await allowed_refl fun s rs _ hI hr hok => ?_
  refine hI.get hr (fun _ => rfl) (by rintro _ ⟨⟩) (fun hstrict e hpos hkey q st hq hst => ?_)
    (fun hstrict htype => ?_) (fun hstrict q hq => ?_)
  · -- Whoever is about to free it has the only reference, and it has no name.
    have halone := hI.2 hstrict
    have hone := halone.one q e st hq hst
    rcases hstrict s p d hok with hname | ⟨e', hrefs, hkey'⟩
    · have hfits := hI.1.fits_of_work hq
      rw [FitsAt, hkey] at hfits
      cases st with
      | sole => exact hname.2 hfits.2.2.2.2
      | truncated => exact hname.2 hfits.2.2.2.2.2
      | cleared => exact hname.2 hfits.2.2.2.2
      | _ => exact hst
    · obtain rfl : e' = e := hI.1.unique e' e (hI.1.ref_pos hrefs) hpos (hkey'.trans hkey.symm)
      obtain rfl : p = q := hI.1.eq_of_ref_one hone hrefs (hI.1.refs_of_work hq)
      rw [hr] at hq
      cases hq
  · rcases hstrict s p d hok with hname | ⟨e', hrefs, rfl⟩
    · exact hname.1 htype
    · have hgone := (Alone.gone_of_refs hI.1 (hI.2 hstrict) hrefs (.inl htype)).2
      rw [hr] at hgone
      cases hgone
  · rcases hstrict s p d hok with hname | ⟨e', hrefs, rfl⟩
    · exact absurd ((hI.2 hstrict).fresh q d hq).2 hname.2
    · have hgone := (Alone.gone_of_refs hI.1 (hI.2 hstrict) hrefs (.inr ⟨q, hq⟩)).2
      rw [hr] at hgone
      cases hgone

theorem idup_keeps : Keeps ok p (idup p e) (.has e) fun _ r => r = .idle := by
  refine Moves.modify allowed_refl fun s rs hI hr => ⟨allowed_of_disk rfl, .idle, ?_, rfl⟩
  have hhas : 0 < s.refs p e := hI.1.backed_of hr
  -- The process has not freed the inode, so nobody has.
  have hnot : Strict ok → ¬ ((s.disk (s.inode e).key).type = 0 ∨ ∃ q, rs q = .fresh (s.inode e).key) := by
    intro hstrict hcase
    have hgone := (Alone.gone_of_refs hI.1 (hI.2 hstrict) hhas hcase).2
    rw [hr] at hgone
    cases hgone
  refine hI.dup hr (hI.1.ref_pos hhas) (fun _ => rfl) (by rintro _ ⟨⟩) (fun hstrict q st hq hst => ?_)
    (fun hstrict htype => hnot hstrict (.inl htype)) (fun hstrict q hq => absurd (.inr ⟨q, hq⟩) (hnot hstrict))
  have hone := (hI.2 hstrict).one q e st hq hst
  obtain rfl : p = q := hI.1.eq_of_ref_one hone hhas (hI.1.refs_of_work hq)
  rw [hr] at hq
  cases hq

theorem load_keeps : Keeps ok p (load e) (.work e .loading) fun _ r => r = .idle := by
  refine Moves.await allowed_refl fun s rs _ hI hr _ => ?_
  by_cases htype : (s.disk (s.inode e).key).type = 0
  · rw [if_pos htype]
    exact .error (by simp [Unwanted])
  rw [if_neg htype]
  have hb := hI.1.backed_of hr
  have hfits := hI.1.fits_of_work hr
  refine .ok ⟨allowed_of_disk rfl, .idle, ?_, rfl⟩
  refine hI.same (Local.setInode _ rfl) hr .at_work .idle (hI.1.refs_of_work hr) ?_ rfl rfl (.inl ?_) (.inl rfl) ?_ ?_
    trivial (by rintro ⟨⟩) (by rintro _ _ ⟨⟩)
  · simp
  · simp
  · simp only [State.setInode, mode, update_self, hb.1]
    exact ⟨rfl, htype, htype, fun _ => rfl⟩
  · simp [hb.1]

theorem ilock_keeps : Keeps ok p (ilock p e) (.has e) fun _ r => r = .idle := by
  refine Moves.bind (Moves.read allowed_refl fun s rs hI hr => ?_)
  have hb := hI.1.backed_of hr
  rw [if_neg (Nat.not_lt.2 (hI.1.ref_pos hb))]
  clear hI hr hb
  refine Moves.bind (Moves.await allowed_refl fun s rs _ hI hr hready => ?_)
  have hnone : (s.inode e).lock = none := by simpa using hready
  refine .ok ⟨allowed_of_disk rfl, .work e .locking, ?_, ?_⟩
  · exact hI.acquire hr hnone (Local.refl p e _) (update_self _ _ _) rfl rfl rfl (fun _ _ _ _ h => h)
      (fun hst => hst.elim) (fun hst => hst)
  refine Moves.bind (Moves.look allowed_refl fun s rs hI hr => ?_)
  have hb := hI.1.backed_of hr
  have hfits := hI.1.fits_of_work hr
  cases hvalid : (s.inode e).valid with
  | true =>
    refine ⟨.idle, ?_, ?_⟩
    · refine hI.same (Local.refl p e s) hr .at_work .idle (hI.1.refs_of_work hr) rfl rfl rfl (.inl rfl) (.inl rfl) ?_
        (hI.1.unchanged e) trivial (by rintro ⟨⟩) (by rintro _ _ ⟨⟩)
      have hsame := hfits.2 hvalid
      simp only [mode, hb.1, update_self]
      exact ⟨hvalid, hsame.1 ▸ hsame.2, hsame.2, fun _ => hsame.1⟩
    · simp only [if_true]
      exact Moves.pure rfl
  | false =>
    refine ⟨.work e .loading, ?_, ?_⟩
    · exact hI.learn hr (fun h => ⟨h.1, hvalid⟩) (fun h => h) (fun _ h => h.elim) (by rintro ⟨⟩)
    · simp only [Bool.false_eq_true, if_false]
      exact load_keeps

theorem iunlock_keeps : Keeps ok p (iunlock p e) (.owns e true) fun _ r => r = .idle := by
  refine Moves.await allowed_refl fun s rs _ hI hr _ => ?_
  have hb := hI.1.backed_of hr
  have hpos := hI.1.ref_pos (hI.1.owner e p hb.1)
  have hfits := hI.1.fits_of_owns hr
  rw [if_neg (by simp [hb.1]; omega)]
  refine .ok ⟨allowed_of_disk rfl, .idle, ?_, rfl⟩
  refine hI.release hr .owns .idle hb.1 ⟨hb.2 rfl, fun _ => ?_⟩ trivial (by rintro ⟨⟩) (by rintro _ ⟨⟩)
  exact ⟨hfits.2.2.2 (hb.2 rfl), hfits.2.2.1⟩

theorem change_keeps {x : Dinode} (hx : x.type ≠ 0) : Keeps ok p (change e x) (.owns e false) fun _ r => r = .idle := by
  refine Moves.modify allowed_refl fun s rs hI hr => ⟨allowed_of_disk rfl, .idle, ?_, rfl⟩
  have hb := hI.1.backed_of hr
  have hfits := hI.1.fits_of_owns hr
  refine hI.same ((Local.setInode { s.inode e with copy := x } rfl).trans (Local.setChanged true)) hr .owns .idle
    (hI.1.owner e p hb.1) ?_ rfl rfl (.inl ?_) (.inr hb.1) ?_ ?_ trivial (by rintro ⟨⟩) (by rintro _ _ ⟨⟩)
  · simp
  · simp
  · simp only [State.setInode, State.setChanged, mode, update_self, hb.1]
    exact ⟨hfits.1, hx, hfits.2.2.1, fun h => (by cases h)⟩
  · simp [hb.1]

theorem iupdate_keeps : Keeps ok p (iupdate e) (.owns e false) fun _ r => r = .idle := by
  refine Moves.modify allowed_refl fun s rs hI hr => ?_
  have hb := hI.1.backed_of hr
  have hfits := hI.1.fits_of_owns hr
  refine ⟨allowed_of_type rfl hfits.2.1, .idle, ?_, rfl⟩
  exact hI.write hr .owns .idle hb.1 (by rintro ⟨⟩) ⟨hfits.1, hfits.2.1, hfits.2.1, fun _ => rfl⟩ trivial
    (by rintro _ _ ⟨⟩) (fun _ htype => absurd htype hfits.2.1)

/-! ### `iput` -/

theorem copy_keeps (st st' : Stage) {f : Inode P → Inode P}
    (hf : ∀ x, f x = { x with valid := (f x).valid, copy := (f x).copy })
    (hfits : ∀ x c y, (Mode.work st).Fits x.valid c x.copy y → (Mode.work st').Fits (f x).valid c (f x).copy y)
    (hputs : st.Puts) (hcheck : st'.Checked → st.Checked)
    (hgone : Account.Gone (.work e st) e → Account.Gone (.work e st') e) :
    Keeps ok p (Prog.modify fun s => s.setInode e (f (s.inode e))) (.work e st) fun _ r => r = .work e st' := by
  refine Moves.modify allowed_refl fun s rs hI hr => ⟨allowed_of_disk rfl, _, ?_, rfl⟩
  exact hI.setCopy hr (hf _) (hfits _ _ _) (fun _ => hputs) (fun ha hst => ha.one p e st hr (hcheck hst)) hgone

theorem writeTruncated_keeps : Keeps ok p (iupdate e) (.work e .truncated) fun _ r => r = .work e .sole := by
  refine Moves.modify allowed_refl fun s rs hI hr => ?_
  have hb := hI.1.backed_of hr
  have hfits := hI.1.fits_of_work hr
  refine ⟨allowed_of_type rfl hfits.2.2.1, _, ?_, rfl⟩
  refine hI.write hr .at_work .at_work hb.1 (by rintro ⟨⟩) ?_ hb (fun ha st hst _ => ?_)
    (fun _ htype => absurd htype hfits.2.2.1)
  · simp only [Account.mode, if_true]
    exact ⟨rfl, hfits.2.1, rfl, hfits.2.2.1, hfits.2.2.2.1⟩
  · exact ha.one p e _ hr trivial

theorem writeCleared_keeps : Keeps ok p (iupdate e) (.work e .cleared) fun _ r => r = .work e .freed := by
  refine Moves.modify allowed_refl fun s rs hI hr => ?_
  have hb := hI.1.backed_of hr
  have hfits := hI.1.fits_of_work hr
  refine ⟨fun hstrict d htype hfree => ?_, _, ?_, rfl⟩
  · have hone := (hI.2 hstrict).one p e _ hr trivial
    have hd : d = (s.inode e).key := by
      by_contra hne
      exact htype (by simpa [State.setDisk, hne] using hfree)
    subst hd
    exact ⟨p, e, hb.2 trivial, hb.1, rfl, hone, hfits.2.2.2.2⟩
  refine hI.write hr .at_work .at_work hb.1 (by rintro ⟨⟩) ?_ hb (fun _ st hst hc => ?_)
    (fun ha _ => ⟨ha.one p e _ hr trivial, .freed e⟩)
  · simp only [Account.mode, if_true]
    exact rfl
  · cases hst
    exact hc.elim

theorem free_keeps : Keeps ok p (free e) (.work e .sole) fun _ r => r = .work e .gone := by
  refine Moves.bind (Moves.mono (copy_keeps .sole .truncated
    (f := fun x => { x with copy := { x.copy with addrs := fun _ => 0, size := 0 } }) (fun _ => rfl) (fun x c y h => ?_) trivial
    (fun h => h) (by rintro ⟨⟩)) ?_)
  · rcases h with ⟨hc, hv, rfl, htype, hlink⟩
    exact ⟨hc, hv, htype, hlink, htype, hlink⟩
  rintro - _ rfl
  refine Moves.bind (Moves.mono writeTruncated_keeps ?_)
  rintro - _ rfl
  refine Moves.bind (Moves.mono (copy_keeps .sole .cleared
    (f := fun x => { x with copy := { x.copy with type := 0 } }) (fun _ => rfl) (fun x c y h => ?_) trivial
    (fun h => h) (by rintro ⟨⟩)) ?_)
  · exact ⟨h.1, h.2.1, rfl, h.2.2.2.1, h.2.2.2.2⟩
  rintro - _ rfl
  refine Moves.bind (Moves.mono writeCleared_keeps ?_)
  rintro - _ rfl
  exact copy_keeps .freed .gone (f := fun x => { x with valid := false }) (fun _ => rfl) (fun x c y h => ⟨h, rfl⟩) trivial
    (fun h => h.elim) (fun _ => .gone e)

theorem freeUnused_keeps :
    Keeps ok p (freeUnused e) (.work e .putting) fun _ r => r = .work e .putting ∨ r = .work e .gone := by
  refine Moves.bind (Moves.look allowed_refl fun s rs hI hr => ?_)
  cases hcond : ((s.inode e).valid && decide ((s.inode e).copy.nlink = 0)) with
  | false =>
    refine ⟨.work e .putting, ?_, ?_⟩
    · exact hI.learn hr (fun h => h) (fun h => h) (fun _ h => h.elim) (by rintro ⟨⟩)
    · simp only [Bool.false_eq_true, if_false]
      exact Moves.pure (.inl rfl)
  | true =>
    have hseen : (s.inode e).valid = true ∧ (s.inode e).copy.nlink = 0 := by simpa using hcond
    refine ⟨.work e .unlinked, ?_, ?_⟩
    · refine hI.learn hr (fun h => ?_) (fun h => h) (fun _ h => h.elim) (by rintro ⟨⟩)
      rcases h.2 hseen.1 with ⟨hsame, htype⟩
      exact ⟨h.1, hseen.1, hsame, htype, hsame ▸ hseen.2⟩
    simp only [if_true]
    refine Moves.bind (Moves.look allowed_refl fun s rs hI hr => ?_)
    by_cases hone : (s.inode e).ref = 1
    · refine ⟨.work e .sole, ?_, ?_⟩
      · exact hI.learn hr (fun h => h) (fun h => h) (fun _ _ => hone) (by rintro ⟨⟩)
      · simp only [hone, if_true]
        exact free_keeps.mono fun _ _ h => .inr h
    refine ⟨.work e .putting, ?_, ?_⟩
    · exact hI.learn hr (fun h => ⟨h.1, fun _ => ⟨h.2.2.1, h.2.2.2.1⟩⟩) (fun h => h) (fun _ h => h.elim)
        (by rintro ⟨⟩)
    · simp only [hone, if_false]
      exact Moves.pure (.inl rfl)

theorem dropRef_keeps {b : Bool} : Keeps ok p (Prog.modify fun s : State P =>
      ((s.setInode e { s.inode e with ref := (s.inode e).ref - 1 }).setRefs p e (s.refs p e - 1)).setPutting p none)
      (.dropping e b) fun _ r => r = .idle := by
  refine Moves.modify allowed_refl fun s rs hI hr => ⟨allowed_of_disk rfl, .idle, ?_, rfl⟩
  have hb := hI.1.backed_of hr
  have hhas : 0 < s.refs p e := hb.1
  have hpos := hI.1.ref_pos hhas
  have hlocal : Local p e s
      (((s.setInode e { s.inode e with ref := (s.inode e).ref - 1 }).setRefs p e (s.refs p e - 1)).setPutting p none) :=
    ((Local.setInode { s.inode e with ref := (s.inode e).ref - 1 } rfl).trans (Local.setRefs _)).trans
      (Local.setPutting none)
  have hself : (((s.setInode e { s.inode e with ref := (s.inode e).ref - 1 }).setRefs p e
      (s.refs p e - 1)).setPutting p none).inode e = { s.inode e with ref := (s.inode e).ref - 1 } :=
    update_self _ _ _
  refine ⟨hI.1.act hlocal.touches hr (fun e' _ => rfl) (hI.1.key_ne hlocal hpos) ?_ (.inl ?_) (.inl rfl) (fun hlock => ?_) ?_ ?_ trivial,
    fun hstrict => ?_⟩
  · rw [hself]
    show (s.inode e).ref - 1 + s.refs p e = (s.inode e).ref + (s.setRefs p e (s.refs p e - 1)).refs p e
    rw [setRefs_refs_self]
    omega
  · rw [hself]
  · rw [hself] at hlock
    exact absurd hlock hb.2
  · rw [mode_update (s := s) ?_ hr ?_, hself]
    · exact hI.1.fits e hpos
    · rw [hself]
    · rfl
  · rw [hself]
    exact hI.1.unchanged e
  · refine Alone.act hI.1 (hI.2 hstrict) hlocal hr .dropping .idle hhas (by rintro _ ⟨⟩)
      (fun hcase hpos' => ?_) (fun _ => rfl)
    -- If it was the only reference, nothing is left.
    have hone : (s.inode e).ref = 1 := by
      rcases hcase with htype | ⟨hone, -⟩
      · exact (Alone.gone_of_refs hI.1 (hI.2 hstrict) hhas (.inl htype)).1
      · exact hone
    rw [hself] at hpos'
    simp only [hone] at hpos'
    exact absurd hpos' (Nat.lt_irrefl 0)

theorem iput_keeps : Keeps ok p (iput p e) (.has e) fun _ r => r = .idle := by
  refine Moves.bind (Moves.await allowed_refl fun s rs _ hI hr hready => ?_)
  have hnone : (s.inode e).lock = none := by simpa using hready
  refine .ok ⟨allowed_of_disk rfl, .work e .putting, ?_, ?_⟩
  · refine hI.acquire hr hnone (Local.setPutting (some e)) (update_self _ _ _) rfl rfl rfl
      (fun _ _ _ _ h => h) (fun _ => update_self _ _ _) (fun hst => hst)
  refine Moves.bind (freeUnused_keeps.mono fun _ r hr' => ?_)
  have hrelease : ∃ b : Bool, Keeps ok p (Prog.modify fun s : State P =>
      s.setInode e { s.inode e with lock := none }) r fun _ r => r = .dropping e b := by
    rcases hr' with rfl | rfl
    · refine ⟨false, Moves.modify allowed_refl fun s rs hI hr => ⟨allowed_of_disk rfl, _, ?_, rfl⟩⟩
      have hb := hI.1.backed_of hr
      exact hI.release hr .at_work .dropping hb.1 (hI.1.fits_of_work hr)
        ⟨hI.1.refs_of_work hr, by simp⟩ (by rintro ⟨⟩) (by rintro _ ⟨⟩)
    refine ⟨true, Moves.modify allowed_refl fun s rs hI hr => ⟨allowed_of_disk rfl, _, ?_, rfl⟩⟩
    have hb := hI.1.backed_of hr
    have hfits := hI.1.fits_of_work hr
    refine hI.release hr .at_work .dropping hb.1 ⟨hfits.1, fun hv => ?_⟩
      ⟨hI.1.refs_of_work hr, by simp⟩ (fun _ => .dropping e) (by rintro _ ⟨⟩)
    rw [hfits.2] at hv
    cases hv
  rcases hrelease with ⟨b, hrelease⟩
  refine Moves.bind (hrelease.mono ?_)
  rintro - _ rfl
  exact dropRef_keeps

/-! ### `ialloc` -/

theorem Inv.alloc {y : Dinode} (h : Inv ok s rs) (hr : rs p = .idle) (hfree : (s.disk d).type = 0)
    (htype : y.type ≠ 0) (hlink : y.nlink = 0) : Inv ok (s.setDisk d y) (update rs p (.fresh d)) := by
  have hdisk : ∀ d', d' ≠ d → (s.setDisk d y).disk d' = s.disk d' := fun _ hd => update_of_ne hd _ _
  have hself : (s.setDisk d y).disk d = y := update_self _ _ _
  refine ⟨⟨h.1.unique, h.1.count, h.1.owner, fun e hpos => ?_, h.1.unchanged, fun q => ?_⟩, fun hstrict => ?_⟩
  · have hmode : mode (s.setDisk d y) (update rs p (.fresh d)) e = mode s rs e := mode_update rfl hr rfl
    have hold := h.1.fits e hpos
    rw [hmode]
    show (mode s rs e).Fits (s.inode e).valid (s.changed e) (s.inode e).copy ((s.setDisk d y).disk (s.inode e).key)
    by_cases hkey : (s.inode e).key = d
    · rw [hkey] at hold ⊢
      exact hold.of_free hfree
    · rw [hdisk _ hkey]
      exact hold
  · by_cases hqp : q = p
    · subst hqp
      rw [update_self]
      trivial
    · rw [update_of_ne hqp]
      exact h.1.backed q
  have halone := h.2 hstrict
  have hne : ∀ q d', rs q = .fresh d' → d' ≠ d := by
    rintro q _ hq rfl
    exact (halone.fresh q _ hq).1 hfree
  have hfresh : ∀ {q d'}, update rs p (.fresh d) q = .fresh d' → (q = p ∧ d' = d) ∨ rs q = .fresh d' := by
    intro q d' hq
    by_cases hqp : q = p
    · subst hqp
      rw [update_self] at hq
      cases hq
      exact .inl ⟨rfl, rfl⟩
    · rw [update_of_ne hqp] at hq
      exact .inr hq
  refine ⟨fun q e st hq hst => ?_, fun e hpos hcase => ?_, fun q d' hq => ?_, fun q q' d' hq hq' => ?_⟩
  · exact halone.one q e st (of_update hq fun heq => (by cases heq)).2 hst
  · have hcase' : (s.disk (s.inode e).key).type = 0 ∨ ∃ q, rs q = .fresh (s.inode e).key := by
      by_cases hkey : (s.inode e).key = d
      · exact .inl (hkey ▸ hfree)
      · rcases hcase with htype' | ⟨q, hq⟩
        · exact .inl (hdisk _ hkey ▸ htype')
        · exact .inr ⟨q, (hfresh hq).resolve_left fun heq => hkey heq.2⟩
    rcases halone.dying e hpos hcase' with ⟨hone, q, hq⟩
    have hqp : q ≠ p := by
      rintro rfl
      rw [hr] at hq
      cases hq
    exact ⟨hone, q, by rw [update_of_ne hqp]; exact hq⟩
  · rcases hfresh hq with ⟨-, rfl⟩ | hq
    · rw [hself]
      exact ⟨htype, hlink⟩
    · rw [hdisk _ (hne q d' hq)]
      exact halone.fresh q d' hq
  · rcases hfresh hq with ⟨hqp, hd⟩ | hqd
    · rcases hfresh hq' with ⟨hqp', -⟩ | hqd'
      · exact hqp.trans hqp'.symm
      · exact absurd hd (hne q' d' hqd')
    · rcases hfresh hq' with ⟨-, hd⟩ | hqd'
      · exact absurd hd (hne q d' hqd)
      · exact halone.fresh_inj q q' d' hqd hqd'

theorem getFresh_keeps : Keeps ok p (Prog.atomic fun s : State P => s.get p d) (.fresh d) fun _ r => r = .idle := by
  refine Moves.atomic allowed_refl fun s rs hI hr => ?_
  refine hI.get hr (fun _ => rfl) (by rintro _ ⟨⟩) (fun hstrict e hpos hkey q st hq hst => ?_)
    (fun hstrict => ((hI.2 hstrict).fresh p d hr).1) (fun hstrict q hq => (hI.2 hstrict).fresh_inj q p d hq hr)
  have halone := hI.2 hstrict
  have hgone := (Alone.gone_of_refs hI.1 halone (hI.1.refs_of_work hq) (.inr ⟨p, hkey.symm ▸ hr⟩)).2
  rw [hq] at hgone
  cases hgone with
  | freed => exact hst
  | gone => exact hst

theorem ialloc_keeps {n dev : ℕ} {type : UInt16} (htype : type ≠ 0) :
    Keeps ok p (ialloc p n dev type) .idle fun _ r => r = .idle := by
  unfold ialloc
  generalize List.range' 1 (n - 1) = inums
  induction inums with
  | nil => simp [iallocFrom, Moves, Unwanted]
  | cons inum inums ih =>
    refine Moves.bind (Moves.atomic allowed_refl fun s rs hI hr => ?_)
    by_cases hfree : (s.disk (dev, inum)).type = 0
    · rw [if_pos hfree]
      refine .ok ⟨allowed_of_type rfl htype, .fresh (dev, inum), hI.alloc hr hfree htype rfl, ?_⟩
      exact getFresh_keeps
    · rw [if_neg hfree]
      refine .ok ⟨allowed_refl s, .idle, ?_, ih⟩
      rw [← hr, update_eq_self]
      exact hI

/-! ## Runs -/

theorem Inv.account (h : Inv ok s rs) (hr : rs p = .idle) (hback : Backed s p r)
    (hmode : ∀ e', r.mode e' = .client) (hwork : ∀ e' st, r ≠ .work e' st)
    (hfresh : ∀ d, r ≠ .fresh d) : Inv ok s (update rs p r) := by
  refine ⟨⟨h.1.unique, h.1.count, h.1.owner, fun e hpos => ?_, h.1.unchanged, fun q => ?_⟩, fun hstrict => ?_⟩
  · rw [mode_update rfl hr (hmode e)]
    exact h.1.fits e hpos
  · by_cases hqp : q = p
    · subst hqp
      rw [update_self]
      exact hback
    · rw [update_of_ne hqp]
      exact h.1.backed q
  exact (h.2 hstrict).account hr (by rintro _ ⟨⟩) hwork hfresh

theorem Inv.has (h : Inv ok s rs) (hr : rs p = .idle) (hrefs : 0 < s.refs p e) : Inv ok s (update rs p (.has e)) :=
  h.account hr hrefs (fun _ => rfl) (by rintro _ _ ⟨⟩) (by rintro _ ⟨⟩)

theorem Inv.owns {clean : Bool} (h : Inv ok s rs) (hr : rs p = .idle) (hlock : (s.inode e).lock = some p)
    (hclean : clean = true → s.changed e = false) : Inv ok s (update rs p (.owns e clean)) :=
  h.account hr ⟨hlock, hclean⟩ (fun _ => rfl) (by rintro _ _ ⟨⟩) (by rintro _ ⟨⟩)

theorem body_keeps {k : Call} (hI : Inv ok s rs) (hr : rs p = .idle) (hmay : may p k s = true) :
    ∃ r, Inv ok s (update rs p r) ∧ Keeps ok p (body ok p k) r fun _ r => r = .idle := by
  have hidle : Inv ok s (update rs p .idle) := by
    rw [← hr, update_eq_self]
    exact hI
  cases k with
  | iget d => exact ⟨.idle, hidle, Moves.bind (iget_keeps.mono fun _ _ h => Moves.pure h)⟩
  | idup e => exact ⟨.has e, hI.has hr (by simpa [may] using hmay), idup_keeps⟩
  | ilock e => exact ⟨.has e, hI.has hr (by simpa [may] using hmay), ilock_keeps⟩
  | iunlock e =>
    have hown : (s.inode e).lock = some p ∧ s.changed e = false := by simpa [may] using hmay
    exact ⟨.owns e true, hI.owns hr hown.1 fun _ => hown.2, iunlock_keeps⟩
  | iput e => exact ⟨.has e, hI.has hr (by simpa [may] using hmay), iput_keeps⟩
  | change e x =>
    have hown : (s.inode e).lock = some p ∧ x.type ≠ 0 := by simpa [may] using hmay
    exact ⟨.owns e false, hI.owns hr hown.1 fun h => (by cases h), change_keeps hown.2⟩
  | iupdate e =>
    exact ⟨.owns e false, hI.owns hr (by simpa [may] using hmay) fun h => (by cases h), iupdate_keeps⟩
  | ialloc n dev type =>
    exact ⟨.idle, hidle, Moves.bind ((ialloc_keeps (by simpa [may] using hmay)).mono fun _ _ h => Moves.pure h)⟩

omit [DecidableEq P] in
theorem inv_of_start {m : Machine P} (h : Start m) : Inv ok m.shared fun _ => .idle := by
  refine ⟨⟨fun e _ hpos => ?_, fun e => ?_, fun e q hq => ?_, fun e hpos => ?_, fun e _ => h.changed e,
    fun _ => trivial⟩, fun _ => ⟨fun _ _ _ hq => (by cases hq), fun e hpos => ?_, fun _ _ hq => (by cases hq),
    fun _ _ _ hq => (by cases hq)⟩⟩
  · rw [h.ref e] at hpos
    exact absurd hpos (Nat.lt_irrefl 0)
  · simp [h.ref e, h.refs]
  · rw [h.lock e] at hq
    cases hq
  · rw [h.ref e] at hpos
    exact absurd hpos (Nat.lt_irrefl 0)
  · rw [h.ref e] at hpos
    exact absurd hpos (Nat.lt_irrefl 0)

theorem holds_of_reachable {m : Machine P} (h : (system ok).Reachable m) :
    Holds (Inv ok) (Allowed ok) Unwanted (fun r => r = .idle) m := by
  refine System.Reachable.invariant (fun m hm => ?_) (fun m t m' hm hstep => ?_) h
  · refine ⟨_, inv_of_start hm, fun q => ?_⟩
    rw [hm.code q]
    exact Moves.pure rfl
  exact (hm.step allowed_refl (fun _ _ _ _ hI hidle hmay => body_keeps hI hidle hmay) hstep).2

/-- In every state that is reached, whatever the processes look up: no inode has two entries; `ref` counts the pointers;
a valid copy that is not locked is the disk inode; and a process that has called `ilock`, and has not changed the copy
since, has the disk inode before it.  If only inodes that have a name are looked up, an inode becomes free only in an
`iput` that has the only reference, while the inode has no links. -/
theorem inodes_of_reachable {m : Machine P} (h : (system ok).Reachable m) :
    (∀ e e', 0 < (m.shared.inode e).ref → 0 < (m.shared.inode e').ref →
      (m.shared.inode e).dev = (m.shared.inode e').dev → (m.shared.inode e).inum = (m.shared.inode e').inum → e = e') ∧
    (∀ e, (m.shared.inode e).ref = ∑ p, m.shared.refs p e) ∧
    (∀ e, 0 < (m.shared.inode e).ref → (m.shared.inode e).valid = true → (m.shared.inode e).lock = none →
      (m.shared.inode e).copy = m.shared.disk (m.shared.inode e).key) ∧
    (∀ p e, m.code p = .pure () → (m.shared.inode e).lock = some p → m.shared.changed e = false →
      (m.shared.inode e).valid = true ∧ (m.shared.inode e).copy = m.shared.disk (m.shared.inode e).key) ∧
    ((∀ s p d, ok s p d = true → Named s p d) → ∀ t m', step ok m t = some m' → FreesLast m.shared m'.shared) := by
  have hholds := holds_of_reachable h
  refine ⟨?_, ?_, ?_, ?_, fun hstrict t m' hstep => ?_⟩
  · rcases hholds with ⟨rs, hI, -⟩
    exact fun e e' hpos hpos' hdev hinum => hI.1.unique e e' hpos hpos' (Prod.ext hdev hinum)
  · rcases hholds with ⟨rs, hI, -⟩
    exact hI.1.count
  · rcases hholds with ⟨rs, hI, -⟩
    exact fun e hpos hvalid hlock => ((hI.1.fits_of_unlocked hlock hpos).2 hvalid).1
  · rcases hholds with ⟨rs, hI, hcode⟩
    intro p e hp hlock hchanged
    have hidle : rs p = .idle := by
      have hsafe := hcode p
      rw [hp] at hsafe
      exact hsafe
    have hfits := hI.1.fits e (hI.1.ref_pos (hI.1.owner e p hlock))
    simp only [mode, hlock, hidle] at hfits
    exact ⟨hfits.1, hfits.2.2.2 hchanged⟩
  exact (hholds.step allowed_refl (fun _ _ _ _ hI hidle hmay => body_keeps hI hidle hmay) hstep).1 hstrict

/-! ## An inode that is freed -/

def blank : Machine Bool where
  shared :=
    { inode := fun _ => { dev := 0, inum := 0, ref := 0, lock := none, valid := false, copy := Dinode.zero }
      disk := fun _ => Dinode.zero
      refs := fun _ _ => 0
      changed := fun _ => false
      putting := fun _ => none }
  code := fun _ => .pure ()

omit [DecidableEq P] [Fintype P] in
theorem start_blank : Start blank := ⟨fun _ => rfl, fun _ => rfl, fun _ => rfl, fun _ _ => rfl, fun _ => rfl⟩

/-- One process allocates inode 1, locks and unlocks it, and gives it back, up to the test of the reference count. -/
def upToCheck : List (Turn Bool Call Unit) :=
  [.start false (.ialloc 2 1 2), .run false (), .run false (), .start false (.ilock ⟨0, by decide⟩), .run false (),
    .run false (), .run false (), .run false (), .start false (.iunlock ⟨0, by decide⟩), .run false (),
    .start false (.iput ⟨0, by decide⟩), .run false (), .run false (), .run false ()]

/-- The rest of `iput` up to the `iupdate` that frees the inode. -/
def upToFree : List (Turn Bool Call Unit) :=
  [.run false (), .run false (), .run false ()]

/-- Nobody else looks the inode up. -/
def putAlone : Machine Bool :=
  System.follow (step fun s p d => decide (Named s p d)) blank (upToCheck ++ upToFree ++ [.run false ()])

theorem inodes_putAlone :
    (putAlone.shared.inode ⟨0, by decide⟩).ref = 1 ∧ (putAlone.shared.disk (1, 1)).type = 0 ∧
    (∀ e e', 0 < (putAlone.shared.inode e).ref → 0 < (putAlone.shared.inode e').ref →
      (putAlone.shared.inode e).dev = (putAlone.shared.inode e').dev →
      (putAlone.shared.inode e).inum = (putAlone.shared.inode e').inum → e = e') ∧
    (∀ e, (putAlone.shared.inode e).ref = ∑ p, putAlone.shared.refs p e) ∧
    (∀ e, 0 < (putAlone.shared.inode e).ref → (putAlone.shared.inode e).valid = true →
      (putAlone.shared.inode e).lock = none →
      (putAlone.shared.inode e).copy = putAlone.shared.disk (putAlone.shared.inode e).key) ∧
    (∀ p e, putAlone.code p = .pure () → (putAlone.shared.inode e).lock = some p → putAlone.shared.changed e = false →
      (putAlone.shared.inode e).valid = true ∧
        (putAlone.shared.inode e).copy = putAlone.shared.disk (putAlone.shared.inode e).key) ∧
    ((∀ s p d, decide (Named s p d) = true → Named (P := Bool) s p d) → ∀ t m',
      step (fun s p d => decide (Named s p d)) putAlone t = some m' → FreesLast putAlone.shared m'.shared) := by
  refine ⟨by decide, by decide, inodes_of_reachable ?_⟩
  exact System.Reachable.follow (fun _ _ _ h => h) (System.Reachable.of_init start_blank) _

/-- Another process looks the inode up behind the test of the reference count. -/
def putWatched : Machine Bool :=
  System.follow (step fun _ _ _ => true) blank
    (upToCheck ++ [.start true (.iget (1, 1)), .run true ()] ++ upToFree)

/-- The inode is freed although another process has a pointer to it, and that pointer remains. -/
theorem freed_putWatched : ∃ m', (system fun (_ : State Bool) _ _ => true).Reachable putWatched ∧
      step (fun _ _ _ => true) putWatched (.run false ()) = some m' ∧
      (putWatched.shared.disk (1, 1)).type ≠ 0 ∧ (m'.shared.disk (1, 1)).type = 0 ∧
      (putWatched.shared.inode ⟨0, by decide⟩).key = (1, 1) ∧ (putWatched.shared.inode ⟨0, by decide⟩).ref = 2 ∧
      putWatched.shared.refs true ⟨0, by decide⟩ = 1 ∧ ¬ FreesLast putWatched.shared m'.shared := by
  have hstep : ∃ m', step (fun _ _ _ => true) putWatched (.run false ()) = some m' ∧
      (m'.shared.disk (1, 1)).type = 0 := by
    have hsome : ((step (fun _ _ _ => true) putWatched (.run false ())).map fun m' =>
        decide ((m'.shared.disk (1, 1)).type = 0)) = some true := by decide
    rcases Option.map_eq_some_iff.1 hsome with ⟨m', hm', htype⟩
    exact ⟨m', hm', of_decide_eq_true htype⟩
  rcases hstep with ⟨m', hm', htype⟩
  have hbefore : (putWatched.shared.disk (1, 1)).type ≠ 0 := by decide
  refine ⟨m', ?_, hm', hbefore, htype, by decide, by decide, by decide, fun hlast => ?_⟩
  · exact System.Reachable.follow (fun _ _ _ h => h) (System.Reachable.of_init start_blank) _
  · rcases hlast (1, 1) hbefore htype with ⟨p, e, -, -, hkey, hone, -⟩
    have hall : ∀ e, (putWatched.shared.inode e).key = (1, 1) → (putWatched.shared.inode e).ref ≠ 1 := by
      decide
    exact hall e hkey hone

end Xv6.Inodes
