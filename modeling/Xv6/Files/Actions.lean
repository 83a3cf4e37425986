import Xv6.Files.Accounts

/-!
# Actions — what each action does to the accounts

One lemma for each action of the code: with what it needs in hand it does not panic, and this is what the caller
has in hand afterwards.
-/

namespace Xv6.Files

open Function (update update_of_ne update_self)
open Common

variable {G : Type} {s : State G} {rs : Slot → Account G} {p np : Slot} {r r' : Account G} {f f' : FileNo}
  {fd : Fd} {g : G} {w : Bool}

/-- Panics that do not happen. -/
def Unwanted (e : Panic) : Prop :=
  e ≠ .initExiting

/-! ## Shares -/

theorem share_cons_self (hle : r.owed f ≤ own s p f) :
    share s p { r with hand := f :: r.hand } f = share s p r f + 1 := by
  unfold share
  show own s p f + (f :: r.hand).count f - r.owed f = _
  rw [List.count_cons_self]
  omega

theorem share_cons_of_ne (hne : f' ≠ f) : share s p { r with hand := f :: r.hand } f' = share s p r f' := by
  unfold share
  show own s p f' + (f :: r.hand).count f' - r.owed f' = _
  rw [List.count_cons_of_ne (Ne.symm hne)]

theorem share_erase_self (hle : r.owed f ≤ own s p f) (hf : f ∈ r.hand) :
    share s p { r with hand := r.hand.erase f } f + 1 = share s p r f := by
  have hcount := List.count_pos_iff.2 hf
  unfold share
  show own s p f + (r.hand.erase f).count f - r.owed f + 1 = _
  rw [List.count_erase_self]
  omega

theorem share_erase_of_ne (hne : f' ≠ f) : share s p { r with hand := r.hand.erase f } f' = share s p r f' := by
  unfold share
  show own s p f' + (r.hand.erase f).count f' - r.owed f' = _
  rw [List.count_erase_of_ne hne]

theorem Counted.share_le (h : Counted s rs) (p : Slot) (f : FileNo) : share s p (rs p) f ≤ (s.file f).ref := by
  rw [h.count f]
  exact le_sum (fun q => share s q (rs q) f) p

@[simp] theorem setFile_self (x : File G) : (s.setFile f x).file f = x := by
  simp [State.setFile]

theorem setFile_of_ne (x : File G) (hne : f' ≠ f) : (s.setFile f x).file f' = s.file f' := by
  simp [State.setFile, update_of_ne hne]

@[simp] theorem share_setFile (x : File G) (q : Slot) : share (s.setFile f x) q r f' = share s q r f' := rfl

theorem Counted.setFile {x : File G} (h : Counted s rs)
    (hself : x.ref + share s p (rs p) f = (s.file f).ref + share s p r f)
    (hothers : ∀ f', f' ≠ f → share s p r f' = share s p (rs p) f')
    (hdue : ∀ f', r.due = some f' → 2 ≤ own s p f') (hspent : ∀ f', r.spent = some f' → 1 ≤ own s p f')
    (hseen : ∀ fd f', r.seen = some (fd, f') → s.ofile p fd = some f')
    (hfree : x.ref = 0 → x.type = .none)
    (hfresh : ∀ f' ∈ r.fresh, (f' = f ∧ x.type = .none ∧ x.ref = 1 ∧ 1 ≤ share s p r f) ∨
      (f' ≠ f ∧ f' ∈ (rs p).fresh))
    (hkeep : (x.ref = (s.file f).ref ∧ x.type = (s.file f).type) ∨ (s.file f).ref = 0 ∨ 1 ≤ share s p (rs p) f) :
    Counted (s.setFile f x) (update rs p r) := by
  refine h.step (fun q _ fd => rfl) (fun f' => ?_) hdue hspent hseen (fun f' hzero => ?_) (fun f' hf' => ?_)
    (fun f' => ?_)
  · by_cases hf : f' = f
    · subst hf
      simpa using hself
    · rw [setFile_of_ne x hf, share_setFile, hothers f' hf]
  · by_cases hf : f' = f
    · subst hf
      simpa using hfree (by simpa using hzero)
    · rw [setFile_of_ne x hf] at hzero ⊢
      exact h.free f' hzero
  · rcases hfresh f' hf' with ⟨rfl, htype, href, hpos⟩ | ⟨hf, hmem⟩
    · simpa using ⟨htype, href, hpos⟩
    · rw [setFile_of_ne x hf, share_setFile, hothers f' hf]
      exact h.fresh p f' hmem
  · by_cases hf : f' = f
    · subst hf
      simpa using hkeep
    · exact .inl (by rw [setFile_of_ne x hf]; exact ⟨rfl, rfl⟩)

structure Alike (r r' : Account G) : Prop where
  child : r'.child = r.child
  blank : r'.blank = r.blank
  emptied : r'.emptied = r.emptied
  busy : r'.busy = r.busy
  page : r'.page = r.page
  closing : r'.closing = r.closing
  freeing : r'.freeing = r.freeing

theorem Alike.lives {s' : State G} (h : Alike r r') (hl : Lives s rs) (hr : rs p = r) (hofile : s'.ofile = s.ofile)
    (hlife : s'.life = s.life) : Lives s' (update rs p r') := by
  subst hr
  exact hl.congr hofile hlife h.child h.blank h.emptied h.busy

theorem Alike.piped_ref (h : Alike r r') (hp : Piped s rs) (hr : rs p = r) (n : ℕ) :
    Piped (s.setFile f { s.file f with ref := n }) (update rs p r') := by
  subst hr
  exact hp.congr_ref n h.page h.closing h.freeing

/-- What an account says of the descriptors is so. -/
structure Backed (s : State G) (p : Slot) (r : Account G) : Prop where
  due : ∀ f, r.due = some f → 2 ≤ own s p f
  spent : ∀ f, r.spent = some f → 1 ≤ own s p f
  seen : ∀ fd f, r.seen = some (fd, f) → s.ofile p fd = some f

theorem Counted.backed (h : Counted s rs) (hr : rs p = r) : Backed s p r := by
  subst hr
  exact ⟨h.due p, h.spent p, h.seen p⟩

/-! ## The file table -/

theorem filealloc_safe {Q : Option FileNo → Account G → Prop} (hnone : Q none r)
    (hsome : ∀ f, f ∉ r.fresh → Q (some f) { r with hand := f :: r.hand, fresh := f :: r.fresh }) :
    Safe Inv Unwanted p filealloc r Q := by
  refine Safe.atomic fun s rs hI hr => ?_
  cases hfind : (List.finRange nfile).find? fun f => decide ((s.file f).ref = 0) with
  | none => exact Ensures.ok ⟨r, hI.same hr, hnone⟩
  | some f =>
    have href : (s.file f).ref = 0 := by simpa using List.find?_some hfind
    have hle := hI.counted.owed_le p f
    rw [hr] at hle
    have hfresh : f ∉ r.fresh := by
      intro hmem
      have hone := (hI.counted.fresh p f (by rw [hr]; exact hmem)).2.1
      omega
    have hgain := share_cons_self (s := s) hle
    have halike : Alike r { r with hand := f :: r.hand, fresh := f :: r.fresh } := by constructor <;> rfl
    have hb := hI.counted.backed hr
    refine Ensures.ok ⟨_, ⟨?_, halike.lives hI.lives hr rfl rfl, halike.piped_ref hI.piped hr 1⟩, hsome f hfresh⟩
    refine hI.counted.setFile ?_ (fun f' hf' => ?_) hb.due hb.spent hb.seen (by simp) (fun f' hf' => ?_)
      (.inr (.inl href))
    · rw [hr, href]
      show 1 + share s p r f = 0 + share s p { r with hand := f :: r.hand } f
      omega
    · rw [hr]
      exact share_cons_of_ne hf'
    rcases List.mem_cons.1 hf' with rfl | hmem
    · refine .inl ⟨rfl, hI.counted.free _ href, rfl, ?_⟩
      show 1 ≤ share s p { r with hand := f' :: r.hand } f'
      omega
    · exact .inr ⟨fun heq => hfresh (heq ▸ hmem), by rw [hr]; exact hmem⟩

/-- One reference more, for which the caller has one already. -/
theorem filedup_safe {Q : Unit → Account G → Prop} (r' : Account G) (halike : Alike r r') (hfresh : r'.fresh = [])
    (hshare : ∀ s rs, Inv s rs → rs p = r → 1 ≤ share s p r f ∧ share s p r' f = share s p r f + 1 ∧
      (∀ f', f' ≠ f → share s p r' f' = share s p r f') ∧ Backed s p r') (hQ : Q () r') :
    Safe Inv Unwanted p (filedup f) r Q := by
  refine Safe.atomic fun s rs hI hr => ?_
  rcases hshare s rs hI hr with ⟨hpos, hself, hothers, hb⟩
  have href := hI.counted.share_le p f
  rw [hr] at href
  rw [if_neg (by omega)]
  refine Ensures.ok ⟨r', ⟨?_, halike.lives hI.lives hr rfl rfl, halike.piped_ref hI.piped hr _⟩, hQ⟩
  refine hI.counted.setFile ?_ (fun f' hf' => ?_) hb.due hb.spent hb.seen (by simp) (fun f' hf' => ?_) (.inr (.inr ?_))
  · rw [hr]
    show (s.file f).ref + 1 + share s p r f = (s.file f).ref + share s p r' f
    omega
  · rw [hr]
    exact hothers f' hf'
  · rw [hfresh] at hf'
    exact absurd hf' (by simp)
  · rw [hr]
    exact hpos

/-- What is left of the account when the last reference to a file is gone. -/
def Account.closed (r : Account G) (ff : File G) : Account G :=
  match ff.type, ff.pipe with
  | .pipe, some g => { r with closing := some (g, ff.writable) }
  | _, _ => r

theorem Account.closed_eq (r : Account G) (ff : File G) : ∃ c, r.closed ff = { r with closing := c } := by
  unfold Account.closed
  split
  next g _ _ => exact ⟨some (g, ff.writable), rfl⟩
  next => exact ⟨r.closing, rfl⟩

/-- If what keeps the ends changes in a way that can be followed back and forth, pipes stay as they are. -/
theorem Piped.of_keeps {s' : State G} (hp : Piped s rs) (φ : FileNo ⊕ Slot → FileNo ⊕ Slot)
    (hto : ∀ h g w, Keeps s rs h g w → Keeps s' (update rs p r') (φ h) g w)
    (hfrom : ∀ h g w, Keeps s' (update rs p r') h g w → ∃ h0, Keeps s rs h0 g w ∧ φ h0 = h)
    (htyped : ∀ f, (s'.file f).type = .pipe → ∃ g, (s'.file f).pipe = some g)
    (hpage : s'.page = s.page) (hmade : s'.made = s.made) (hfrees : s'.frees = s.frees)
    (hp' : r'.page = (rs p).page) (hfreeing : r'.freeing = (rs p).freeing) :
    Piped s' (update rs p r') := by
  have hf := field_update_of_eq Account.freeing hfreeing
  have hg := field_update_of_eq Account.page hp'
  refine
    { typed := htyped
      isOpen := fun h g w hk => ?_
      unique := fun h h' g w hk hk' => ?_
      kept := fun g d w hd hopen => ?_
      freeing := by simpa only [hf, hpage] using hp.freeing
      freeing_inj := by simpa only [hf] using hp.freeing_inj
      closed := by simpa only [hf, hpage] using hp.closed
      taken := by simpa only [hg, hpage] using hp.taken
      ids := by simpa only [hpage, hmade, hfrees] using hp.ids
      ids_inj := by simpa only [hpage] using hp.ids_inj
      freed := by simpa only [hpage, hmade, hfrees] using hp.freed
      unmade := by simpa only [hmade, hfrees] using hp.unmade }
  · rcases hfrom h g w hk with ⟨h0, hk0, -⟩
    rw [hpage]
    exact hp.isOpen h0 g w hk0
  · rcases hfrom h g w hk with ⟨h0, hk0, rfl⟩
    rcases hfrom h' g w hk' with ⟨h1, hk1, rfl⟩
    rw [hp.unique h0 h1 g w hk0 hk1]
  · rw [hpage] at hd
    rcases hp.kept g d w hd hopen with ⟨h0, hk0⟩
    exact ⟨φ h0, hto h0 g w hk0⟩

theorem Piped.drop_pipe (hp : Piped s rs) (halike : Alike (rs p) r') (hclosing : (rs p).closing = none)
    (hend : (s.file f).IsEnd g w) :
    Piped (s.setFile f { s.file f with ref := 0, type := .none })
      (update rs p { r' with closing := some (g, w) }) := by
  refine hp.of_keeps (fun h => if h = .inl f then .inr p else h) (fun h g' w' hk => ?_) (fun h g' w' hk => ?_)
    (fun f' hf' => ?_) rfl rfl rfl halike.page halike.freeing
  · cases h with
    | inl f' =>
      by_cases hf : f' = f
      · subst hf
        have hk' : (s.file f').IsEnd g' w' := hk
        have hg : g = g' := Option.some.inj (hend.pipe.symm.trans hk'.pipe)
        have hw : w = w' := hend.writable.symm.trans hk'.writable
        simp [Keeps, hg, hw]
      · simp only [Sum.inl.injEq, hf, if_false]
        show ((s.setFile f _).file f').IsEnd g' w'
        rw [setFile_of_ne _ hf]
        exact hk
    | inr q =>
      have hq : q ≠ p := by
        rintro rfl
        exact absurd (hclosing.symm.trans hk) (by simp)
      simp only [reduceCtorEq, if_false]
      show (update rs p _ q).closing = some (g', w')
      rw [update_of_ne hq]
      exact hk
  · cases h with
    | inl f' =>
      have hf : f' ≠ f := by
        rintro rfl
        have htype := hk.type
        rw [setFile_self] at htype
        cases htype
      refine ⟨.inl f', ?_, by simp [hf]⟩
      have hk' : ((s.setFile f { s.file f with ref := 0, type := .none }).file f').IsEnd g' w' := hk
      rw [setFile_of_ne _ hf] at hk'
      exact hk'
    | inr q =>
      by_cases hq : q = p
      · subst hq
        obtain ⟨rfl, rfl⟩ : g = g' ∧ w = w' := by simpa [Keeps] using hk
        exact ⟨.inl f, hend, by simp⟩
      · refine ⟨.inr q, ?_, by simp⟩
        have hk' : (update rs p { r' with closing := some (g, w) } q).closing = some (g', w') := hk
        rw [update_of_ne hq] at hk'
        exact hk'
  · by_cases hf : f' = f
    · subst hf
      rw [setFile_self] at hf'
      cases hf'
    · rw [setFile_of_ne _ hf] at hf' ⊢
      exact hp.typed f' hf'

theorem Piped.drop (hp : Piped s rs) (halike : Alike (rs p) r') (hclosing : (rs p).closing = none) :
    Piped (s.setFile f { s.file f with ref := 0, type := .none }) (update rs p (r'.closed (s.file f))) := by
  by_cases htype : (s.file f).type = .pipe
  · rcases hp.typed f htype with ⟨g, hg⟩
    have hclosed : r'.closed (s.file f) = { r' with closing := some (g, (s.file f).writable) } := by
      simp only [Account.closed, htype, hg]
    rw [hclosed]
    exact hp.drop_pipe halike hclosing ⟨htype, hg, rfl⟩
  have hclosed : r'.closed (s.file f) = r' := by
    unfold Account.closed
    split
    next h _ => exact absurd h htype
    next => rfl
  rw [hclosed]
  exact hp.congr_setFile htype (by simp) halike.page halike.closing halike.freeing

theorem dropRef_safe {Q : Option (File G) → Account G → Prop} (halike : Alike r r') (hclosing : r.closing = none)
    (hfresh : ∀ f' ∈ r'.fresh, f' ≠ f ∧ f' ∈ r.fresh)
    (hshare : ∀ s rs, Inv s rs → rs p = r → share s p r f = share s p r' f + 1 ∧
      (∀ f', f' ≠ f → share s p r' f' = share s p r f') ∧ Backed s p r')
    (hnone : Q none r')
    (hsome : ∀ ff : File G, (ff.type = .pipe → ∃ g, ff.pipe = some g) → Q (some ff) (r'.closed ff)) :
    Safe Inv Unwanted p (dropRef f) r Q := by
  refine Safe.atomic fun s rs hI hr => ?_
  rcases hshare s rs hI hr with ⟨hself, hothers, hb⟩
  have href := hI.counted.share_le p f
  have hpos : 1 ≤ share s p (rs p) f := by
    rw [hr]
    omega
  have hfresh' : ∀ x : File G, ∀ f' ∈ r'.fresh, (f' = f ∧ x.type = .none ∧ x.ref = 1 ∧ 1 ≤ share s p r' f) ∨
      (f' ≠ f ∧ f' ∈ (rs p).fresh) := by
    intro x f' hf'
    rw [hr]
    exact .inr (hfresh f' hf')
  have hothers' : ∀ f', f' ≠ f → share s p r' f' = share s p (rs p) f' := by
    rw [hr]
    exact hothers
  rw [if_neg (by omega)]
  split_ifs with hlast
  · refine Ensures.ok ⟨r', ⟨?_, halike.lives hI.lives hr rfl rfl, halike.piped_ref hI.piped hr _⟩, hnone⟩
    refine hI.counted.setFile ?_ hothers' hb.due hb.spent hb.seen (fun hzero => ?_) (hfresh' _) (.inr (.inr hpos))
    · rw [hr]
      show (s.file f).ref - 1 + share s p r f = (s.file f).ref + share s p r' f
      omega
    · exact absurd hzero (by simp only; omega)
  have hpiped := hI.piped.drop (f := f) (hr ▸ halike) (hr ▸ hclosing)
  refine Ensures.ok ⟨_, ⟨?_, ?_, hpiped⟩, hsome _ (hI.piped.typed f)⟩
  · rcases r'.closed_eq (s.file f) with ⟨c, hc⟩
    rw [hc]
    refine hI.counted.setFile ?_ hothers' hb.due hb.spent hb.seen (fun _ => rfl) (hfresh' _) (.inr (.inr hpos))
    rw [hr]
    show 0 + share s p r f = (s.file f).ref + share s p r' f
    rw [hr] at href
    omega
  · rcases r'.closed_eq (s.file f) with ⟨c, hc⟩
    rw [hc]
    exact hI.lives.congr rfl rfl (hr ▸ halike.child) (hr ▸ halike.blank) (hr ▸ halike.emptied) (hr ▸ halike.busy)

/-! ## One page -/

/-- What is said of one page. -/
structure PipedAt (s : State G) (rs : Slot → Account G) (g : G) : Prop where
  isOpen : ∀ k w, Keeps s rs k g w → ∃ d, s.page g = .pipe d ∧ d.isOpen w = true
  unique : ∀ k k' w, Keeps s rs k g w → Keeps s rs k' g w → k = k'
  kept : ∀ d w, s.page g = .pipe d → d.isOpen w = true → ∃ k, Keeps s rs k g w
  freeing : ∀ q, (rs q).freeing = some g → ∃ d, s.page g = .pipe d ∧ ∀ w, d.isOpen w = false
  freeing_inj : ∀ q q', (rs q).freeing = some g → (rs q').freeing = some g → q = q'
  closed : ∀ d, s.page g = .pipe d → (∀ w, d.isOpen w = false) → ∃ q, (rs q).freeing = some g
  taken : ∀ q, (rs q).page = some g → s.page g = .taken (some q)

/-- What is said of the numbers of pipes. -/
structure Numbered (s : State G) : Prop where
  ids : ∀ g d, s.page g = .pipe d → d.id < s.made ∧ s.frees d.id = 0
  ids_inj : ∀ g g' d d', s.page g = .pipe d → s.page g' = .pipe d' → d.id = d'.id → g = g'
  freed : ∀ i < s.made, (∃ g d, s.page g = .pipe d ∧ d.id = i) ∨ s.frees i = 1
  unmade : ∀ i, s.made ≤ i → s.frees i = 0

/-- The same is said of the page before and after. -/
structure SamePage (s s' : State G) (rs rs' : Slot → Account G) (g : G) : Prop where
  page : s'.page g = s.page g
  keeps : ∀ k w, Keeps s' rs' k g w ↔ Keeps s rs k g w
  freeing : ∀ q, (rs' q).freeing = some g ↔ (rs q).freeing = some g
  taken : ∀ q, (rs' q).page = some g ↔ (rs q).page = some g

theorem Piped.at_page {s' : State G} {rs' : Slot → Account G} (h : Piped s rs)
    (htyped : ∀ f, (s'.file f).type = .pipe → ∃ g, (s'.file f).pipe = some g)
    (hothers : ∀ g', g' ≠ g → SamePage s s' rs rs' g') (hat : PipedAt s' rs' g) (hn : Numbered s') : Piped s' rs' := by
  have hall : ∀ g', PipedAt s' rs' g' := by
    intro g'
    by_cases hg : g' = g
    · rw [hg]
      exact hat
    have hs := hothers g' hg
    constructor
    · simpa only [hs.page, hs.keeps] using fun k w => h.isOpen k g' w
    · simpa only [hs.keeps] using fun k k' w => h.unique k k' g' w
    · simpa only [hs.page, hs.keeps] using h.kept g'
    · simpa only [hs.page, hs.freeing] using fun q => h.freeing q g'
    · simpa only [hs.freeing] using fun q q' => h.freeing_inj q q' g'
    · simpa only [hs.page, hs.freeing] using h.closed g'
    · simpa only [hs.page, hs.taken] using fun q => h.taken q g'
  exact
    { typed := htyped
      isOpen := fun k g' => (hall g').isOpen k
      unique := fun k k' g' => (hall g').unique k k'
      kept := fun g' => (hall g').kept
      freeing := fun q g' => (hall g').freeing q
      freeing_inj := fun q q' g' => (hall g').freeing_inj q q'
      closed := fun g' => (hall g').closed
      taken := fun q g' => (hall g').taken q
      ids := hn.ids
      ids_inj := hn.ids_inj
      freed := hn.freed
      unmade := hn.unmade }

theorem Piped.numbered (h : Piped s rs) : Numbered s := ⟨h.ids, h.ids_inj, h.freed, h.unmade⟩

/-! ## Pipes -/

section Pipes

variable [DecidableEq G]

theorem isOpen_close (d : Pipe) (w w' : Bool) : (d.close w).isOpen w' = if w' = w then false else d.isOpen w' := by
  cases w <;> cases w' <;> rfl

theorem both_closed_iff (d : Pipe) : (!d.readopen && !d.writeopen) = true ↔ ∀ w, d.isOpen w = false := by
  constructor
  · intro h w
    cases w <;> simp_all [Pipe.isOpen]
  · intro h
    have hr := h false
    have hw := h true
    simp_all [Pipe.isOpen]

@[simp] theorem setPage_self (x : Page) : (s.setPage g x).page g = x := by
  simp [State.setPage]

theorem setPage_of_ne {g' : G} (x : Page) (hne : g' ≠ g) : (s.setPage g x).page g' = s.page g' := by
  simp [State.setPage, update_of_ne hne]

@[simp] theorem id_close (d : Pipe) : (d.close w).id = d.id := by
  cases w <;> rfl

theorem Numbered.close {d : Pipe} (h : Numbered s) (hd : s.page g = .pipe d) :
    Numbered (s.setPage g (.pipe (d.close w))) := by
  have hpage : ∀ g' d', (s.setPage g (.pipe (d.close w))).page g' = .pipe d' →
      ∃ d0, s.page g' = .pipe d0 ∧ d0.id = d'.id := by
    intro g' d' hd'
    by_cases hg : g' = g
    · subst hg
      obtain rfl : d.close w = d' := by simpa using hd'
      exact ⟨d, hd, by simp⟩
    · rw [setPage_of_ne _ hg] at hd'
      exact ⟨d', hd', rfl⟩
  refine ⟨fun g' d' hd' => ?_, fun g1 g2 d1 d2 h1 h2 hid => ?_, fun i hi => ?_, h.unmade⟩
  · rcases hpage g' d' hd' with ⟨d0, hd0, hid⟩
    rw [← hid]
    exact h.ids g' d0 hd0
  · rcases hpage g1 d1 h1 with ⟨e1, he1, hid1⟩
    rcases hpage g2 d2 h2 with ⟨e2, he2, hid2⟩
    exact h.ids_inj g1 g2 e1 e2 he1 he2 (hid1.trans (hid.trans hid2.symm))
  refine (h.freed i hi).imp_left ?_
  rintro ⟨g', d', hd', rfl⟩
  by_cases hg : g' = g
  · subst hg
    obtain rfl : d = d' := by simpa [hd] using hd'
    exact ⟨g', _, setPage_self _, by simp⟩
  · exact ⟨g', d', by rw [setPage_of_ne _ hg]; exact hd', rfl⟩

/-- The end that `p` was about to close is closed. -/
theorem Piped.closeEnd {d : Pipe} {o : Option G} (h : Piped s rs) (hr : rs p = r) (hclosing : r.closing = some (g, w))
    (hfreeing : r.freeing = none) (hd : s.page g = .pipe d) (ho : o = some g ∨ o = none)
    (hboth : o = some g ↔ ∀ w', (d.close w).isOpen w' = false) :
    Piped (s.setPage g (.pipe (d.close w))) (update rs p { r with closing := none, freeing := o }) := by
  subst hr
  have hopen : d.isOpen w = true := by
    rcases h.isOpen (.inr p) g w hclosing with ⟨d', hd', hopen⟩
    obtain rfl : d = d' := by simpa [hd] using hd'
    exact hopen
  have hk : ∀ k g' w', Keeps (s.setPage g (.pipe (d.close w)))
      (update rs p { rs p with closing := none, freeing := o }) k g' w' ↔ Keeps s rs k g' w' ∧ k ≠ .inr p := by
    intro k g' w'
    cases k with
    | inl f => simp [Keeps, State.setPage]
    | inr q =>
      by_cases hq : q = p
      · subst hq
        simp [Keeps]
      · simp [Keeps, hq]
  have hpage := field_update_of_eq Account.page (r := { rs p with closing := none, freeing := o }) (p := p) (k := rs) rfl
  -- a pipe that is about to be freed has no open end
  have hnobody : ∀ q, (rs q).freeing ≠ some g := by
    intro q hq
    rcases h.freeing q g hq with ⟨d', hd', hclosed⟩
    obtain rfl : d = d' := by simpa [hd] using hd'
    rw [hclosed w] at hopen
    cases hopen
  have hf : ∀ q, (update rs p { rs p with closing := none, freeing := o } q).freeing = some g → q = p := by
    intro q hq
    by_contra hqp
    rw [update_of_ne hqp] at hq
    exact hnobody q hq
  refine h.at_page h.typed (fun g' hg => ⟨setPage_of_ne _ hg, fun k w' => ?_, fun q => ?_, fun q => by rw [hpage]⟩) ?_
    (h.numbered.close hd)
  · refine (hk k g' w').trans (and_iff_left_of_imp ?_)
    rintro hkeep rfl
    exact hg (by simpa [hclosing] using congrArg (Option.map Prod.fst) (hkeep : (rs p).closing = _).symm)
  · by_cases hq : q = p
    · subst hq
      rcases ho with rfl | rfl <;> simp [hfreeing, Ne.symm hg]
    · rw [update_of_ne hq]
  refine ⟨fun k w' hk' => ?_, fun k k' w' hk1 hk2 => ?_, fun d' w' hd' hopen' => ?_, fun q hq => ?_,
    fun q q' hq hq' => (hf q hq).trans (hf q' hq').symm, fun d' hd' hclosed => ?_, fun q hq => ?_⟩
  · rcases (hk _ _ _).1 hk' with ⟨hold, hne⟩
    rcases h.isOpen k g w' hold with ⟨d', hd', hopen'⟩
    obtain rfl : d = d' := by simpa [hd] using hd'
    have hw : w' ≠ w := by
      rintro rfl
      exact hne (h.unique _ (.inr p) _ _ hold hclosing)
    exact ⟨_, setPage_self _, by rw [isOpen_close, if_neg hw]; exact hopen'⟩
  · exact h.unique k k' g w' ((hk _ _ _).1 hk1).1 ((hk _ _ _).1 hk2).1
  · obtain rfl : d.close w = d' := by simpa using hd'
    rw [isOpen_close] at hopen'
    split_ifs at hopen' with hw
    rcases h.kept g d w' hd hopen' with ⟨k, hold⟩
    refine ⟨k, (hk _ _ _).2 ⟨hold, ?_⟩⟩
    rintro rfl
    exact hw (by simpa [hclosing] using congrArg (Option.map Prod.snd) (hold : (rs p).closing = _).symm)
  · obtain rfl := hf q hq
    exact ⟨_, setPage_self _, hboth.1 (by simpa using hq)⟩
  · obtain rfl : d.close w = d' := by simpa using hd'
    exact ⟨p, by simpa using hboth.2 hclosed⟩
  · rw [hpage] at hq
    rw [h.taken q g hq] at hd
    cases hd

omit [DecidableEq G] in
theorem Counted.congr (h : Counted s rs) {s' : State G} (hfile : s'.file = s.file) (hofile : s'.ofile = s.ofile)
    (hhand : r.hand = (rs p).hand) (hfresh : r.fresh = (rs p).fresh) (hdue : r.due = (rs p).due)
    (hspent : r.spent = (rs p).spent) (hseen : r.seen = (rs p).seen) : Counted s' (update rs p r) := by
  have hh := field_update_of_eq Account.hand hhand
  have hf := field_update_of_eq Account.fresh hfresh
  have hd := field_update_of_eq Account.due hdue
  have hs := field_update_of_eq Account.spent hspent
  have hn := field_update_of_eq Account.seen hseen
  have hown : ∀ q f, own s' q f = own s q f := fun q f => own_congr fun fd => by rw [hofile]
  have hshare : ∀ q f, share s' q (update rs p r q) f = share s q (rs q) f := by
    intro q f
    simp only [share, Account.owed, hown, hh, hd, hs]
  constructor
  · simpa only [hfile, hshare] using h.count
  · simpa only [hd, hown] using h.due
  · simpa only [hs, hown] using h.spent
  · simpa only [hn, hofile] using h.seen
  · simpa only [hfile] using h.free
  · simpa only [hf, hfile, hshare] using h.fresh

structure SameRefs (r r' : Account G) : Prop where
  hand : r'.hand = r.hand
  fresh : r'.fresh = r.fresh
  due : r'.due = r.due
  spent : r'.spent = r.spent
  seen : r'.seen = r.seen
  child : r'.child = r.child
  blank : r'.blank = r.blank
  emptied : r'.emptied = r.emptied
  busy : r'.busy = r.busy

omit [DecidableEq G] in
theorem Inv.pages {s' : State G} (hI : Inv s rs) (hr : rs p = r) (h : SameRefs r r') (hfile : s'.file = s.file)
    (hofile : s'.ofile = s.ofile) (hlife : s'.life = s.life) (hpiped : Piped s' (update rs p r')) :
    Inv s' (update rs p r') := by
  subst hr
  exact ⟨hI.counted.congr hfile hofile h.hand h.fresh h.due h.spent h.seen,
    hI.lives.congr hofile hlife h.child h.blank h.emptied h.busy, hpiped⟩

theorem closeEnd_safe {Q : Bool → Account G → Prop} (hclosing : r.closing = some (g, w)) (hfreeing : r.freeing = none)
    (htrue : Q true { r with closing := none, freeing := some g }) (hfalse : Q false { r with closing := none }) :
    Safe Inv Unwanted p (closeEnd g w) r Q := by
  refine Safe.atomic fun s rs hI hr => ?_
  have hkeep : Keeps s rs (.inr p) g w := by
    rw [← hr] at hclosing
    exact hclosing
  rcases hI.piped.isOpen _ g w hkeep with ⟨d, hd, -⟩
  rw [hd]
  refine Ensures.ok ?_
  by_cases hboth : (!(d.close w).readopen && !(d.close w).writeopen) = true
  · rw [hboth]
    refine ⟨_, hI.pages hr (by constructor <;> rfl) rfl rfl rfl ?_, htrue⟩
    exact hI.piped.closeEnd hr hclosing hfreeing hd (.inl rfl) (by simpa using (both_closed_iff _).1 hboth)
  rw [Bool.not_eq_true] at hboth
  rw [hboth]
  refine ⟨_, hI.pages hr (by constructor <;> rfl) rfl rfl rfl ?_, hfalse⟩
  have hnone : ¬ ∀ w', (d.close w).isOpen w' = false := fun h => by
    rw [(both_closed_iff _).2 h] at hboth
    cases hboth
  have hpiped := hI.piped.closeEnd (o := none) hr hclosing hfreeing hd (.inr rfl) (by simpa using hnone)
  rw [← hfreeing] at hpiped
  exact hpiped

theorem Numbered.kfree {d : Pipe} (h : Numbered s) (hd : s.page g = .pipe d) : Numbered { s with
      page := update s.page g .free
      frees := update s.frees d.id (s.frees d.id + 1) } := by
  have hpage : ∀ g' d', update s.page g Page.free g' = .pipe d' ↔ g' ≠ g ∧ s.page g' = .pipe d' := by
    intro g' d'
    by_cases hg : g' = g
    · subst hg
      simp
    · simp [hg]
  refine ⟨fun g' d' hd' => ?_, fun g1 g2 d1 d2 h1 h2 => h.ids_inj g1 g2 d1 d2 ((hpage _ _).1 h1).2 ((hpage _ _).1 h2).2,
    fun i hi => ?_, fun i hi => ?_⟩
  · rcases (hpage _ _).1 hd' with ⟨hg, hold⟩
    refine ⟨(h.ids g' d' hold).1, ?_⟩
    show update s.frees d.id (s.frees d.id + 1) d'.id = 0
    rw [update_of_ne fun heq => hg (h.ids_inj g' g d' d hold hd heq)]
    exact (h.ids g' d' hold).2
  · show (∃ g' d', update s.page g Page.free g' = .pipe d' ∧ d'.id = i) ∨ update s.frees d.id (s.frees d.id + 1) i = 1
    by_cases hi' : i = d.id
    · subst hi'
      right
      simp [(h.ids g d hd).2]
    rw [update_of_ne hi']
    refine (h.freed i hi).imp_left ?_
    rintro ⟨g', d', hd', rfl⟩
    refine ⟨g', d', (hpage _ _).2 ⟨?_, hd'⟩, rfl⟩
    rintro rfl
    obtain rfl : d = d' := by simpa [hd] using hd'
    exact hi' rfl
  · have hlt := (h.ids g d hd).1
    have hle : s.made ≤ i := hi
    show update s.frees d.id (s.frees d.id + 1) i = 0
    rw [update_of_ne (by omega)]
    exact h.unmade i hle

/-- A pipe with both ends closed is freed. -/
theorem Piped.kfree {d : Pipe} (h : Piped s rs) (hr : rs p = r) (hfreeing : r.freeing = some g)
    (hd : s.page g = .pipe d) :
    Piped { s with
      page := update s.page g .free
      frees := update s.frees d.id (s.frees d.id + 1) } (update rs p { r with freeing := none }) := by
  subst hr
  have hpage := field_update_of_eq Account.page (r := { rs p with freeing := none }) (p := p) (k := rs) rfl
  have hk : ∀ k g' w', Keeps s (update rs p { rs p with freeing := none }) k g' w' ↔ Keeps s rs k g' w' :=
    Keeps.congr (fun _ _ _ => Iff.rfl) rfl
  have hnot : ∀ k w', ¬ Keeps s rs k g w' := by
    intro k w' hk'
    rcases h.isOpen k g w' hk' with ⟨d', hd', hopen⟩
    rcases h.freeing p g hfreeing with ⟨d'', hd'', hclosed⟩
    obtain rfl : d' = d'' := by simpa [hd'] using hd''
    rw [hclosed w'] at hopen
    cases hopen
  have hnobody : ∀ q, (update rs p { rs p with freeing := none } q).freeing ≠ some g := by
    intro q hq
    by_cases hqp : q = p
    · subst hqp
      simp at hq
    · rw [update_of_ne hqp] at hq
      exact hqp (h.freeing_inj q p g hq hfreeing)
  refine h.at_page h.typed (fun g' hg => ⟨update_of_ne hg .., fun k w' => hk k g' w', fun q => ?_, fun q => by rw [hpage]⟩)
    ⟨fun k w' hk' => absurd ((hk k g w').1 hk') (hnot k w'), fun k k' w' hk' => absurd ((hk k g w').1 hk') (hnot k w'),
      fun d' w' hd' => ?_, fun q hq => absurd hq (hnobody q), fun q q' hq => absurd hq (hnobody q), fun d' hd' => ?_,
      fun q hq => ?_⟩ (h.numbered.kfree hd)
  · by_cases hq : q = p
    · subst hq
      simp [hfreeing, Ne.symm hg]
    · rw [update_of_ne hq]
  · simp at hd'
  · simp at hd'
  · rw [hpage] at hq
    rw [h.taken q g hq] at hd
    cases hd

theorem kfree_safe (hfreeing : r.freeing = some g) (hQ : Q () { r with freeing := none }) :
    Safe Inv Unwanted p (kfree g) r Q := by
  refine Safe.atomic fun s rs hI hr => ?_
  rcases hI.piped.freeing p g (by rw [hr]; exact hfreeing) with ⟨d, hd, -⟩
  rw [hd]
  exact Ensures.ok ⟨_, hI.pages hr (by constructor <;> rfl) rfl rfl rfl (hI.piped.kfree hr hfreeing hd), hQ⟩

theorem pipeclose_safe (hclosing : r.closing = some (g, w)) (hfreeing : r.freeing = none)
    (hQ : Q () { r with closing := none }) : Safe Inv Unwanted p (pipeclose (some g) w) r Q := by
  refine Safe.bind (closeEnd_safe hclosing hfreeing ?_ ?_)
  · refine kfree_safe rfl ?_
    rw [← hfreeing]
    exact hQ
  · exact Safe.pure hQ

theorem fileclose_safe (r' : Account G) (halike : Alike r r') (hclosing : r.closing = none)
    (hfreeing : r.freeing = none) (hfresh : ∀ f' ∈ r'.fresh, f' ≠ f ∧ f' ∈ r.fresh)
    (hshare : ∀ s rs, Inv s rs → rs p = r → share s p r f = share s p r' f + 1 ∧ (∀ f', f' ≠ f → share s p r' f' = share s p r f') ∧ Backed s p r')
    (hQ : Q () r') : Safe Inv Unwanted p (fileclose f) r Q := by
  refine Safe.bind (dropRef_safe halike hclosing hfresh hshare (Safe.pure hQ) fun ff htyped => ?_)
  simp only [Account.closed]
  cases htype : ff.type with
  | none => exact Safe.pure hQ
  | inode => exact Safe.pure hQ
  | pipe =>
    rcases htyped htype with ⟨g, hg⟩
    simp only [hg]
    refine pipeclose_safe rfl (halike.freeing.trans hfreeing) ?_
    have hnone := halike.closing.trans hclosing
    rw [← hnone]
    exact hQ

theorem Piped.setPage {x : Page} (h : Piped s rs) (hbefore : ∀ d, s.page g ≠ .pipe d) (hx : ∀ d, x ≠ .pipe d)
    (hclosing : r.closing = (rs p).closing) (hfreeing : r.freeing = (rs p).freeing)
    (htaken : ∀ q g', (update rs p r q).page = some g' → (s.setPage g x).page g' = .taken (some q)) :
    Piped (s.setPage g x) (update rs p r) := by
  have hpage : ∀ g' d, (s.setPage g x).page g' = .pipe d ↔ s.page g' = .pipe d := by
    intro g' d
    by_cases hg : g' = g
    · subst hg
      simp [hbefore d, hx d]
    · rw [setPage_of_ne x hg]
  have hk : ∀ k g' w', Keeps (s.setPage g x) (update rs p r) k g' w' ↔ Keeps s rs k g' w' :=
    Keeps.congr (fun _ _ _ => Iff.rfl) hclosing
  have hf := field_update_of_eq Account.freeing hfreeing
  constructor
  · exact h.typed
  · simpa only [hk, hpage] using h.isOpen
  · simpa only [hk] using h.unique
  · simpa only [hk, hpage] using h.kept
  · simpa only [hf, hpage] using h.freeing
  · simpa only [hf] using h.freeing_inj
  · simpa only [hf, hpage] using h.closed
  · exact htaken
  · intro g' d hd
    exact h.ids g' d ((hpage g' d).1 hd)
  · simpa only [hpage] using h.ids_inj
  · intro i hi
    simp only [hpage]
    exact h.freed i hi
  · exact h.unmade

theorem kalloc_safe {Q : Option G → Account G → Prop} (hnone : Q none r)
    (hsome : ∀ g, Q (some g) { r with page := some g }) : Safe Inv Unwanted p (kalloc p) r Q := by
  refine Safe.await fun s rs c hI hr hready => ?_
  cases c with
  | page g =>
    have hfree : s.page g = .free := by simpa using hready
    refine Ensures.ok ⟨{ r with page := some g }, hI.pages hr (by constructor <;> rfl) rfl rfl rfl ?_, hsome g⟩
    refine hI.piped.setPage (by simp [hfree]) (by simp) (by rw [hr]) (by rw [hr]) fun q g' hq => ?_
    by_cases hqp : q = p
    · subst hqp
      obtain rfl : g = g' := by simpa using hq
      simp
    rw [update_of_ne hqp] at hq
    have htaken := hI.piped.taken q g' hq
    have hg : g' ≠ g := by
      rintro rfl
      rw [hfree] at htaken
      cases htaken
    rw [setPage_of_ne _ hg]
    exact htaken
  | _ => exact Ensures.ok ⟨r, hI.same hr, hnone⟩

theorem otherPage_safe {Q : ℤ → Account G → Prop} (hQ : ∀ a, Q a r) : Safe Inv Unwanted p otherPage r Q := by
  refine Safe.await fun s rs c hI hr hready => ?_
  cases c with
  | page g =>
    have hother : s.page g = .free ∨ s.page g = .taken none := by simpa using hready
    refine Ensures.ok ⟨r, hI.pages hr (by constructor <;> rfl) rfl rfl rfl ?_, hQ _⟩
    refine hI.piped.setPage (fun d hd => ?_) (fun d => ?_) (by rw [hr]) (by rw [hr]) fun q g' hq => ?_
    · rw [hd] at hother
      simp at hother
    · split_ifs <;> simp
    rw [field_update_of_eq Account.page (by rw [hr]) q] at hq
    have htaken := hI.piped.taken q g' hq
    have hg : g' ≠ g := by
      rintro rfl
      rw [htaken] at hother
      simp at hother
    rw [setPage_of_ne _ hg]
    exact htaken
  | _ => exact Ensures.ok ⟨r, hI.same hr, hQ _⟩

end Pipes

end Xv6.Files
