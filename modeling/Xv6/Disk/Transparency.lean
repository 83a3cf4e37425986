import Xv6.Common.Refs
import Xv6.Disk.Bcache

/-!
# Transparency — the buffer cache does not show

Two invariants carry the argument: `refcnt` counts the processes that hold a buffer, wait for it or are about to
give it up (`Counted`), and what is cached or on the disk is what has been stored last (`Coherent`).
-/

namespace Xv6.Bcache

open Function (update update_of_ne update_self)
open Common

/-! ## What the cache holds -/

section Cache

variable {P : Type} {s t : State P} {p : P} {b c : Fin nbuf} {dev blockno : UInt32}

theorem isBlock_of_cached (h : s.links.Complete) (hb : s.cached dev blockno = some b) :
    (s.buf b).dev = dev ∧ (s.buf b).blockno = blockno := by
  rcases h with ⟨l, hall, hl⟩
  have hstop := (Links.seek_spec hall hl.1 (s.isBlock dev blockno)).1 b hb
  simpa [State.isBlock] using hstop

theorem not_isBlock_of_cached (h : s.links.Complete) (hb : s.cached dev blockno = none) (c : Fin nbuf) :
    ¬ ((s.buf c).dev = dev ∧ (s.buf c).blockno = blockno) := by
  rcases h with ⟨l, hall, hl⟩
  have hstop := (Links.seek_spec hall hl.1 (s.isBlock dev blockno)).2 hb c
  simpa [State.isBlock] using hstop

theorem unused_of_victim (h : s.links.Complete) (hb : s.victim = some b) :
    (s.buf b).refcnt = 0 ∧ (s.buf b).dirty = false := by
  rcases h with ⟨l, hall, hl⟩
  have hall' : ∀ c, c ∈ l.reverse := fun c => List.mem_reverse.2 (hall c)
  have hstop := (Links.seek_spec hall' hl.2 s.unused).1 b hb
  simpa [State.unused] using hstop

/-- How often a process in this phase is counted in `refcnt`. -/
def Phase.refs : Phase → Fin nbuf → ℕ
  | .idle, _ => 0
  | .locking _ _ c, b => if c = b then 1 else 0
  | .dropping c, b => if c = b then 1 else 0

def lockRefs [DecidableEq P] (holder : Option P) (p : P) : ℕ :=
  if holder = some p then 1 else 0

def State.refs [DecidableEq P] (s : State P) (b : Fin nbuf) (p : P) : ℕ :=
  (s.phase p).refs b + lockRefs (s.lock b) p

/-- `refcnt` counts, and nobody waits for a buffer that has become another block. -/
structure Counted [DecidableEq P] [Fintype P] (s : State P) : Prop where
  links : s.links.Complete
  refs : ∀ b, (s.buf b).refcnt = ∑ p, s.refs b p
  wanted : ∀ p dev blockno b, s.phase p = .locking dev blockno b →
    dev ≠ 0 ∧ (s.buf b).dev = dev ∧ (s.buf b).blockno = blockno

/-- The cache is what has been stored last. -/
structure Coherent (s : State P) : Prop where
  unique : ∀ b c, (s.buf b).dev ≠ 0 → (s.buf b).dev = (s.buf c).dev → (s.buf b).blockno = (s.buf c).blockno → b = c
  held : ∀ b, s.lock b ≠ none → (s.buf b).valid = true
  dirty : ∀ b, (s.buf b).dirty = true → (s.buf b).valid = true
  valid : ∀ b, (s.buf b).valid = true → (s.buf b).dev = 1
  modified : ∀ b, s.modified b = true → s.lock b ≠ none
  data : ∀ b, (s.buf b).valid = true → s.modified b = false →
    (s.buf b).data = s.expected (s.buf b).dev (s.buf b).blockno
  disk : ∀ n, (∀ b, (s.buf b).dev = 1 → (s.buf b).blockno = n → (s.buf b).dirty = false) →
    s.disk n = s.expected 1 n

def SameBlock (v w : Buf) : Prop :=
  v.valid = w.valid ∧ v.dirty = w.dirty ∧ v.dev = w.dev ∧ v.blockno = w.blockno ∧ v.data = w.data

theorem Coherent.of_same (h : Coherent s) (hbuf : ∀ b, SameBlock (t.buf b) (s.buf b))
    (hmod : t.modified = s.modified) (hdisk : t.disk = s.disk) (himage : t.image = s.image)
    (hstored : t.stored = s.stored) (hheld : ∀ b, t.lock b ≠ none → (s.buf b).valid = true)
    (hlock : ∀ b, s.modified b = true → t.lock b ≠ none) : Coherent t := by
  have hexp : ∀ dev blockno, t.expected dev blockno = s.expected dev blockno := by
    intro dev blockno
    simp only [State.expected, himage, hstored]
  refine ⟨?_, ?_, ?_, ?_, ?_, ?_, ?_⟩
  · intro b c
    rw [(hbuf b).2.2.1, (hbuf b).2.2.2.1, (hbuf c).2.2.1, (hbuf c).2.2.2.1]
    exact h.unique b c
  · intro b hb
    rw [(hbuf b).1]
    exact hheld b hb
  · intro b
    rw [(hbuf b).1, (hbuf b).2.1]
    exact h.dirty b
  · intro b
    rw [(hbuf b).1, (hbuf b).2.2.1]
    exact h.valid b
  · intro b
    rw [hmod]
    exact hlock b
  · intro b
    rw [(hbuf b).1, hmod, (hbuf b).2.2.1, (hbuf b).2.2.2.1, (hbuf b).2.2.2.2, hexp]
    exact h.data b
  · intro n hn
    rw [hdisk, hexp]
    refine h.disk n fun b hdev hno => ?_
    have hclean := hn b
    rw [(hbuf b).2.1, (hbuf b).2.2.1, (hbuf b).2.2.2.1] at hclean
    exact hclean hdev hno

/-! ## Steps -/

variable [DecidableEq P] [Fintype P]

attribute [simp] State.setBuf State.setPhase State.acquiresleep State.store State.refs Phase.refs

/-- A step in which one process comes to be counted differently. -/
theorem Counted.of_step (h : Counted s) (hlinks : t.links.Complete)
    (hothers : ∀ b q, q ≠ p → t.refs b q = s.refs b q)
    (hcount : ∀ b, (t.buf b).refcnt + s.refs b p = (s.buf b).refcnt + t.refs b p)
    (hwanted : ∀ q dev blockno b, t.phase q = .locking dev blockno b →
      dev ≠ 0 ∧ (t.buf b).dev = dev ∧ (t.buf b).blockno = blockno) : Counted t := by
  refine ⟨hlinks, fun b => ?_, hwanted⟩
  have hsum := sum_add_eq (hothers b)
  have hold := h.refs b
  have hnew := hcount b
  omega

theorem Counted.refs_eq_zero (h : Counted s) (hb : (s.buf b).refcnt = 0) (p : P) : s.refs b p = 0 := by
  have hle := le_sum (s.refs b) p
  rw [← h.refs b, hb] at hle
  exact Nat.le_zero.1 hle

omit [Fintype P] in
theorem refs_of_ne {q : P} (phase : Phase) (hq : q ≠ p) : (State.setPhase s p phase).refs b q = s.refs b q := by
  simp [hq]

theorem bget_hit (hc : Counted s) (h : Coherent s) (hidle : s.phase p = .idle) (hdev : dev ≠ 0)
    (hb : s.cached dev blockno = some b) (ht : s.bget p dev blockno = .ok t) :
    Counted t ∧ Coherent t := by
  rcases isBlock_of_cached hc.links hb with ⟨hbdev, hbno⟩
  simp only [State.bget, hb] at ht
  obtain rfl := Except.ok.inj ht
  have hsame : ∀ c, SameBlock
      (update s.buf b { s.buf b with refcnt := (s.buf b).refcnt + 1 } c) (s.buf c) := by
    intro c
    by_cases hcb : c = b
    · subst hcb
      simp [SameBlock]
    · simp [SameBlock, hcb]
  refine ⟨?_, h.of_same hsame rfl rfl rfl rfl h.held h.modified⟩
  refine hc.of_step (p := p) hc.links (fun c q hq => refs_of_ne _ hq) ?_ ?_
  · intro c
    by_cases hcb : c = b
    · subst hcb
      simp [hidle]
      omega
    · simp [hidle, hcb, Ne.symm hcb]
  intro q dev' blockno' c hq
  have hsame' := hsame c
  by_cases hqp : q = p
  · subst hqp
    obtain ⟨rfl, rfl, rfl⟩ : dev = dev' ∧ blockno = blockno' ∧ b = c := by
      simpa using hq
    exact ⟨hdev, hsame'.2.2.1.trans hbdev, hsame'.2.2.2.1.trans hbno⟩
  · have hold : s.phase q = .locking dev' blockno' c := by simpa [hqp] using hq
    rcases hc.wanted q dev' blockno' c hold with ⟨h0, h1, h2⟩
    exact ⟨h0, hsame'.2.2.1.trans h1, hsame'.2.2.2.1.trans h2⟩

theorem bget_recycle (hc : Counted s) (h : Coherent s) (hidle : s.phase p = .idle) (hdev : dev ≠ 0)
    (hnone : s.cached dev blockno = none) (hb : s.victim = some b) (ht : s.bget p dev blockno = .ok t) :
    Counted t ∧ Coherent t := by
  rcases unused_of_victim hc.links hb with ⟨hfree, hclean⟩
  have hnew := not_isBlock_of_cached hc.links hnone
  have hzero := hc.refs_eq_zero hfree
  have hunlocked : s.lock b = none := by
    cases hlock : s.lock b with
    | none => rfl
    | some q =>
      have hq := hzero q
      simp [lockRefs, hlock] at hq
  simp only [State.bget, hnone, hb] at ht
  obtain rfl := Except.ok.inj ht
  refine ⟨?_, ?_⟩
  · refine hc.of_step (p := p) hc.links (fun c q hq => refs_of_ne _ hq) ?_ ?_
    · intro c
      by_cases hcb : c = b
      · subst hcb
        simp [hidle, hfree, hunlocked, lockRefs]
      · simp [hidle, hcb, Ne.symm hcb]
    intro q dev' blockno' c hq
    by_cases hqp : q = p
    · subst hqp
      obtain ⟨rfl, rfl, rfl⟩ : dev = dev' ∧ blockno = blockno' ∧ b = c := by
        simpa using hq
      exact ⟨hdev, by simp⟩
    have hold : s.phase q = .locking dev' blockno' c := by simpa [hqp] using hq
    -- Nobody waits for the buffer that is recycled.
    have hcb : c ≠ b := by
      rintro rfl
      have hq := hzero q
      simp [hold] at hq
    simpa [hcb] using hc.wanted q dev' blockno' c hold
  refine ⟨?_, ?_, ?_, ?_, ?_, ?_, ?_⟩
  · intro c d
    by_cases hcb : c = b <;> by_cases hdb : d = b
    · simp [hcb, hdb]
    · subst hcb
      simp only [State.setPhase, State.setBuf, update_self, update_of_ne hdb]
      exact fun _ h1 h2 => absurd ⟨h1.symm, h2.symm⟩ (hnew d)
    · subst hdb
      simp only [State.setPhase, State.setBuf, update_self, update_of_ne hcb]
      exact fun _ h1 h2 => absurd ⟨h1, h2⟩ (hnew c)
    · simpa [hcb, hdb] using h.unique c d
  · intro c hlock
    have hcb : c ≠ b := by
      rintro rfl
      exact hlock hunlocked
    simpa [hcb] using h.held c hlock
  · intro c
    by_cases hcb : c = b
    · simp [hcb]
    · simpa [hcb] using h.dirty c
  · intro c
    by_cases hcb : c = b
    · simp [hcb]
    · simpa [hcb] using h.valid c
  · exact h.modified
  · intro c
    by_cases hcb : c = b
    · simp [hcb]
    · simpa [hcb, State.expected] using h.data c
  · intro n hn
    refine h.disk n fun c hcdev hcno => ?_
    by_cases hcb : c = b
    · rw [hcb]
      exact hclean
    · have hclean' := hn c
      simp only [State.setPhase, State.setBuf, update_of_ne hcb] at hclean'
      exact hclean' hcdev hcno

theorem Counted.settle (h : Counted s) (phase : Phase) (hlinks : t.links.Complete)
    (hphase : t.phase = update s.phase p phase) (hnot : ∀ dev blockno b, phase ≠ .locking dev blockno b)
    (hbuf : ∀ b, (t.buf b).dev = (s.buf b).dev ∧ (t.buf b).blockno = (s.buf b).blockno)
    (hlock : ∀ b q, q ≠ p → lockRefs (t.lock b) q = lockRefs (s.lock b) q)
    (hcount : ∀ b, (t.buf b).refcnt + s.refs b p = (s.buf b).refcnt + (phase.refs b + lockRefs (t.lock b) p)) :
    Counted t := by
  refine h.of_step (p := p) hlinks ?_ ?_ ?_
  · intro b q hq
    rw [State.refs, State.refs, hphase, update_of_ne hq, hlock b q hq]
  · intro b
    rw [hcount b, State.refs, hphase, update_self]
  intro q dev blockno b hq
  by_cases hqp : q = p
  · rw [hphase, hqp, update_self] at hq
    exact absurd hq (hnot dev blockno b)
  · rw [hphase, update_of_ne hqp] at hq
    rw [(hbuf b).1, (hbuf b).2]
    exact h.wanted q dev blockno b hq

theorem Counted.of_same (h : Counted s) (hlinks : t.links = s.links) (hphase : t.phase = s.phase)
    (hlock : t.lock = s.lock) (hbuf : ∀ b, (t.buf b).dev = (s.buf b).dev ∧ (t.buf b).blockno = (s.buf b).blockno ∧
      (t.buf b).refcnt = (s.buf b).refcnt) : Counted t := by
  refine ⟨hlinks ▸ h.links, fun b => ?_, fun q dev blockno b hq => ?_⟩
  · have hrefs : t.refs b = s.refs b := by
      funext q
      rw [State.refs, State.refs, hphase, hlock]
    rw [(hbuf b).2.2, hrefs]
    exact h.refs b
  · rw [(hbuf b).1, (hbuf b).2.1]
    rw [hphase] at hq
    exact h.wanted q dev blockno b hq

omit [Fintype P] in
theorem iderw_cases (h : s.iderw p b = .ok t) : s.lock b = some p ∧ (s.buf b).dev = 1 ∧
      (((s.buf b).dirty = true ∧ t = { s.setBuf b { s.buf b with dirty := false, valid := true } with
          disk := update s.disk (s.buf b).blockno (s.buf b).data }) ∨
        ((s.buf b).dirty = false ∧
          t = s.setBuf b { s.buf b with data := s.disk (s.buf b).blockno, valid := true })) := by
  unfold State.iderw at h
  simp only at h
  split_ifs at h with hheld hnothing hdev hrange hdirty
  · exact ⟨not_not.1 hheld, not_not.1 hdev, .inl ⟨hdirty, (Except.ok.inj h).symm⟩⟩
  · exact ⟨not_not.1 hheld, not_not.1 hdev, .inr ⟨Bool.eq_false_iff.2 hdirty, (Except.ok.inj h).symm⟩⟩

omit [DecidableEq P] [Fintype P] in
theorem Coherent.update {v : Buf} (h : Coherent s) (hbuf : t.buf = Function.update s.buf b v)
    (hblock : v.dev = (s.buf b).dev ∧ v.blockno = (s.buf b).blockno)
    (hothers : ∀ c, c ≠ b → t.lock c = s.lock c ∧ t.modified c = s.modified c ∧
      ((s.buf c).valid = true → t.expected (s.buf c).dev (s.buf c).blockno =
        s.expected (s.buf c).dev (s.buf c).blockno))
    (hheld : t.lock b ≠ none → v.valid = true) (hdirty : v.dirty = true → v.valid = true)
    (hvalid : v.valid = true → v.dev = 1) (hmod : t.modified b = true → t.lock b ≠ none)
    (hdata : v.valid = true → t.modified b = false → v.data = t.expected v.dev v.blockno)
    (hdisk : ∀ n, (∀ c, (t.buf c).dev = 1 → (t.buf c).blockno = n → (t.buf c).dirty = false) →
      t.disk n = t.expected 1 n) : Coherent t := by
  have hself : t.buf b = v := by rw [hbuf, Function.update_self]
  have hother : ∀ c, c ≠ b → t.buf c = s.buf c := fun c hcb => by rw [hbuf, Function.update_of_ne hcb]
  have hsame : ∀ c, (t.buf c).dev = (s.buf c).dev ∧ (t.buf c).blockno = (s.buf c).blockno := by
    intro c
    by_cases hcb : c = b
    · rw [hcb, hself]
      exact hblock
    · rw [hother c hcb]
      exact ⟨rfl, rfl⟩
  refine ⟨?_, ?_, ?_, ?_, ?_, ?_, hdisk⟩
  · intro c d
    rw [(hsame c).1, (hsame c).2, (hsame d).1, (hsame d).2]
    exact h.unique c d
  · intro c
    by_cases hcb : c = b
    · rw [hcb, hself]
      exact hheld
    · rw [hother c hcb, (hothers c hcb).1]
      exact h.held c
  · intro c
    by_cases hcb : c = b
    · rw [hcb, hself]
      exact hdirty
    · rw [hother c hcb]
      exact h.dirty c
  · intro c
    by_cases hcb : c = b
    · rw [hcb, hself]
      exact hvalid
    · rw [hother c hcb]
      exact h.valid c
  · intro c
    by_cases hcb : c = b
    · rw [hcb]
      exact hmod
    · rw [(hothers c hcb).1, (hothers c hcb).2.1]
      exact h.modified c
  · intro c
    by_cases hcb : c = b
    · rw [hcb, hself]
      exact hdata
    · rw [hother c hcb, (hothers c hcb).2.1]
      intro hv hm
      rw [(hothers c hcb).2.2 hv]
      exact h.data c hv hm

omit [DecidableEq P] [Fintype P] in
theorem Coherent.disk_of_not_valid (h : Coherent s) (hdev : (s.buf b).dev = 1) (hb : (s.buf b).valid = false) :
    s.disk (s.buf b).blockno = s.expected 1 (s.buf b).blockno := by
  refine h.disk _ fun c hcdev hcno => ?_
  have hcb : c = b := h.unique c b (by rw [hcdev]; decide) (by rw [hcdev, hdev]) hcno
  rw [hcb]
  by_contra hdirty
  have hvalid := h.dirty b (by simpa using hdirty)
  rw [hb] at hvalid
  cases hvalid

theorem Counted.acquiresleep (h : Counted s) (hphase : s.phase p = .locking dev blockno b)
    (hfree : s.lock b = none) : Counted (s.acquiresleep p b) := by
  refine h.settle (p := p) .idle h.links rfl nofun (fun _ => ⟨rfl, rfl⟩) ?_ ?_
  · intro c q hq
    by_cases hcb : c = b
    · subst hcb
      simp [lockRefs, hfree, Ne.symm hq]
    · simp [hcb]
  intro c
  by_cases hcb : c = b
  · subst hcb
    simp [hphase, lockRefs, hfree]
  · simp [hphase, hcb, Ne.symm hcb]

theorem lock_step (hc : Counted s) (h : Coherent s) (hphase : s.phase p = .locking dev blockno b)
    (ht : s.step (.lock p) = some (.ok t)) :
    Counted t ∧ Coherent t ∧ t.lock b = some p ∧ (t.buf b).data = s.expected dev blockno := by
  rcases hc.wanted p dev blockno b hphase with ⟨_, rfl, rfl⟩
  simp only [State.step, hphase] at ht
  split_ifs at ht with hfree hvalid
  · have hnotmod : s.modified b = false := by
      by_contra hmod
      exact h.modified b (by simpa using hmod) hfree
    obtain rfl := Except.ok.inj (Option.some.inj ht)
    refine ⟨hc.acquiresleep hphase hfree, ?_, by simp, h.data b hvalid hnotmod⟩
    refine h.of_same (fun c => ⟨rfl, rfl, rfl, rfl, rfl⟩) rfl rfl rfl rfl ?_ ?_
    · intro c hlock
      by_cases hcb : c = b
      · rw [hcb]
        exact hvalid
      · exact h.held c (by simpa [hcb] using hlock)
    · intro c hmod
      by_cases hcb : c = b
      · simp [hcb]
      · simpa [hcb] using h.modified c hmod
  have hinvalid : (s.buf b).valid = false := by simpa using hvalid
  rcases iderw_cases (Option.some.inj ht) with ⟨_, hdev, ⟨hdirty, _⟩ | ⟨hclean, rfl⟩⟩
  · exact absurd (h.dirty b hdirty) hvalid
  have hdev' : (s.buf b).dev = 1 := hdev
  have hclean' : (s.buf b).dirty = false := hclean
  have hread : s.disk (s.buf b).blockno = s.expected (s.buf b).dev (s.buf b).blockno := by
    rw [hdev']
    exact h.disk_of_not_valid hdev hinvalid
  refine ⟨?_, ?_, ?_, ?_⟩
  · refine (hc.acquiresleep hphase hfree).of_same rfl rfl rfl fun c => ?_
    by_cases hcb : c = b
    · subst hcb
      simp
    · simp [hcb]
  · refine h.update (b := b) rfl ⟨rfl, rfl⟩ ?_ ?_ ?_ ?_ ?_ ?_ ?_
    · intro c hcb
      exact ⟨update_of_ne hcb _ _, rfl, fun _ => rfl⟩
    · exact fun _ => rfl
    · exact fun _ => rfl
    · exact fun _ => hdev'
    · exact fun _ => by simp
    · exact fun _ _ => hread
    intro n hn
    refine h.disk n fun c hcdev hcno => ?_
    by_cases hcb : c = b
    · rw [hcb]
      exact hclean'
    · have hclean'' := hn c
      simp only [State.setBuf, update_of_ne hcb] at hclean''
      exact hclean'' hcdev hcno
  · simp
  · simp only [State.setBuf, update_self]
    exact hread

theorem modify_step {data : Block} (hc : Counted s) (h : Coherent s) (ht : s.step (.modify p b data) = some (.ok t)) :
    Counted t ∧ Coherent t := by
  simp only [State.step] at ht
  split_ifs at ht with hheld
  obtain rfl := Except.ok.inj (Option.some.inj ht)
  have hlocked : s.lock b ≠ none := by simp [hheld]
  have hvalid := h.held b hlocked
  have hsame : ∀ c, (update s.buf b { s.buf b with data := data } c).dev = (s.buf c).dev ∧
      (update s.buf b { s.buf b with data := data } c).blockno = (s.buf c).blockno ∧
      (update s.buf b { s.buf b with data := data } c).refcnt = (s.buf c).refcnt ∧
      (update s.buf b { s.buf b with data := data } c).dirty = (s.buf c).dirty := by
    intro c
    by_cases hcb : c = b
    · subst hcb
      simp
    · simp [hcb]
  refine ⟨hc.of_same rfl rfl rfl fun c => ⟨(hsame c).1, (hsame c).2.1, (hsame c).2.2.1⟩, ?_⟩
  refine h.update (b := b) rfl ⟨rfl, rfl⟩ ?_ (fun _ => hvalid) (fun _ => hvalid) (fun _ => h.valid b hvalid)
    (fun _ => hlocked) ?_ ?_
  · intro c hcb
    exact ⟨rfl, update_of_ne hcb _ _, fun _ => rfl⟩
  · intro _ hmod
    simp at hmod
  intro n hn
  refine h.disk n fun c hcdev hcno => ?_
  have hclean := hn c
  simp only [State.setBuf, (hsame c).1, (hsame c).2.1, (hsame c).2.2.2] at hclean
  exact hclean hcdev hcno

omit [DecidableEq P] [Fintype P] in
theorem expected_store_self : (s.store b).expected (s.buf b).dev (s.buf b).blockno = (s.buf b).data := by
  simp [State.expected]

omit [DecidableEq P] [Fintype P] in
theorem expected_store_of_ne {n : UInt32} (h : ¬ (dev = (s.buf b).dev ∧ n = (s.buf b).blockno)) :
    (s.store b).expected dev n = s.expected dev n := by
  by_cases hdev : dev = (s.buf b).dev
  · have hn : n ≠ (s.buf b).blockno := fun heq => h ⟨hdev, heq⟩
    simp [State.expected, hdev, hn]
  · simp [State.expected, hdev]

omit [DecidableEq P] [Fintype P] in
theorem Coherent.store (dirty : Bool) (h : Coherent s) (hheld : s.lock b = some p)
    (hbuf : t.buf = Function.update s.buf b { s.buf b with dirty := dirty, valid := true })
    (hlock : t.lock = s.lock) (hmod : t.modified = Function.update s.modified b false)
    (hexp : t.expected = (s.store b).expected)
    (hdisk : ∀ n, n ≠ (s.buf b).blockno → t.disk n = s.disk n)
    (hself : dirty = false → t.disk (s.buf b).blockno = (s.buf b).data) : Coherent t := by
  have hlocked : s.lock b ≠ none := by simp [hheld]
  have hdev : (s.buf b).dev = 1 := h.valid b (h.held b hlocked)
  refine h.update hbuf ⟨rfl, rfl⟩ ?_ (fun _ => rfl) (fun _ => rfl) (fun _ => hdev) ?_ ?_ ?_
  · intro c hcb
    refine ⟨by rw [hlock], by rw [hmod, Function.update_of_ne hcb], fun hvalid => ?_⟩
    rw [hexp]
    refine expected_store_of_ne ?_
    rintro ⟨hsame, hno⟩
    exact hcb (h.unique c b (by rw [h.valid c hvalid]; decide) hsame hno)
  · intro hm
    rw [hmod, Function.update_self] at hm
    cases hm
  · intro _ _
    rw [hexp]
    exact expected_store_self.symm
  intro n hn
  by_cases hb : n = (s.buf b).blockno
  · -- The block is on the disk, or the buffer is dirty.
    have hclean := hn b
    rw [hbuf, Function.update_self] at hclean
    rw [hb, hself (hclean hdev hb.symm), hexp, ← hdev]
    exact expected_store_self.symm
  rw [hdisk n hb, hexp, expected_store_of_ne (fun heq => hb heq.2)]
  refine h.disk n fun c hcdev hcno => ?_
  have hcb : c ≠ b := by
    rintro rfl
    exact hb hcno.symm
  have hclean := hn c
  rw [hbuf, Function.update_of_ne hcb] at hclean
  exact hclean hcdev hcno

theorem logWrite_step (hc : Counted s) (h : Coherent s) (ht : s.step (.logWrite p b) = some (.ok t)) :
    Counted t ∧ Coherent t := by
  simp only [State.step] at ht
  split_ifs at ht with hheld
  obtain rfl := Except.ok.inj (Option.some.inj ht)
  have hvalid : (s.buf b).valid = true := h.held b (by simp [hheld])
  refine ⟨hc.of_same rfl rfl rfl fun c => ?_, ?_⟩
  · by_cases hcb : c = b
    · subst hcb
      simp
    · simp [hcb]
  refine h.store true hheld ?_ rfl rfl ?_ (fun _ _ => rfl) nofun
  · rw [← hvalid]
    rfl
  · funext dev n
    simp [State.expected]

theorem bwrite_step (hc : Counted s) (h : Coherent s) (ht : s.step (.bwrite p b) = some (.ok t)) :
    Counted t ∧ Coherent t := by
  simp only [State.step] at ht
  split_ifs at ht with hheld
  · cases Option.some.inj ht
  rcases iderw_cases (Option.some.inj ht) with ⟨hlock, _, ⟨_, rfl⟩ | ⟨hclean, _⟩⟩
  · refine ⟨hc.of_same rfl rfl rfl fun c => ?_, ?_⟩
    · by_cases hcb : c = b
      · subst hcb
        simp
      · simp [hcb]
    refine h.store false hlock ?_ rfl rfl ?_ ?_ ?_
    · simp
    · funext dev n
      simp [State.expected]
    · intro n hn
      simp [hn]
    · intro _
      simp
  · simp at hclean

theorem brelse_step (hc : Counted s) (h : Coherent s) (ht : s.step (.brelse p b) = some (.ok t)) :
    Counted t ∧ Coherent t := by
  simp only [State.step] at ht
  split at ht
  · rename_i hidle
    split_ifs at ht with hnot hmod
    · cases Option.some.inj ht
    obtain rfl := Except.ok.inj (Option.some.inj ht)
    have hheld : s.lock b = some p := not_not.1 hnot
    refine ⟨?_, ?_⟩
    · refine hc.settle (p := p) (.dropping b) hc.links rfl nofun (fun _ => ⟨rfl, rfl⟩) ?_ ?_
      · intro c q hq
        by_cases hcb : c = b
        · subst hcb
          simp [lockRefs, hheld, Ne.symm hq]
        · simp [hcb]
      intro c
      by_cases hcb : c = b
      · subst hcb
        simp [hidle, lockRefs, hheld]
      · simp [hidle, hcb, Ne.symm hcb]
    · refine h.of_same (fun c => ⟨rfl, rfl, rfl, rfl, rfl⟩) rfl rfl rfl rfl ?_ ?_
      · intro c hlock
        by_cases hcb : c = b
        · simp [hcb] at hlock
        · exact h.held c (by simpa [hcb] using hlock)
      intro c hmod'
      have hcb : c ≠ b := by
        rintro rfl
        exact hmod hmod'
      simpa [hcb] using h.modified c hmod'
  · cases ht

theorem dropping_step {k : Links} (hc : Counted s) (h : Coherent s) (hphase : s.phase p = .dropping b)
    (hk : k.Complete) :
    Counted { (s.setBuf b { s.buf b with refcnt := (s.buf b).refcnt - 1 }).setPhase p .idle with links := k } ∧
      Coherent { (s.setBuf b { s.buf b with refcnt := (s.buf b).refcnt - 1 }).setPhase p .idle with links := k } := by
  have hsame : ∀ c, SameBlock
      (update s.buf b { s.buf b with refcnt := (s.buf b).refcnt - 1 } c) (s.buf c) := by
    intro c
    by_cases hcb : c = b
    · subst hcb
      simp [SameBlock]
    · simp [SameBlock, hcb]
  have hpos : 1 ≤ (s.buf b).refcnt := by
    have hle := le_sum (s.refs b) p
    rw [← hc.refs b] at hle
    simp only [State.refs, hphase, Phase.refs, if_true] at hle
    omega
  refine ⟨?_, h.of_same hsame rfl rfl rfl rfl h.held h.modified⟩
  refine hc.settle (p := p) .idle hk rfl nofun (fun c => ⟨(hsame c).2.2.1, (hsame c).2.2.2.1⟩)
    (fun _ _ _ => rfl) fun c => ?_
  by_cases hcb : c = b
  · subst hcb
    simp [hphase]
    omega
  · simp [hphase, hcb, Ne.symm hcb]

theorem drop_step (hc : Counted s) (h : Coherent s) (ht : s.step (.drop p) = some (.ok t)) :
    Counted t ∧ Coherent t := by
  simp only [State.step] at ht
  split at ht
  · rename_i b hphase
    obtain rfl := Except.ok.inj (Option.some.inj ht)
    simp only [State.drop]
    split_ifs
    · exact dropping_step hc h hphase (hc.links.touch b)
    · exact dropping_step hc h hphase hc.links
  · cases ht

theorem step_coherent {a : Action P} (hc : Counted s) (h : Coherent s) (ht : s.step a = some (.ok t)) :
    Counted t ∧ Coherent t := by
  cases a with
  | bget p dev blockno =>
    simp only [State.step] at ht
    split at ht
    · rename_i hidle
      split_ifs at ht with hdev
      have hget := Option.some.inj ht
      cases hcached : s.cached dev blockno with
      | some b => exact bget_hit hc h hidle hdev hcached hget
      | none =>
        cases hvictim : s.victim with
        | some b => exact bget_recycle hc h hidle hdev hcached hvictim hget
        | none =>
          simp only [State.bget, hcached, hvictim] at hget
          cases hget
    · cases ht
  | lock p =>
    cases hphase : s.phase p with
    | idle => simp [State.step, hphase] at ht
    | locking dev blockno b =>
      rcases lock_step hc h hphase ht with ⟨hc', h', _⟩
      exact ⟨hc', h'⟩
    | dropping b => simp [State.step, hphase] at ht
  | modify p b data => exact modify_step hc h ht
  | bwrite p b => exact bwrite_step hc h ht
  | logWrite p b => exact logWrite_step hc h ht
  | brelse p b => exact brelse_step hc h ht
  | drop p => exact drop_step hc h ht

theorem coherent_of_reachable (h : (bcacheSystem P).Reachable s) : Counted s ∧ Coherent s := by
  refine System.Reachable.invariant (P := fun s => Counted s ∧ Coherent s) ?_ ?_ h
  · intro s hs
    have hrefs : ∀ b p, s.refs b p = 0 := by
      intro b p
      simp [hs.phase p, hs.lock b, lockRefs]
    refine ⟨⟨?_, ?_, ?_⟩, ?_, ?_, ?_, ?_, ?_, ?_, ?_⟩
    · rw [hs.links]
      exact Links.complete_binit
    · intro b
      rw [(hs.buf b).2.2.2, Finset.sum_congr rfl fun p _ => hrefs b p, Finset.sum_const_zero]
    · intro p dev blockno b hp
      rw [hs.phase p] at hp
      cases hp
    · exact fun b _ hdev => absurd (hs.buf b).2.2.1 hdev
    · exact fun b hb => absurd (hs.lock b) hb
    · intro b hb
      rw [(hs.buf b).2.1] at hb
      cases hb
    · intro b hb
      rw [(hs.buf b).1] at hb
      cases hb
    · intro b hb
      rw [hs.modified b] at hb
      cases hb
    · intro b hb
      rw [(hs.buf b).1] at hb
      cases hb
    · intro n _
      rw [State.expected, hs.stored, hs.disk]
      rfl
  · rintro s a t ⟨hc, hs⟩ ht
    exact step_coherent hc hs ht

/-! ## Transparency -/

omit [Fintype P] in
theorem bget_keeps (hlinks : s.links.Complete) (ht : s.bget p dev blockno = .ok t)
    (hb : 0 < (s.buf b).refcnt ∨ (s.buf b).dirty = true) : SameBlock (t.buf b) (s.buf b) := by
  cases hcached : s.cached dev blockno with
  | some c =>
    simp only [State.bget, hcached] at ht
    obtain rfl := Except.ok.inj ht
    by_cases hbc : b = c
    · subst hbc
      simp [SameBlock]
    · simp [SameBlock, hbc]
  | none =>
    cases hvictim : s.victim with
    | none =>
      simp only [State.bget, hcached, hvictim] at ht
      cases ht
    | some c =>
      rcases unused_of_victim hlinks hvictim with ⟨hfree, hclean⟩
      have hbc : b ≠ c := by
        rintro rfl
        rcases hb with hpos | hdirty
        · omega
        · rw [hclean] at hdirty
          cases hdirty
      simp only [State.bget, hcached, hvictim] at ht
      obtain rfl := Except.ok.inj ht
      simp [SameBlock, hbc]

section Commit

variable {start tail : UInt32} {bs : List ℕ} {lh : Log.LogHeader} {a : Action P}

omit [Fintype P] in
theorem step_of_act (h : s.act a = some t) : s.step a = some (.ok t) := by
  unfold State.act at h
  split at h
  · rw [← Option.some.inj h]
    assumption
  · cases h

omit [Fintype P] in
theorem reachable_act (h : (bcacheSystem P).Reachable s) (ht : s.act a = some t) : (bcacheSystem P).Reachable t :=
  h.step (step_of_act ht)

omit [Fintype P] in
theorem reachable_bread (h : (bcacheSystem P).Reachable s) (ht : s.bread p dev blockno = some (t, b)) :
    (bcacheSystem P).Reachable t := by
  rcases Option.bind_eq_some_iff.1 ht with ⟨s1, h₁, ht⟩
  split at ht
  · rcases Option.bind_eq_some_iff.1 ht with ⟨s2, h₂, ht⟩
    obtain ⟨rfl, _⟩ : s2 = t ∧ _ := by simpa using ht
    exact reachable_act (reachable_act h h₁) h₂
  · cases ht

omit [Fintype P] in
theorem reachable_release (h : (bcacheSystem P).Reachable s) (ht : s.release p b = some t) :
    (bcacheSystem P).Reachable t := by
  rcases Option.bind_eq_some_iff.1 ht with ⟨s1, h₁, h₂⟩
  exact reachable_act (reachable_act h h₁) h₂

omit [Fintype P] in
theorem reachable_copy (h : (bcacheSystem P).Reachable s) (ht : s.copy p b c = some t) :
    (bcacheSystem P).Reachable t := by
  rcases Option.bind_eq_some_iff.1 ht with ⟨s1, h₁, ht⟩
  rcases Option.bind_eq_some_iff.1 ht with ⟨s2, h₂, ht⟩
  rcases Option.bind_eq_some_iff.1 ht with ⟨s3, h3, h4⟩
  exact reachable_release (reachable_release (reachable_act (reachable_act h h₁) h₂) h3) h4

omit [Fintype P] in
theorem reachable_writeLog (h : (bcacheSystem P).Reachable s)
    (ht : State.writeLog p dev start s tail bs = some t) : (bcacheSystem P).Reachable t := by
  induction bs generalizing s tail with
  | nil =>
    obtain rfl : s = t := by simpa [State.writeLog] using ht
    exact h
  | cons b bs ih =>
    rcases Option.bind_eq_some_iff.1 ht with ⟨⟨s1, dst⟩, h₁, ht⟩
    rcases Option.bind_eq_some_iff.1 ht with ⟨⟨s2, src⟩, h₂, ht⟩
    rcases Option.bind_eq_some_iff.1 ht with ⟨s3, h3, ht⟩
    exact ih (reachable_copy (reachable_bread (reachable_bread h h₁) h₂) h3) ht

omit [Fintype P] in
theorem reachable_installTrans (h : (bcacheSystem P).Reachable s)
    (ht : State.installTrans p dev start s tail bs = some t) : (bcacheSystem P).Reachable t := by
  induction bs generalizing s tail with
  | nil =>
    obtain rfl : s = t := by simpa [State.installTrans] using ht
    exact h
  | cons b bs ih =>
    rcases Option.bind_eq_some_iff.1 ht with ⟨⟨s1, lbuf⟩, h₁, ht⟩
    rcases Option.bind_eq_some_iff.1 ht with ⟨⟨s2, dbuf⟩, h₂, ht⟩
    rcases Option.bind_eq_some_iff.1 ht with ⟨s3, h3, ht⟩
    exact ih (reachable_copy (reachable_bread (reachable_bread h h₁) h₂) h3) ht

omit [Fintype P] in
theorem reachable_writeHead (h : (bcacheSystem P).Reachable s) (ht : s.writeHead p dev start lh = some t) :
    (bcacheSystem P).Reachable t := by
  rcases Option.bind_eq_some_iff.1 ht with ⟨⟨s1, b⟩, h₁, ht⟩
  rcases Option.bind_eq_some_iff.1 ht with ⟨s2, h₂, ht⟩
  rcases Option.bind_eq_some_iff.1 ht with ⟨s3, h3, h4⟩
  exact reachable_release (reachable_act (reachable_act (reachable_bread h h₁) h₂) h3) h4

omit [Fintype P] in
theorem reachable_commit (h : (bcacheSystem P).Reachable s) (ht : s.commit p dev start lh = some t) :
    (bcacheSystem P).Reachable t := by
  unfold State.commit at ht
  split_ifs at ht with hn
  · rcases Option.bind_eq_some_iff.1 ht with ⟨s1, h₁, ht⟩
    rcases Option.bind_eq_some_iff.1 ht with ⟨s2, h₂, ht⟩
    rcases Option.bind_eq_some_iff.1 ht with ⟨s3, h3, h4⟩
    have hlog := reachable_writeHead (reachable_writeLog h h₁) h₂
    exact reachable_writeHead (reachable_installTrans hlog h3) h4
  · obtain rfl := Option.some.inj ht
    exact h

end Commit

/-- The cache does not show. -/
structure Transparent (s : State P) : Prop where
  /-- At most one buffer is a given block. -/
  unique : ∀ b c, (s.buf b).dev ≠ 0 → (s.buf b).dev = (s.buf c).dev → (s.buf b).blockno = (s.buf c).blockno → b = c
  /-- The list is a cycle through the head and every buffer. -/
  cycle : s.links.Complete
  /-- A buffer that is referenced or dirty is not recycled. -/
  kept : ∀ p dev blockno t, s.step (.bget p dev blockno) = some (.ok t) →
    ∀ b, 0 < (s.buf b).refcnt ∨ (s.buf b).dirty = true → SameBlock (t.buf b) (s.buf b)
  /-- `bread` returns, locked, the contents stored last, or those of the disk. -/
  reads : ∀ p dev blockno b t, s.phase p = .locking dev blockno b → s.step (.lock p) = some (.ok t) →
    t.lock b = some p ∧ (t.buf b).data = s.expected dev blockno

/-- In every reachable state the cache does not show, and `commit` leads to another such state. -/
theorem transparent_of_reachable (h : (bcacheSystem P).Reachable s) :
    Transparent s ∧ ∀ p dev start lh t, s.commit p dev start lh = some t → Transparent t := by
  have htransparent : ∀ {s : State P}, (bcacheSystem P).Reachable s → Transparent s := by
    intro s h
    rcases coherent_of_reachable h with ⟨hc, hs⟩
    refine ⟨hs.unique, hc.links, ?_, ?_⟩
    · intro p dev blockno t ht b hb
      simp only [State.step] at ht
      split at ht
      · split_ifs at ht
        exact bget_keeps hc.links (Option.some.inj ht) hb
      · cases ht
    · intro p dev blockno b t hphase ht
      rcases lock_step hc hs hphase ht with ⟨_, _, hlock, hdata⟩
      exact ⟨hlock, hdata⟩
  exact ⟨htransparent h, fun p dev start lh t ht => htransparent (reachable_commit h ht)⟩

def buf0 : Fin nbuf :=
  ⟨0, by decide⟩

/-- Block 5 is changed, given to the log and released; then somebody asks for block 6. -/
def logged : State (Fin 1) :=
  System.follow State.act
    { links := Links.binit
      buf := fun _ => { valid := false, dirty := false, dev := 0, blockno := 0, refcnt := 0, data := fun _ => 0 }
      lock := fun _ => none
      disksize := 10
      disk := fun _ _ => 0
      phase := fun _ => .idle
      modified := fun _ => false
      image := fun _ _ => 0
      stored := fun _ _ => none }
    [.bget 0 1 5, .lock 0, .modify 0 buf0 (fun _ => 7), .logWrite 0 buf0, .brelse 0 buf0, .drop 0, .bget 0 1 6]

theorem transparent_logged :
    (logged.buf buf0).dirty = true ∧ (logged.buf buf0).blockno = 5 ∧ logged.cached 1 6 ≠ some buf0 ∧
      Transparent logged ∧
      ∀ p dev start lh t, logged.commit p dev start lh = some t → Transparent t := by
  refine ⟨by decide +kernel, by decide +kernel, by decide +kernel, transparent_of_reachable ?_⟩
  refine System.Reachable.follow (fun s a t ht => step_of_act ht) ?_ _
  exact System.Reachable.of_init
    ⟨rfl, fun _ => ⟨rfl, rfl, rfl, rfl⟩, fun _ => rfl, fun _ => rfl, fun _ => rfl, rfl, fun _ _ => rfl⟩

end Cache

end Xv6.Bcache
