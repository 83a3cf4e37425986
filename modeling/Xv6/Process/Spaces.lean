import Mathlib.Data.Finset.Card
import Mathlib.Data.Fintype.Basic
import Xv6.Process.Effect

/-!
# Spaces — page directories and their users

`clone` lets a thread share the page directory of its caller without counting references.  A slot
*uses* the directory in its `pgdir` unless it is UNUSED or has just been claimed: `allocproc` leaves
the field of the previous owner in place.

A directory that `copyuvm` or `exec` is still building is private to that call (`Private`), and
the lemmas of the last section say which slots use which directory after each kind of step.
-/

namespace Xv6.Process

open Function (update update_of_ne)

namespace Kernel

variable {ncpu : ℕ}

/-! ## Users of a directory -/

/-- The builder of slot `r` has filled in its address space. -/
def Filled (v : Slot → View) (r : Slot) : Prop := ∃ p, (v p).call.fills = some r

/-- The `pgdir` of slot `r` is the one its present owner uses. -/
def InUse (v : Slot → View) (r : Slot) : Prop :=
  (v r).life = .alive ∨ (v r).life = .dead ∨ ((v r).life = .claimed ∧ Filled v r)

def Uses (v : Slot → View) (r : Slot) (d : Pgdir) : Prop := InUse v r ∧ (v r).pgdir = some d

/-- Slot `r` has been claimed again, and its `pgdir` is still that of the previous owner. -/
def Stale (v : Slot → View) (r : Slot) : Prop := (v r).life = .claimed ∧ ¬ Filled v r

open Classical in
noncomputable def users (v : Slot → View) (d : Pgdir) : Finset Slot := Finset.univ.filter (fun r => Uses v r d)

variable {v : Slot → View} {d : Pgdir} {r p : Slot} {s t : Kernel ncpu}

theorem mem_users : r ∈ users v d ↔ Uses v r d := by
  simp [users]

theorem inUse_or_stale (h : (v r).life ≠ .free) : InUse v r ∨ Stale v r := by
  by_cases hf : Filled v r
  · cases hl : (v r).life with
    | free => exact absurd hl h
    | claimed => exact Or.inl (Or.inr (Or.inr ⟨hl, hf⟩))
    | alive => exact Or.inl (Or.inl hl)
    | dead => exact Or.inl (Or.inr (Or.inl hl))
  cases hl : (v r).life with
  | free => exact absurd hl h
  | claimed => exact Or.inr ⟨hl, hf⟩
  | alive => exact Or.inl (Or.inl hl)
  | dead => exact Or.inl (Or.inr (Or.inl hl))

theorem InUse.not_free (h : InUse v r) : (v r).life ≠ .free := by
  rcases h with h | h | ⟨h, _⟩ <;> simp [h]

/-! ## Directories not yet attached to a slot -/

/-- A directory that only one call of `copyuvm` or `exec` knows is used and counted nowhere. -/
structure Private (s : Kernel ncpu) : Prop where
  known : ∀ r d, (s.view r).pgdir = some d → d < s.nextDir
  made : ∀ p d, (s.view p).call.dir = some d → d < s.nextDir
  own : ∀ p q d, (s.view p).call.dir = some d → (s.view q).call.dir = some d → p = q
  unheld : ∀ p d r, (s.view p).call.dir = some d → (s.view r).pgdir ≠ some d
  uncounted : ∀ p d, (s.view p).call.dir = some d → s.clones d = 0 ∧ s.joins d = 0
  unfreed : ∀ p d, (s.view p).call.dir = some d → ∀ f ∈ s.freevms, f.dir ≠ d
  freed : ∀ f ∈ s.freevms, f.dir < s.nextDir
  future : ∀ d, s.nextDir ≤ d → s.clones d = 0 ∧ s.joins d = 0

/-- A step that makes no directory: nothing becomes private, what is attached was attached or private
before, and only attached directories are counted. -/
theorem Private.of_step (h : s.Private) (hnext : t.nextDir = s.nextDir)
    (hdir : ∀ p d, (t.view p).call.dir = some d → (s.view p).call.dir = some d)
    (hpgdir : ∀ r d, (t.view r).pgdir = some d → (∃ r', (s.view r').pgdir = some d) ∨ ((∃ p, (s.view p).call.dir = some d) ∧ ∀ q, (t.view q).call.dir ≠ some d))
    (hclones : ∀ d, t.clones d = s.clones d ∨ ∃ r, (s.view r).pgdir = some d)
    (hjoins : ∀ d, t.joins d = s.joins d ∨ ∃ r, (s.view r).pgdir = some d)
    (hfree : ∀ f ∈ t.freevms, f ∈ s.freevms ∨ (∃ r, (s.view r).pgdir = some f.dir) ∨ ((∃ p, (s.view p).call.dir = some f.dir) ∧ ∀ q, (t.view q).call.dir ≠ some f.dir)) :
    t.Private := by
  have hcount : ∀ d, (∀ r, (s.view r).pgdir ≠ some d) → t.clones d = s.clones d ∧ t.joins d = s.joins d := by
    intro d hd
    refine ⟨?_, ?_⟩
    · rcases hclones d with hc | ⟨r, hr⟩
      · exact hc
      · exact absurd hr (hd r)
    · rcases hjoins d with hj | ⟨r, hr⟩
      · exact hj
      · exact absurd hr (hd r)
  refine ⟨?_, ?_, ?_, ?_, ?_, ?_, ?_, ?_⟩
  · intro r d hr
    rcases hpgdir r d hr with ⟨r', hr'⟩ | ⟨⟨p, hp⟩, _⟩
    · exact hnext ▸ h.known r' d hr'
    · exact hnext ▸ h.made p d hp
  · intro p d hp
    exact hnext ▸ h.made p d (hdir p d hp)
  · intro p q d hp hq
    exact h.own p q d (hdir p d hp) (hdir q d hq)
  · intro p d r hp hr
    rcases hpgdir r d hr with ⟨r', hr'⟩ | ⟨_, hnone⟩
    · exact h.unheld p d r' (hdir p d hp) hr'
    · exact hnone p hp
  · intro p d hp
    have hold := h.uncounted p d (hdir p d hp)
    have hsame := hcount d (fun r => h.unheld p d r (hdir p d hp))
    rw [hsame.1, hsame.2]
    exact hold
  · intro p d hp f hf hEq
    rcases hfree f hf with hf' | ⟨r, hr⟩ | ⟨_, hnone⟩
    · exact h.unfreed p d (hdir p d hp) f hf' hEq
    · exact h.unheld p d r (hdir p d hp) (hEq ▸ hr)
    · exact hnone p (hEq ▸ hp)
  · intro f hf
    rcases hfree f hf with hf' | ⟨r, hr⟩ | ⟨⟨p, hp⟩, _⟩
    · exact hnext ▸ h.freed f hf'
    · exact hnext ▸ h.known r f.dir hr
    · exact hnext ▸ h.made p f.dir hp
  · intro d hd
    rw [hnext] at hd
    have hnone : ∀ r, (s.view r).pgdir ≠ some d := by
      intro r hr
      exact absurd (h.known r d hr) (Nat.not_lt.2 hd)
    have hsame := hcount d hnone
    rw [hsame.1, hsame.2]
    exact h.future d hd

theorem Private.of_newDir {k : Call} (h : s.Private) (hk : k.dir = some s.nextDir)
    (hv : t.view = update s.view p { s.view p with call := k }) (hnext : t.nextDir = s.nextDir + 1)
    (hfree : t.freevms = s.freevms) (hclones : t.clones = s.clones) (hjoins : t.joins = s.joins) : t.Private := by
  have hpgdir : ∀ r, (t.view r).pgdir = (s.view r).pgdir := by
    intro r
    by_cases hr : r = p
    · subst hr
      simp [hv]
    · simp [hv, hr]
  have hdir : ∀ q d, (t.view q).call.dir = some d → (q = p ∧ d = s.nextDir) ∨ (s.view q).call.dir = some d := by
    intro q d hq
    by_cases hqp : q = p
    · subst hqp
      have hd : s.nextDir = d := by simpa [hv, hk] using hq
      exact Or.inl ⟨rfl, hd.symm⟩
    · exact Or.inr (by simpa [hv, hqp] using hq)
  refine ⟨?_, ?_, ?_, ?_, ?_, ?_, ?_, ?_⟩
  · intro r d hr
    rw [hnext]
    exact Nat.lt_succ_of_lt (h.known r d (by simpa [hpgdir] using hr))
  · intro q d hq
    rw [hnext]
    rcases hdir q d hq with ⟨_, rfl⟩ | hq'
    · exact Nat.lt_succ_self _
    · exact Nat.lt_succ_of_lt (h.made q d hq')
  · intro q q' d hq hq'
    rcases hdir q d hq with ⟨rfl, rfl⟩ | hq1 <;> rcases hdir q' _ hq' with ⟨rfl, hd⟩ | hq2
    · rfl
    · exact absurd (h.made q' _ hq2) (Nat.lt_irrefl _)
    · exact absurd (hd ▸ h.made q _ hq1) (Nat.lt_irrefl _)
    · exact h.own q q' d hq1 hq2
  · intro q d r hq hr
    rw [hpgdir] at hr
    rcases hdir q d hq with ⟨_, rfl⟩ | hq'
    · exact absurd (h.known r _ hr) (Nat.lt_irrefl _)
    · exact h.unheld q d r hq' hr
  · intro q d hq
    rw [hclones, hjoins]
    rcases hdir q d hq with ⟨_, rfl⟩ | hq'
    · exact h.future _ (Nat.le_refl _)
    · exact h.uncounted q d hq'
  · intro q d hq f hf hEq
    rw [hfree] at hf
    rcases hdir q d hq with ⟨_, rfl⟩ | hq'
    · exact absurd (hEq ▸ h.freed f hf) (Nat.lt_irrefl _)
    · exact h.unfreed q d hq' f hf hEq
  · intro f hf
    rw [hfree] at hf
    rw [hnext]
    exact Nat.lt_succ_of_lt (h.freed f hf)
  · intro d hd
    rw [hnext] at hd
    rw [hclones, hjoins]
    exact h.future d (Nat.le_of_succ_le hd)

theorem Private.of_same (h : s.Private) (hd : SameDirs s t)
    (hdir : ∀ p d, (t.view p).call.dir = some d → (s.view p).call.dir = some d)
    (hpgdir : ∀ r d, (t.view r).pgdir = some d → ∃ r', (s.view r').pgdir = some d) : t.Private :=
  h.of_step hd.nextDir hdir (fun r d hr => Or.inl (hpgdir r d hr))
    (fun _ => Or.inl (by rw [hd.clones])) (fun _ => Or.inl (by rw [hd.joins]))
    (fun f hf => Or.inl (by simpa [hd.freevms] using hf))

/-! ## Views with one or two changed slots -/

section Update

variable {v v' : Slot → View} {p np : Slot} {w w' : View} {k : Call}

theorem dir_of_update (hv : v' = update v p w)
    (hw : ∀ d, w.call.dir = some d → (v p).call.dir = some d) (q : Slot) (d : Pgdir)
    (h : (v' q).call.dir = some d) : (v q).call.dir = some d := by
  rw [hv] at h
  by_cases hq : q = p
  · subst hq
    exact hw d (by simpa using h)
  · simpa [hq] using h

theorem pgdir_of_update (hv : v' = update v p w) (r : Slot) (d : Pgdir)
    (h : (v' r).pgdir = some d) : w.pgdir = some d ∨ (v r).pgdir = some d := by
  rw [hv] at h
  by_cases hr : r = p
  · subst hr
    exact Or.inl (by simpa using h)
  · exact Or.inr (by simpa [hr] using h)

theorem pgdir_of_keep (hv : v' = update v p w) (hw : w.pgdir = (v p).pgdir) (r : Slot)
    (d : Pgdir) (h : (v' r).pgdir = some d) : ∃ r', (v r').pgdir = some d := by
  rcases pgdir_of_update hv r d h with h | h
  · exact ⟨p, hw ▸ h⟩
  · exact ⟨r, h⟩

theorem dir_of_build (hv : v' = update (update v np w') p { v p with call := k })
    (hk : k.dir = none) (hw' : ∀ d, w'.call.dir = some d → (v np).call.dir = some d) (q : Slot)
    (d : Pgdir) (h : (v' q).call.dir = some d) : (v q).call.dir = some d := by
  refine dir_of_update rfl hw' q d (dir_of_update hv ?_ q d h)
  simp [hk]

theorem pgdir_of_build (hv : v' = update (update v np w') p { v p with call := k })
    (r : Slot) (d : Pgdir) (h : (v' r).pgdir = some d) :
    w'.pgdir = some d ∨ ∃ r', (v r').pgdir = some d := by
  rcases pgdir_of_update hv r d h with h | h
  · exact Or.inr ⟨p, h⟩
  · rcases pgdir_of_update rfl r d h with h | h
    · exact Or.inl h
    · exact Or.inr ⟨r, h⟩

end Update

theorem Private.dir_gone (h : s.Private) {v' : Slot → View} (hp : (s.view p).call.dir = some d)
    (hdir : ∀ q d, (v' q).call.dir = some d → (s.view q).call.dir = some d) (hnone : (v' p).call.dir = none)
    (q : Slot) : (v' q).call.dir ≠ some d := by
  intro hq
  have hqp : q = p := h.own q p d (hdir q d hq) hp
  simp [hqp, hnone] at hq

theorem Frees.mem {reaped : Option Slot} (h : Frees s t d reaped v) {f : Freevm} (hf : f ∈ t.freevms) :
    f ∈ s.freevms ∨ f.dir = d := by
  rcases h.freevms with ⟨table, heq, _⟩
  rw [heq] at hf
  rcases List.mem_append.1 hf with hf | hf
  · exact Or.inl hf
  · have hfd : f = { dir := d, reaped := reaped, table := table } := by simpa using hf
    exact Or.inr (by rw [hfd])

theorem Private.of_frees_own (h : s.Private) {reaped : Option Slot} (hp : (s.view p).call.dir = some d)
    (hd : Frees s t d reaped v) (hdir : ∀ q d, (t.view q).call.dir = some d → (s.view q).call.dir = some d)
    (hnone : (t.view p).call.dir = none)
    (hpgdir : ∀ r d, (t.view r).pgdir = some d → ∃ r', (s.view r').pgdir = some d) : t.Private := by
  refine h.of_step hd.nextDir hdir (fun r d hr => Or.inl (hpgdir r d hr))
    (fun _ => Or.inl (by rw [hd.clones])) (fun _ => Or.inl (by rw [hd.joins])) ?_
  intro f hf
  rcases hd.mem hf with hf | hf
  · exact Or.inl hf
  · exact Or.inr (Or.inr ⟨⟨p, hf ▸ hp⟩, h.dir_gone (hf ▸ hp) hdir hnone⟩)

theorem Effect.private {rel : Option Pgdir} (h : Effect s t rel) (hs : s.Private) : t.Private := by
  cases h with
  | quiet hv hd =>
    exact hs.of_same hd (fun p d hp => by simpa [hv] using hp)
      (fun r d hr => ⟨r, by simpa [hv] using hr⟩)
  | move p k hp hk hk' hv hd =>
    exact hs.of_same hd (dir_of_update hv (by simp [hk'.2])) (pgdir_of_keep hv rfl)
  | exit p hp hk hv hd =>
    exact hs.of_same hd (dir_of_update hv (fun _ h => h)) (pgdir_of_keep hv rfl)
  | claim p np k hp hk hnp hk' hv hd =>
    refine hs.of_same hd (dir_of_build hv hk'.2.2 (fun _ h => h)) ?_
    intro r d hr
    rcases pgdir_of_build hv r d hr with h | h
    · exact ⟨np, h⟩
    · exact h
  | advance p np k hk hk' hv hd =>
    exact hs.of_same hd (dir_of_update hv (by simp [hk'.2.2])) (pgdir_of_keep hv rfl)
  | newDir p k hp hk hk' hsame hv hn hf hc hj => exact hs.of_newDir hk' hv hn hf hc hj
  | drop p np g hk hg hv hd =>
    refine hs.of_same hd (dir_of_build hv rfl (fun _ h => h)) ?_
    intro r d hr
    rcases pgdir_of_build hv r d hr with h | h
    · rcases hg with hg | hg
      · simp [hg] at h
      · exact ⟨np, hg ▸ h⟩
    · exact h
  | dropCopy p np d hk hv hd =>
    refine hs.of_frees_own (by rw [hk]; rfl) hd (dir_of_build hv rfl (fun _ h => h))
      (by simp [hv, Call.dir]) ?_
    intro r d' hr
    rcases pgdir_of_build hv r d' hr with h | h
    · cases h
    · exact h
  | forkFill p np d pid hk hv hd =>
    have hpd : (s.view p).call.dir = some d := by rw [hk]; rfl
    have hdir := dir_of_build hv rfl (by simp [Call.dir])
    refine hs.of_step hd.nextDir hdir ?_ (fun _ => Or.inl (by rw [hd.clones]))
      (fun _ => Or.inl (by rw [hd.joins])) (fun f hf => Or.inl (by simpa [hd.freevms] using hf))
    intro r d' hr
    rcases pgdir_of_build hv r d' hr with h | h
    · -- the directory of `copyuvm` becomes that of the child
      have hd' : d = d' := by simpa using h
      subst hd'
      exact Or.inr ⟨⟨p, hpd⟩, hs.dir_gone hpd hdir (by simp [hv, Call.dir])⟩
    · exact Or.inl h
  | cloneFill p np stack hk hv hn hf hc hj =>
    refine hs.of_step hn (dir_of_build hv rfl (by simp [Call.dir])) ?_ ?_
      (fun _ => Or.inl (by rw [hj])) (fun f hf' => Or.inl (by simpa [hf] using hf'))
    · intro r d' hr
      rcases pgdir_of_build hv r d' hr with h | h
      · exact Or.inl ⟨p, h⟩
      · exact Or.inl h
    · intro d'
      by_cases hpd : (s.view p).pgdir = some d'
      · exact Or.inr ⟨p, hpd⟩
      · exact Or.inl (by simp [hc, hpd])
  | publish p np k hk hk' hv hd =>
    refine hs.of_same hd (dir_of_build hv hk'.2 (fun _ h => h)) ?_
    intro r d hr
    rcases pgdir_of_build hv r d hr with h | h
    · exact ⟨np, h⟩
    · exact h
  | execBad p d hp hk hv hd =>
    exact hs.of_frees_own (by rw [hk]; rfl) hd (dir_of_update hv (by simp [Call.dir]))
      (by simp [hv, Call.dir]) (pgdir_of_keep hv rfl)
  | execCommit p d old hp hk hold hv hd =>
    have hpd : (s.view p).call.dir = some d := by rw [hk]; rfl
    have hdir := dir_of_update hv (by simp [Call.dir])
    refine hs.of_step hd.nextDir hdir ?_ (fun _ => Or.inl (by rw [hd.clones]))
      (fun _ => Or.inl (by rw [hd.joins])) ?_
    · intro r d' hr
      rcases pgdir_of_update hv r d' hr with h | h
      · have hd' : d = d' := by simpa using h
        subst hd'
        exact Or.inr ⟨⟨p, hpd⟩, hs.dir_gone hpd hdir (by simp [hv, Call.dir])⟩
      · exact Or.inl ⟨r, h⟩
    · intro f hf
      rcases hd.mem hf with hf | hf
      · exact Or.inl hf
      · exact Or.inr (Or.inl ⟨p, hf ▸ hold⟩)
  | reap r d hr hd' hv hd =>
    refine hs.of_step hd.nextDir (dir_of_update hv (fun _ h => h))
      (fun q d' hq => Or.inl (pgdir_of_keep hv rfl q d' hq))
      (fun _ => Or.inl (by rw [hd.clones])) (fun _ => Or.inl (by rw [hd.joins])) ?_
    intro f hf
    rcases hd.mem hf with hf | hf
    · exact Or.inl hf
    · exact Or.inr (Or.inl ⟨r, hf ▸ hd'⟩)
  | join r hr hv hn hf hc hj =>
    refine hs.of_step hn (dir_of_update hv (fun _ h => h))
      (fun q d' hq => Or.inl (pgdir_of_keep hv rfl q d' hq))
      (fun _ => Or.inl (by rw [hc])) ?_ (fun f hf' => Or.inl (by simpa [hf] using hf'))
    intro d'
    by_cases hrd : (s.view r).pgdir = some d'
    · exact Or.inr ⟨r, hrd⟩
    · exact Or.inl (by simp [hj, hrd])

/-! ## Who uses a directory after a step -/

section Uses

variable {v : Slot → View} {p np : Slot} {w : View} {k : Call} {l : Life}

theorem filled_update (hw : w.call.fills = (v p).call.fills) (r : Slot) : Filled (update v p w) r ↔ Filled v r := by
  have hsame : ∀ q, (update v p w q).call.fills = (v q).call.fills := by
    intro q
    by_cases hq : q = p
    · subst hq
      simpa using hw
    · simp [hq]
  simp only [Filled, hsame]

theorem uses_update
    (hfill : ∀ r, r ≠ p → (v r).life = .claimed → (Filled (update v p w) r ↔ Filled v r))
    (hp : ∀ d, Uses (update v p w) p d ↔ Uses v p d) (r : Slot) (d : Pgdir) :
    Uses (update v p w) r d ↔ Uses v r d := by
  by_cases hr : r = p
  · subst hr
    exact hp d
  · by_cases hl : (v r).life = .claimed
    · simp [Uses, InUse, hr, hl, hfill r hr hl]
    · simp [Uses, InUse, hr, hl]

theorem uses_call (hp : (v p).life = .alive) (hk : k.fills = (v p).call.fills) (r : Slot) (d : Pgdir) :
    Uses (update v p { v p with call := k }) r d ↔ Uses v r d :=
  uses_update (fun r _ _ => filled_update hk r) (fun d => by simp [Uses, InUse, hp]) r d

theorem uses_idle (hw : w.call.fills = (v np).call.fills) (hnot : ¬ Filled v np)
    (hl : (v np).life = .free ∨ (v np).life = .claimed) (hl' : w.life = .free ∨ w.life = .claimed)
    (r : Slot) (d : Pgdir) : Uses (update v np w) r d ↔ Uses v r d := by
  refine uses_update (fun r _ _ => filled_update hw r) ?_ r d
  intro d
  have hnot' : ¬ Filled (update v np w) np := by simpa [filled_update hw] using hnot
  rcases hl with hl | hl <;> rcases hl' with hl' | hl' <;> simp [Uses, InUse, hl, hl', hnot, hnot']

theorem uses_life (hp : InUse v p) (hl : l = .alive ∨ l = .dead) (r : Slot) (d : Pgdir) :
    Uses (update v p { v p with life := l }) r d ↔ Uses v r d := by
  have hfill : ∀ r, Filled (update v p { v p with life := l }) r ↔ Filled v r := filled_update rfl
  refine uses_update (fun r _ _ => hfill r) ?_ r d
  intro d
  have huse : InUse (update v p { v p with life := l }) p := by
    rcases hl with rfl | rfl <;> simp [InUse]
  simp [Uses, hp, huse]

theorem uses_publish (hp : (v p).life = .alive) (hfills : (v p).call.fills = some np)
    (hnp : (v np).life = .alive) (hk : k.fills = none) (r : Slot) (d : Pgdir) :
    Uses (update v p { v p with call := k }) r d ↔ Uses v r d := by
  refine uses_update ?_ (fun d => by simp [Uses, InUse, hp]) r d
  intro r hr hl
  have hrn : r ≠ np := ne_of_field View.life hl hnp
  constructor
  · rintro ⟨q, hq⟩
    by_cases hqp : q = p
    · simp [hqp, hk] at hq
    · exact ⟨q, by simpa [hqp] using hq⟩
  rintro ⟨q, hq⟩
  have hqp : q ≠ p := by
    intro hEq
    rw [hEq, hfills] at hq
    exact hrn (Option.some.inj hq).symm
  exact ⟨q, by simpa [hqp] using hq⟩

theorem uses_fill (hp : (v p).life = .alive) (hold : (v p).call.fills = none)
    (hk : k.fills = some np) (hnp : (v np).life = .claimed) (r : Slot) (d : Pgdir) :
    Uses (update v p { v p with call := k }) r d ↔ Uses v r d ∨ (r = np ∧ (v np).pgdir = some d) := by
  have hne : np ≠ p := ne_of_field View.life hnp hp
  have hfill : ∀ r, Filled (update v p { v p with call := k }) r ↔ r = np ∨ Filled v r := by
    intro r
    constructor
    · rintro ⟨q, hq⟩
      by_cases hqp : q = p
      · subst hqp
        have hr : np = r := by simpa [hk] using hq
        exact Or.inl hr.symm
      · exact Or.inr ⟨q, by simpa [hqp] using hq⟩
    rintro (rfl | ⟨q, hq⟩)
    · exact ⟨p, by simp [hk]⟩
    · have hqp : q ≠ p := by
        intro hEq
        simp [hEq, hold] at hq
      exact ⟨q, by simpa [hqp] using hq⟩
  by_cases hrp : r = p
  · subst hrp
    simp [Uses, InUse, hp, hne.symm]
  · by_cases hrn : r = np
    · subst hrn
      simp [Uses, InUse, hrp, hnp, hfill]
    · simp [Uses, InUse, hrp, hrn, hfill]

theorem uses_exec {g : Pgdir} (hp : (v p).life = .alive) (hk : k.fills = (v p).call.fills) (r : Slot)
    (d : Pgdir) : Uses (update v p { v p with call := k, pgdir := some g }) r d ↔
      (r = p ∧ d = g) ∨ (r ≠ p ∧ Uses v r d) := by
  have hfill : ∀ r, Filled (update v p { v p with call := k, pgdir := some g }) r ↔ Filled v r := filled_update hk
  by_cases hrp : r = p
  · subst hrp
    simp [Uses, InUse, hp, eq_comm]
  · simp [Uses, InUse, hrp, hfill]

theorem uses_free (r : Slot) (d : Pgdir) : Uses (update v p { v p with life := .free }) r d ↔ r ≠ p ∧ Uses v r d := by
  have hfill : ∀ r, Filled (update v p { v p with life := .free }) r ↔ Filled v r := filled_update rfl
  by_cases hrp : r = p
  · subst hrp
    simp [Uses, InUse]
  · simp [Uses, InUse, hrp, hfill]

theorem uses_build (hne : p ≠ np) (hp : (v p).life = .alive) (hk : k.fills = (v p).call.fills)
    (hnp : ∀ r d, Uses (update v np w) r d ↔ Uses v r d) (r : Slot) (d : Pgdir) :
    Uses (update (update v np w) p { v p with call := k }) r d ↔ Uses v r d := by
  have hmid : update v np w p = v p := update_of_ne hne w v
  rw [← hmid] at hp hk ⊢
  exact (uses_call hp hk r d).trans (hnp r d)

theorem Builds.not_filled (hb : Builds v) (hp : (v p).call.claims = some np)
    (hfills : (v p).call.fills = none) : ¬ Filled v np := by
  rintro ⟨q, hq⟩
  have hqp : q = p := hb.builder q p np (Call.claims_of_fills hq) hp
  simp [hqp, hfills] at hq

theorem Builds.fills_eq_none (hb : Builds v) (hp : (v p).life ≠ .alive) : (v p).call.fills = none := by
  cases hf : (v p).call.fills with
  | none => rfl
  | some np =>
    have hnone := hb.claims_eq_none hp
    simp [Call.claims_of_fills hf] at hnone

theorem uses_build_fill {g : Option Pgdir} (hb : Builds v) (hp : (v p).call.claims = some np)
    (hfills : (v p).call.fills = none) (hk : k.fills = some np) (r : Slot) (d : Pgdir) :
    Uses (update (update v np { v np with call := .user, pgdir := g })
      p { v p with call := k }) r d ↔ Uses v r d ∨ (r = np ∧ g = some d) := by
  rcases hb.building p np hp with ⟨halive, hclaimed⟩
  have hne := hb.ne_of_claims hp
  have hmid : update v np { v np with call := .user, pgdir := g } p = v p := update_of_ne hne _ v
  have hidle := uses_idle (w := { v np with call := .user, pgdir := g })
    (hb.fills_eq_none (by simp [hclaimed])).symm (hb.not_filled hp hfills) (Or.inr hclaimed)
    (Or.inr hclaimed) r d
  rw [← hmid] at halive hfills ⊢
  rw [uses_fill halive hfills hk (by simpa using hclaimed), hidle]
  simp

end Uses

end Kernel
end Xv6.Process
