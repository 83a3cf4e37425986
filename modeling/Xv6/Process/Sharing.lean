import Xv6.Process.Spaces

/-!
# Sharing — when page directories are freed

Three places release directories: `wait` always passes the directory of the process it reaps to
`freevm`, `join` never does, and `exec` frees the directory it leaves.

`Safe` is what one would like to know about every call of `freevm`: no other slot in use has the
directory, and no directory is freed twice.  The history counts, for each directory, the threads
`clone` put into it and the threads `join` reaped from it.  While these are equal the directory has
one user; the last section shows that the kernel is safe exactly along the runs in which `wait` and `exec`
release only such directories.
-/

namespace Xv6.Process
namespace Kernel

open Common

variable {ncpu : ℕ}

/-! ## Safety and the condition -/

/-- Every call of `freevm` so far found no other slot with its directory, and no directory was passed
to it twice. -/
structure Safe (s : Kernel ncpu) : Prop where
  unused : ∀ f ∈ s.freevms, ∀ r, f.reaped ≠ some r → (f.table r).state ≠ .unused →
    (f.table r).pgdir ≠ some f.dir
  once : (s.freevms.map Freevm.dir).Nodup

/-- All threads that `clone` put into `d` have been reaped by `join`, and no slot claimed by an
unfinished `fork` or `clone` still names `d`. -/
structure Lone (s : Kernel ncpu) (d : Pgdir) : Prop where
  threads : s.clones d = s.joins d
  stale : ∀ r, Stale s.view r → (s.view r).pgdir ≠ some d

/-- A step releases only directories without threads. -/
def ReleasesLone (s : Kernel ncpu) (a : Action ncpu) : Prop := ∀ d, s.releases a = some d → s.Lone d

/-! ## Counting the users -/

/-- The users of a directory are its first owner and the threads not yet reaped by `join`. -/
def Counted (v : Slot → View) (clones joins : Pgdir → ℕ) : Prop :=
  ∀ r d, Uses v r d → (users v d).card + joins d = clones d + 1

section Counted

variable {v v' : Slot → View} {clones clones' joins joins' : Pgdir → ℕ} {p np r : Slot} {d : Pgdir}

theorem users_congr (h : ∀ r, Uses v' r d ↔ Uses v r d) : users v' d = users v d := by
  ext r
  simp only [mem_users, h r]

theorem Counted.congr (hc : Counted v clones joins) (h : ∀ r d, Uses v' r d ↔ Uses v r d) :
    Counted v' clones joins := by
  intro r d hr
  rw [users_congr (fun r => h r d)]
  exact hc r d ((h r d).1 hr)

theorem Counted.first (hc : Counted v clones joins) (hnew : ∀ r, ¬ Uses v r d)
    (hzero : clones d = 0 ∧ joins d = 0)
    (h : ∀ r e, Uses v' r e ↔ (r = p ∧ e = d) ∨ (e ≠ d ∧ Uses v r e)) : Counted v' clones joins := by
  intro r e hr
  by_cases he : e = d
  · subst he
    have hone : users v' e = {p} := by
      ext q
      simp [mem_users, h]
    simp [hone, hzero.1, hzero.2]
  have hsame : ∀ q, Uses v' q e ↔ Uses v q e := by
    intro q
    simp [h, he]
  rw [users_congr hsame]
  exact hc r e ((hsame r).1 hr)

theorem Counted.clone (hc : Counted v clones joins) (hp : InUse v p) (hnp : ¬ InUse v np)
    (hclones : ∀ d, clones' d = if (v p).pgdir = some d then clones d + 1 else clones d)
    (h : ∀ r d, Uses v' r d ↔ Uses v r d ∨ (r = np ∧ (v p).pgdir = some d)) :
    Counted v' clones' joins := by
  intro r d hr
  by_cases hd : (v p).pgdir = some d
  · have hinsert : users v' d = insert np (users v d) := by
      ext q
      simp [mem_users, h, hd, or_comm]
    have hnot : np ∉ users v d := fun hmem => hnp (mem_users.1 hmem).1
    have hold := hc p d ⟨hp, hd⟩
    rw [hinsert, Finset.card_insert_of_notMem hnot, hclones, if_pos hd]
    omega
  · have hsame : ∀ q, Uses v' q d ↔ Uses v q d := by
      intro q
      simp [h, hd]
    rw [users_congr hsame, hclones, if_neg hd]
    exact hc r d ((hsame r).1 hr)

theorem Counted.join (hc : Counted v clones joins) (hp : InUse v p)
    (hjoins : ∀ d, joins' d = if (v p).pgdir = some d then joins d + 1 else joins d)
    (h : ∀ r d, Uses v' r d ↔ r ≠ p ∧ Uses v r d) : Counted v' clones joins' := by
  intro r d hr
  by_cases hd : (v p).pgdir = some d
  · have hpmem : p ∈ users v d := mem_users.2 ⟨hp, hd⟩
    have herase : users v' d = (users v d).erase p := by
      ext q
      simp [mem_users, h]
    have hold := hc p d ⟨hp, hd⟩
    have hcard := Finset.card_erase_add_one hpmem
    rw [herase, hjoins, if_pos hd]
    omega
  have hsame : ∀ q, Uses v' q d ↔ Uses v q d := by
    intro q
    rw [h]
    refine ⟨And.right, fun hq => ⟨?_, hq⟩⟩
    intro hEq
    exact hd (hEq ▸ hq.2)
  rw [users_congr hsame, hjoins, if_neg hd]
  exact hc r d ((hsame r).1 hr)

theorem Counted.leave (hc : Counted v clones joins) (hone : ∀ r, Uses v r d → r = p)
    (hd : (v p).pgdir = some d) (h : ∀ r e, Uses v' r e ↔ r ≠ p ∧ Uses v r e) :
    Counted v' clones joins := by
  intro r e hr
  have hr' := (h r e).1 hr
  have he : e ≠ d := fun hEq => hr'.1 (hone r (hEq ▸ hr'.2))
  have hsame : ∀ q, Uses v' q e ↔ Uses v q e := by
    intro q
    rw [h]
    refine ⟨And.right, fun hq => ⟨?_, hq⟩⟩
    intro hEq
    have hpe : some d = some e := hd.symm.trans (hEq ▸ hq.2)
    exact he (Option.some.inj hpe).symm
  rw [users_congr hsame]
  exact hc r e hr'.2

/-- A directory has one user exactly if `join` has reaped all its threads. -/
theorem Counted.lone_iff (hc : Counted v clones joins) (hp : Uses v p d) :
    (∀ r, Uses v r d → r = p) ↔ clones d = joins d := by
  have hcount := hc p d hp
  constructor
  · intro hone
    have hsingle : users v d = {p} := by
      ext q
      rw [mem_users, Finset.mem_singleton]
      refine ⟨hone q, ?_⟩
      rintro rfl
      exact hp
    rw [hsingle, Finset.card_singleton] at hcount
    omega
  · intro heq r hr
    have hcard : (users v d).card ≤ 1 := by omega
    exact Finset.card_le_one.1 hcard r (mem_users.2 hr) p (mem_users.2 hp)

end Counted

/-! ## Safety of one call of freevm -/

/-- What one call of `freevm` must find: no other slot with the directory, and the directory not
freed before. -/
structure FreesSafely (s : Kernel ncpu) (d : Pgdir) (reaped : Option Slot) (v : Slot → View) : Prop where
  unused : ∀ r, reaped ≠ some r → (v r).life ≠ .free → (v r).pgdir ≠ some d
  once : ∀ f ∈ s.freevms, f.dir ≠ d

theorem life_eq_free {q : Proc} : q.view.life = .free ↔ q.state = .unused := by
  cases h : q.state <;> simp [Proc.view, h, ProcState.life]

variable {s t : Kernel ncpu} {d : Pgdir} {p : Slot}

theorem Frees.safely_iff {reaped : Option Slot} {v : Slot → View} (h : Frees s t d reaped v) (hs : s.Safe) :
    t.Safe ↔ s.FreesSafely d reaped v := by
  rcases h.freevms with ⟨table, heq, hv⟩
  have hlife : ∀ r, (table r).state ≠ .unused ↔ (v r).life ≠ .free := by
    intro r
    rw [← hv]
    exact not_congr life_eq_free.symm
  have hpgdir : ∀ r, (table r).pgdir = (v r).pgdir := by
    intro r
    rw [← hv]
    rfl
  constructor
  · intro ht
    refine ⟨?_, ?_⟩
    · intro r hr hl
      have hlast := ht.unused { dir := d, reaped := reaped, table := table } (by simp [heq]) r hr
      rw [hlife, hpgdir] at hlast
      exact hlast hl
    · intro f hf
      have hnodup := ht.once
      rw [heq, List.map_append, List.nodup_append] at hnodup
      exact hnodup.2.2 f.dir (List.mem_map_of_mem hf) d (by simp)
  intro hsafe
  refine ⟨?_, ?_⟩
  · intro f hf r hr hl
    rw [heq] at hf
    rcases List.mem_append.1 hf with hf | hf
    · exact hs.unused f hf r hr hl
    · have hfd : f = { dir := d, reaped := reaped, table := table } := by simpa using hf
      subst hfd
      rw [hpgdir]
      exact hsafe.unused r hr ((hlife r).1 hl)
  · rw [heq, List.map_append, List.nodup_append]
    refine ⟨hs.once, by simp, ?_⟩
    intro e he e' he'
    rcases List.mem_map.1 he with ⟨f, hf, rfl⟩
    have hd : e' = d := by simpa using he'
    subst hd
    exact hsafe.once f hf

/-! ## The invariant -/

/-- Freed directories are used by nobody, the others are counted, and no call of `freevm` so far was
a mistake. -/
structure Accounted (s : Kernel ncpu) : Prop where
  freed : ∀ f ∈ s.freevms, ∀ r, ¬ Uses s.view r f.dir
  counted : Counted s.view s.clones s.joins
  safe : s.Safe

theorem Accounted.of_same (h : s.Accounted) (hfree : t.freevms = s.freevms) (hclones : t.clones = s.clones)
    (hjoins : t.joins = s.joins) (huse : ∀ r d, Uses t.view r d ↔ Uses s.view r d) : t.Accounted := by
  refine ⟨?_, ?_, ?_⟩
  · intro f hf r hr
    exact h.freed f (hfree ▸ hf) r ((huse r f.dir).1 hr)
  · rw [hclones, hjoins]
    exact h.counted.congr huse
  · exact ⟨by simpa [hfree] using h.safe.unused, by simpa [hfree] using h.safe.once⟩

/-- Freeing a directory that only the call of `p` knows is always right. -/
theorem Private.freesSafely (h : s.Private) (hp : (s.view p).call.dir = some d) : s.FreesSafely d none s.view :=
  ⟨fun r _ _ => h.unheld p d r hp, h.unfreed p d hp⟩

theorem Accounted.of_frees_own (h : s.Accounted) (hp : s.Private) (hd : (s.view p).call.dir = some d)
    (hfree : Frees s t d none s.view) (huse : ∀ r d, Uses t.view r d ↔ Uses s.view r d) : t.Accounted := by
  refine ⟨?_, ?_, (hfree.safely_iff h.safe).2 (hp.freesSafely hd)⟩
  · intro f hf r hr
    have hr' := (huse r f.dir).1 hr
    rcases hfree.mem hf with hf | hf
    · exact h.freed f hf r hr'
    · exact hp.unheld p d r hd (hf ▸ hr'.2)
  · rw [hfree.clones, hfree.joins]
    exact h.counted.congr huse

theorem Accounted.reap_safe_iff (h : s.Accounted) {r : Slot} (hr : (s.view r).life = .dead)
    (hd : (s.view r).pgdir = some d) : s.FreesSafely d (some r) s.view ↔ s.Lone d := by
  have huse : Uses s.view r d := ⟨Or.inr (Or.inl hr), hd⟩
  constructor
  · intro hsafe
    refine ⟨(h.counted.lone_iff huse).1 ?_, ?_⟩
    · intro q hq
      by_contra hqr
      exact hsafe.unused q (fun hEq => hqr (Option.some.inj hEq).symm) hq.1.not_free hq.2
    intro q hq
    have hqr : q ≠ r := by
      intro hEq
      simp [Stale, hEq, hr] at hq
    exact hsafe.unused q (fun hEq => hqr (Option.some.inj hEq).symm) (by simp [hq.1])
  · intro hlone
    refine ⟨?_, fun f hf hEq => h.freed f hf r (hEq ▸ huse)⟩
    intro q hqr hl hq
    rcases inUse_or_stale hl with hin | hstale
    · exact hqr (congrArg some ((h.counted.lone_iff huse).2 hlone.threads q ⟨hin, hq⟩).symm)
    · exact hlone.stale q hstale hq

theorem Accounted.exec_safe_iff (h : s.Accounted) (hpriv : s.Private) {old : Pgdir} (hp : (s.view p).life = .alive)
    (hcall : (s.view p).call.dir = some d) (hold : (s.view p).pgdir = some old) :
    s.FreesSafely old none (Function.update s.view p { s.view p with pgdir := some d }) ↔ s.Lone old := by
  have huse : Uses s.view p old := ⟨Or.inl hp, hold⟩
  have hne : d ≠ old := fun hEq => hpriv.unheld p d p hcall (hEq ▸ hold)
  constructor
  · intro hsafe
    have hother : ∀ q, q ≠ p → (s.view q).life ≠ .free → (s.view q).pgdir ≠ some old := by
      intro q hqp
      simpa [hqp] using hsafe.unused q (by simp)
    refine ⟨(h.counted.lone_iff huse).1 ?_, ?_⟩
    · intro q hq
      by_contra hqp
      exact hother q hqp hq.1.not_free hq.2
    · intro q hq
      refine hother q ?_ (by simp [hq.1])
      intro hEq
      simp [Stale, hEq, hp] at hq
  · intro hlone
    refine ⟨?_, fun f hf hEq => h.freed f hf p (hEq ▸ huse)⟩
    intro q _ hl hq
    by_cases hqp : q = p
    · subst hqp
      exact hne (by simpa using hq)
    · rcases inUse_or_stale (v := s.view) (by simpa [hqp] using hl) with hin | hstale
      · exact hqp ((h.counted.lone_iff huse).2 hlone.threads q ⟨hin, by simpa [hqp] using hq⟩)
      · exact hlone.stale q hstale (by simpa [hqp] using hq)

/-- The other half of the two lemmas above: the step is safe only under the condition. -/
theorem Effect.lone {rel : Option Pgdir} (h : Effect s t rel) (hs : s.Accounted) (hpriv : s.Private) (ht : t.Safe)
    (d : Pgdir) (hd : rel = some d) : s.Lone d := by
  cases h with
  | execCommit p e old hp hk hold hv hfree =>
    cases hd
    exact (hs.exec_safe_iff hpriv hp (by rw [hk]; rfl) hold).1 ((hfree.safely_iff hs.safe).1 ht)
  | reap r e hr hd' hv hfree =>
    cases hd
    exact (hs.reap_safe_iff hr hd').1 ((hfree.safely_iff hs.safe).1 ht)
  | _ => cases hd

theorem Effect.accounted {rel : Option Pgdir} (h : Effect s t rel) (hb : Builds s.view) (hpriv : s.Private)
    (hs : s.Accounted) (hrel : ∀ d, rel = some d → s.Lone d) : t.Accounted := by
  -- Most steps change neither the users nor the counts.
  have hsame : SameDirs s t → (∀ r d, Uses t.view r d ↔ Uses s.view r d) → t.Accounted :=
    fun hd huse => hs.of_same hd.freevms hd.clones hd.joins huse
  cases h with
  | quiet hv hd => exact hsame hd (by simp [hv])
  | move p k hp hk hk' hv hd =>
    exact hsame hd (hv ▸ uses_call hp ((Call.fills_of_plain hk').trans (Call.fills_of_plain hk).symm))
  | exit p hp hk hv hd => exact hsame hd (hv ▸ uses_life (Or.inl hp) (Or.inr rfl))
  | claim p np k hp hk hnp hk' hv hd =>
    have hne : p ≠ np := ne_of_field View.life hp hnp
    have hnot : ¬ Filled s.view np := by
      rintro ⟨q, hq⟩
      exact hb.not_claimed (by simp [hnp]) q (Call.claims_of_fills hq)
    have hfills : k.fills = (s.view p).call.fills := by
      rw [hk'.2.1, hk]
      rfl
    exact hsame hd (hv ▸ uses_build hne hp hfills (uses_idle rfl hnot (Or.inl hnp) (Or.inr rfl)))
  | advance p np k hk hk' hv hd =>
    exact hsame hd (hv ▸ uses_call (hb.building p np hk.1).1 (hk'.2.1.trans hk.2.1.symm))
  | newDir p k hp hk hk' hf hv hn hfree hc hj =>
    exact hs.of_same hfree hc hj (hv ▸ uses_call hp (hf.2.1.trans hf.2.2.symm))
  | drop p np g hk hg hv hd =>
    rcases hb.building p np hk.1 with ⟨halive, hclaimed⟩
    exact hsame hd (hv ▸ uses_build (hb.ne_of_claims hk.1) halive hk.2.1.symm
      (uses_idle rfl (hb.not_filled hk.1 hk.2.1) (Or.inr hclaimed) (Or.inl rfl)))
  | dropCopy p np d hk hv hd =>
    have hclaims : (s.view p).call.claims = some np := by rw [hk]; rfl
    have hfills : (s.view p).call.fills = none := by rw [hk]; rfl
    rcases hb.building p np hclaims with ⟨halive, hclaimed⟩
    exact hs.of_frees_own hpriv (by rw [hk]; rfl) hd
      (hv ▸ uses_build (hb.ne_of_claims hclaims) halive hfills.symm
        (uses_idle rfl (hb.not_filled hclaims hfills) (Or.inr hclaimed) (Or.inl rfl)))
  | forkFill p np d pid hk hv hd =>
    have hdir : (s.view p).call.dir = some d := by rw [hk]; rfl
    have hnew : ∀ r, ¬ Uses s.view r d := fun r hr => hpriv.unheld p d r hdir hr.2
    have huse : ∀ r e, Uses t.view r e ↔ Uses s.view r e ∨ (r = np ∧ some d = some e) := by
      rw [hv]
      exact uses_build_fill hb (by rw [hk]; rfl) (by rw [hk]; rfl) rfl
    refine ⟨?_, ?_, ?_⟩
    · intro f hf r hr
      rw [hd.freevms] at hf
      rcases (huse r f.dir).1 hr with hr | ⟨_, hEq⟩
      · exact hs.freed f hf r hr
      · exact hpriv.unfreed p d hdir f hf (Option.some.inj hEq).symm
    · rw [hd.clones, hd.joins]
      refine hs.counted.first (p := np) hnew (hpriv.uncounted p d hdir) ?_
      intro r e
      rw [huse]
      constructor
      · rintro (hr | ⟨hr, hEq⟩)
        · exact Or.inr ⟨fun hEq => hnew r (hEq ▸ hr), hr⟩
        · exact Or.inl ⟨hr, (Option.some.inj hEq).symm⟩
      · rintro (⟨hr, hEq⟩ | ⟨_, hr⟩)
        · exact Or.inr ⟨hr, congrArg some hEq.symm⟩
        · exact Or.inl hr
    · exact ⟨by simpa [hd.freevms] using hs.safe.unused, by simpa [hd.freevms] using hs.safe.once⟩
  | cloneFill p np stack hk hv hn hfree hc hj =>
    have hclaims : (s.view p).call.claims = some np := by rw [hk]; rfl
    have hfills : (s.view p).call.fills = none := by rw [hk]; rfl
    rcases hb.building p np hclaims with ⟨halive, hclaimed⟩
    have huse : ∀ r e, Uses t.view r e ↔ Uses s.view r e ∨ (r = np ∧ (s.view p).pgdir = some e) := by
      rw [hv]
      exact uses_build_fill hb hclaims hfills rfl
    have hnp : ¬ InUse s.view np := by
      simp [InUse, hclaimed, hb.not_filled hclaims hfills]
    refine ⟨?_, ?_, ?_⟩
    · intro f hf r hr
      rw [hfree] at hf
      rcases (huse r f.dir).1 hr with hr | ⟨_, hp⟩
      · exact hs.freed f hf r hr
      · exact hs.freed f hf p ⟨Or.inl halive, hp⟩
    · rw [hj]
      exact hs.counted.clone (Or.inl halive) hnp hc huse
    · exact ⟨by simpa [hfree] using hs.safe.unused, by simpa [hfree] using hs.safe.once⟩
  | publish p np k hk hk' hv hd =>
    have hclaims := Call.claims_of_fills hk
    have hne := hb.ne_of_claims hclaims
    rcases hb.building p np hclaims with ⟨halive, hclaimed⟩
    have hmid : Function.update s.view np { s.view np with life := .alive } p = s.view p :=
      Function.update_of_ne hne _ _
    have hlive := uses_life (v := s.view) (p := np) (l := .alive)
      (Or.inr (Or.inr ⟨hclaimed, p, hk⟩)) (Or.inl rfl)
    refine hsame hd ?_
    intro r d
    rw [← hlive r d, hv]
    rw [← hmid] at halive hk ⊢
    exact uses_publish halive hk (by simp) (Call.fills_of_plain hk') r d
  | execBad p d hp hk hv hd =>
    have hfills : Call.user.fills = (s.view p).call.fills := by rw [hk]; rfl
    exact hs.of_frees_own hpriv (by rw [hk]; rfl) hd (hv ▸ uses_call hp hfills)
  | execCommit p d old hp hk hold hv hd =>
    have hdir : (s.view p).call.dir = some d := by rw [hk]; rfl
    have hlone := hrel old rfl
    have hsafe := (hs.exec_safe_iff hpriv hp hdir hold).2 hlone
    have hone := (hs.counted.lone_iff ⟨Or.inl hp, hold⟩).2 hlone.threads
    have hnew : ∀ r, ¬ Uses s.view r d := fun r hr => hpriv.unheld p d r hdir hr.2
    have hne : d ≠ old := fun hEq => hnew p ⟨Or.inl hp, hEq ▸ hold⟩
    have huse : ∀ r e, Uses t.view r e ↔ (r = p ∧ e = d) ∨ (r ≠ p ∧ Uses s.view r e) := by
      rw [hv]
      exact uses_exec hp (by rw [hk]; rfl)
    refine ⟨?_, ?_, (hd.safely_iff hs.safe).2 hsafe⟩
    · intro f hf r hr
      rcases hd.mem hf with hf | hf <;> rcases (huse r f.dir).1 hr with ⟨_, hfd⟩ | ⟨hrp, hr⟩
      · exact hpriv.unfreed p d hdir f hf hfd
      · exact hs.freed f hf r hr
      · exact hne (hfd.symm.trans hf)
      · exact hrp (hone r (hf ▸ hr))
    -- `p` first leaves its old directory and then becomes the only user of the new one
    rw [hd.clones, hd.joins]
    have hleft := hs.counted.leave hone hold (uses_free (v := s.view) (p := p))
    refine hleft.first (p := p) ?_ (hpriv.uncounted p d hdir) ?_
    · intro r hr
      exact hnew r ((uses_free r d).1 hr).2
    intro r e
    rw [huse, uses_free]
    constructor
    · rintro (h | ⟨hrp, hr⟩)
      · exact Or.inl h
      · exact Or.inr ⟨fun hEq => hnew r (hEq ▸ hr), hrp, hr⟩
    · rintro (h | ⟨_, h⟩)
      · exact Or.inl h
      · exact Or.inr h
  | reap r d hr hd' hv hd =>
    have hlone := hrel d rfl
    have hone := (hs.counted.lone_iff ⟨Or.inr (Or.inl hr), hd'⟩).2 hlone.threads
    have huse : ∀ q e, Uses t.view q e ↔ q ≠ r ∧ Uses s.view q e := by
      rw [hv]
      exact uses_free
    refine ⟨?_, ?_, (hd.safely_iff hs.safe).2 ((hs.reap_safe_iff hr hd').2 hlone)⟩
    · intro f hf q hq
      rcases (huse q f.dir).1 hq with ⟨hqr, hq⟩
      rcases hd.mem hf with hf | hf
      · exact hs.freed f hf q hq
      · exact hqr (hone q (hf ▸ hq))
    · rw [hd.clones, hd.joins]
      exact hs.counted.leave hone hd' huse
  | join r hr hv hn hfree hc hj =>
    have huse : ∀ q e, Uses t.view q e ↔ q ≠ r ∧ Uses s.view q e := by
      rw [hv]
      exact uses_free
    refine ⟨?_, ?_, ?_⟩
    · intro f hf q hq
      rw [hfree] at hf
      exact hs.freed f hf q ((huse q f.dir).1 hq).2
    · rw [hc]
      exact hs.counted.join (Or.inr (Or.inl hr)) hj huse
    · exact ⟨by simpa [hfree] using hs.safe.unused, by simpa [hfree] using hs.safe.once⟩

/-! ## Runs -/

/-- Everything known about page directories in a safe run. -/
structure Tracked (s : Kernel ncpu) : Prop where
  control : s.Control
  priv : s.Private
  accounted : s.Accounted

theorem Tracked.step {a : Action ncpu} (hs : s.Tracked) (ha : s.ReleasesLone a) (h : step s a = some t) : t.Tracked :=
  have heff := effect_step hs.control h
  ⟨hs.control.step h, heff.private hs.priv, heff.accounted hs.control.builds hs.priv hs.accounted ha⟩

/-- After `userinit` the only directory is that of the first process. -/
theorem tracked_userinit (page : ℕ) : (userinit ncpu page).Tracked := by
  have hcall : ∀ p, ((userinit ncpu page).view p).call = .user := by
    intro p
    by_cases h0 : p = ⟨0, by decide⟩
    · subst h0
      simp [view_apply, userinit, Table.claim, Proc.view, Proc.zero]
    · simp [view_apply, userinit, Table.claim, h0, Proc.view, Proc.zero]
  have hpgdir : ∀ p d, ((userinit ncpu page).view p).pgdir = some d → p = ⟨0, by decide⟩ ∧ d = 0 := by
    intro p d hp
    by_cases h0 : p = ⟨0, by decide⟩
    · subst h0
      have hd : 0 = d := by
        simpa [view_apply, userinit, Table.claim, Proc.view, Proc.zero] using hp
      exact ⟨rfl, hd.symm⟩
    · simp [view_apply, userinit, Table.claim, h0, Proc.view, Proc.zero] at hp
  have hdir : ∀ p d, ((userinit ncpu page).view p).call.dir ≠ some d := by
    intro p d
    simp [hcall, Call.dir]
  refine ⟨control_userinit page, ⟨?_, ?_, ?_, ?_, ?_, ?_, ?_, ?_⟩, ⟨?_, ?_, ⟨?_, ?_⟩⟩⟩
  · intro r d hr
    rw [(hpgdir r d hr).2]
    exact Nat.zero_lt_one
  · exact fun p d hp => absurd hp (hdir p d)
  · exact fun p q d hp => absurd hp (hdir p d)
  · exact fun p d r hp => absurd hp (hdir p d)
  · exact fun p d hp => absurd hp (hdir p d)
  · exact fun p d hp => absurd hp (hdir p d)
  · simp [userinit]
  · exact fun d _ => ⟨rfl, rfl⟩
  · simp [userinit]
  · intro r d hr
    have hone : users (userinit ncpu page).view d = {r} := by
      ext q
      rw [mem_users, Finset.mem_singleton]
      constructor
      · intro hq
        rw [(hpgdir q d hq.2).1, (hpgdir r d hr.2).1]
      · rintro rfl
        exact hr
    rw [hone, Finset.card_singleton]
    rfl
  · simp [userinit]
  · simp [userinit]

/-- Every call of `freevm` in a run from `userinit` finds a directory that no other slot has and that
was not freed before, exactly if `wait` and `exec` are used in it only on directories whose threads
have all been reaped by `join`. -/
theorem safe_iff {s t : Kernel ncpu} {es : List (Taken (Kernel ncpu) (Action ncpu))}
    (hinit : (machine ncpu).init s) (h : (machine ncpu).Run s es t) :
    (∀ e ∈ es, e.post.Safe) ↔ ∀ e ∈ es, e.pre.ReleasesLone e.act := by
  rcases hinit with ⟨page, rfl⟩
  refine h.forall_post_iff (P := Tracked) ?_ ?_ ?_ (tracked_userinit page)
  · intro s hs
    exact hs.accounted.safe
  · intro s a t hs ha hst
    exact hs.step ha hst
  · intro s a t hs hst ht
    exact (effect_step hs.control hst).lone hs.accounted hs.priv ht

/-- `init` forks; the child exits and is reaped by `wait`. -/
def forkWaitRun : List (Action 1) :=
  [.schedPass 0, .resume 0, .fork 0, .kstack 0 (some 8), .setupkvm 0 true, .copyuvm 0 true,
    .publish 0, .wait 0, .schedPass 0, .resume 0, .exit 0, .exitZombie 0, .schedPass 0, .resume 0]

theorem safe_forkWaitRun :
    ∃ es t, (machine 1).Run (userinit 1 7) es t ∧ es.map Taken.act = forkWaitRun ∧ t.freevms.map Freevm.dir = [1] ∧
      ((∀ e ∈ es, e.post.Safe) ↔ ∀ e ∈ es, e.pre.ReleasesLone e.act) := by
  have hexec : (System.execute step (userinit 1 7) forkWaitRun).map
      (fun t => t.freevms.map Freevm.dir) = some [1] := by decide
  rcases Option.map_eq_some_iff.1 hexec with ⟨t, ht, hdirs⟩
  rcases System.run_of_execute ht with ⟨es, hrun, hacts⟩
  exact ⟨es, t, hrun, hacts, hdirs, safe_iff ⟨7, rfl⟩ hrun⟩

/-- `init` clones; the thread exits and `init` reaps it with `wait` instead of `join`. -/
def cloneWaitRun : List (Action 1) :=
  [.schedPass 0, .resume 0, .clone 0 8192, .kstack 0 (some 8), .cloneFill 0, .publish 0,
    .cloneRet 0, .wait 0, .schedPass 0, .resume 0, .exit 0, .exitZombie 0, .schedPass 0, .resume 0]

/-- `wait` has then freed the directory of `init`, which is RUNNING. -/
theorem not_safe_cloneWaitRun : ∃ t, System.execute step (userinit 1 7) cloneWaitRun = some t ∧
      (t.proc ⟨0, by decide⟩).state = .running ∧ (t.proc ⟨0, by decide⟩).pgdir = some 0 ∧
      t.freevms.map Freevm.dir = [0] ∧ ¬ t.Safe := by
  have hexec : ∃ t, System.execute step (userinit 1 7) cloneWaitRun = some t ∧
      (t.proc ⟨0, by decide⟩).state = .running ∧ (t.proc ⟨0, by decide⟩).pgdir = some 0 ∧
      ∃ f, t.freevms = [f] ∧ f.dir = 0 ∧ f.reaped = some ⟨1, by decide⟩ ∧
        (f.table ⟨0, by decide⟩).state = .running ∧ (f.table ⟨0, by decide⟩).pgdir = some 0 :=
    ⟨_, rfl, rfl, rfl, _, rfl, rfl, rfl, rfl, rfl⟩
  rcases hexec with ⟨t, ht, hstate, hpgdir, f, hf, hdir, hreaped, hrunning, hshared⟩
  refine ⟨t, ht, hstate, hpgdir, by simp [hf, hdir], ?_⟩
  intro hsafe
  refine hsafe.unused f (by simp [hf]) ⟨0, by decide⟩ ?_ ?_ ?_
  · simp [hreaped]
  · simp [hrunning]
  · rw [hshared, hdir]

end Kernel
end Xv6.Process
