import Xv6.Process.Killed
import Xv6.Process.Resumes

/-!
# Family — parents, reaping and the pids that calls return

`Family` is the table-wide invariant behind `exit`, `wait` and `join`: `initproc` lives, whoever has a
process in it has a living parent, and a slot under construction has the parent that builds it.  With it
goes what `fork` and `clone` know about the child they have just made: its pid is the one `allocproc`
gave it, and for `clone`, which reads it after the child may have run, nobody but `clone`'s own caller
could have reaped the child in between.
-/

namespace Xv6.Process

open Function (update update_comm update_of_ne update_self)

theorem ProcState.life_eq_dead {st : ProcState} : st.life = .dead ↔ st = .zombie := by
  cases st <;> simp [ProcState.life]

namespace Kernel

variable {ncpu : ℕ}

/-! ## The invariant -/

def Kin.Occupied (k : Kin) : Prop := k.life = .alive ∨ k.life = .dead

structure Family (k : Slot → Kin) (initproc : Slot) : Prop where
  initAlive : (k initproc).life = .alive
  exiting : ∀ p, (k p).call = .exiting → p ≠ initproc
  free : ∀ r, (k r).life = .free → (k r).parent = none
  claimed : ∀ r q, (k r).life = .claimed → (k r).parent = some q → (k q).call.fills = some r
  fills : ∀ p np, (k p).call.fills = some np → (k np).parent = some p ∧ (k np).call = .user
  parent : ∀ r, r ≠ initproc → Kin.Occupied (k r) → ∃ q, (k r).parent = some q ∧ (k q).life = .alive
  forkRun : ∀ p np pid, (k p).call = .forkRun np pid → (k np).pid = pid
  cloneRet : ∀ p np, (k p).call = .cloneRet np →
    (k p).life = .alive ∧ Kin.Occupied (k np) ∧ (k np).parent = some p

section Preservation

variable {k : Slot → Kin} {init : Slot} {p np : Slot} {w : Kin} {c : Call}

theorem field_update {α : Type} (f : Kin → α) (h : f w = f (k p)) (r : Slot) : f (update k p w r) = f (k r) := by
  by_cases hr : r = p
  · subst hr
    simpa using h
  · simp [hr]

theorem field_update_update {α : Type} (f : Kin → α) {v : Kin} (hne : np ≠ p) (h : f w = f (k p))
    (h' : f v = f (k np)) (r : Slot) : f (update (update k np v) p w r) = f (k r) := by
  have hmid : update k np v p = k p := update_of_ne hne.symm _ _
  rw [field_update f (by rw [hmid]; exact h), field_update f h']

/-- Only the `killed` flag or the kernel stack of a slot changes. -/
theorem Family.unseen (h : Family k init) (hl : w.life = (k p).life) (hc : w.call = (k p).call)
    (hpar : w.parent = (k p).parent) (hid : w.pid = (k p).pid) : Family (update k p w) init := by
  have hlife := field_update Kin.life hl
  have hcall := field_update Kin.call hc
  have hparent := field_update Kin.parent hpar
  have hpid := field_update Kin.pid hid
  refine ⟨?_, ?_, ?_, ?_, ?_, ?_, ?_, ?_⟩
  · simpa only [hlife] using h.initAlive
  · simpa only [hcall] using h.exiting
  · simpa only [hlife, hparent] using h.free
  · simpa only [hlife, hparent, hcall] using h.claimed
  · simpa only [hparent, hcall] using h.fills
  · simpa only [Kin.Occupied, hlife, hparent] using h.parent
  · simpa only [hcall, hpid] using h.forkRun
  · simpa only [Kin.Occupied, hcall, hlife, hparent] using h.cloneRet

theorem Family.slot (h : Family k init) {l : Life} {v : Int32} (stack : Option ℕ) (hl : l = .free ∨ l = .claimed)
    (hnp : (k np).life = .free ∨ (k np).life = .claimed) (hfree : (k np).parent = none) :
    Family (update k np { k np with life := l, pid := v, kstack := stack }) init := by
  have hcall := field_update (k := k) (p := np)
    (w := { k np with life := l, pid := v, kstack := stack }) Kin.call rfl
  have hparent := field_update (k := k) (p := np)
    (w := { k np with life := l, pid := v, kstack := stack }) Kin.parent rfl
  have hother : ∀ r, r ≠ np → update k np { k np with life := l, pid := v, kstack := stack } r = k r :=
    fun r hr => update_of_ne hr _ _
  have hself : (update k np { k np with life := l, pid := v, kstack := stack } np).life = l := by
    simp
  -- Neither before nor after the step there is a process in the slot.
  have hnot : ∀ {q : Kin}, q.life = .free ∨ q.life = .claimed → q.life ≠ .alive ∧ q.life ≠ .dead := by
    rintro q (hq | hq) <;> simp [hq]
  have hnp' := hnot hnp
  have hafter := hnot (q := update k np { k np with life := l, pid := v, kstack := stack } np)
    (by rwa [hself])
  have hlives : ∀ r, (k r).life = .alive →
      (update k np { k np with life := l, pid := v, kstack := stack } r).life = .alive := by
    intro r hr
    rw [hother r (fun hEq => hnp'.1 (hEq ▸ hr))]
    exact hr
  refine ⟨hlives init h.initAlive, ?_, ?_, ?_, ?_, ?_, ?_, ?_⟩
  · simpa only [hcall] using h.exiting
  · intro r hr
    rw [hparent]
    by_cases hrn : r = np
    · rw [hrn, hfree]
    · exact h.free r (by rwa [hother r hrn] at hr)
  · intro r q hr hq
    rw [hparent] at hq
    rw [hcall]
    by_cases hrn : r = np
    · rw [hrn, hfree] at hq
      cases hq
    · exact h.claimed r q (by rwa [hother r hrn] at hr) hq
  · simpa only [hcall, hparent] using h.fills
  · intro r hr hocc
    have hrn : r ≠ np := by
      rintro rfl
      rcases hocc with hocc | hocc
      · exact hafter.1 hocc
      · exact hafter.2 hocc
    rcases h.parent r hr (by rwa [hother r hrn] at hocc) with ⟨q, hq, halive⟩
    exact ⟨q, (hparent r).trans hq, hlives q halive⟩
  · intro p m pid hp
    rw [hcall] at hp
    have hm : m ≠ np := by
      rintro rfl
      have hpar := (h.fills p m (by rw [hp]; rfl)).1
      rw [hfree] at hpar
      cases hpar
    rw [hother m hm]
    exact h.forkRun p m pid hp
  · intro p m hp
    rw [hcall] at hp
    rcases h.cloneRet p m hp with ⟨halive, hocc, hpar⟩
    have hm : m ≠ np := by
      rintro rfl
      rcases hocc with hocc | hocc
      · exact hnp'.1 hocc
      · exact hnp'.2 hocc
    refine ⟨hlives p halive, ?_, ?_⟩
    · rwa [hother m hm]
    · rwa [hparent]

theorem Family.exit (h : Family k init) (halive : (k p).life = .alive) (hp : (k p).call = .exiting) :
    Family (update (fun r => (k r).adopt p init) p
      { (k p).adopt p init with life := .dead }) init := by
  have hcall := field_update (k := fun r => (k r).adopt p init) (p := p)
    (w := { (k p).adopt p init with life := .dead }) Kin.call rfl
  have hpid := field_update (k := fun r => (k r).adopt p init) (p := p)
    (w := { (k p).adopt p init with life := .dead }) Kin.pid rfl
  have hparent := field_update (k := fun r => (k r).adopt p init) (p := p)
    (w := { (k p).adopt p init with life := .dead }) Kin.parent rfl
  generalize hk' : update (fun r => (k r).adopt p init) p
    { (k p).adopt p init with life := .dead } = k' at hcall hpid hparent ⊢
  have hinit : init ≠ p := (h.exiting p hp).symm
  have hdead : (k' p).life = .dead := by rw [← hk', update_self]
  have hlife : ∀ r, r ≠ p → (k' r).life = (k r).life := by
    intro r hr
    rw [← hk', update_of_ne hr]
    rfl
  have hadopt : ∀ r q, (k r).parent = some q → q ≠ p → (k' r).parent = some q := by
    intro r q hq hqp
    rw [hparent]
    simp [Kin.adopt, hq, hqp]
  have hocc : ∀ r, Kin.Occupied (k' r) ↔ Kin.Occupied (k r) := by
    intro r
    by_cases hr : r = p
    · subst hr
      simp [Kin.Occupied, hdead, halive]
    · simp [Kin.Occupied, hlife r hr]
  refine ⟨(hlife init hinit).trans h.initAlive, ?_, ?_, ?_, ?_, ?_, ?_, ?_⟩
  · intro r hr
    exact h.exiting r ((hcall r).symm.trans hr)
  · intro r hr
    have hrp : r ≠ p := ne_of_field Kin.life hr hdead
    have hnone := h.free r ((hlife r hrp).symm.trans hr)
    rw [hparent]
    simp [Kin.adopt, hnone]
  · intro r q hr hq
    have hrp : r ≠ p := ne_of_field Kin.life hr hdead
    have hclaimed := (hlife r hrp).symm.trans hr
    rw [hcall q]
    -- A slot under construction is not a child of `p`, which builds nothing.
    have hnot : (k r).parent ≠ some p := by
      intro hpar
      have hfills := h.claimed r p hclaimed hpar
      rw [hp] at hfills
      cases hfills
    have hq' : (k r).parent = some q := by
      rw [hparent] at hq
      simpa [Kin.adopt, hnot] using hq
    exact h.claimed r q hclaimed hq'
  · intro q m hq
    rw [hcall q] at hq
    rcases h.fills q m hq with ⟨hpar, hm⟩
    have hqp : q ≠ p := by
      rintro rfl
      have hq' : (k q).call.fills = some m := hq
      rw [hp] at hq'
      cases hq'
    exact ⟨hadopt m q hpar hqp, (hcall m).trans hm⟩
  · intro r hr hrocc
    rcases h.parent r hr ((hocc r).1 hrocc) with ⟨q, hq, hqa⟩
    by_cases hqp : q = p
    · refine ⟨init, ?_, (hlife init hinit).trans h.initAlive⟩
      rw [hparent]
      simp [Kin.adopt, hq, hqp]
    · exact ⟨q, hadopt r q hq hqp, (hlife q hqp).trans hqa⟩
  · intro q m pid hq
    rw [hpid]
    exact h.forkRun q m pid ((hcall q).symm.trans hq)
  · intro q m hq
    have hq' : (k q).call = .cloneRet m := (hcall q).symm.trans hq
    rcases h.cloneRet q m hq' with ⟨hqa, hm, hpar⟩
    have hqp : q ≠ p := ne_of_field Kin.call hq' hp
    exact ⟨(hlife q hqp).trans hqa, (hocc m).2 hm, hadopt m q hpar hqp⟩

variable (hb : ∀ p np, (k p).call.claims = some np → (k p).life = .alive ∧ (k np).life = .claimed)
include hb

theorem Family.call (h : Family k init) (halive : (k p).life = .alive) (hp : (k p).call.fills = none)
    (hc : c.fills = none) (hexit : c = .exiting → p ≠ init) (hret : ∀ np, c ≠ .cloneRet np) :
    Family (update k p { k p with call := c }) init := by
  have hlife := field_update (k := k) (p := p) (w := { k p with call := c }) Kin.life rfl
  have hparent := field_update (k := k) (p := p) (w := { k p with call := c }) Kin.parent rfl
  have hpid := field_update (k := k) (p := p) (w := { k p with call := c }) Kin.pid rfl
  have hself : (update k p { k p with call := c } p).call = c := by simp
  have hother : ∀ r, r ≠ p → (update k p { k p with call := c } r).call = (k r).call := by
    intro r hr
    simp [hr]
  have hfills := field_update (k := k) (p := p) (w := { k p with call := c })
    (fun q => q.call.fills) (hc.trans hp.symm)
  refine ⟨?_, ?_, ?_, ?_, ?_, ?_, ?_, ?_⟩
  · rw [hlife]
    exact h.initAlive
  · intro r hr
    by_cases hrp : r = p
    · subst hrp
      exact hexit (hself.symm.trans hr)
    · exact h.exiting r (by rwa [hother r hrp] at hr)
  · simpa only [hlife, hparent] using h.free
  · simpa only [hlife, hparent, hfills] using h.claimed
  · intro q np hq
    rw [hfills] at hq
    have hnp : np ≠ p := ne_of_field Kin.life (hb q np (Call.claims_of_fills hq)).2 halive
    rw [hparent, hother np hnp]
    exact h.fills q np hq
  · simpa only [Kin.Occupied, hlife, hparent] using h.parent
  · intro q np pid hq
    by_cases hqp : q = p
    · subst hqp
      rw [hself] at hq
      simp [hq, Call.fills] at hc
    · rw [hpid]
      exact h.forkRun q np pid (by rwa [hother q hqp] at hq)
  · intro q np hq
    by_cases hqp : q = p
    · subst hqp
      exact absurd (hself.symm.trans hq) (hret np)
    · simpa only [Kin.Occupied, hlife, hparent] using
        h.cloneRet q np (by rwa [hother q hqp] at hq)

theorem Family.fill (h : Family k init)
    (hu : ∀ p q m, (k p).call.claims = some m → (k q).call.claims = some m → p = q)
    (hp : (k p).call.claims = some np ∧ (k p).call.fills = none) (hc : c = .forkRun np (k np).pid ∨ c = .cloneRun np) :
    Family (update (update k np { k np with call := .user, parent := some p })
      p { k p with call := c }) init := by
  rcases hb p np hp.1 with ⟨halive, hclaimed⟩
  have hne : np ≠ p := ne_of_field Kin.life hclaimed halive
  have hcf : c.fills = some np := by rcases hc with rfl | rfl <;> rfl
  have hlife := field_update_update (k := k) (p := p) (w := { k p with call := c })
    (v := { k np with call := .user, parent := some p }) Kin.life hne rfl rfl
  have hpid := field_update_update (k := k) (p := p) (w := { k p with call := c })
    (v := { k np with call := .user, parent := some p }) Kin.pid hne rfl rfl
  generalize hk' : update (update k np { k np with call := .user, parent := some p })
    p { k p with call := c } = k' at hlife hpid ⊢
  have hself : k' p = { k p with call := c } := by rw [← hk', update_self]
  have hnew : k' np = { k np with call := .user, parent := some p } := by
    rw [← hk', update_of_ne hne, update_self]
  have hother : ∀ r, r ≠ p → r ≠ np → k' r = k r := by
    intro r hrp hrn
    rw [← hk', update_of_ne hrp, update_of_ne hrn]
  have hparent : ∀ r, r ≠ np → (k' r).parent = (k r).parent := by
    intro r hrn
    by_cases hrp : r = p
    · rw [hrp, hself]
    · rw [hother r hrp hrn]
  have hnotclaim : ∀ q m, (k q).call.claims = some m → q ≠ np ∧ m ≠ p := by
    intro q m hq
    rcases hb q m hq with ⟨hqa, hmc⟩
    refine ⟨?_, ?_⟩
    · rintro rfl
      rw [hclaimed] at hqa
      cases hqa
    · rintro rfl
      rw [halive] at hmc
      cases hmc
  have hocc : ∀ {r}, Kin.Occupied (k r) → r ≠ np := by
    rintro r hr rfl
    simp [Kin.Occupied, hclaimed] at hr
  refine ⟨?_, ?_, ?_, ?_, ?_, ?_, ?_, ?_⟩
  · rw [hlife]
    exact h.initAlive
  · intro r hr
    by_cases hrp : r = p
    · rw [hrp, hself] at hr
      rcases hc with rfl | rfl <;> cases hr
    · by_cases hrn : r = np
      · rw [hrn, hnew] at hr
        cases hr
      · exact h.exiting r (by rwa [hother r hrp hrn] at hr)
  · intro r hr
    rw [hlife] at hr
    have hrn : r ≠ np := ne_of_field Kin.life hr hclaimed
    rw [hparent r hrn]
    exact h.free r hr
  · intro r q hr hq
    rw [hlife] at hr
    by_cases hrn : r = np
    · rw [hrn, hnew] at hq
      have hpq : p = q := Option.some.inj hq
      rw [← hpq, hrn, hself]
      exact hcf
    rw [hparent r hrn] at hq
    have hqf := h.claimed r q hr hq
    have hqp : q ≠ p := ne_of_field (fun w : Kin => w.call.fills) hqf hp.2
    rw [hother q hqp (hnotclaim q r (Call.claims_of_fills hqf)).1]
    exact hqf
  · intro q m hq
    by_cases hqp : q = p
    · rw [hqp, hself] at hq
      have hm : np = m := Option.some.inj (hcf.symm.trans hq)
      rw [← hm, hqp, hnew]
      exact ⟨rfl, rfl⟩
    have hqn : q ≠ np := by
      rintro rfl
      rw [hnew] at hq
      cases hq
    rw [hother q hqp hqn] at hq
    have hclaims := Call.claims_of_fills hq
    have hmn : m ≠ np := by
      rintro rfl
      exact hqp (hu q p m hclaims hp.1)
    rw [hother m (hnotclaim q m hclaims).2 hmn]
    exact h.fills q m hq
  · intro r hr hrocc
    have hrocc' : Kin.Occupied (k r) := by simpa only [Kin.Occupied, hlife] using hrocc
    rcases h.parent r hr hrocc' with ⟨q, hq, hqa⟩
    exact ⟨q, (hparent r (hocc hrocc')).trans hq, (hlife q).trans hqa⟩
  · intro q m pid hq
    rw [hpid]
    by_cases hqp : q = p
    · rw [hqp, hself] at hq
      rcases hc with rfl | rfl
      · cases hq
        rfl
      · cases hq
    have hqn : q ≠ np := by
      rintro rfl
      rw [hnew] at hq
      cases hq
    exact h.forkRun q m pid (by rwa [hother q hqp hqn] at hq)
  · intro q m hq
    by_cases hqp : q = p
    · rw [hqp, hself] at hq
      rcases hc with rfl | rfl <;> cases hq
    have hqn : q ≠ np := by
      rintro rfl
      rw [hnew] at hq
      cases hq
    rcases h.cloneRet q m (by rwa [hother q hqp hqn] at hq) with ⟨hqa, hm, hpar⟩
    refine ⟨(hlife q).trans hqa, ?_, (hparent m (hocc hm)).trans hpar⟩
    simpa only [Kin.Occupied, hlife] using hm

theorem Family.publish (h : Family k init) (hp : (k p).call.fills = some np) (hc : c = .user ∨ c = .cloneRet np) :
    Family (update (update k np { k np with life := .alive })
      p { k p with call := c }) init := by
  have hclaims := Call.claims_of_fills hp
  rcases hb p np hclaims with ⟨halive, hclaimed⟩
  rcases h.fills p np hp with ⟨hnpparent, _⟩
  have hne : np ≠ p := ne_of_field Kin.life hclaimed halive
  have hcf : c.fills = none := by rcases hc with rfl | rfl <;> rfl
  have hparent := field_update_update (k := k) (p := p) (w := { k p with call := c })
    (v := { k np with life := .alive }) Kin.parent hne rfl rfl
  have hpid := field_update_update (k := k) (p := p) (w := { k p with call := c })
    (v := { k np with life := .alive }) Kin.pid hne rfl rfl
  generalize hk' : update (update k np { k np with life := .alive })
    p { k p with call := c } = k' at hparent hpid ⊢
  have hself : k' p = { k p with call := c } := by rw [← hk', update_self]
  have hnew : k' np = { k np with life := .alive } := by
    rw [← hk', update_of_ne hne, update_self]
  have hlife : ∀ r, r ≠ np → (k' r).life = (k r).life := by
    intro r hrn
    by_cases hrp : r = p
    · rw [hrp, hself]
    · rw [← hk', update_of_ne hrp, update_of_ne hrn]
  have hcall : ∀ r, r ≠ p → (k' r).call = (k r).call := by
    intro r hrp
    by_cases hrn : r = np
    · rw [hrn, hnew]
    · rw [← hk', update_of_ne hrp, update_of_ne hrn]
  have hlives : ∀ r, (k r).life = .alive → (k' r).life = .alive := by
    intro r hr
    by_cases hrn : r = np
    · rw [hrn, hnew]
    · rw [hlife r hrn, hr]
  have hoccup : ∀ r, Kin.Occupied (k r) → Kin.Occupied (k' r) := by
    intro r hr
    by_cases hrn : r = np
    · rw [hrn, hnew]
      exact Or.inl rfl
    · simpa only [Kin.Occupied, hlife r hrn] using hr
  refine ⟨hlives init h.initAlive, ?_, ?_, ?_, ?_, ?_, ?_, ?_⟩
  · intro r hr
    by_cases hrp : r = p
    · rw [hrp, hself] at hr
      rcases hc with rfl | rfl <;> cases hr
    · exact h.exiting r (by rwa [hcall r hrp] at hr)
  · intro r hr
    have hrn : r ≠ np := ne_of_field Kin.life hr (congrArg Kin.life hnew)
    rw [hparent]
    exact h.free r (by rwa [hlife r hrn] at hr)
  · intro r q hr hq
    have hrn : r ≠ np := ne_of_field Kin.life hr (congrArg Kin.life hnew)
    rw [hparent] at hq
    have hqf := h.claimed r q (by rwa [hlife r hrn] at hr) hq
    have hqp : q ≠ p := by
      rintro rfl
      exact hrn (Option.some.inj (hqf.symm.trans hp))
    rwa [hcall q hqp]
  · intro q m hq
    have hqp : q ≠ p := by
      rintro rfl
      rw [hself] at hq
      exact absurd (hcf.symm.trans hq) (by simp)
    rw [hcall q hqp] at hq
    have hm := (hb q m (Call.claims_of_fills hq)).2
    have hmp : m ≠ p := ne_of_field Kin.life hm halive
    rw [hparent, hcall m hmp]
    exact h.fills q m hq
  · intro r hr hrocc
    rw [hparent]
    by_cases hrn : r = np
    · exact ⟨p, hrn ▸ hnpparent, hlives p halive⟩
    · rcases h.parent r hr (by simpa only [Kin.Occupied, hlife r hrn] using hrocc) with ⟨q, hq, hqa⟩
      exact ⟨q, hq, hlives q hqa⟩
  · intro q m pid hq
    have hqp : q ≠ p := by
      rintro rfl
      rw [hself] at hq
      rcases hc with rfl | rfl <;> cases hq
    rw [hpid]
    exact h.forkRun q m pid (by rwa [hcall q hqp] at hq)
  · intro q m hq
    rw [hparent]
    by_cases hqp : q = p
    · rw [hqp, hself] at hq
      rcases hc with rfl | rfl
      · cases hq
      · cases hq
        exact ⟨hqp ▸ hlives p halive, hnew ▸ Or.inl rfl, hqp ▸ hnpparent⟩
    · rcases h.cloneRet q m (by rwa [hcall q hqp] at hq) with ⟨hqa, hm, hpar⟩
      exact ⟨hlives q hqa, hoccup m hm, hpar⟩

theorem Family.reap (h : Family k init) {r : Slot} (hr : (k r).life = .dead) (hparent : (k r).parent = some p)
    (hp : (k p).call = .user) :
    Family (update k r
      { k r with life := .free, parent := none, pid := 0, killed := false, kstack := none }) init := by
  have hcall := field_update (k := k) (p := r) (w := { k r with
    life := .free, parent := none, pid := 0, killed := false, kstack := none }) Kin.call rfl
  generalize hk' : update k r
    { k r with life := .free, parent := none, pid := 0, killed := false, kstack := none } = k' at hcall ⊢
  have hself : (k' r).life = .free ∧ (k' r).parent = none := by
    rw [← hk', update_self]
    exact ⟨rfl, rfl⟩
  have hother : ∀ q, q ≠ r → k' q = k q := by
    intro q hq
    rw [← hk', update_of_ne hq]
  have halive : ∀ q, (k q).life = .alive → q ≠ r := by
    rintro q hq rfl
    rw [hr] at hq
    cases hq
  have hbuilt : ∀ q m, (k q).call.fills = some m → m ≠ r := by
    rintro q m hq rfl
    have hm := (hb q m (Call.claims_of_fills hq)).2
    rw [hr] at hm
    cases hm
  refine ⟨?_, ?_, ?_, ?_, ?_, ?_, ?_, ?_⟩
  · rw [hother init (halive init h.initAlive)]
    exact h.initAlive
  · intro q hq
    exact h.exiting q ((hcall q).symm.trans hq)
  · intro q hq
    by_cases hqr : q = r
    · rw [hqr]
      exact hself.2
    · rw [hother q hqr] at hq ⊢
      exact h.free q hq
  · intro q m hq hm
    have hqr : q ≠ r := ne_of_field Kin.life hq hself.1
    rw [hother q hqr] at hq hm
    rw [hcall m]
    exact h.claimed q m hq hm
  · intro q m hq
    rw [hcall q] at hq
    rw [hother m (hbuilt q m hq)]
    exact h.fills q m hq
  · intro q hq hocc
    have hqr : q ≠ r := by
      rintro rfl
      simp [Kin.Occupied, hself.1] at hocc
    rw [hother q hqr] at hocc ⊢
    rcases h.parent q hq hocc with ⟨m, hm, hma⟩
    exact ⟨m, hm, by rw [hother m (halive m hma)]; exact hma⟩
  · intro q m pid hq
    have hq' := (hcall q).symm.trans hq
    rw [hother m (hbuilt q m (by rw [hq']; rfl))]
    exact h.forkRun q m pid hq'
  · intro q m hq
    have hq' : (k q).call = .cloneRet m := (hcall q).symm.trans hq
    rcases h.cloneRet q m hq' with ⟨hqa, hm, hpar⟩
    have hmr : m ≠ r := by
      rintro rfl
      have hqp : q = p := Option.some.inj (hpar.symm.trans hparent)
      rw [hqp, hp] at hq'
      cases hq'
    rw [hother q (halive q hqa), hother m hmr]
    exact ⟨hqa, hm, hpar⟩

end Preservation

/-! ## Steps of the machine -/

theorem Call.fills_of_claims_none {c : Call} (h : c.claims = none) : c.fills = none := by
  cases c <;> simp_all [Call.claims, Call.fills]

variable {s t : Kernel ncpu} {a : Action ncpu}

theorem KinEffect.family {ev : Event} (h : KinEffect s t ev) (hs : s.Control) (hf : Family s.kin s.initproc)
    (hreap : ∀ p r, ev = .reap p r → (s.kin p).call = .user) : Family t.kin s.initproc := by
  have hb : ∀ p np, (s.kin p).call.claims = some np →
      (s.kin p).life = .alive ∧ (s.kin np).life = .claimed := hs.builds.building
  have hu : ∀ p q np, (s.kin p).call.claims = some np → (s.kin q).call.claims = some np → p = q := hs.builds.builder
  cases h with
  | quiet hv hn => exact hv ▸ hf
  | move p k hp hk hk' hinit hv hn =>
    exact hv ▸ hf.call hb hp (Call.fills_of_claims_none hk.1) (Call.fills_of_claims_none hk'.1)
      hinit hk'.2
  | ret p np hp hk heax hv hn =>
    exact hv ▸ hf.call hb hp (by rw [hk]; rfl) rfl (by simp) (by simp)
  | claim p np k hp hk hnp hk' hv hn =>
    have hne : p ≠ np := ne_of_field Kin.life hp hnp
    have hmid := hf.slot (v := s.nextpid) (s.kin np).kstack (Or.inr rfl) (Or.inl hnp)
      (hf.free np hnp)
    have hpmid : update s.kin np { s.kin np with life := .claimed, pid := s.nextpid } p =
        s.kin p := update_of_ne hne _ _
    have hcall := field_update (k := s.kin) (p := np)
      (w := { s.kin np with life := .claimed, pid := s.nextpid }) Kin.call rfl
    rw [hv, ← hpmid]
    refine Family.call ?_ hmid ?_ ?_ hk'.2 ?_ ?_
    · intro q m hq
      rw [hcall] at hq
      rcases hb q m hq with ⟨hqa, hmc⟩
      have hqn : q ≠ np := ne_of_field Kin.life hqa hnp
      have hmn : m ≠ np := by
        rintro rfl
        rw [hnp] at hmc
        cases hmc
      rw [update_of_ne hqn, update_of_ne hmn]
      exact ⟨hqa, hmc⟩
    · rw [hpmid, hp]
    · rw [hpmid, hk]
      rfl
    · rintro rfl
      cases hk'.1
    · rintro m rfl
      cases hk'.1
  | stack p np page k hk hk' hv hn =>
    rcases hb p np hk.1 with ⟨hp, hnp⟩
    have hne : p ≠ np := hs.builds.ne_of_claims hk.1
    have hfield : ∀ {α : Type} (f : Kin → α), f { s.kin np with kstack := some page } = f (s.kin np) →
        ∀ r, f (update s.kin np { s.kin np with kstack := some page } r) = f (s.kin r) :=
      fun f hf' => field_update f hf'
    have hmid := hf.unseen (p := np) (w := { s.kin np with kstack := some page }) rfl rfl rfl rfl
    have hpmid : update s.kin np { s.kin np with kstack := some page } p = s.kin p := update_of_ne hne _ _
    rw [hv, ← hpmid]
    refine Family.call ?_ hmid ?_ ?_ hk'.2 ?_ ?_
    · intro q m hq
      rw [hfield Kin.call rfl] at hq
      rw [hfield Kin.life rfl, hfield Kin.life rfl]
      exact hb q m hq
    · rw [hpmid, hp]
    · rw [hpmid, hk.2]
    · rintro rfl
      cases hk'.1
    · rintro m rfl
      cases hk'.1
  | advance p np k hk hk' hv hn =>
    refine hv ▸ hf.call hb (hb p np hk.1).1 hk.2 hk'.2 ?_ ?_
    · rintro rfl
      cases hk'.1
    · rintro m rfl
      cases hk'.1
  | abort p np hk heax hv hn =>
    rcases hb p np hk.1 with ⟨hp, hnp⟩
    have hne : p ≠ np := hs.builds.ne_of_claims hk.1
    -- Nobody but `p` builds `np`, and `p` has not filled it in.
    have hfree : (s.kin np).parent = none := by
      cases hpar : (s.kin np).parent with
      | none => rfl
      | some q =>
        have hq := hf.claimed np q hnp hpar
        have hqp : q = p := hu q p np (Call.claims_of_fills hq) hk.1
        rw [hqp, hk.2] at hq
        cases hq
    have hmid := hf.call (c := .user) hb hp hk.2 rfl (by simp) (by simp)
    have hnpmid : update s.kin p { s.kin p with call := .user } np = s.kin np := update_of_ne hne.symm _ _
    rw [hv, update_comm hne.symm, ← hnpmid]
    exact hmid.slot _ (Or.inl rfl) (Or.inr (by rw [hnpmid, hnp])) (by rw [hnpmid, hfree])
  | fill p np k hk hk' hv hn => exact hv ▸ hf.fill hb hu hk hk'
  | publish p np k hk hv hn =>
    rcases hk with ⟨pid, hk, rfl, _⟩ | ⟨hk, rfl⟩
    · exact hv ▸ hf.publish hb (by rw [hk]; rfl) (Or.inl rfl)
    · exact hv ▸ hf.publish hb (by rw [hk]; rfl) (Or.inr rfl)
  | exit p hp hk hv hn => exact hv ▸ hf.exit hp hk
  | reap p r hp hr hparent heax hv hn => exact hv ▸ hf.reap hb hr hparent (hreap p r rfl)
  | kill r hv hn => exact hv ▸ hf.unseen rfl rfl rfl rfl
  | fault p hp hv hn => exact hv ▸ hf.unseen rfl rfl rfl rfl

/-! ## The machine -/

theorem waiter_of_reap {p r : Slot} (h : s.event a = .reap p r) : s.waiter a = some p := by
  have hcase := event_case s a
  rw [h] at hcase
  cases hcase with
  | reap a p r hp => exact hp

/-- Everything the theorems below need to know about a state. -/
structure Kinship (s : Kernel ncpu) : Prop where
  control : s.Control
  family : Family s.kin s.initproc
  resumes : s.Resumes

theorem Kinship.waiter_user (hs : s.Kinship) (hstep : step s a = some t) {p : Slot} (hp : s.waiter a = some p) :
    (s.kin p).call = .user := by
  rcases step_cases hstep with ⟨_, hcase⟩
  cases hcase with
  | resume c q t hc hl h =>
    simp only [waiter, hc] at hp
    split_ifs at hp with hres
    have hqp : q = p := Option.some.inj hp
    subst hqp
    rcases hs.resumes q ((hs.control.onCpu q).2 ⟨c, hc⟩).alive hres with hcall | ⟨c', hc'⟩
    · exact hcall
    · rcases current_eq_some.1 hc' with ⟨hlock, hcpu⟩
      exact absurd (hs.control.single c' c q hcpu hc ▸ hl) hlock
  | start c q a t hc h =>
    cases h with
    | wait t hl h => exact (caller_eq_some.1 hp).2.2.1
    | join t hl h => exact (caller_eq_some.1 hp).2.2.1
    | _ => cases hp
  | call c q a t hc h => cases h <;> cases hp
  | _ => cases hp

theorem Kinship.reap_user (hs : s.Kinship) (hstep : Kernel.step s a = some t) (p r : Slot)
    (hev : s.event a = .reap p r) : (s.kin p).call = .user :=
  hs.waiter_user hstep (waiter_of_reap hev)

theorem Kinship.step (hs : s.Kinship) (h : Kernel.step s a = some t) : t.Kinship := by
  have heff := kinEffect_step hs.control h
  refine ⟨hs.control.step h, ?_, ?_⟩
  · rw [initproc_step h]
    exact heff.family hs.control hs.family (fun p r hev => hs.reap_user h p r hev)
  · exact hs.resumes.step hs.control (fun p np hp => (hs.family.fills p np hp).2) h

theorem kinship_userinit (page : ℕ) : (userinit ncpu page).Kinship := by
  have hzero : (userinit ncpu page).kin ⟨0, by decide⟩ =
      { life := .alive, call := .user, parent := none, pid := 1, killed := false,
        kstack := some page } := by
    simp [kin_apply, userinit, Table.claim, Proc.kin, Proc.zero, ProcState.life]
  have hother : ∀ p, p ≠ ⟨0, by decide⟩ → (userinit ncpu page).kin p =
      { life := .free, call := .user, parent := none, pid := 0, killed := false, kstack := none } := by
    intro p hp
    simp [kin_apply, userinit, Table.claim, hp, Proc.kin, Proc.zero, ProcState.life]
  have hcall : ∀ p, ((userinit ncpu page).kin p).call = .user := by
    intro p
    by_cases hp : p = ⟨0, by decide⟩
    · rw [hp, hzero]
    · rw [hother p hp]
  have hparent : ∀ p, ((userinit ncpu page).kin p).parent = none := by
    intro p
    by_cases hp : p = ⟨0, by decide⟩
    · rw [hp, hzero]
    · rw [hother p hp]
  refine ⟨control_userinit page, ⟨?_, ?_, ?_, ?_, ?_, ?_, ?_, ?_⟩, ?_⟩
  · exact congrArg Kin.life hzero
  · intro p hp
    rw [hcall] at hp
    cases hp
  · intro r _
    exact hparent r
  · intro r q _ hq
    rw [hparent] at hq
    cases hq
  · intro p np hp
    rw [hcall] at hp
    cases hp
  · intro r hr hocc
    rw [hother r hr] at hocc
    simp [Kin.Occupied] at hocc
  · intro p np pid hp
    rw [hcall] at hp
    cases hp
  · intro p np hp
    rw [hcall] at hp
    cases hp
  · intro r
    exact settled_of_user (hcall r)

end Kernel
end Xv6.Process
