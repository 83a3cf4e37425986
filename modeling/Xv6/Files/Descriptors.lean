import Xv6.Files.Actions

/-!
# Descriptors — actions on descriptors, on new files and on slots of the process table

A descriptor takes over a reference that is in hand, or gives it back.  While `fork` sets the descriptors of the
new process the slot is an embryo, and nobody else looks at it.
-/

namespace Xv6.Files

open Function (update update_eq_self update_of_ne update_self)
open Common

variable {G : Type} {s : State G} {rs : Slot → Account G} {p np : Slot} {r r' : Account G} {f f' : FileNo}
  {fd : Fd} {o : Option FileNo}

/-! ## The caller's descriptors -/

theorem setFd_ofile_self (s : State G) (p : Slot) (fd : Fd) (o : Option FileNo) : (s.setFd p fd o).ofile p fd = o := by
  simp [State.setFd]

theorem setFd_ofile_of_ne {fd' : Fd} (s : State G) (p : Slot) (o : Option FileNo) (hne : fd' ≠ fd) :
    (s.setFd p fd o).ofile p fd' = s.ofile p fd' := by
  simp [State.setFd, update_of_ne hne]

variable {q : Slot} {Q : Unit → Account G → Prop}

theorem setFd_ofile_other (s : State G) (fd' : Fd) (o : Option FileNo) (hne : q ≠ p) :
    (s.setFd p fd o).ofile q fd' = s.ofile q fd' := by
  simp [State.setFd, update_of_ne hne]

theorem Counted.setFd (h : Counted s rs) (hr : rs p = r)
    (hshare : ∀ f, share (s.setFd p fd o) p r' f = share s p r f) (hb : Backed (s.setFd p fd o) p r')
    (hfresh : r'.fresh = r.fresh) : Counted (s.setFd p fd o) (update rs p r') := by
  subst hr
  refine h.step (fun q hq fd' => setFd_ofile_other s fd' o hq) (fun f => ?_) hb.due hb.spent hb.seen h.free
    (fun f hf => ?_) (fun f => .inl ⟨rfl, rfl⟩)
  · rw [hshare f]
    rfl
  · rw [hshare f]
    rw [hfresh] at hf
    exact h.fresh p f hf

theorem Lives.setFd (h : Lives s rs) (hr : rs p = r) (hbusy : r.busy = true) (hchild : r'.child = r.child)
    (hblank : r'.blank = r.blank) (hbusy' : r'.busy = r.busy)
    (hemptied : ∀ fd' ∈ r'.emptied, (s.setFd p fd o).ofile p fd' = none) :
    Lives (s.setFd p fd o) (update rs p r') := by
  subst hr
  have halive := h.busy p hbusy
  have hc := field_update_of_eq Account.child hchild
  have hb := field_update_of_eq Account.blank hblank
  have hu := field_update_of_eq Account.busy hbusy'
  refine ⟨fun q fd' f hf => ?_, ?_, ?_, fun p' q hq fd' hfd => ?_, fun q fd' hfd => ?_, ?_⟩
  · by_cases hq : q = p
    · subst hq
      exact .inl halive
    · rw [setFd_ofile_other s fd' o hq] at hf
      simp only [hc]
      exact h.empty q fd' f hf
  · simp only [hc]
    exact h.child
  · simpa only [hc] using h.child_inj
  · rw [hc] at hq
    rw [hb] at hfd
    have hne : q ≠ p := by
      rintro rfl
      have hembryo := h.child p' q hq
      rw [halive] at hembryo
      cases hembryo
    rw [setFd_ofile_other s fd' o hne]
    exact h.blank p' q hq fd' hfd
  · by_cases hq : q = p
    · subst hq
      rw [update_self] at hfd
      exact ⟨hemptied fd' hfd, halive⟩
    · rw [update_of_ne hq] at hfd
      rw [setFd_ofile_other s fd' o hq]
      exact h.emptied q fd' hfd
  · simp only [hu]
    exact h.busy

theorem own_setFd_some (hnone : s.ofile p fd = none) (f f' : FileNo) :
    own (s.setFd p fd (some f)) p f' = own s p f' + if f = f' then 1 else 0 := by
  have hown := own_setFd s p fd (some f) f'
  simpa [hnone] using hown

theorem own_setFd_none (hsome : s.ofile p fd = some f) (f' : FileNo) :
    own (s.setFd p fd none) p f' + (if f = f' then 1 else 0) = own s p f' := by
  have hown := own_setFd s p fd none f'
  simpa [hsome] using hown

/-- The accounts differ in references to files that something has been made of. -/
structure Refiled (r r' : Account G) : Prop where
  fresh : r'.fresh = r.fresh
  child : r'.child = r.child
  blank : r'.blank = r.blank
  busy : r'.busy = r.busy
  page : r'.page = r.page
  closing : r'.closing = r.closing
  freeing : r'.freeing = r.freeing

theorem Inv.setFd (hI : Inv s rs) (hr : rs p = r) (hbusy : r.busy = true) (h : Refiled r r')
    (hshare : ∀ f, share (s.setFd p fd o) p r' f = share s p r f) (hb : Backed (s.setFd p fd o) p r')
    (hemptied : ∀ fd' ∈ r'.emptied, (s.setFd p fd o).ofile p fd' = none) :
    Inv (s.setFd p fd o) (update rs p r') := by
  subst hr
  exact ⟨hI.counted.setFd rfl hshare hb h.fresh, hI.lives.setFd rfl hbusy h.child h.blank h.busy hemptied,
    hI.piped.congr_file rfl rfl rfl rfl h.page h.closing h.freeing⟩

theorem owed_of_none (hdue : r.due = none) (hspent : r.spent = none) (f : FileNo) : r.owed f = 0 := by
  simp [Account.owed, hdue, hspent]

theorem find_fd (h : (List.finRange nofile).find? (fun fd => decide (s.ofile p fd = none)) = some fd) :
    s.ofile p fd = none := by
  simpa using List.find?_some h

/-- The reference in hand goes to a new descriptor. -/
theorem fdalloc_safe {Q : Option Fd → Account G → Prop} (hf : f ∈ r.hand) (hdue : r.due = none) (hspent : r.spent = none)
    (hbusy : r.busy = true) (hemptied : r.emptied = []) (hnone : Q none r)
    (hsome : ∀ fd, Q (some fd) { r with hand := r.hand.erase f, seen := some (fd, f) }) :
    Safe Inv Unwanted p (fdalloc p f) r Q := by
  refine Safe.atomic fun s rs hI hr => ?_
  cases hfind : (List.finRange nofile).find? fun fd => decide (s.ofile p fd = none) with
  | none => exact Ensures.ok ⟨r, hI.same hr, hnone⟩
  | some fd =>
    have hfree := find_fd hfind
    refine Ensures.ok ⟨{ r with hand := r.hand.erase f, seen := some (fd, f) },
      hI.setFd hr hbusy (by constructor <;> rfl) (fun f' => ?_) ⟨?_, ?_, ?_⟩ (by simp [hemptied]), hsome fd⟩
    · have howed := owed_of_none hdue hspent f'
      show own (s.setFd p fd (some f)) p f' + (r.hand.erase f).count f' - r.owed f' = _
      rw [own_setFd_some hfree f f', howed]
      unfold share
      rw [howed]
      by_cases heq : f = f'
      · subst heq
        have hcount := List.count_pos_iff.2 hf
        rw [if_pos rfl, List.count_erase_self]
        omega
      · rw [if_neg heq, List.count_erase_of_ne (Ne.symm heq), Nat.add_zero]
    · simp [hdue]
    · simp [hspent]
    · intro fd' f' hseen
      obtain ⟨rfl, rfl⟩ : fd = fd' ∧ f = f' := by simpa using hseen
      exact setFd_ofile_self s p fd _

theorem fdalloc_dup_safe {Q : Option Fd → Account G → Prop} (hseen : r.seen = some (fd, f)) (hdue : r.due = none)
    (hspent : r.spent = none) (hbusy : r.busy = true) (hemptied : r.emptied = []) (hnone : Q none r)
    (hsome : ∀ fd, Q (some fd) { r with due := some f }) : Safe Inv Unwanted p (fdalloc p f) r Q := by
  refine Safe.atomic fun s rs hI hr => ?_
  cases hfind : (List.finRange nofile).find? fun fd => decide (s.ofile p fd = none) with
  | none => exact Ensures.ok ⟨r, hI.same hr, hnone⟩
  | some fd' =>
    have hfree := find_fd hfind
    have hold := (hI.counted.backed hr).seen fd f hseen
    have hne : fd ≠ fd' := by
      rintro rfl
      rw [hfree] at hold
      cases hold
    have hold' : (s.setFd p fd' (some f)).ofile p fd = some f := by
      rw [setFd_ofile_of_ne s p _ hne]
      exact hold
    refine Ensures.ok ⟨{ r with due := some f },
      hI.setFd hr hbusy (by constructor <;> rfl) (fun f' => ?_) ⟨?_, ?_, ?_⟩ (by simp [hemptied]), hsome fd'⟩
    · have howed := owed_of_none hdue hspent f'
      have howed' : Account.owed { r with due := some f } f' = if f = f' then 1 else 0 := by
        simp [Account.owed, hspent]
      unfold share
      rw [own_setFd_some hfree f f', howed, howed']
      show own s p f' + (if f = f' then 1 else 0) + r.hand.count f' - (if f = f' then 1 else 0) = _
      omega
    · intro f' hf'
      obtain rfl : f = f' := by simpa using hf'
      exact own_two hne hold' (setFd_ofile_self s p fd' _)
    · simp [hspent]
    · intro fd1 f1 hseen1
      obtain ⟨rfl, rfl⟩ : fd = fd1 ∧ f = f1 := by simpa [hseen] using hseen1
      exact hold'

theorem clearFd_safe (hseen : r.seen = some (fd, f)) (hdue : r.due = none) (hspent : r.spent = none)
    (hbusy : r.busy = true) (hemptied : r.emptied = []) (hQ : Q () { r with hand := f :: r.hand, seen := none }) :
    Safe Inv Unwanted p (setFd p fd none) r Q := by
  refine Safe.modify fun s rs hI hr => ?_
  have hold := (hI.counted.backed hr).seen fd f hseen
  refine ⟨{ r with hand := f :: r.hand, seen := none },
    hI.setFd hr hbusy (by constructor <;> rfl) (fun f' => ?_) ⟨?_, ?_, ?_⟩ (by simp [hemptied]), hQ⟩
  · have howed := owed_of_none hdue hspent f'
    have hown := own_setFd_none hold f'
    show own (s.setFd p fd none) p f' + (f :: r.hand).count f' - r.owed f' = own s p f' + r.hand.count f' - r.owed f'
    rw [howed]
    by_cases heq : f = f'
    · subst heq
      rw [if_pos rfl] at hown
      rw [List.count_cons_self]
      omega
    · rw [if_neg heq] at hown
      rw [List.count_cons_of_ne heq]
      omega
  · simp [hdue]
  · simp [hspent]
  · simp

theorem clearFd_spent_safe (hseen : r.seen = some (fd, f)) (hdue : r.due = none) (hspent : r.spent = some f)
    (hbusy : r.busy = true) (hQ : Q () { r with spent := none, seen := none, emptied := fd :: r.emptied }) :
    Safe Inv Unwanted p (setFd p fd none) r Q := by
  refine Safe.modify fun s rs hI hr => ?_
  have hold := (hI.counted.backed hr).seen fd f hseen
  refine ⟨{ r with spent := none, seen := none, emptied := fd :: r.emptied },
    hI.setFd hr hbusy (by constructor <;> rfl) (fun f' => ?_) ⟨?_, ?_, ?_⟩ fun fd' hfd => ?_, hQ⟩
  · have hown := own_setFd_none hold f'
    have howed : r.owed f' = if f = f' then 1 else 0 := by simp [Account.owed, hdue, hspent]
    have howed' : Account.owed { r with spent := none, seen := none, emptied := fd :: r.emptied } f' = 0 :=
      owed_of_none (r := { r with spent := none, seen := none, emptied := fd :: r.emptied }) hdue rfl f'
    unfold share
    rw [howed, howed']
    show own (s.setFd p fd none) p f' + r.hand.count f' - 0 = _
    omega
  · simp [hdue]
  · simp
  · simp
  · by_cases hne : fd' = fd
    · subst hne
      exact setFd_ofile_self s p fd' none
    · rw [setFd_ofile_of_ne s p none hne]
      have hmem : fd' ∈ r.emptied := (List.mem_cons.1 hfd).resolve_left hne
      exact (hI.lives.emptied p fd' (by rw [hr]; exact hmem)).1

/-! ## Looking at descriptors -/

theorem Inv.learn (hI : Inv s rs) (hr : rs p = r) (o : Option (Fd × FileNo))
    (ho : ∀ fd f, o = some (fd, f) → s.ofile p fd = some f) (fds : List Fd)
    (hfds : ∀ fd ∈ fds, s.ofile p fd = none ∧ s.life p = .alive) :
    Inv s (update rs p { r with seen := o, emptied := fds }) := by
  have hc := field_update Account.child hr { r with seen := o, emptied := fds } rfl
  have hb := field_update Account.blank hr { r with seen := o, emptied := fds } rfl
  have hu := field_update Account.busy hr { r with seen := o, emptied := fds } rfl
  refine ⟨?_, ⟨?_, ?_, ?_, ?_, fun q fd hfd => ?_, ?_⟩, hI.piped.congr_file rfl rfl rfl rfl ?_ ?_ ?_⟩
  · have hb := hI.counted.backed hr
    refine hI.counted.step (fun _ _ _ => rfl) (fun f => by rw [hr]; rfl) hb.due hb.spent ho hI.counted.free
      (fun f hf => ?_) (fun f => .inl ⟨rfl, rfl⟩)
    have hold := hI.counted.fresh p f (by rw [hr]; exact hf)
    rw [hr] at hold
    exact hold
  · simpa only [hc] using hI.lives.empty
  · simpa only [hc] using hI.lives.child
  · simpa only [hc] using hI.lives.child_inj
  · simpa only [hc, hb] using hI.lives.blank
  · by_cases hq : q = p
    · subst hq
      rw [update_self] at hfd
      exact hfds fd hfd
    · rw [update_of_ne hq] at hfd
      exact hI.lives.emptied q fd hfd
  · simpa only [hu] using hI.lives.busy
  all_goals rw [hr]

theorem Inv.look (hI : Inv s rs) (hr : rs p = r) (hof : s.ofile p fd = some f) :
    Inv s (update rs p { r with seen := some (fd, f) }) := by
  refine hI.learn hr (some (fd, f)) (fun fd' f' h => ?_) r.emptied fun fd' hfd => hI.lives.emptied p fd' (hr ▸ hfd)
  obtain ⟨rfl, rfl⟩ := Prod.mk.inj (Option.some.inj h)
  exact hof

theorem argfd_safe {Q : Option (Fd × FileNo) → Account G → Prop} {n : ℤ} (hnone : Q none r)
    (hsome : ∀ fd f, Q (some (fd, f)) { r with seen := some (fd, f) }) : Safe Inv Unwanted p (argfd p n) r Q := by
  refine Safe.atomic fun s rs hI hr => Ensures.ok ?_
  simp only
  split_ifs with hn
  · cases hof : s.ofile p ⟨n.toNat, hn.2⟩ with
    | none => exact ⟨r, hI.same hr, hnone⟩
    | some f => exact ⟨_, hI.look hr hof, hsome _ f⟩
  · exact ⟨r, hI.same hr, hnone⟩

theorem getFd_safe {Q : Option FileNo → Account G → Prop} {fd : Fd} (hnone : Q none r)
    (hsome : ∀ f, Q (some f) { r with seen := some (fd, f) }) :
    Safe Inv Unwanted p (getFd p fd) r Q := by
  refine Safe.atomic fun s rs hI hr => Ensures.ok ?_
  simp only
  cases hof : s.ofile p fd with
  | none => exact ⟨r, hI.same hr, hnone⟩
  | some f => exact ⟨_, hI.look hr hof, hsome f⟩

theorem getFd_exit_safe {Q : Option FileNo → Account G → Prop} {fd : Fd} (hbusy : r.busy = true)
    (hnone : Q none { r with seen := none, emptied := fd :: r.emptied })
    (hsome : ∀ f, Q (some f) { r with seen := some (fd, f) }) :
    Safe Inv Unwanted p (getFd p fd) r Q := by
  refine Safe.atomic fun s rs hI hr => Ensures.ok ?_
  simp only
  cases hof : s.ofile p fd with
  | none =>
    refine ⟨_, hI.learn hr none (by simp) (fd :: r.emptied) fun fd' hfd => ?_, hnone⟩
    rcases List.mem_cons.1 hfd with rfl | hfd
    · exact ⟨hof, hI.lives.busy p (hr ▸ hbusy)⟩
    · exact hI.lives.emptied p fd' (hr ▸ hfd)
  | some f => exact ⟨_, hI.look hr hof, hsome f⟩

/-! ## Slots of the process table -/

theorem Inv.lifeStep {s' : State G} (hI : Inv s rs) (hr : rs p = r) (hhand : r'.hand = r.hand)
    (hfresh : r'.fresh = r.fresh) (hdue : r'.due = r.due) (hspent : r'.spent = r.spent) (hseen : r'.seen = r.seen)
    (hpage : r'.page = r.page) (hclosing : r'.closing = r.closing) (hfreeing : r'.freeing = r.freeing)
    (hs : ∃ q l, s' = s.setLife q l) (hl : Lives s' (update rs p r')) : Inv s' (update rs p r') := by
  subst hr
  rcases hs with ⟨q, l, rfl⟩
  exact ⟨hI.counted.congr rfl rfl hhand hfresh hdue hspent hseen, hl,
    hI.piped.congr_file rfl rfl rfl rfl hpage hclosing hfreeing⟩

theorem setLife_self (l : Life) : (s.setLife q l).life q = l := by
  simp [State.setLife]

theorem setLife_of_ne (l : Life) (hne : q ≠ np) : (s.setLife np l).life q = s.life q := by
  simp [State.setLife, update_of_ne hne]

theorem Lives.ofile_eq_none (h : Lives s rs) (halive : s.life q ≠ .alive) (hembryo : s.life q ≠ .embryo) (fd : Fd) :
    s.ofile q fd = none := by
  cases hof : s.ofile q fd with
  | none => rfl
  | some f =>
    rcases h.empty q fd f hof with hl | ⟨p, hp⟩
    · exact absurd hl halive
    · exact absurd (h.child p q hp) hembryo

/-- One life changes: the slot has no descriptors unless it comes to life, and only its own process, if anybody, took it
for a living one. -/
theorem Lives.setLife {l : Life} (h : Lives s rs) (hempty : l = .alive ∨ ∀ fd, s.ofile np fd = none)
    (hothers : ∀ q, q ≠ p → s.life q = .alive → q ≠ np)
    (hkeep : ∀ q q', q' ≠ np → (rs q).child = some q' → (update rs p r' q).child = some q')
    (hchild : ∀ q q', (update rs p r' q).child = some q' →
      (rs q).child = some q' ∧ q' ≠ np ∨ q = p ∧ q' = np ∧ l = .embryo)
    (hblank : ∀ q', r'.child = some q' → ∀ fd ∈ r'.blank, s.ofile q' fd = none)
    (hself : r'.emptied = [] ∧ r'.busy = false ∨
      r'.emptied = (rs p).emptied ∧ r'.busy = (rs p).busy ∧ s.life np ≠ .alive) :
    Lives (s.setLife np l) (update rs p r') := by
  -- whoever is counted among the living before and after has not changed
  have hlive : ∀ q, s.life q = .alive → q ≠ p ∨ s.life np ≠ .alive → (s.setLife np l).life q = .alive := by
    intro q hq hcase
    rw [setLife_of_ne l, hq]
    rcases hcase with hqp | hnp
    · exact hothers q hqp hq
    · rintro rfl
      exact hnp hq
  refine ⟨fun q fd f hf => ?_, fun q q' hq => ?_, fun q1 q2 q' h1 h2 => ?_, fun q q' hq fd hfd => ?_,
    fun q fd hfd => ?_, fun q hq => ?_⟩
  · by_cases hq : q = np
    · subst hq
      rcases hempty with rfl | hnone
      · exact .inl (setLife_self _)
      · exact absurd ((hnone fd).symm.trans hf) (by simp)
    · rw [setLife_of_ne l hq]
      exact (h.empty q fd f hf).imp_right fun ⟨p', hp'⟩ => ⟨p', hkeep p' q hq hp'⟩
  · rcases hchild q q' hq with ⟨hold, hne⟩ | ⟨-, rfl, rfl⟩
    · rw [setLife_of_ne l hne]
      exact h.child q q' hold
    · exact setLife_self _
  · rcases hchild q1 q' h1 with ⟨hold1, hne⟩ | ⟨rfl, heq, -⟩
    · rcases hchild q2 q' h2 with ⟨hold2, -⟩ | ⟨-, heq, -⟩
      · exact h.child_inj q1 q2 q' hold1 hold2
      · exact absurd heq hne
    · rcases hchild q2 q' h2 with ⟨-, hne⟩ | ⟨rfl, -, -⟩
      · exact absurd heq hne
      · rfl
  · by_cases hqp : q = p
    · subst hqp
      rw [update_self] at hq hfd
      exact hblank q' hq fd hfd
    · rw [update_of_ne hqp] at hq hfd
      exact h.blank q q' hq fd hfd
  · by_cases hqp : q = p
    · subst hqp
      rw [update_self] at hfd
      rcases hself with ⟨hnil, -⟩ | ⟨hsame, -, hnp⟩
      · simp [hnil] at hfd
      · rw [hsame] at hfd
        exact (h.emptied q fd hfd).imp_right fun hq => hlive q hq (.inr hnp)
    · rw [update_of_ne hqp] at hfd
      exact (h.emptied q fd hfd).imp_right fun hq => hlive q hq (.inl hqp)
  · by_cases hqp : q = p
    · subst hqp
      rw [update_self] at hq
      rcases hself with ⟨-, hnot⟩ | ⟨-, hsame, hnp⟩
      · exact absurd (hnot.symm.trans hq) (by simp)
      · exact hlive q (h.busy q (hsame ▸ hq)) (.inr hnp)
    · rw [update_of_ne hqp] at hq
      exact hlive q (h.busy q hq) (.inl hqp)

theorem findUnused_safe {Q : Option Slot → Account G → Prop} (hchild : r.child = none) (hnone : Q none r)
    (hsome : ∀ np, Q (some np) { r with child := some np, blank := List.finRange nofile }) :
    Safe Inv Unwanted p findUnused r Q := by
  refine Safe.atomic fun s rs hI hr => ?_
  cases hfind : (List.finRange nproc).find? fun q => decide (s.life q = .unused) with
  | none => exact Ensures.ok ⟨r, hI.same hr, hnone⟩
  | some np =>
    have hunused : s.life np = .unused := by simpa using List.find?_some hfind
    have hempty := hI.lives.ofile_eq_none (q := np) (by simp [hunused]) (by simp [hunused])
    refine Ensures.ok ⟨{ r with child := some np, blank := List.finRange nofile },
      hI.lifeStep hr rfl rfl rfl rfl rfl rfl rfl rfl ⟨np, .embryo, rfl⟩ ?_, hsome np⟩
    subst hr
    refine hI.lives.setLife (.inr hempty) (fun q _ hq => ?_) (fun q q' _ hq => ?_) (fun q q' hq => ?_) (fun q' hq fd _ => ?_)
      (.inr ⟨rfl, rfl, by simp [hunused]⟩)
    · rintro rfl
      simp [hunused] at hq
    · rw [update_of_ne, hq]
      rintro rfl
      simp [hchild] at hq
    · by_cases hqp : q = p
      · subst hqp
        rw [update_self] at hq
        exact .inr ⟨rfl, (Option.some.inj hq).symm, rfl⟩
      · rw [update_of_ne hqp] at hq
        refine .inl ⟨hq, ?_⟩
        rintro rfl
        simpa [hunused] using hI.lives.child q q' hq
    · obtain rfl : np = q' := by simpa using hq
      exact hempty fd

theorem setChild_safe {Q : Unit → Account G → Prop} {l : Life} (hchild : r.child = some np)
    (hl : l = .alive ∨ (l = .unused ∧ ∀ fd, fd ∈ r.blank)) (hQ : Q () { r with child := none, blank := [] }) :
    Safe Inv Unwanted p (setLife np l) r Q := by
  refine Safe.modify fun s rs hI hr => ?_
  refine ⟨{ r with child := none, blank := [] }, hI.lifeStep hr rfl rfl rfl rfl rfl rfl rfl rfl ⟨np, l, rfl⟩ ?_, hQ⟩
  subst hr
  have hembryo := hI.lives.child p np hchild
  refine hI.lives.setLife (hl.imp_right fun hall fd => hI.lives.blank p np hchild fd (hall.2 fd)) (fun q _ hq => ?_)
    (fun q q' hne hq => ?_) (fun q q' hq => ?_) (by simp) (.inr ⟨rfl, rfl, by simp [hembryo]⟩)
  · rintro rfl
    simp [hembryo] at hq
  · rw [update_of_ne, hq]
    rintro rfl
    exact hne (Option.some.inj (hq.symm.trans hchild))
  by_cases hqp : q = p
  · subst hqp
    simp at hq
  · rw [update_of_ne hqp] at hq
    refine .inl ⟨hq, ?_⟩
    rintro rfl
    exact hqp (hI.lives.child_inj q p q' hq hchild)

theorem setZombie_safe {Q : Unit → Account G → Prop} (hbusy : r.busy = true) (hall : ∀ fd, fd ∈ r.emptied)
    (hQ : Q () { r with busy := false, emptied := [] }) : Safe Inv Unwanted p (setLife p .zombie) r Q := by
  refine Safe.modify fun s rs hI hr => ?_
  refine ⟨{ r with busy := false, emptied := [] },
    hI.lifeStep hr rfl rfl rfl rfl rfl rfl rfl rfl ⟨p, .zombie, rfl⟩ ?_, hQ⟩
  subst hr
  have halive := hI.lives.busy p hbusy
  have hc := field_update_of_eq Account.child (r := { rs p with busy := false, emptied := [] }) (p := p) (k := rs) rfl
  refine hI.lives.setLife (.inr fun fd => (hI.lives.emptied p fd (hall fd)).1) (fun q hq _ => hq) (fun q q' _ hq => ?_)
    (fun q q' hq => ?_) (fun q' hq => hI.lives.blank p q' hq) (.inl ⟨rfl, rfl⟩)
  · rw [hc, hq]
  · rw [hc] at hq
    refine .inl ⟨hq, ?_⟩
    rintro rfl
    simpa [halive] using hI.lives.child q q' hq

theorem reap_safe {Q : ℤ → Account G → Prop} (hQ : ∀ a, Q a r) : Safe Inv Unwanted p reap r Q := by
  refine Safe.await fun s rs c hI hr hready => ?_
  cases c with
  | slot z =>
    have hz : s.life z = .zombie := by simpa using hready
    refine Ensures.ok ⟨r, hI.lifeStep hr rfl rfl rfl rfl rfl rfl rfl rfl ⟨z, .unused, rfl⟩ ?_, hQ _⟩
    subst hr
    refine hI.lives.setLife (.inr (hI.lives.ofile_eq_none (by simp [hz]) (by simp [hz]))) (fun q _ hq => ?_)
      (fun q q' _ hq => ?_) (fun q q' hq => ?_) (fun q' hq => hI.lives.blank p q' hq) (.inr ⟨rfl, rfl, by simp [hz]⟩)
    · rintro rfl
      simp [hz] at hq
    · rw [update_eq_self, hq]
    · rw [update_eq_self] at hq
      refine .inl ⟨hq, ?_⟩
      rintro rfl
      simpa [hz] using hI.lives.child q q' hq
  | _ => exact Ensures.ok ⟨r, hI.same hr, hQ _⟩

/-! ## The descriptors of a new process -/

theorem giveFd_safe (hchild : r.child = some np) (hbusy : r.busy = true) (hfd : fd ∈ r.blank) (hf : f ∈ r.hand)
    (hfresh : r.fresh = []) (hdue : r.due = none) (hspent : r.spent = none)
    (hQ : Q () { r with hand := r.hand.erase f, blank := r.blank.filter (· ≠ fd) }) :
    Safe Inv Unwanted p (setFd np fd (some f)) r Q := by
  refine Safe.modify fun s rs hI hr => ?_
  have hchild' : (rs p).child = some np := by rw [hr]; exact hchild
  have hembryo := hI.lives.child p np hchild'
  have halive := hI.lives.busy p (by rw [hr]; exact hbusy)
  have hnone := hI.lives.blank p np hchild' fd (by rw [hr]; exact hfd)
  have hne : p ≠ np := by
    rintro rfl
    rw [halive] at hembryo
    cases hembryo
  have hof : ∀ q fd', (q ≠ np ∨ fd' ≠ fd) → (s.setFd np fd (some f)).ofile q fd' = s.ofile q fd' := by
    intro q fd' h
    by_cases hq : q = np
    · subst hq
      exact setFd_ofile_of_ne s q _ (h.resolve_left (fun h => h rfl))
    · exact setFd_ofile_other s fd' _ hq
  have hmono : ∀ q f', own s q f' ≤ own (s.setFd np fd (some f)) q f' := by
    intro q f'
    by_cases hq : q = np
    · subst hq
      rw [own_setFd_some hnone f f']
      omega
    · exact Nat.le_of_eq (own_congr fun fd' => (hof q fd' (.inl hq))).symm
  generalize hr'' : ({ r with hand := r.hand.erase f, blank := r.blank.filter (· ≠ fd) } : Account G) = r'' at hQ
  have hshare_p : ∀ f', share (s.setFd np fd (some f)) p r'' f' + (if f = f' then 1 else 0) = share s p r f' := by
    intro f'
    subst hr''
    have howed := owed_of_none hdue hspent f'
    show own (s.setFd np fd (some f)) p f' + (r.hand.erase f).count f' - r.owed f' + _ =
      own s p f' + r.hand.count f' - r.owed f'
    rw [howed, own_congr fun fd' => hof p fd' (.inl hne)]
    by_cases heq : f = f'
    · subst heq
      have hcount := List.count_pos_iff.2 hf
      rw [if_pos rfl, List.count_erase_self]
      omega
    · rw [if_neg heq, List.count_erase_of_ne (Ne.symm heq), Nat.add_zero]
  have hshare_np : ∀ f', share (s.setFd np fd (some f)) np (rs np) f' = share s np (rs np) f' + if f = f' then 1 else 0 := by
    intro f'
    have hle := hI.counted.owed_le np f'
    unfold share
    rw [own_setFd_some hnone f f']
    omega
  have hshare : ∀ q, q ≠ p → q ≠ np → ∀ f', share (s.setFd np fd (some f)) q (rs q) f' = share s q (rs q) f' := by
    intro q _ hq f'
    unfold share
    rw [own_congr fun fd' => hof q fd' (.inl hq)]
  have hd := field_update Account.due hr r'' (by rw [← hr''])
  have hs := field_update Account.spent hr r'' (by rw [← hr''])
  have hn := field_update Account.seen hr r'' (by rw [← hr''])
  have hfr := field_update Account.fresh hr r'' (by rw [← hr''])
  have hc := field_update Account.child hr r'' (by rw [← hr''])
  have he := field_update Account.emptied hr r'' (by rw [← hr''])
  have hu := field_update Account.busy hr r'' (by rw [← hr''])
  -- a descriptor of the new process that is known to be set is not this one
  have hset : ∀ q fd' f', s.ofile q fd' = some f' → (s.setFd np fd (some f)).ofile q fd' = some f' := by
    intro q fd' f' hsome
    rw [hof q fd', hsome]
    by_cases hq : q = np
    · right
      rintro rfl
      rw [hq, hnone] at hsome
      cases hsome
    · exact .inl hq
  refine ⟨r'', ⟨⟨fun f' => ?_, fun q f' h => ?_, fun q f' h => ?_, fun q fd' f' h => ?_, hI.counted.free,
    fun q f' h => ?_⟩, ⟨fun q fd' f' h => ?_, ?_, ?_, fun q q' hq fd' hfd' => ?_, fun q fd' hfd' => ?_, ?_⟩, ?_⟩, hQ⟩
  · have hsum : ∑ q, share (s.setFd np fd (some f)) q (update rs p r'' q) f' = ∑ q, share s q (rs q) f' := by
      refine sum_eq_of_transfer hne (fun q hqp hqn => ?_) ?_
      · rw [update_of_ne hqp]
        exact hshare q hqp hqn f'
      · rw [update_self, update_of_ne (Ne.symm hne), hr]
        have h1 := hshare_p f'
        have h2 := hshare_np f'
        omega
    rw [hsum]
    exact hI.counted.count f'
  · rw [hd] at h
    exact Nat.le_trans (hI.counted.due q f' h) (hmono q f')
  · rw [hs] at h
    exact Nat.le_trans (hI.counted.spent q f' h) (hmono q f')
  · rw [hn] at h
    exact hset q fd' f' (hI.counted.seen q fd' f' h)
  · rw [hfr] at h
    have hold := hI.counted.fresh q f' h
    refine ⟨hold.1, hold.2.1, ?_⟩
    by_cases hqp : q = p
    · subst hqp
      rw [hr, hfresh] at h
      exact absurd h (by simp)
    rw [update_of_ne hqp]
    by_cases hqn : q = np
    · subst hqn
      rw [hshare_np f']
      omega
    · rw [hshare q hqp hqn f']
      exact hold.2.2
  · simp only [hc]
    by_cases hq : q = np
    · exact .inr ⟨p, by rw [hq]; exact hchild'⟩
    · rw [hof q fd' (.inl hq)] at h
      exact hI.lives.empty q fd' f' h
  · simp only [hc]
    exact hI.lives.child
  · simpa only [hc] using hI.lives.child_inj
  · rw [hc] at hq
    by_cases hqp : q = p
    · subst hqp
      rw [update_self, ← hr''] at hfd'
      have hmem := List.mem_filter.1 hfd'
      rw [hof q' fd' (.inr (by simpa using hmem.2))]
      exact hI.lives.blank q q' hq fd' (by rw [hr]; exact hmem.1)
    have hq' : q' ≠ np := by
      rintro rfl
      exact hqp (hI.lives.child_inj q p q' hq hchild')
    rw [update_of_ne hqp] at hfd'
    rw [hof q' fd' (.inl hq')]
    exact hI.lives.blank q q' hq fd' hfd'
  · rw [he] at hfd'
    have hold := hI.lives.emptied q fd' hfd'
    have hq : q ≠ np := by
      rintro rfl
      rw [hold.2] at hembryo
      cases hembryo
    rw [hof q fd' (.inl hq)]
    exact hold
  · simp only [hu]
    exact hI.lives.busy
  · exact hI.piped.congr_file rfl rfl rfl rfl (by rw [hr, ← hr'']) (by rw [hr, ← hr'']) (by rw [hr, ← hr''])

/-! ## New files -/

theorem setInode_safe (hfresh : r.fresh = [f]) (x : File G → File G)
    (hx : ∀ y, (x y).ref = y.ref ∧ (x y).type = .inode) (hQ : Q () { r with fresh := [] }) :
    Safe Inv Unwanted p (Prog.modify fun s => s.setFile f (x (s.file f)) : Call G Unit) r Q := by
  refine Safe.modify fun s rs hI hr => ?_
  have hold := hI.counted.fresh p f (by rw [hr, hfresh]; simp)
  have hb := hI.counted.backed hr
  refine ⟨{ r with fresh := [] }, ⟨?_, ?_, ?_⟩, hQ⟩
  · refine hI.counted.setFile ?_ (fun f' _ => ?_) hb.due hb.spent hb.seen (fun hzero => ?_) (by simp)
      (.inr (.inr hold.2.2))
    · rw [(hx _).1, hr]
      rfl
    · rw [hr]
      rfl
    · rw [(hx _).1, hold.2.1] at hzero
      cases hzero
  · exact hI.lives.congr rfl rfl (by rw [hr]) (by rw [hr]) (by rw [hr]) (by rw [hr])
  · exact hI.piped.congr_setFile (by simp [hold.1]) (by simp [(hx _).2]) (by rw [hr]) (by rw [hr]) (by rw [hr])

section Pipes

variable [DecidableEq G] {g : G} {f0 f1 : FileNo}

theorem pipeInit_page (g g' : G) : (s.pipeInit g f0 f1).page g' =
      if g' = g then .pipe { readopen := true, writeopen := true, id := s.made } else s.page g' := by
  by_cases hg : g' = g <;> simp [State.pipeInit, State.setFile, State.setPage, hg]

theorem pipeInit_file_read (hne : f0 ≠ f1) : (s.pipeInit g f0 f1).file f0 =
      { s.file f0 with type := .pipe, readable := true, writable := false, pipe := some g } := by
  simp [State.pipeInit, State.setFile, State.setPage, update_of_ne hne]

theorem pipeInit_file_write (hne : f0 ≠ f1) : (s.pipeInit g f0 f1).file f1 =
      { s.file f1 with type := .pipe, readable := false, writable := true, pipe := some g } := by
  simp [State.pipeInit, State.setFile, State.setPage, update_of_ne (Ne.symm hne)]

theorem pipeInit_file_of_ne (h0 : f ≠ f0) (h1 : f ≠ f1) : (s.pipeInit g f0 f1).file f = s.file f := by
  simp [State.pipeInit, State.setFile, State.setPage, update_of_ne h0, update_of_ne h1]

theorem pipeInit_ref (hne : f0 ≠ f1) : ((s.pipeInit g f0 f1).file f).ref = (s.file f).ref := by
  by_cases h0 : f = f0
  · subst h0
    rw [pipeInit_file_read hne]
  · by_cases h1 : f = f1
    · subst h1
      rw [pipeInit_file_write hne]
    · rw [pipeInit_file_of_ne h0 h1]

omit [DecidableEq G] in
theorem not_isEnd {g : G} {w : Bool} (h : (s.file f).type = .none) : ¬ (s.file f).IsEnd g w := by
  intro hend
  rw [hend.type] at h
  cases h

omit [DecidableEq G] in
theorem isEnd_mk (x : File G) (g g' : G) (a b w : Bool) :
    { x with type := .pipe, readable := a, writable := b, pipe := some g : File G }.IsEnd g' w ↔ g' = g ∧ w = b := by
  constructor
  · intro hend
    exact ⟨(Option.some.inj hend.pipe).symm, hend.writable.symm⟩
  · rintro ⟨rfl, rfl⟩
    exact ⟨rfl, rfl, rfl⟩

theorem pipeInit_isEnd (hne : f0 ≠ f1) (h0 : (s.file f0).type = .none)
    (h1 : (s.file f1).type = .none) (g' : G) (w : Bool) :
    ((s.pipeInit g f0 f1).file f).IsEnd g' w ↔
      (s.file f).IsEnd g' w ∨ (g' = g ∧ ((f = f0 ∧ w = false) ∨ (f = f1 ∧ w = true))) := by
  by_cases hf0 : f = f0
  · subst hf0
    rw [pipeInit_file_read hne, isEnd_mk]
    simp [not_isEnd h0, hne]
  by_cases hf1 : f = f1
  · subst hf1
    rw [pipeInit_file_write hne, isEnd_mk]
    simp [not_isEnd h1, hf0]
  · rw [pipeInit_file_of_ne hf0 hf1]
    simp [hf0, hf1]

theorem Numbered.pipeInit (h : Numbered s) (hfree : ∀ d, s.page g ≠ .pipe d) : Numbered (s.pipeInit g f0 f1) := by
  have hpage : ∀ g' d, (s.pipeInit g f0 f1).page g' = .pipe d → (g' = g ∧ d.id = s.made) ∨ s.page g' = .pipe d := by
    intro g' d hd
    rw [pipeInit_page] at hd
    split_ifs at hd with hg
    · obtain rfl := Page.pipe.inj hd
      exact .inl ⟨hg, rfl⟩
    · exact .inr hd
  refine ⟨fun g' d hd => ?_, fun g1 g2 d1 d2 hd1 hd2 hid => ?_, fun i hi => ?_,
    fun i hi => h.unmade i (Nat.le_of_succ_le hi)⟩
  · show d.id < s.made + 1 ∧ s.frees d.id = 0
    rcases hpage g' d hd with ⟨-, hid⟩ | hd
    · rw [hid]
      exact ⟨Nat.lt_succ_self _, h.unmade _ (Nat.le_refl _)⟩
    · exact ⟨Nat.lt_succ_of_lt (h.ids g' d hd).1, (h.ids g' d hd).2⟩
  · rcases hpage g1 d1 hd1 with ⟨rfl, hid1⟩ | hd1
    · rcases hpage g2 d2 hd2 with ⟨rfl, -⟩ | hd2
      · rfl
      · exact absurd (hid.symm.trans hid1) (Nat.ne_of_lt (h.ids g2 d2 hd2).1)
    · rcases hpage g2 d2 hd2 with ⟨-, hid2⟩ | hd2
      · exact absurd (hid.trans hid2) (Nat.ne_of_lt (h.ids g1 d1 hd1).1)
      · exact h.ids_inj g1 g2 d1 d2 hd1 hd2 hid
  · show _ ∨ s.frees i = 1
    rcases Nat.lt_succ_iff_lt_or_eq.1 hi with hi | rfl
    · refine (h.freed i hi).imp_left ?_
      rintro ⟨g', d, hd, hid⟩
      refine ⟨g', d, ?_, hid⟩
      rw [pipeInit_page, if_neg (by rintro rfl; exact hfree d hd)]
      exact hd
    · exact .inl ⟨g, _, by rw [pipeInit_page, if_pos rfl], rfl⟩

theorem Piped.pipeInit (h : Piped s rs) (hr : rs p = r) (hpage : r.page = some g) (hne : f0 ≠ f1)
    (h0 : (s.file f0).type = .none) (h1 : (s.file f1).type = .none) :
    Piped (s.pipeInit g f0 f1) (update rs p { r with page := none, fresh := [] }) := by
  subst hr
  have htaken : s.page g = .taken (some p) := h.taken p g hpage
  have hnot : ∀ k w, ¬ Keeps s rs k g w := by
    intro k w hk
    rcases h.isOpen k g w hk with ⟨d, hd, -⟩
    rw [htaken] at hd
    cases hd
  have hnew : (s.pipeInit g f0 f1).page g = .pipe { readopen := true, writeopen := true, id := s.made } := by
    rw [pipeInit_page, if_pos rfl]
  have hf := field_update_of_eq Account.freeing (r := { rs p with page := none, fresh := [] }) (p := p) (k := rs) rfl
  have hk : ∀ k g' w, Keeps (s.pipeInit g f0 f1) (update rs p { rs p with page := none, fresh := [] }) k g' w ↔
      Keeps s rs k g' w ∨ (g' = g ∧ ((k = .inl f0 ∧ w = false) ∨ (k = .inl f1 ∧ w = true))) := by
    intro k g' w
    cases k with
    | inl f => simpa [Keeps] using pipeInit_isEnd hne h0 h1 g' w
    | inr q =>
      have hcl := field_update_of_eq Account.closing (r := { rs p with page := none, fresh := [] }) (k := rs) rfl q
      simp only [Keeps, hcl, reduceCtorEq, false_and, or_self, and_false, or_false]
  have hends : ∀ k w, Keeps (s.pipeInit g f0 f1) (update rs p { rs p with page := none, fresh := [] }) k g w ↔
      k = .inl (if w then f1 else f0) := by
    intro k w
    cases w <;> simp [hk, hnot]
  have hnobody : ∀ q, (rs q).freeing ≠ some g := by
    intro q hq
    rcases h.freeing q g hq with ⟨d, hd, -⟩
    rw [htaken] at hd
    cases hd
  refine h.at_page (fun f hf' => ?_) (fun g' hg => ⟨by rw [pipeInit_page, if_neg hg], fun k w => ?_, fun q => by rw [hf],
    fun q => ?_⟩) ⟨fun k w _ => ⟨_, hnew, by cases w <;> rfl⟩, fun k k' w hk1 hk2 => ?_,
      fun d w _ _ => ⟨_, (hends _ w).2 rfl⟩, fun q hq => ?_, fun q q' hq => ?_, fun d hd hclosed => ?_, fun q hq => ?_⟩
    (h.numbered.pipeInit (by simp [htaken]))
  · by_cases hf0 : f = f0
    · subst hf0
      exact ⟨g, by rw [pipeInit_file_read hne]⟩
    by_cases hf1 : f = f1
    · subst hf1
      exact ⟨g, by rw [pipeInit_file_write hne]⟩
    · rw [pipeInit_file_of_ne hf0 hf1] at hf' ⊢
      exact h.typed f hf'
  · simp [hk, hg]
  · by_cases hq : q = p
    · subst hq
      simp [hpage, Ne.symm hg]
    · rw [update_of_ne hq]
  · rw [(hends _ _).1 hk1, (hends _ _).1 hk2]
  · exact absurd ((hf q).symm.trans hq) (hnobody q)
  · exact absurd ((hf q).symm.trans hq) (hnobody q)
  · obtain rfl := Page.pipe.inj (hnew.symm.trans hd)
    exact absurd (hclosed true) (by simp [Pipe.isOpen])
  · by_cases hqp : q = p
    · subst hqp
      simp at hq
    · rw [update_of_ne hqp] at hq
      exact absurd (by simpa [htaken, eq_comm] using h.taken q g hq) hqp

theorem pipeInit_safe {Q : Unit → Account G → Prop} (hpage : r.page = some g) (hfresh : r.fresh = [f1, f0])
    (hne : f0 ≠ f1) (hQ : Q () { r with page := none, fresh := [] }) :
    Safe Inv Unwanted p (Prog.modify fun s => s.pipeInit g f0 f1 : Call G Unit) r Q := by
  refine Safe.modify fun s rs hI hr => ?_
  have hold0 := hI.counted.fresh p f0 (by rw [hr, hfresh]; simp)
  have hold1 := hI.counted.fresh p f1 (by rw [hr, hfresh]; simp)
  have hb := hI.counted.backed hr
  refine ⟨{ r with page := none, fresh := [] }, ⟨?_, ?_, ?_⟩, hQ⟩
  · refine hI.counted.step (fun _ _ _ => rfl) (fun f => ?_) hb.due hb.spent hb.seen (fun f hzero => ?_) (by simp)
      (fun f => ?_)
    · rw [pipeInit_ref hne, hr]
      rfl
    · rw [pipeInit_ref hne] at hzero
      rw [pipeInit_file_of_ne]
      · exact hI.counted.free f hzero
      · rintro rfl
        omega
      · rintro rfl
        omega
    · by_cases h0 : f = f0
      · subst h0
        exact .inr (.inr hold0.2.2)
      · by_cases h1 : f = f1
        · subst h1
          exact .inr (.inr hold1.2.2)
        · exact .inl (by rw [pipeInit_file_of_ne h0 h1]; exact ⟨rfl, rfl⟩)
  · exact hI.lives.congr rfl rfl (by rw [hr]) (by rw [hr]) (by rw [hr]) (by rw [hr])
  · exact hI.piped.pipeInit hr hpage hne hold0.1 hold1.1

end Pipes

end Xv6.Files
