import Mathlib.Data.Fintype.BigOperators
import Xv6.Files.Descriptors

/-!
# Lifetime — every reference is counted, every pipe is freed once

Each call starts with nothing in hand and ends with nothing in hand.  So when no call is in progress the count of a
file is the number of its descriptors, and a pipe is there exactly as long as it has one.
-/

namespace Xv6.Files

open Common

variable {G : Type} [DecidableEq G] {p : Slot} {r : Account G} {f : FileNo} {fd : Fd}

/-! ## The calls' ways to `filedup` and `fileclose` -/

variable {Q : Unit → Account G → Prop}

attribute [local simp] Account.owed

omit [DecidableEq G] in
theorem filedup_due_safe (hdue : r.due = some f) (hspent : r.spent = none) (hfresh : r.fresh = [])
    (hQ : Q () { r with due := none }) : Safe Inv Unwanted p (filedup f) r Q := by
  refine filedup_safe { r with due := none } (by constructor <;> rfl) hfresh (fun s rs hI hr => ?_) hQ
  have hb := hI.counted.backed hr
  have hown := hb.due f hdue
  have howed : ∀ f', r.owed f' = if f = f' then 1 else 0 := fun f' => by simp [hdue, hspent]
  have howed' : ∀ f', Account.owed { r with due := none } f' = 0 := fun f' => by simp [hspent]
  unfold share
  simp only [howed, howed', if_true]
  refine ⟨by omega, by omega, fun f' hne => ?_, ⟨by simp, by simp [hspent], hb.seen⟩⟩
  rw [if_neg (Ne.symm hne)]

omit [DecidableEq G] in
theorem filedup_seen_safe (hseen : r.seen = some (fd, f)) (hdue : r.due = none) (hspent : r.spent = none)
    (hfresh : r.fresh = []) (hQ : Q () { r with hand := f :: r.hand }) : Safe Inv Unwanted p (filedup f) r Q := by
  refine filedup_safe { r with hand := f :: r.hand } (by constructor <;> rfl) hfresh (fun s rs hI hr => ?_) hQ
  have hb := hI.counted.backed hr
  have hown := own_pos (hb.seen fd f hseen)
  have howed := owed_of_none hdue hspent f
  refine ⟨?_, share_cons_self (by omega), fun f' hne => share_cons_of_ne hne, ⟨hb.due, hb.spent, hb.seen⟩⟩
  unfold share
  omega

theorem fileclose_hand_safe (hf : f ∈ r.hand) (hclosing : r.closing = none) (hfreeing : r.freeing = none)
    (hQ : Q () { r with hand := r.hand.erase f, fresh := r.fresh.filter (· ≠ f) }) :
    Safe Inv Unwanted p (fileclose f) r Q := by
  refine fileclose_safe { r with hand := r.hand.erase f, fresh := r.fresh.filter (· ≠ f) }
    (by constructor <;> rfl) hclosing hfreeing (fun f' hf' => ?_) (fun s rs hI hr => ?_) hQ
  · have hmem := List.mem_filter.1 hf'
    exact ⟨by simpa using hmem.2, hmem.1⟩
  · have hb := hI.counted.backed hr
    have hle := hI.counted.owed_le p f
    rw [hr] at hle
    exact ⟨(share_erase_self hle hf).symm, fun f' hne => share_erase_of_ne hne, ⟨hb.due, hb.spent, hb.seen⟩⟩

theorem fileclose_seen_safe (hseen : r.seen = some (fd, f)) (hdue : r.due = none) (hspent : r.spent = none)
    (hfresh : r.fresh = []) (hclosing : r.closing = none) (hfreeing : r.freeing = none)
    (hQ : Q () { r with spent := some f }) : Safe Inv Unwanted p (fileclose f) r Q := by
  refine fileclose_safe { r with spent := some f } (by constructor <;> rfl) hclosing hfreeing
    (by simp [hfresh]) (fun s rs hI hr => ?_) hQ
  have hb := hI.counted.backed hr
  have hown := own_pos (hb.seen fd f hseen)
  have howed : ∀ f', r.owed f' = 0 := owed_of_none hdue hspent
  have howed' : ∀ f', Account.owed { r with spent := some f } f' = if f = f' then 1 else 0 := fun f' => by
    simp [hdue]
  unfold share
  simp only [howed, howed', if_true]
  refine ⟨by omega, fun f' hne => ?_, ⟨by simp [hdue], fun f' hf' => ?_, hb.seen⟩⟩
  · rw [if_neg (Ne.symm hne)]
  · obtain rfl : f = f' := by simpa using hf'
    exact hown

/-! ## The calls -/

/-- With nothing in hand at the start the call ends with nothing in hand. -/
abbrev Settles (p : Slot) (c : Call G ℤ) : Prop :=
  Safe Inv Unwanted p c Account.begin fun _ => Account.Settled

omit [DecidableEq G] in
theorem settled_begin : (Account.begin : Account G).Settled := by
  constructor <;> rfl

omit [DecidableEq G] in
theorem sysDup_settles (n : ℤ) :
    Safe Inv Unwanted p (sysDup p n : Call G ℤ) Account.begin fun _ => Account.Settled := by
  refine Safe.bind (argfd_safe (Safe.pure settled_begin) fun fd f => ?_)
  refine Safe.bind (fdalloc_dup_safe rfl rfl rfl rfl rfl (Safe.pure (by constructor <;> rfl)) fun fd' => ?_)
  refine Safe.bind (filedup_due_safe rfl rfl rfl ?_)
  exact Safe.pure (by constructor <;> rfl)

attribute [local simp] Account.begin

theorem sysClose_settles (n : ℤ) : Settles p (sysClose p n : Call G ℤ) := by
  refine Safe.bind (argfd_safe (Safe.pure settled_begin) fun fd f => ?_)
  refine Safe.bind (clearFd_safe rfl rfl rfl rfl rfl ?_)
  refine Safe.bind (fileclose_hand_safe (by simp) rfl rfl ?_)
  exact Safe.pure ⟨by simp, rfl, rfl, rfl, rfl, rfl, rfl, rfl⟩

theorem sysOpen_settles (omode : ℕ) : Settles p (sysOpen p omode : Call G ℤ) := by
  refine Safe.bind (Safe.choose fun c => ?_)
  split
  next => exact Safe.pure settled_begin
  next ip _ =>
      refine Safe.bind (filealloc_safe (Safe.pure settled_begin) fun f _ => ?_)
      refine Safe.bind (fdalloc_safe (by simp) rfl rfl rfl rfl ?_ fun fd => ?_)
      · refine Safe.bind (fileclose_hand_safe (by simp) rfl rfl ?_)
        exact Safe.pure ⟨by simp, by simp, rfl, rfl, rfl, rfl, rfl, rfl⟩
      refine Safe.bind (setInode_safe rfl
        (fun y => { y with
          type := .inode
          ip := ip
          off := 0
          readable := !omode.testBit 0
          writable := omode.testBit 0 || omode.testBit 1 }) (fun y => ⟨rfl, rfl⟩) ?_)
      exact Safe.pure ⟨by simp, rfl, rfl, rfl, rfl, rfl, rfl, rfl⟩

/-! ### Pipes -/

def Account.pair (f₀ f₁ : FileNo) : Account G :=
  { Account.begin with hand := [f₁, f₀] }

/-- Both references are dropped, whether something has been made of the files or not. -/
theorem closeBoth_safe {α : Type} {Q : α → Account G → Prop} {f0 f1 : FileNo} {hand fresh : List FileNo} {a : α}
    (hne : f0 ≠ f1) (hhand : hand = [f1, f0] ∨ hand = [f0, f1]) (hfresh : fresh = [] ∨ fresh = [f1, f0])
    (hQ : Q a Account.begin) :
    Safe Inv Unwanted p (do fileclose f0; fileclose f1; pure a : Call G α)
      { Account.begin with hand := hand, fresh := fresh } Q := by
  have hfirst : f0 ∈ hand ∧ hand.erase f0 = [f1] := by
    rcases hhand with rfl | rfl
    · simp [Ne.symm hne]
    · simp
  have hrest : (fresh.filter (· ≠ f0)).filter (· ≠ f1) = [] := by
    rcases hfresh with rfl | rfl
    · rfl
    · simp [Ne.symm hne]
  refine Safe.bind (fileclose_hand_safe hfirst.1 rfl rfl ?_)
  refine Safe.bind (fileclose_hand_safe (by simp [hfirst.2]) rfl rfl ?_)
  refine Safe.pure ?_
  have hlast : (hand.erase f0).erase f1 = [] := by simp [hfirst.2]
  simp only [hlast, hrest]
  exact hQ

theorem pipealloc_safe {Q : Option (FileNo × FileNo) → Account G → Prop} (hnone : Q none Account.begin)
    (hsome : ∀ rf wf, rf ≠ wf → Q (some (rf, wf)) (Account.pair rf wf)) :
    Safe Inv Unwanted p (pipealloc p) Account.begin Q := by
  refine Safe.bind (filealloc_safe hnone fun f0 _ => ?_)
  refine Safe.bind (filealloc_safe ?_ fun f1 hf1 => ?_)
  · refine Safe.bind (fileclose_hand_safe (by simp) rfl rfl ?_)
    refine Safe.pure ?_
    have hfilter : ([f0] : List FileNo).filter (· ≠ f0) = [] := by simp
    simp only [Account.begin, List.erase_cons_head, hfilter]
    exact hnone
  have hne : f0 ≠ f1 := by
    rintro rfl
    exact hf1 (by simp)
  refine Safe.bind (kalloc_safe ?_ fun g => ?_)
  · exact closeBoth_safe hne (.inl rfl) (.inr rfl) hnone
  · refine Safe.bind (pipeInit_safe rfl rfl hne ?_)
    exact Safe.pure (hsome f0 f1 hne)

theorem sysPipe_settles : Settles p (sysPipe p : Call G ℤ) := by
  refine Safe.bind (Safe.choose fun c => ?_)
  split_ifs
  · exact Safe.pure settled_begin
  refine Safe.bind (pipealloc_safe (Safe.pure settled_begin) fun rf wf hne => ?_)
  refine Safe.bind (fdalloc_safe (by simp [Account.pair]) rfl rfl rfl rfl ?_ fun fd0 => ?_)
  · exact closeBoth_safe hne (.inl rfl) (.inl rfl) settled_begin
  have hhand : ([wf, rf] : List FileNo).erase rf = [wf] := by simp [Ne.symm hne]
  refine Safe.bind (fdalloc_safe (by simp [Account.pair, hhand]) rfl rfl rfl rfl ?_ fun fd1 => ?_)
  · refine Safe.bind (clearFd_safe rfl rfl rfl rfl rfl ?_)
    exact closeBoth_safe hne (.inr (by simp [Account.pair, hhand])) (.inl rfl) settled_begin
  · exact Safe.pure ⟨by simp [Account.pair, hhand], rfl, rfl, rfl, rfl, rfl, rfl, rfl⟩

/-! ### Processes -/

def Account.forking (np : Slot) (o : Option (Fd × FileNo)) (l : List Fd) : Account G :=
  { Account.begin with child := some np, seen := o, blank := l }

def Account.exiting (o : Option (Fd × FileNo)) (l : List Fd) : Account G :=
  { Account.begin with seen := o, emptied := l }

omit [DecidableEq G] in
theorem dupFiles_safe {np : Slot} {o : Option (Fd × FileNo)} {l : List Fd} (fds : List Fd) (hnodup : fds.Nodup)
    (hblank : ∀ fd ∈ fds, fd ∈ l) (hQ : ∀ o l, Q () (Account.forking np o l)) :
    Safe Inv Unwanted p (dupFiles p np fds) (Account.forking np o l) Q := by
  induction fds generalizing o l with
  | nil => exact Safe.pure (hQ o l)
  | cons i is ih =>
    rcases List.nodup_cons.1 hnodup with ⟨hi, his⟩
    refine Safe.bind (getFd_safe ?_ fun f => ?_)
    · exact Safe.bind (Safe.pure (ih his fun fd hfd => hblank fd (List.mem_cons_of_mem _ hfd)))
    refine Safe.bind (filedup_seen_safe rfl rfl rfl rfl ?_)
    refine Safe.bind (giveFd_safe rfl rfl (hblank i List.mem_cons_self) List.mem_cons_self rfl rfl rfl ?_)
    simp only [List.erase_cons_head]
    refine ih his fun fd hfd => List.mem_filter.2 ⟨hblank fd (List.mem_cons_of_mem _ hfd), ?_⟩
    have hne : fd ≠ i := by
      rintro rfl
      exact hi hfd
    simpa using hne

omit [DecidableEq G] in
theorem allocproc_safe {Q : Option Slot → Account G → Prop} (hnone : Q none Account.begin)
    (hsome : ∀ np, Q (some np) (Account.forking np none (List.finRange nofile))) :
    Safe Inv Unwanted p allocproc Account.begin Q := by
  refine Safe.bind (findUnused_safe rfl (Safe.pure hnone) fun np => ?_)
  refine Safe.bind (Safe.choose fun c => ?_)
  split_ifs
  · exact Safe.pure (hsome np)
  · refine Safe.bind (setChild_safe rfl (.inr ⟨rfl, fun fd => List.mem_finRange fd⟩) ?_)
    exact Safe.pure hnone

omit [DecidableEq G] in
theorem publish_safe {np : Slot} : Safe Inv Unwanted p
      (do dupFiles p np (List.finRange nofile); setLife np .alive; pure (np.val : ℤ) : Call G ℤ)
      (Account.forking np none (List.finRange nofile)) fun _ => Account.Settled := by
  refine Safe.bind (dupFiles_safe _ (List.nodup_finRange _) (fun _ hfd => hfd) fun o l => ?_)
  refine Safe.bind (setChild_safe rfl (.inl rfl) ?_)
  exact Safe.pure (by constructor <;> rfl)

omit [DecidableEq G] in
theorem fork_settles : Safe Inv Unwanted p (fork p : Call G ℤ) Account.begin fun _ => Account.Settled := by
  refine Safe.bind (allocproc_safe (Safe.pure settled_begin) fun np => ?_)
  refine Safe.bind (Safe.choose fun c => ?_)
  split_ifs
  · refine Safe.bind (setChild_safe rfl (.inr ⟨rfl, fun fd => List.mem_finRange fd⟩) ?_)
    exact Safe.pure (by constructor <;> rfl)
  · exact publish_safe

omit [DecidableEq G] in
theorem clone_settles : Safe Inv Unwanted p (clone p : Call G ℤ) Account.begin fun _ => Account.Settled :=
  Safe.bind (allocproc_safe (Safe.pure settled_begin) fun _ => publish_safe)

theorem closeFiles_safe {o : Option (Fd × FileNo)} {l : List Fd} (fds : List Fd)
    (hQ : ∀ o l', (∀ fd, fd ∈ fds ∨ fd ∈ l → fd ∈ l') → Q () (Account.exiting o l')) :
    Safe Inv Unwanted p (closeFiles p fds) (Account.exiting o l) Q := by
  induction fds generalizing o l with
  | nil => exact Safe.pure (hQ o l fun fd hfd => by simpa using hfd)
  | cons i is ih =>
    have hrest : ∀ o, Safe Inv Unwanted p (closeFiles p is) (Account.exiting o (i :: l)) Q := by
      intro o
      refine ih fun o l' hl' => hQ o l' fun fd hfd => hl' fd ?_
      rcases hfd with hfd | hfd
      · rcases List.mem_cons.1 hfd with rfl | hfd
        · exact .inr List.mem_cons_self
        · exact .inl hfd
      · exact .inr (List.mem_cons_of_mem _ hfd)
    refine Safe.bind (getFd_exit_safe rfl ?_ fun f => ?_)
    · exact Safe.bind (Safe.pure (hrest none))
    · refine Safe.bind (fileclose_seen_safe rfl rfl rfl rfl rfl rfl ?_)
      refine Safe.bind (clearFd_spent_safe rfl rfl rfl rfl ?_)
      exact hrest none

theorem exit_settles : Settles p (exit p : Call G ℤ) := by
  refine Safe.bind (Safe.read fun s rs _ _ => ?_)
  split_ifs
  · show ¬ Unwanted .initExiting
    simp [Unwanted]
  · refine Safe.bind (closeFiles_safe (List.finRange nofile) fun o l hl => ?_)
    refine Safe.bind (setZombie_safe rfl (fun fd => hl fd (.inl (List.mem_finRange fd))) ?_)
    exact Safe.pure (by constructor <;> rfl)

theorem body_settles (k : Syscall) : Settles p (body p k : Call G ℤ) := by
  cases k with
  | «open» omode => exact sysOpen_settles omode
  | dup fd => exact sysDup_settles fd
  | close fd => exact sysClose_settles fd
  | pipe => exact sysPipe_settles
  | fork => exact fork_settles
  | clone => exact clone_settles
  | exit => exact exit_settles
  | wait => exact reap_safe fun _ => settled_begin
  | other => exact otherPage_safe fun _ => settled_begin

/-! ## All interleavings -/

omit [DecidableEq G] in
theorem Inv.begin {s : State G} {rs : Slot → Account G} (hI : Inv s rs) (hsettled : (rs p).Settled)
    (halive : s.life p = .alive) : Inv s (Function.update rs p Account.begin) := by
  have hc := field_update Account.child rfl Account.begin hsettled.child.symm
  refine ⟨?_, ⟨?_, ?_, ?_, fun q q' hq fd hfd => ?_, fun q fd hfd => ?_, fun q hq => ?_⟩,
    hI.piped.congr_file rfl rfl rfl rfl hsettled.page.symm hsettled.closing.symm hsettled.freeing.symm⟩
  · refine hI.counted.step (fun _ _ _ => rfl) (fun f => ?_) (by simp) (by simp)
      (by simp) hI.counted.free (by simp) (fun f => .inl ⟨rfl, rfl⟩)
    simp [share, hsettled.hand, hsettled.due, hsettled.spent]
  · simpa only [hc] using hI.lives.empty
  · simpa only [hc] using hI.lives.child
  · simpa only [hc] using hI.lives.child_inj
  · have hqp : q ≠ p := by
      rintro rfl
      rw [hc, hsettled.child] at hq
      cases hq
    rw [hc] at hq
    rw [Function.update_of_ne hqp] at hfd
    exact hI.lives.blank q q' hq fd hfd
  · have hqp : q ≠ p := by
      rintro rfl
      rw [Function.update_self] at hfd
      exact absurd hfd (by simp)
    rw [Function.update_of_ne hqp] at hfd
    exact hI.lives.emptied q fd hfd
  · by_cases hqp : q = p
    · subst hqp
      exact halive
    · rw [Function.update_of_ne hqp] at hq
      exact hI.lives.busy q hq

omit [DecidableEq G] in
theorem inv_of_start {m : Machine G} (h : Start m) :
    Inv m.shared fun _ => ({ Account.begin with busy := false } : Account G) := by
  have hnot : ∀ k g w, ¬ Keeps m.shared (fun _ => ({ Account.begin with busy := false } : Account G)) k g w := by
    intro k g w hk
    cases k with
    | inl f =>
      have htype := hk.type
      rw [(h.file f).2] at htype
      cases htype
    | inr q => cases hk
  have hpage : ∀ g d, m.shared.page g ≠ .pipe d := by
    intro g d hd
    rcases h.page g with hg | hg <;> rw [hg] at hd <;> cases hd
  refine ⟨?_, ?_, ?_⟩
  · refine ⟨fun f => ?_, by simp, by simp, by simp, fun f _ => (h.file f).2, by simp⟩
    simp [(h.file f).1, share, own, h.ofile]
  · refine ⟨fun q fd f hf => ?_, by simp, by simp, by simp, by simp, by simp⟩
    rw [h.ofile q fd] at hf
    cases hf
  refine
    { typed := fun f hf => ?_
      isOpen := fun k g w hk => absurd hk (hnot k g w)
      unique := fun k _ g w hk => absurd hk (hnot k g w)
      kept := fun g d _ hd => absurd hd (hpage g d)
      freeing := by simp
      freeing_inj := by simp
      closed := fun g d hd => absurd hd (hpage g d)
      taken := by simp
      ids := fun g d hd => absurd hd (hpage g d)
      ids_inj := fun g _ d _ hd => absurd hd (hpage g d)
      freed := fun i hi => ?_
      unmade := fun i _ => h.frees i }
  · rw [(h.file f).2] at hf
    cases hf
  · rw [h.made] at hi
    exact absurd hi (Nat.not_lt_zero i)

theorem holds_of_reachable {m : Machine G} (h : (system G).Reachable m) : Holds Inv (fun _ _ => True) Unwanted Account.Settled m := by
  refine System.Reachable.invariant (fun m hm => ?_) (fun m t m' hm hstep => ?_) h
  · refine ⟨_, inv_of_start hm, fun q => ?_⟩
    rcases hm.code q with ⟨a, ha⟩
    rw [ha]
    exact Safe.pure (by constructor <;> rfl)
  refine (hm.step (fun _ => trivial) (fun p k s rs hI hsettled hmay => ?_) hstep).2
  exact ⟨Account.begin, hI.begin hsettled (by simpa using hmay), body_settles k⟩

def pointers (s : State G) (f : FileNo) : ℕ :=
  (Finset.univ.filter fun x : Slot × Fd => s.ofile x.1 x.2 = some f).card

omit [DecidableEq G] in
theorem pointers_eq (s : State G) : pointers s f = ∑ q, own s q f := by
  unfold pointers own
  rw [Finset.card_filter, Fintype.sum_prod_type]

/-- Some descriptor is for an end of the pipe. -/
def HasDescriptor (s : State G) (i : ℕ) : Prop :=
  ∃ q fd f g d, s.ofile q fd = some f ∧ (s.file f).type = .pipe ∧ (s.file f).pipe = some g ∧ s.page g = .pipe d ∧
    d.id = i

omit [DecidableEq G] in
/-- A pipe that has not been freed has a descriptor. -/
theorem Inv.hasDescriptor {s : State G} {rs : Slot → Account G} {g : G} {d : Pipe} (hI : Inv s rs)
    (hsettled : ∀ q, (rs q).Settled) (hd : s.page g = .pipe d) : HasDescriptor s d.id := by
  -- one end is open, for nobody is about to free the pipe
  obtain ⟨w, hopen⟩ : ∃ w, d.isOpen w = true := by
    by_contra hall
    have hclosed : ∀ w, d.isOpen w = false := fun w => by simpa using fun h => hall ⟨w, h⟩
    rcases hI.piped.closed g d hd hclosed with ⟨q, hq⟩
    rw [(hsettled q).freeing] at hq
    cases hq
  rcases hI.piped.kept g d w hd hopen with ⟨k, hk⟩
  cases k with
  | inr q =>
    have hq : (rs q).closing = some (g, w) := hk
    rw [(hsettled q).closing] at hq
    cases hq
  | inl f =>
    have hend : (s.file f).IsEnd g w := hk
    have href : (s.file f).ref ≠ 0 := fun hzero => by
      have htype := hend.type
      rw [hI.counted.free f hzero] at htype
      cases htype
    rw [hI.counted.count f] at href
    obtain ⟨q, -, hq⟩ := Finset.exists_ne_zero_of_sum_ne_zero href
    have hown : own s q f ≠ 0 := by
      simpa [share, (hsettled q).hand, (hsettled q).due, (hsettled q).spent] using hq
    obtain ⟨fd, -, hfd⟩ := Finset.exists_ne_zero_of_sum_ne_zero hown
    exact ⟨q, fd, f, g, d, by simpa using hfd, hend.type, hend.pipe, hd, rfl⟩

/-- No panic of `filedup` or `fileclose`, nothing that is not a pipe is closed as one, and no page is freed that is
not a pipe; a file that is in use never belongs to a pipe that has been freed; when no call is in progress, the
counts are the numbers of descriptors and a pipe has been freed, once, when it has no descriptor. -/
theorem files_of_reachable {m : Machine G} (h : (system G).Reachable m) :
    (∀ p e, e ≠ .initExiting → m.code p ≠ .halt e) ∧
      (∀ f, (m.shared.file f).ref = 0 → (m.shared.file f).type = .none) ∧
      (∀ f, (m.shared.file f).type = .pipe → ∃ g d, (m.shared.file f).pipe = some g ∧ m.shared.page g = .pipe d ∧
        m.shared.frees d.id = 0) ∧
      (∀ i, m.shared.frees i ≤ 1) ∧
      (m.Quiet → (∀ f, (m.shared.file f).ref = pointers m.shared f) ∧
        ∀ i < m.shared.made, m.shared.frees i = 0 ↔ HasDescriptor m.shared i) := by
  have hholds := holds_of_reachable h
  refine ⟨fun p e he => hholds.not_halt he p, ?_⟩
  rcases hholds with ⟨rs, hI, hsafe⟩
  refine ⟨hI.counted.free, fun f hf => ?_, fun i => ?_, fun hquiet => ?_⟩
  · rcases hI.piped.typed f hf with ⟨g, hg⟩
    rcases hI.piped.isOpen (.inl f) g _ ⟨hf, hg, rfl⟩ with ⟨d, hd, -⟩
    exact ⟨g, d, hg, hd, (hI.piped.ids g d hd).2⟩
  · rcases Nat.lt_or_ge i m.shared.made with hi | hi
    · rcases hI.piped.freed i hi with ⟨g, d, hd, rfl⟩ | hone
      · rw [(hI.piped.ids g d hd).2]
        exact Nat.zero_le 1
      · exact Nat.le_of_eq hone
    · rw [hI.piped.unmade i hi]
      exact Nat.zero_le 1
  have hsettled : ∀ q, (rs q).Settled := by
    intro q
    rcases hquiet q with ⟨a, ha⟩
    have hq := hsafe q
    rw [ha] at hq
    exact hq
  refine ⟨fun f => ?_, fun i hi => ⟨fun hzero => ?_, ?_⟩⟩
  · rw [hI.counted.count f, pointers_eq]
    refine Finset.sum_congr rfl fun q _ => ?_
    simp [share, (hsettled q).hand, (hsettled q).due, (hsettled q).spent]
  · rcases hI.piped.freed i hi with ⟨g, d, hd, rfl⟩ | hone
    · exact hI.hasDescriptor hsettled hd
    · omega
  · rintro ⟨q, fd, f, g, d, -, -, -, hd, rfl⟩
    exact (hI.piped.ids g d hd).2

def first : Slot := ⟨0, nproc_pos⟩

def booted : Machine Bool where
  shared :=
    { file := fun _ =>
        { type := .none, ref := 0, readable := false, writable := false, pipe := none, ip := 0, off := 0 }
      ofile := fun _ _ => none
      life := fun p => if p = first then .alive else .unused
      initproc := first
      page := fun _ => .free
      made := 0
      frees := fun _ => 0 }
  code := fun _ => .pure 0

def piped : Machine Bool :=
  System.follow step booted
    [.start first .pipe, .run first .ok, .run first .ok, .run first .ok, .run first (.page true), .run first .ok,
      .run first .ok, .run first .ok]

theorem files_piped :
    piped.shared.made = 1 ∧ (∀ p e, e ≠ .initExiting → piped.code p ≠ .halt e) ∧
      (∀ f, (piped.shared.file f).ref = 0 → (piped.shared.file f).type = .none) ∧
      (∀ f, (piped.shared.file f).type = .pipe → ∃ g d, (piped.shared.file f).pipe = some g ∧
        piped.shared.page g = .pipe d ∧ piped.shared.frees d.id = 0) ∧
      (∀ i, piped.shared.frees i ≤ 1) ∧
      (piped.Quiet → (∀ f, (piped.shared.file f).ref = pointers piped.shared f) ∧
        ∀ i < piped.shared.made, piped.shared.frees i = 0 ↔ HasDescriptor piped.shared i) := by
  refine ⟨by decide, files_of_reachable ?_⟩
  refine System.Reachable.follow (fun _ _ _ h => h) (System.Reachable.of_init ?_) _
  exact ⟨fun _ => ⟨0, rfl⟩, fun _ => ⟨rfl, rfl⟩, fun _ _ => rfl, fun _ => rfl, fun _ => .inl rfl, rfl, fun _ => rfl⟩

end Xv6.Files
