import Mathlib.Logic.Function.Basic
import Xv6.Common.Outcome
import Xv6.Common.Transition

/-!
# Program — calls of several processes, one atomic action at a time

A `Prog` is what is left to do of a call: atomic actions on the shared state, each followed by code that depends
on what it has seen.  An interleaving takes an action of one process or lets an idle process start a call.

A proof about all interleavings gives each process an account `r : R` of what it has in hand, which the code
does not know of, and an invariant `I` of the state and of all accounts.  `Moves I G bad p m r Q`: with the account
`r` the code `m` of `p` keeps `I`, makes only changes that `G` allows and has no panic in `bad`, whatever the others
do that keeps `I`, and ends with `Q`.  `Safe` is the case where any change is allowed.
-/

namespace Xv6.Common

open Function (update update_eq_self update_of_ne)

/-! ## Code -/

/-- `C` is what is left open in an action, for instance what is found on the disk. -/
inductive Prog (σ C ε α : Type)
  | pure (a : α)
  | halt (e : ε)
  | act (ready : C → σ → Bool) (upd : C → σ → σ) (next : C → σ → Prog σ C ε α)

namespace Prog

variable {σ C ε α β : Type}

def bind : Prog σ C ε α → (α → Prog σ C ε β) → Prog σ C ε β
  | .pure a, k => k a
  | .halt e, _ => .halt e
  | .act ready upd next, k => .act ready upd fun c s => (next c s).bind k

instance : Monad (Prog σ C ε) where
  pure := .pure
  bind := .bind

/-- An action that waits until it is `ready`. -/
def await (ready : C → σ → Bool) (f : C → σ → Except ε (α × σ)) : Prog σ C ε α :=
  .act ready
    (fun c s =>
      match f c s with
      | .ok x => x.2
      | .error _ => s)
    (fun c s =>
      match f c s with
      | .ok x => .pure x.1
      | .error e => .halt e)

def atomic (f : σ → Except ε (α × σ)) : Prog σ C ε α :=
  await (fun _ _ => true) fun _ => f

def read (f : σ → α) : Prog σ C ε α :=
  atomic fun s => .ok (f s, s)

def modify (f : σ → σ) : Prog σ C ε Unit :=
  atomic fun s => .ok ((), f s)

def choose (f : C → α) : Prog σ C ε α :=
  await (fun _ _ => true) fun c s => .ok (f c, s)

end Prog

/-! ## Interleavings -/

/-- The processes `P` and what is left to do for each. -/
structure Threads (σ C ε ρ P : Type) where
  shared : σ
  code : P → Prog σ C ε ρ

/-- `K` are the calls. -/
inductive Turn (P K C : Type)
  | start (p : P) (k : K)
  | run (p : P) (c : C)

namespace Threads

variable {σ C ε ρ P K : Type} [DecidableEq P]

/-- The next action of `p`. -/
def run (m : Threads σ C ε ρ P) (p : P) (c : C) : Option (Threads σ C ε ρ P) :=
  match m.code p with
  | .pure _ => none
  | .halt _ => none
  | .act ready upd next =>
    if ready c m.shared then
      some { shared := upd c m.shared, code := update m.code p (next c m.shared) }
    else none

/-- A process that has returned from its last call starts the next one. -/
def start (may : P → K → σ → Bool) (body : P → K → Prog σ C ε ρ) (m : Threads σ C ε ρ P) (p : P) (k : K) :
    Option (Threads σ C ε ρ P) :=
  match m.code p with
  | .pure _ => if may p k m.shared then some { m with code := update m.code p (body p k) } else none
  | _ => none

def step (may : P → K → σ → Bool) (body : P → K → Prog σ C ε ρ) (m : Threads σ C ε ρ P) :
    Turn P K C → Option (Threads σ C ε ρ P)
  | .start p k => m.start may body p k
  | .run p c => m.run p c

def Quiet (m : Threads σ C ε ρ P) : Prop :=
  ∀ p, ∃ a, m.code p = .pure a

end Threads

/-! ## Accounts -/

section Accounts

variable {σ C ε α β ρ P K R : Type} [DecidableEq P] {I : σ → (P → R) → Prop} {G : σ → σ → Prop} {J : R → Prop}
  {bad : ε → Prop} {p : P} {r : R}

def Moves (I : σ → (P → R) → Prop) (G : σ → σ → Prop) (bad : ε → Prop) (p : P) :
    Prog σ C ε α → R → (α → R → Prop) → Prop
  | .pure a, r, Q => Q a r
  | .halt e, _, _ => ¬ bad e
  | .act ready upd next, r, Q => ∀ s rs c, I s rs → rs p = r → ready c s = true →
      G s (upd c s) ∧ ∃ r', I (upd c s) (update rs p r') ∧ Moves I G bad p (next c s) r' Q

variable {Q : α → R → Prop} {m : Prog σ C ε α} {f : σ → α}

theorem Moves.pure {a : α} (h : Q a r) : Moves I G bad p (Pure.pure a : Prog σ C ε α) r Q := h

theorem Moves.mono {Q' : α → R → Prop} (h : Moves I G bad p m r Q) (hQ : ∀ a r, Q a r → Q' a r) :
    Moves I G bad p m r Q' := by
  induction m generalizing r with
  | pure a => exact hQ a r h
  | halt e => exact h
  | act ready upd next ih =>
    intro s rs c hI hr hready
    rcases h s rs c hI hr hready with ⟨hG, r', hI', hnext⟩
    exact ⟨hG, r', hI', ih c s hnext⟩

theorem Moves.bind {k : α → Prog σ C ε β} {Q : β → R → Prop}
    (h : Moves I G bad p m r fun a r => Moves I G bad p (k a) r Q) : Moves I G bad p (m >>= k) r Q := by
  show Moves I G bad p (m.bind k) r Q
  induction m generalizing r with
  | pure a => exact h
  | halt e => exact h
  | act ready upd next ih =>
    intro s rs c hI hr hready
    rcases h s rs c hI hr hready with ⟨hG, r', hI', hnext⟩
    exact ⟨hG, r', hI', ih c s hnext⟩

/-- An action that panics changes nothing, so `G` has to allow that. -/
theorem Moves.await {ready : C → σ → Bool} {f : C → σ → Except ε (α × σ)} (hG : ∀ s, G s s)
    (h : ∀ s rs c, I s rs → rs p = r → ready c s = true → Ensures bad (f c s) fun x => G s x.2 ∧ ∃ r', I x.2 (update rs p r') ∧ Q x.1 r') :
    Moves I G bad p (Prog.await ready f) r Q := by
  intro s rs c hI hr hready
  have hf := h s rs c hI hr hready
  simp only
  cases hfc : f c s with
  | ok x =>
    rcases hf.of_ok hfc with ⟨hstep, r', hI', hQ⟩
    exact ⟨hstep, r', hI', hQ⟩
  | error e => exact ⟨hG s, r, by rw [← hr, update_eq_self]; exact hI, hf.not_bad hfc⟩

theorem Moves.atomic {f : σ → Except ε (α × σ)} (hG : ∀ s, G s s)
    (h : ∀ s rs, I s rs → rs p = r → Ensures bad (f s) fun x => G s x.2 ∧ ∃ r', I x.2 (update rs p r') ∧ Q x.1 r') :
    Moves I G bad p (Prog.atomic f : Prog σ C ε α) r Q :=
  Moves.await hG fun s rs _ hI hr _ => h s rs hI hr

theorem Moves.modify {f : σ → σ} {Q : Unit → R → Prop} (hG : ∀ s, G s s)
    (h : ∀ s rs, I s rs → rs p = r → G s (f s) ∧ ∃ r', I (f s) (update rs p r') ∧ Q () r') :
    Moves I G bad p (Prog.modify f : Prog σ C ε Unit) r Q :=
  Moves.atomic hG fun s rs hI hr => Ensures.ok (h s rs hI hr)

theorem Moves.look (hG : ∀ s, G s s) (h : ∀ s rs, I s rs → rs p = r → ∃ r', I s (update rs p r') ∧ Q (f s) r') :
    Moves I G bad p (Prog.read f : Prog σ C ε α) r Q :=
  Moves.atomic hG fun s rs hI hr => Ensures.ok ⟨hG s, h s rs hI hr⟩

theorem Moves.read (hG : ∀ s, G s s) (h : ∀ s rs, I s rs → rs p = r → Q (f s) r) :
    Moves I G bad p (Prog.read f : Prog σ C ε α) r Q := by
  refine Moves.look hG fun s rs hI hr => ⟨r, ?_, h s rs hI hr⟩
  rw [← hr, update_eq_self]
  exact hI

/-! ### Any change allowed -/

abbrev Safe (I : σ → (P → R) → Prop) (bad : ε → Prop) (p : P) (m : Prog σ C ε α) (r : R) (Q : α → R → Prop) : Prop :=
  Moves I (fun _ _ => True) bad p m r Q

theorem Safe.pure {a : α} (h : Q a r) : Safe I bad p (Pure.pure a : Prog σ C ε α) r Q :=
  Moves.pure h

theorem Safe.bind {k : α → Prog σ C ε β} {Q : β → R → Prop} (h : Safe I bad p m r fun a r => Safe I bad p (k a) r Q) :
    Safe I bad p (m >>= k) r Q :=
  Moves.bind h

theorem Safe.await {ready : C → σ → Bool} {f : C → σ → Except ε (α × σ)}
    (h : ∀ s rs c, I s rs → rs p = r → ready c s = true → Ensures bad (f c s) fun x => ∃ r', I x.2 (update rs p r') ∧ Q x.1 r') :
    Safe I bad p (Prog.await ready f) r Q :=
  Moves.await (fun _ => trivial) fun s rs c hI hr hready => (h s rs c hI hr hready).mono fun _ hx => ⟨trivial, hx⟩

theorem Safe.atomic {f : σ → Except ε (α × σ)}
    (h : ∀ s rs, I s rs → rs p = r → Ensures bad (f s) fun x => ∃ r', I x.2 (update rs p r') ∧ Q x.1 r') :
    Safe I bad p (Prog.atomic f : Prog σ C ε α) r Q :=
  Safe.await fun s rs _ hI hr _ => h s rs hI hr

theorem Safe.modify {f : σ → σ} {Q : Unit → R → Prop}
    (h : ∀ s rs, I s rs → rs p = r → ∃ r', I (f s) (update rs p r') ∧ Q () r') :
    Safe I bad p (Prog.modify f : Prog σ C ε Unit) r Q :=
  Safe.atomic h

theorem Safe.read (h : ∀ s rs, I s rs → rs p = r → Q (f s) r) : Safe I bad p (Prog.read f : Prog σ C ε α) r Q :=
  Moves.read (fun _ => trivial) h

theorem Safe.choose {f : C → α} (h : ∀ c, Q (f c) r) : Safe I bad p (Prog.choose f : Prog σ C ε α) r Q := by
  refine Safe.await fun s rs c hI hr _ => Ensures.ok ⟨r, ?_, h c⟩
  rw [← hr, update_eq_self]
  exact hI

/-! ### Fields of an account -/

theorem field_update_of_eq {β : Type} {k : P → R} (x : R → β) (h : x r = x (k p)) (q : P) :
    x (update k p r q) = x (k q) := by
  by_cases hq : q = p
  · subst hq
    simpa using h
  · rw [update_of_ne hq]

theorem field_update {β : Type} {rs : P → R} (x : R → β) (hr : rs p = r) (r' : R) (h : x r' = x r) (q : P) :
    x (update rs p r' q) = x (rs q) :=
  field_update_of_eq x (by rw [hr]; exact h) q

/-! ### Along a run -/

/-- The accounts fit the state and each process can go on with its own; `J` is for those that are not in a call. -/
def Holds (I : σ → (P → R) → Prop) (G : σ → σ → Prop) (bad : ε → Prop) (J : R → Prop) (m : Threads σ C ε ρ P) :
    Prop :=
  ∃ rs, I m.shared rs ∧ ∀ p, Moves I G bad p (m.code p) (rs p) fun _ => J

theorem Holds.not_halt {m : Threads σ C ε ρ P} {e : ε} (h : Holds I G bad J m) (he : bad e) (p : P) :
    m.code p ≠ .halt e := by
  rcases h with ⟨rs, _, hsafe⟩
  intro hcode
  have hp := hsafe p
  rw [hcode] at hp
  exact hp he

/-- One action: it is one that `G` allows, and the accounts fit afterwards. -/
theorem Holds.run {m m' : Threads σ C ε ρ P} {c : C} (h : Holds I G bad J m) (hstep : m.run p c = some m') :
    G m.shared m'.shared ∧ Holds I G bad J m' := by
  rcases h with ⟨rs, hI, hsafe⟩
  have hp := hsafe p
  unfold Threads.run at hstep
  split at hstep
  next => cases hstep
  next => cases hstep
  next ready upd next hcode =>
      split_ifs at hstep with hready
      obtain rfl : _ = m' := by simpa using hstep
      rw [hcode] at hp
      rcases hp _ rs c hI rfl hready with ⟨hG, r', hI', hnext⟩
      refine ⟨hG, _, hI', fun q => ?_⟩
      by_cases hq : q = p
      · subst hq
        simpa using hnext
      · simpa [update_of_ne hq] using hsafe q

theorem Holds.start {m m' : Threads σ C ε ρ P} {may : P → K → σ → Bool} {body : P → K → Prog σ C ε ρ} {k : K}
    (h : Holds I G bad J m)
    (hcall : ∀ s rs, I s rs → J (rs p) → may p k s = true →
      ∃ r', I s (update rs p r') ∧ Moves I G bad p (body p k) r' fun _ => J)
    (hstep : m.start may body p k = some m') : m'.shared = m.shared ∧ Holds I G bad J m' := by
  rcases h with ⟨rs, hI, hsafe⟩
  have hp := hsafe p
  unfold Threads.start at hstep
  split at hstep
  next a hcode =>
      split_ifs at hstep with hmay
      obtain rfl : _ = m' := by simpa using hstep
      rw [hcode] at hp
      rcases hcall m.shared rs hI hp hmay with ⟨r', hI', hbody⟩
      refine ⟨rfl, _, hI', fun q => ?_⟩
      by_cases hq : q = p
      · subst hq
        simpa using hbody
      · simpa [update_of_ne hq] using hsafe q
  next => cases hstep

/-- One turn, of a machine in which calls start with accounts that fit. -/
theorem Holds.step {m m' : Threads σ C ε ρ P} {may : P → K → σ → Bool} {body : P → K → Prog σ C ε ρ} {t : Turn P K C}
    (h : Holds I G bad J m) (hG : ∀ s, G s s)
    (hcall : ∀ p k s rs, I s rs → J (rs p) → may p k s = true →
      ∃ r', I s (update rs p r') ∧ Moves I G bad p (body p k) r' fun _ => J)
    (hstep : m.step may body t = some m') : G m.shared m'.shared ∧ Holds I G bad J m' := by
  cases t with
  | start p k =>
    rcases h.start (hcall p k) hstep with ⟨hsame, hnext⟩
    exact ⟨hsame ▸ hG _, hnext⟩
  | run p c => exact h.run hstep

end Accounts

end Xv6.Common
