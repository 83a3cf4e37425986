import Xv6.Process.Mlfq
import Xv6.Process.Records

/-!
# Boost — how many ticks lie between two priority boosts?

`BOOST_INTERVAL` is given in ticks, but `scheduler` counts its own passes, on all CPUs and also when nothing is
RUNNABLE.  The interval is kept as long as every pass comes behind a tick; an idle CPU makes passes without waiting
for one.
-/

namespace Xv6.Process

open Common

/-- What has been seen of the clock. -/
structure Clock where
  /-- The ticks since the last boost, if there has been one. -/
  sinceBoost : Option ℕ
  /-- There has been a tick since the last pass of `scheduler`. -/
  ticked : Bool

namespace Kernel

variable {ncpu : ℕ} {s t : Kernel ncpu} {c : Fin ncpu} {a : Action ncpu} {x y : Kernel ncpu × Clock}

def Boosts (s : Kernel ncpu) : Prop :=
  boostInterval ≤ s.globalTicks + 1

instance (s : Kernel ncpu) : Decidable s.Boosts := inferInstanceAs (Decidable (_ ≤ _))

def watch (s : Kernel ncpu) (a : Action ncpu) (k : Clock) : Clock :=
  match a with
  | .schedPass _ => { sinceBoost := if s.Boosts then some 0 else k.sinceBoost, ticked := false }
  | .timer c => if c.val = 0 then { sinceBoost := k.sinceBoost.map (· + 1), ticked := true } else k
  | _ => k

def watched (ncpu : ℕ) : System (Kernel ncpu × Clock) (Action ncpu) :=
  .ofStep (fun x => (machine ncpu).init x.1 ∧ x.2 = { sinceBoost := none, ticked := true })
    (System.observeStep step watch)

/-- A pass of `scheduler` comes behind a tick. -/
def Paced (x : Kernel ncpu × Clock) : Action ncpu → Prop
  | .schedPass _ => x.2.ticked = true
  | _ => True

theorem globalTicks_countPass :
    s.countPass.globalTicks = if s.Boosts then 0 else s.globalTicks + 1 := by
  unfold countPass
  by_cases h : boostInterval ≤ s.globalTicks + 1
  · rw [if_pos h, if_pos (show s.Boosts from h)]
  · rw [if_neg h, if_neg (show ¬ s.Boosts from h)]

theorem globalTicks_schedPass : (s.schedPass c).globalTicks = s.countPass.globalTicks := by
  unfold schedPass
  cases s.countPass.proc.pick <;> rfl

theorem globalTicks_step (h : step s a = some t) :
    (∃ c, a = .schedPass c ∧ t = s.schedPass c) ∨ (∀ c, a ≠ .schedPass c) ∧ t.globalTicks = s.globalTicks := by
  cases recorded_step h with
  | quiet a t ha hq =>
    refine .inr ⟨?_, hq.globalTicks⟩
    rintro c rfl
    exact ha
  | pass c => exact .inl ⟨c, rfl, rfl⟩
  | timer c t hq =>
    refine .inr ⟨by simp, hq.globalTicks.trans ?_⟩
    unfold tick
    split <;> rfl
  | mlfq c p hc ht =>
    refine .inr ⟨by simp, ?_⟩
    unfold mlfq
    split_ifs <;> rfl
  | alloc a c p np next ha hnp =>
    refine .inr ⟨by rcases ha with rfl | ⟨stack, rfl⟩ <;> simp, ?_⟩
    simp [allocproc, hnp]
  | fill c p np stack hc hcall => exact .inr ⟨by simp, rfl⟩
  | join a p r t ha hrec hticks hglobal =>
    refine .inr ⟨?_, hglobal⟩
    rintro c rfl
    cases ha

/-- There have been as many ticks since the last boost as passes, and one more if the last pass was before a tick. -/
def Behind (x : Kernel ncpu × Clock) : Prop :=
  ∀ n, x.2.sinceBoost = some n → x.1.globalTicks.toNat + (if x.2.ticked then 1 else 0) ≤ n

theorem toNat_add_one_le (g : UInt32) : (g + 1).toNat ≤ g.toNat + 1 := by
  rw [UInt32.toNat_add]
  exact Nat.mod_le _ _

theorem Behind.step (hx : Behind x) (hpace : Paced x a) (h : (watched ncpu).tr x a y) : Behind y := by
  rcases System.observeStep_eq_some.1 h with ⟨hst, hnote⟩
  intro n hn
  rw [hnote] at hn ⊢
  rcases globalTicks_step hst with ⟨c, rfl, hpass⟩ | ⟨hne, hsame⟩
  · have hticked : x.2.ticked = true := hpace
    have hg := toNat_add_one_le x.1.globalTicks
    rw [hpass, globalTicks_schedPass, globalTicks_countPass]
    by_cases hboost : x.1.Boosts
    · simp [watch, hboost]
    · have hle := hx n (by simpa [watch, hboost] using hn)
      rw [hticked, if_pos rfl] at hle
      simp only [watch, hboost, if_false, Bool.false_eq_true]
      omega
  rw [hsame]
  cases a with
  | schedPass c => exact absurd rfl (hne c)
  | timer c =>
    by_cases hc : c.val = 0
    · simp only [watch, hc, if_true] at hn ⊢
      rcases Option.map_eq_some_iff.1 hn with ⟨m, hm, rfl⟩
      have hle := hx m hm
      omega
    · simp only [watch, hc, if_false] at hn ⊢
      exact hx n hn
  | _ => exact hx n hn

/-- CPU `c` has nothing to run, after `g` passes since the last boost. -/
structure Idle (c : Fin ncpu) (g : ℕ) (o : Option ℕ) (x : Kernel ncpu × Clock) : Prop where
  reachable : (watched ncpu).Reachable x
  panicked : x.1.panicked = false
  lock : x.1.lock = none
  cpu : x.1.cpu c = none
  proc : ∀ p, (x.1.proc p).state ≠ .runnable
  globalTicks : x.1.globalTicks.toNat = g
  sinceBoost : x.2.sinceBoost = o

theorem Idle.pass {g : ℕ} {o : Option ℕ} (h : Idle c g o x) :
    ∃ y, Idle c (if x.1.Boosts then 0 else (x.1.globalTicks + 1).toNat) (if x.1.Boosts then some 0 else o) y := by
  have hpick : x.1.countPass.proc.pick = none := by
    cases hp : x.1.countPass.proc.pick with
    | none => rfl
    | some p => exact absurd ((state_countPass p).symm.trans (Table.pick_runnable hp)) (h.proc p)
  have hpass : x.1.schedPass c = x.1.countPass := by simp [schedPass, hpick]
  have hstep : Kernel.step x.1 (.schedPass c) = some x.1.countPass := by
    simp [Kernel.step, h.panicked, h.lock, h.cpu, hpass]
  have hfields : x.1.countPass.panicked = x.1.panicked ∧ x.1.countPass.lock = x.1.lock ∧
      x.1.countPass.cpu = x.1.cpu := by
    unfold countPass
    split <;> exact ⟨rfl, rfl, rfl⟩
  refine ⟨(x.1.countPass, watch x.1 (.schedPass c) x.2), ?_, ?_, ?_, ?_, fun p => ?_, ?_, ?_⟩
  · exact h.reachable.step (System.observeStep_eq_some.2 ⟨hstep, rfl⟩)
  · rw [hfields.1, h.panicked]
  · rw [hfields.2.1, h.lock]
  · rw [hfields.2.2, h.cpu]
  · rw [state_countPass]
    exact h.proc p
  · rw [globalTicks_countPass]
    split <;> rfl
  · rw [← h.sinceBoost]
    rfl

/-- Pass after pass, up to the next boost. -/
theorem Idle.passes {g : ℕ} {o : Option ℕ} (h : Idle c g o x) (n : ℕ) (hn : g + n < boostInterval.toNat) :
    ∃ y, Idle c (g + n) o y := by
  induction n with
  | zero => exact ⟨x, h⟩
  | succ n ih =>
    rcases ih (Nat.lt_of_succ_lt hn) with ⟨y, hy⟩
    have hlt : y.1.globalTicks.toNat + 1 < boostInterval.toNat := by
      rw [hy.globalTicks]
      exact hn
    have hsucc : (y.1.globalTicks + 1).toNat = y.1.globalTicks.toNat + 1 := by
      have hsmall : boostInterval.toNat < 2 ^ 32 := by decide
      rw [UInt32.toNat_add, show (1 : UInt32).toNat = 1 from rfl, Nat.mod_eq_of_lt (by omega)]
    have hnot : ¬ y.1.Boosts := by
      intro hboost
      have hle := UInt32.le_iff_toNat_le.1 hboost
      omega
    rcases hy.pass with ⟨z, hz⟩
    rw [if_neg hnot, if_neg hnot, hsucc, hy.globalTicks] at hz
    exact ⟨z, hz⟩

end Kernel
end Xv6.Process
