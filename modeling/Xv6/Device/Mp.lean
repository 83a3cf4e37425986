import Mathlib.Data.Nat.Notation
import Mathlib.Tactic.SplitIfs
import Mathlib.Tactic.ByContra

/-!
# Mp — the configuration table of the firmware

`mpinit` of `mp.c`, over a table that is given by its bytes.  Its loop has the number of turns it may take.  At an
entry of unknown type the `break` leaves only the `switch`: the scan pointer stays where it is, and the loop meets the
same entry for ever.
-/

namespace Xv6.Mp

/-- The bytes from `conf` on. -/
abbrev Table := ℕ → UInt8

def length (conf : Table) : ℕ :=
  (conf 4).toNat + 256 * (conf 5).toNat

def headerSize : ℕ := 44

def ncpu : ℕ := 8

def sum (conf : Table) (len : ℕ) : UInt8 :=
  (List.range len).foldl (fun s i => s + conf i) 0

def Accepted (conf : Table) : Prop :=
  (conf 0 = 80 ∧ conf 1 = 67 ∧ conf 2 = 77 ∧ conf 3 = 80) ∧ (conf 6 = 1 ∨ conf 6 = 4) ∧ sum conf (length conf) = 0

instance (conf : Table) : Decidable (Accepted conf) :=
  inferInstanceAs (Decidable (_ ∧ _ ∧ _))

structure Config where
  /-- The fields `apicid` of `cpus[0]`, …, `cpus[ncpu - 1]`. -/
  apicids : List UInt8
  ioapicid : UInt8
  ismp : Bool

/-- An entry of one of the types that the `switch` has a case for. -/
def Known (conf : Table) (p : ℕ) : Prop :=
  conf p = 0 ∨ conf p = 1 ∨ conf p = 2 ∨ conf p = 3 ∨ conf p = 4

instance (conf : Table) (p : ℕ) : Decidable (Known conf p) :=
  inferInstanceAs (Decidable (_ ∨ _))

def advance (conf : Table) (p : ℕ) : ℕ :=
  if conf p = 0 then p + 20 else if Known conf p then p + 8 else p

def record (conf : Table) (p : ℕ) (c : Config) : Config :=
  if conf p = 0 then
    if c.apicids.length < ncpu then { c with apicids := c.apicids ++ [conf (p + 1)] } else c
  else if conf p = 2 then { c with ioapicid := conf (p + 1) }
  else if Known conf p then c
  else { c with ismp := false }

/-- The loop of `mpinit`; nothing if the turns do not suffice. -/
def loop (conf : Table) : ℕ → ℕ → Config → Option Config
  | 0, _, _ => none
  | n + 1, p, c => if p < length conf then loop conf n (advance conf p) (record conf p c) else some c

inductive Outcome
  /-- "Expect to run on an SMP" -/
  | notSmp
  /-- "Didn't find a suitable machine" -/
  | unsuitable
  | done (c : Config)

def mpinit (n : ℕ) (conf : Table) : Option Outcome :=
  if Accepted conf then
    (loop conf n headerSize { apicids := [], ioapicid := 0, ismp := true }).map fun c =>
      if c.ismp then .done c else .unsuitable
  else some .notSmp

/-- The entries that the loop meets, by their places. -/
inductive Met (conf : Table) : ℕ → Prop
  | first : headerSize < length conf → Met conf headerSize
  | next {p : ℕ} : Met conf p → advance conf p < length conf → Met conf (advance conf p)

variable {conf : Table} {p : ℕ}

theorem Met.lt (h : Met conf p) : p < length conf := by
  cases h <;> assumption

theorem lt_advance (h : Known conf p) : p < advance conf p := by
  simp only [advance, if_pos h]
  split <;> omega

theorem record_ismp (h : Known conf p) (c : Config) : (record conf p c).ismp = c.ismp := by
  simp only [record, if_pos h]
  split_ifs <;> rfl

theorem advance_of_not_known (h : ¬ Known conf p) : advance conf p = p := by
  rw [advance, if_neg fun h0 => h (.inl h0), if_neg h]

/-- At an unknown entry the loop goes on and on. -/
theorem loop_eq_none (h : ¬ Known conf p) (hp : p < length conf) (n : ℕ) (c : Config) : loop conf n p c = none := by
  induction n generalizing c with
  | zero => rfl
  | succ n ih =>
    rw [loop, if_pos hp, advance_of_not_known h]
    exact ih _

theorem loop_eq_none_of_met (hmet : Met conf p) (h : ∀ n c, loop conf n p c = none) (n : ℕ) (c : Config) :
    loop conf n headerSize c = none := by
  induction hmet generalizing n c with
  | first => exact h n c
  | next hmet _ ih =>
    refine ih (fun n c => ?_) n c
    cases n with
    | zero => rfl
    | succ n =>
      rw [loop, if_pos hmet.lt]
      exact h n _

theorem loop_eq_some (hknown : ∀ q, Met conf q → Known conf q) (n : ℕ) (hp : p < length conf → Met conf p)
    (hn : length conf < p + n) (hpos : 0 < n) (c : Config) : ∃ c', loop conf n p c = some c' := by
  induction n generalizing p c with
  | zero => exact absurd hpos (Nat.lt_irrefl 0)
  | succ n ih =>
    rw [loop]
    split
    case isTrue hlt =>
      have hgo := lt_advance (hknown p (hp hlt))
      exact ih (hp hlt).next (by omega) (by omega) _
    case isFalse => exact ⟨c, rfl⟩

theorem loop_ismp {n : ℕ} {c c' : Config} (h : loop conf n p c = some c') : c'.ismp = c.ismp := by
  induction n generalizing p c with
  | zero => cases h
  | succ n ih =>
    rw [loop] at h
    split at h
    case isFalse => rw [Option.some.inj h]
    case isTrue hlt =>
      by_cases hk : Known conf p
      · rw [ih h, record_ismp hk]
      · rw [advance_of_not_known hk, loop_eq_none hk hlt] at h
        cases h

/-- For a table that passes the tests, `mpinit` ends just if it meets no entry of unknown type, and it never comes to
the panic that is meant for one. -/
theorem mpinit_ends_iff (conf : Table) (h : Accepted conf) :
    ((∃ n r, mpinit n conf = some r) ↔ ∀ p, Met conf p → Known conf p) ∧ ∀ n, mpinit n conf ≠ some .unsuitable := by
  simp only [mpinit, if_pos h]
  refine ⟨⟨?_, fun hknown => ?_⟩, fun n hn => ?_⟩
  · rintro ⟨n, r, hr⟩ p hmet
    by_contra hk
    rw [loop_eq_none_of_met hmet (loop_eq_none hk hmet.lt)] at hr
    cases hr
  · obtain ⟨c, hc⟩ := loop_eq_some hknown (length conf + 1) Met.first (by omega) (by omega) _
    exact ⟨_, _, by rw [hc]; rfl⟩
  · obtain ⟨c, hc, hr⟩ := Option.map_eq_some_iff.mp hn
    rw [if_pos (loop_ismp hc)] at hr
    cases hr

def headerTable : Table := fun i =>
  [80, 67, 77, 80, 44, 0, 4, 160].getD i 0

theorem mpinit_ends_headerTable : Accepted headerTable ∧ ∃ n r, mpinit n headerTable = some r := by
  have hacc : Accepted headerTable := by decide
  refine ⟨hacc, (mpinit_ends_iff headerTable hacc).1.mpr fun p hmet => ?_⟩
  -- the table ends with its header
  have hlt : headerSize < length headerTable := by
    induction hmet with
    | first h => exact h
    | next _ _ ih => exact ih
  exact absurd hlt (by decide)

/-- The same table with one byte more, an entry of type 5. -/
def unknownTable : Table := fun i =>
  if i = 44 then 5 else [80, 67, 77, 80, 45, 0, 4, 154].getD i 0

theorem mpinit_unknownTable : Accepted unknownTable ∧ ∀ n, mpinit n unknownTable = none := by
  have hacc : Accepted unknownTable := by decide
  refine ⟨hacc, fun n => ?_⟩
  rw [mpinit, if_pos hacc, loop_eq_none (by decide) (by decide)]
  rfl

end Xv6.Mp
