import Mathlib.Logic.Function.Basic
import Mathlib.Data.List.Basic
import Mathlib.Data.List.Induction
import Mathlib.Tactic.Basic

/-!
# WriteTrace — sequences of atomic writes and the redo log

A store is a function from addresses to values, and a device receives *single* atomic writes in
order.  A crash keeps some prefix of the writes issued.

On top of this the file develops the redo log in general: a head cell naming the addresses of a
pending transaction, slots holding its values, and the two write sequences `commitWrites` and
`recoverWrites`.  The contents of a store are described by two predicates,

* `RedoLog.Clean f d` — nothing is pending and the cells outside the log hold `f`;
* `RedoLog.Committed home new old d` — the head names `home`, the slots hold the new values, and
  each cell of `home` holds its old or its new value;

and the crash argument is that every single write of either sequence moves between them.
-/

namespace Xv6.Common

open Function (update update_of_ne update_self)

universe u v

variable {A : Type u} {V : Type v}

section Writes

variable [DecidableEq A]

/-! ## Applying writes -/

/-- The store after the writes `ws`, oldest first. -/
def applyWrites (ws : List (A × V)) (d : A → V) : A → V :=
  ws.foldl (fun d w => update d w.1 w.2) d

@[simp] theorem applyWrites_nil (d : A → V) : applyWrites [] d = d := rfl

@[simp] theorem applyWrites_cons (w : A × V) (ws : List (A × V)) (d : A → V) :
    applyWrites (w :: ws) d = applyWrites ws (update d w.1 w.2) := rfl

theorem applyWrites_append (ws vs : List (A × V)) (d : A → V) :
    applyWrites (ws ++ vs) d = applyWrites vs (applyWrites ws d) := by
  simp [applyWrites, List.foldl_append]

variable {ws : List (A × V)} {d : A → V}

theorem applyWrites_of_forall_ne {a : A} (h : ∀ w ∈ ws, w.1 ≠ a) : applyWrites ws d a = d a := by
  induction ws generalizing d with
  | nil => rfl
  | cons w ws ih =>
    have hne : a ≠ w.1 := fun hEq => h w (by simp) hEq.symm
    rw [applyWrites_cons, ih (fun w' hw' => h w' (List.mem_cons_of_mem _ hw'))]
    exact update_of_ne hne _ _

/-- If all writes to `a` carry the value `f a`, a cell that is written at all ends up with it. -/
theorem applyWrites_of_mem {a : A} {v : V} (hval : ∀ w ∈ ws, w.1 = a → w.2 = v) (hmem : ∃ w ∈ ws, w.1 = a) :
    applyWrites ws d a = v := by
  induction ws generalizing d with
  | nil => simp at hmem
  | cons w ws ih =>
    by_cases htail : ∃ w' ∈ ws, w'.1 = a
    · exact ih (fun w' hw' => hval w' (List.mem_cons_of_mem _ hw')) htail
    have hne : ∀ w' ∈ ws, w'.1 ≠ a := fun w' hw' hEq => htail ⟨w', hw', hEq⟩
    have hw : w.1 = a := by
      rcases hmem with ⟨w', hw', hEq⟩
      rcases List.mem_cons.1 hw' with rfl | hw''
      · exact hEq
      · exact absurd hEq (hne w' hw'')
    rw [applyWrites_cons, applyWrites_of_forall_ne hne, ← hw, update_self]
    exact hval w (by simp) hw

theorem applyWrites_induction {P : (A → V) → Prop} (hstep : ∀ w ∈ ws, ∀ d, P d → P (update d w.1 w.2)) (hd : P d) :
    P (applyWrites ws d) := by
  induction ws generalizing d with
  | nil => simpa using hd
  | cons w ws ih =>
    rw [applyWrites_cons]
    exact ih (fun w' hw' => hstep w' (List.mem_cons_of_mem _ hw')) (hstep w (by simp) d hd)

end Writes

/-! ## Redo logs -/

/-- Where a redo log lives: the head cell, the slots, and how a head value is read. -/
structure RedoLog (A : Type u) (V : Type v) where
  head : A
  slot : Nat → A
  decode : V → Option (List A)

namespace RedoLog

variable (L : RedoLog A V)

/-- Copy the new values into consecutive slots, starting with slot `i`. -/
def slotWrites (new : A → V) : Nat → List A → List (A × V)
  | _, [] => []
  | i, b :: bs => (L.slot i, new b) :: slotWrites new (i + 1) bs

/-- Copy consecutive slots of the store `d` home, starting with slot `i`. -/
def installWrites (d : A → V) : Nat → List A → List (A × V)
  | _, [] => []
  | i, b :: bs => (b, d (L.slot i)) :: installWrites d (i + 1) bs

/-- All writes of one commit: slots, head, home cells, cleared head. -/
def commitWrites (home : List A) (new : A → V) (hdr clr : V) : List (A × V) :=
  L.slotWrites new 0 home ++
    ((L.head, hdr) :: (home.map (fun b => (b, new b)) ++ [(L.head, clr)]))

/-- All writes of one recovery that finds `home` in the head of `d`. -/
def recoverWrites (d : A → V) (home : List A) (clr : V) : List (A × V) :=
  L.installWrites d 0 home ++ [(L.head, clr)]

variable {L}

theorem length_slotWrites (new : A → V) (i : Nat) (bs : List A) : (L.slotWrites new i bs).length = bs.length := by
  induction bs generalizing i with
  | nil => rfl
  | cons b bs ih => simp [slotWrites, ih]

variable {new : A → V} {i : Nat} {bs : List A} {w : A × V}

theorem mem_slotWrites (h : w ∈ L.slotWrites new i bs) : ∃ j b, bs[j]? = some b ∧ w = (L.slot (i + j), new b) := by
  induction bs generalizing i with
  | nil => simp [slotWrites] at h
  | cons b bs ih =>
    rcases List.mem_cons.1 h with rfl | h'
    · exact ⟨0, b, by simp, by simp⟩
    · rcases ih h' with ⟨j, b', hj, hw⟩
      refine ⟨j + 1, b', by simpa using hj, ?_⟩
      simpa [Nat.add_assoc, Nat.add_comm 1 j] using hw

theorem slotWrites_mem {j : Nat} {b : A} (h : bs[j]? = some b) : (L.slot (i + j), new b) ∈ L.slotWrites new i bs := by
  induction bs generalizing i j with
  | nil => simp at h
  | cons c bs ih =>
    cases j with
    | zero =>
      have hcb : c = b := by simpa using h
      subst hcb
      simp [slotWrites]
    | succ j =>
      have hrest : bs[j]? = some b := by simpa using h
      have hmem : (L.slot (i + 1 + j), new b) ∈ L.slotWrites new (i + 1) bs := ih hrest
      have hidx : i + (j + 1) = i + 1 + j := by omega
      rw [hidx]
      exact List.mem_cons_of_mem _ hmem

theorem mem_installWrites {d : A → V} (h : w ∈ L.installWrites d i bs) :
    ∃ j b, bs[j]? = some b ∧ w = (b, d (L.slot (i + j))) := by
  induction bs generalizing i with
  | nil => simp [installWrites] at h
  | cons b bs ih =>
    rcases List.mem_cons.1 h with rfl | h'
    · exact ⟨0, b, by simp, by simp⟩
    · rcases ih h' with ⟨j, b', hj, hw⟩
      refine ⟨j + 1, b', by simpa using hj, ?_⟩
      simpa [Nat.add_assoc, Nat.add_comm 1 j] using hw

theorem map_fst_installWrites (d : A → V) (i : Nat) (bs : List A) : (L.installWrites d i bs).map Prod.fst = bs := by
  induction bs generalizing i with
  | nil => rfl
  | cons b bs ih => simp [installWrites, ih]

/-! ## What a store with a log can look like -/

/-- A region of cells reserved for the log: it contains the head and the first `n` slots, which
are pairwise different. -/
structure Region (L : RedoLog A V) (log : A → Prop) (n : Nat) : Prop where
  head_mem : log L.head
  slot_mem : ∀ i, i < n → log (L.slot i)
  slot_ne_head : ∀ i, i < n → L.slot i ≠ L.head
  slot_inj : ∀ i j, i < n → j < n → L.slot i = L.slot j → i = j

/-- Nothing is pending, and the cells outside the log hold `f`. -/
structure Clean (L : RedoLog A V) (log : A → Prop) (f : A → V) (d : A → V) : Prop where
  head : L.decode (d L.head) = some []
  cells : ∀ a, ¬ log a → d a = f a

/-- The transaction `home` is durable and some of its cells may have been copied home. -/
structure Committed (L : RedoLog A V) (log : A → Prop) (home : List A) (new old d : A → V) :
    Prop where
  head : L.decode (d L.head) = some home
  slots : ∀ i b, home[i]? = some b → d (L.slot i) = new b
  home_cells : ∀ b ∈ home, d b = old b ∨ d b = new b
  cells : ∀ a, ¬ log a → a ∉ home → d a = old a

/-- The writes of a recovery that finds the transaction are copies of the new values. -/
theorem Committed.installWrites_val {log : A → Prop} {home : List A} {old d : A → V}
    (h : L.Committed log home new old d) (hw : w ∈ L.installWrites d 0 home) : w.1 ∈ home ∧ w.2 = new w.1 := by
  rcases mem_installWrites hw with ⟨j, b, hj, rfl⟩
  refine ⟨List.mem_of_getElem? hj, ?_⟩
  simpa using h.slots j b hj

variable [DecidableEq A]

/-- The values a transaction leaves: `new` on `home`, `old` elsewhere. -/
def overlay (home : List A) (new old : A → V) : A → V :=
  fun a => if a ∈ home then new a else old a

section SingleWrites

variable {log : A → Prop} {home : List A} {new old f d : A → V} {hdr clr v : V}

/-- Writing a slot while nothing is pending changes nothing that counts. -/
theorem Clean.update_slot {n i : Nat} (hL : L.Region log n) (hi : i < n) (h : L.Clean log f d) :
    L.Clean log f (update d (L.slot i) v) := by
  refine ⟨?_, ?_⟩
  · rw [update_of_ne (hL.slot_ne_head i hi).symm]
    exact h.head
  intro a ha
  have hne : a ≠ L.slot i := by
    rintro rfl
    exact ha (hL.slot_mem i hi)
  rw [update_of_ne hne]
  exact h.cells a ha

theorem Clean.update_head {n : Nat} (hL : L.Region log n) (hclr : L.decode clr = some [])
    (h : L.Clean log f d) : L.Clean log f (update d L.head clr) := by
  refine ⟨by simpa using hclr, ?_⟩
  intro a ha
  have hne : a ≠ L.head := by
    rintro rfl
    exact ha hL.head_mem
  rw [update_of_ne hne]
  exact h.cells a ha

/-- Writing the head is the commit point: with all slots filled the transaction is durable. -/
theorem Clean.commit (hL : L.Region log home.length) (hout : ∀ b ∈ home, ¬ log b)
    (hhdr : L.decode hdr = some home) (hslots : ∀ i b, home[i]? = some b → d (L.slot i) = new b)
    (h : L.Clean log old d) : L.Committed log home new old (update d L.head hdr) := by
  have hkeep : ∀ a, ¬ log a → update d L.head hdr a = old a := by
    intro a ha
    have hne : a ≠ L.head := by
      rintro rfl
      exact ha hL.head_mem
    rw [update_of_ne hne]
    exact h.cells a ha
  refine ⟨by simpa using hhdr, ?_, ?_, ?_⟩
  · intro i b hb
    have hi : i < home.length := (List.getElem?_eq_some_iff.1 hb).1
    rw [update_of_ne (hL.slot_ne_head i hi)]
    exact hslots i b hb
  · intro b hb
    exact Or.inl (hkeep b (hout b hb))
  · intro a ha _
    exact hkeep a ha

/-- Copying one cell home keeps the transaction durable: this is why replay may be repeated. -/
theorem Committed.install {b : A} (hL : L.Region log home.length) (hout : ∀ b ∈ home, ¬ log b)
    (hb : b ∈ home) (h : L.Committed log home new old d) :
    L.Committed log home new old (update d b (new b)) := by
  have hlog : ∀ a, log a → update d b (new b) a = d a := by
    intro a ha
    have hne : a ≠ b := by
      rintro rfl
      exact hout a hb ha
    exact update_of_ne hne _ _
  refine ⟨?_, ?_, ?_, ?_⟩
  · rw [hlog _ hL.head_mem]
    exact h.head
  · intro i c hc
    rw [hlog _ (hL.slot_mem i (List.getElem?_eq_some_iff.1 hc).1)]
    exact h.slots i c hc
  · intro c hc
    by_cases hcb : c = b
    · subst hcb
      exact Or.inr (by simp)
    · rw [update_of_ne hcb]
      exact h.home_cells c hc
  · intro a ha hmem
    have hne : a ≠ b := by
      rintro rfl
      exact hmem hb
    rw [update_of_ne hne]
    exact h.cells a ha hmem

theorem Committed.finish (hL : L.Region log home.length) (hclr : L.decode clr = some [])
    (hdone : ∀ b ∈ home, d b = new b) (h : L.Committed log home new old d) :
    L.Clean log (overlay home new old) (update d L.head clr) := by
  refine ⟨by simpa using hclr, ?_⟩
  intro a ha
  have hne : a ≠ L.head := by
    rintro rfl
    exact ha hL.head_mem
  rw [update_of_ne hne]
  by_cases hmem : a ∈ home
  · simp [overlay, hmem, hdone a hmem]
  · simp [overlay, hmem, h.cells a ha hmem]

end SingleWrites

/-! ## Crashes -/

section Crash

variable {log : A → Prop} {home : List A} {new old f d : A → V} {hdr clr : V}

theorem Clean.slotWrites {n : Nat} (hL : L.Region log n) (hn : home.length ≤ n)
    (h : L.Clean log f d) (k : Nat) :
    L.Clean log f (applyWrites ((L.slotWrites new 0 home).take k) d) := by
  refine applyWrites_induction ?_ h
  intro w hw d' hd'
  rcases mem_slotWrites (List.mem_of_mem_take hw) with ⟨j, b, hj, rfl⟩
  have hj' : j < home.length := (List.getElem?_eq_some_iff.1 hj).1
  simpa using hd'.update_slot hL (i := 0 + j) (by omega)

theorem applyWrites_slotWrites (hL : L.Region log home.length) {i : Nat} {b : A}
    (hb : home[i]? = some b) : applyWrites (L.slotWrites new 0 home) d (L.slot i) = new b := by
  have hi : i < home.length := (List.getElem?_eq_some_iff.1 hb).1
  refine applyWrites_of_mem ?_ ⟨_, slotWrites_mem (i := 0) hb, by simp⟩
  intro w hw hEq
  rcases mem_slotWrites hw with ⟨j, c, hj, rfl⟩
  have hj' : j < home.length := (List.getElem?_eq_some_iff.1 hj).1
  have hji : j = i := hL.slot_inj j i hj' hi (by simpa using hEq)
  subst hji
  have hcb : c = b := by
    rw [hj] at hb
    exact Option.some.inj hb
  rw [hcb]

theorem Committed.applyWrites (hL : L.Region log home.length) (hout : ∀ b ∈ home, ¬ log b)
    {ws : List (A × V)} (hws : ∀ w ∈ ws, w.1 ∈ home ∧ w.2 = new w.1)
    (h : L.Committed log home new old d) : L.Committed log home new old (applyWrites ws d) := by
  refine applyWrites_induction ?_ h
  intro w hw d' hd'
  rcases hws w hw with ⟨hmem, hval⟩
  rw [hval]
  exact hd'.install hL hout hmem

/-- Copying every cell home and clearing the head, cut off anywhere, leaves the transaction durable
or finished; finished if it was not cut off. -/
theorem Committed.crash (hL : L.Region log home.length) (hout : ∀ b ∈ home, ¬ log b)
    (hclr : L.decode clr = some []) {ws : List (A × V)}
    (hws : ∀ w ∈ ws, w.1 ∈ home ∧ w.2 = new w.1) (hall : ∀ b ∈ home, ∃ w ∈ ws, w.1 = b)
    (h : L.Committed log home new old d) (k : Nat) :
    (k ≤ ws.length ∧ L.Committed log home new old (Common.applyWrites ((ws ++ [(L.head, clr)]).take k) d)) ∨
      (ws.length < k ∧ L.Clean log (overlay home new old)
          (Common.applyWrites ((ws ++ [(L.head, clr)]).take k) d)) := by
  by_cases hk : k ≤ ws.length
  · left
    refine ⟨hk, ?_⟩
    rw [List.take_append_of_le_length hk]
    exact h.applyWrites hL hout (fun w hw => hws w (List.mem_of_mem_take hw))
  right
  refine ⟨by omega, ?_⟩
  rw [List.take_of_length_le (by simp; omega), applyWrites_append]
  refine (h.applyWrites hL hout hws).finish hL hclr ?_
  intro b hb
  exact applyWrites_of_mem (fun w hw hEq => hEq ▸ (hws w hw).2) (hall b hb)

/-- A commit cut off after `k` writes leaves the store clean with the old values, durable, or clean
with the new ones; never the first once the head has been written. -/
theorem Clean.commit_crash (hL : L.Region log home.length) (hout : ∀ b ∈ home, ¬ log b)
    (hhdr : L.decode hdr = some home) (hclr : L.decode clr = some [])
    (h : L.Clean log old d) (k : Nat) :
    let d' := Common.applyWrites ((L.commitWrites home new hdr clr).take k) d
    (k ≤ home.length ∧ L.Clean log old d') ∨ (home.length < k ∧
        (L.Committed log home new old d' ∨ L.Clean log (overlay home new old) d')) := by
  intro d'
  have hlen : (L.slotWrites new 0 home).length = home.length := length_slotWrites new 0 home
  by_cases hk : k ≤ home.length
  · left
    refine ⟨hk, ?_⟩
    have hd' : d' = Common.applyWrites ((L.slotWrites new 0 home).take k) d := by
      simp only [d', commitWrites]
      rw [List.take_append_of_le_length (by omega)]
    rw [hd']
    exact h.slotWrites hL (Nat.le_refl _) k
  right
  refine ⟨by omega, ?_⟩
  -- All slots and the head are on the device; `m` further writes followed.
  obtain ⟨m, rfl⟩ : ∃ m, k = home.length + (m + 1) := ⟨k - home.length - 1, by omega⟩
  let d1 := Common.applyWrites (L.slotWrites new 0 home) d
  have hd1 : L.Clean log old d1 := by
    have hfull : L.Clean log old
        (Common.applyWrites ((L.slotWrites new 0 home).take home.length) d) :=
      h.slotWrites hL (Nat.le_refl _) home.length
    rwa [List.take_of_length_le (by omega)] at hfull
  have hcommitted : L.Committed log home new old (update d1 L.head hdr) :=
    hd1.commit hL hout hhdr (fun i b hb => applyWrites_slotWrites hL hb)
  have hd' : d' = Common.applyWrites ((home.map (fun b => (b, new b)) ++ [(L.head, clr)]).take m)
        (update d1 L.head hdr) := by
    simp only [d', commitWrites, d1]
    rw [List.take_append, List.take_of_length_le (by omega), hlen, Nat.add_sub_cancel_left,
      List.take_succ_cons, applyWrites_append, applyWrites_cons]
  rw [hd']
  have hmem : ∀ w ∈ home.map (fun b => (b, new b)), w.1 ∈ home ∧ w.2 = new w.1 := by
    intro w hw
    rcases List.mem_map.1 hw with ⟨b, hb, rfl⟩
    exact ⟨hb, rfl⟩
  have hall : ∀ b ∈ home, ∃ w ∈ home.map (fun b => (b, new b)), w.1 = b := by
    intro b hb
    exact ⟨(b, new b), List.mem_map.2 ⟨b, hb, rfl⟩, rfl⟩
  rcases hcommitted.crash hL hout hclr hmem hall m with ⟨_, hc⟩ | ⟨_, hc⟩
  · exact Or.inl hc
  · exact Or.inr hc

theorem Committed.recover_crash (hL : L.Region log home.length) (hout : ∀ b ∈ home, ¬ log b)
    (hclr : L.decode clr = some []) (h : L.Committed log home new old d) (k : Nat) :
    let d' := Common.applyWrites ((L.recoverWrites d home clr).take k) d
    (k ≤ home.length ∧ L.Committed log home new old d') ∨
      (home.length < k ∧ L.Clean log (overlay home new old) d') := by
  have hall : ∀ b ∈ home, ∃ w ∈ L.installWrites d 0 home, w.1 = b := by
    intro b hb
    have hb' : b ∈ (L.installWrites d 0 home).map Prod.fst := by
      rwa [map_fst_installWrites]
    rcases List.mem_map.1 hb' with ⟨w, hw, rfl⟩
    exact ⟨w, hw, rfl⟩
  have hlen : (L.installWrites d 0 home).length = home.length := by
    have hmap := congrArg List.length (map_fst_installWrites (L := L) d 0 home)
    simpa using hmap
  have hcrash := h.crash hL hout hclr (fun w hw => h.installWrites_val hw) hall k
  rw [hlen] at hcrash
  exact hcrash

theorem Clean.recover_crash {n : Nat} (hL : L.Region log n) (hclr : L.decode clr = some [])
    (h : L.Clean log f d) (k : Nat) :
    L.Clean log f (Common.applyWrites ((L.recoverWrites d [] clr).take k) d) := by
  refine applyWrites_induction ?_ h
  intro w hw d' hd'
  have hw' : w = (L.head, clr) := by
    have hmem := List.mem_of_mem_take hw
    simpa [recoverWrites, installWrites] using hmem
  subst hw'
  exact hd'.update_head hL hclr

end Crash

end RedoLog

end Xv6.Common
