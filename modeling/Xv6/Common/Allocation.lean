import Mathlib.Data.Finset.Card
import Mathlib.Data.Finset.Range
import Mathlib.Logic.Function.Basic

/-!
# Allocation — a bitmap and the places that refer to what it marks

A family of places, indexed by any type, holds numbers of units (0 for none); a bitmap marks the
units that are in use.  The units below `lo` are reserved: they are marked and no place holds them.
`Allocated` says that the marks and the places agree and that no unit is held twice.  An allocator
that hands out an unmarked unit and a release that clears a mark keep it, whatever the places are.
-/

namespace Xv6.Common

open Function (update update_of_ne)

universe u

variable {ι : Type u} {lo size b : ℕ} {bit bit' : ℕ → Bool} {ref ref' : ι → ℕ} {i : ι}

structure Allocated (lo size : ℕ) (bit : ℕ → Bool) (ref : ι → ℕ) : Prop where
  /-- 0 is not a unit that could be held. -/
  pos : 0 < lo
  range : ∀ i, ref i ≠ 0 → lo ≤ ref i ∧ ref i < size
  inj : ∀ i j, ref i ≠ 0 → ref i = ref j → i = j
  marked : ∀ b, lo ≤ b → b < size → (bit b = true ↔ ∃ i, ref i = b)
  reserved : ∀ b, b < lo → bit b = true

namespace Allocated

theorem congr (h : Allocated lo size bit ref) (hbit : ∀ b, b < size → bit' b = bit b)
    (href : ∀ i, ref' i = ref i) (hlo : lo ≤ size) : Allocated lo size bit' ref' where
  pos := h.pos
  range i := by
    rw [href i]
    exact h.range i
  inj i j := by
    rw [href i, href j]
    exact h.inj i j
  marked b hb hbs := by
    rw [hbit b hbs, h.marked b hb hbs]
    simp [href]
  reserved b hb := by
    rw [hbit b (by omega)]
    exact h.reserved b hb

theorem bit_of_ref (h : Allocated lo size bit ref) (hi : ref i ≠ 0) : bit (ref i) = true := by
  rcases h.range i hi with ⟨hlo, hsize⟩
  exact (h.marked _ hlo hsize).2 ⟨i, rfl⟩

theorem lo_le_of_bit (h : Allocated lo size bit ref) (hb : bit b = false) : lo ≤ b := by
  by_contra hlt
  have := h.reserved b (by omega)
  simp [hb] at this

theorem ref_ne_of_bit (h : Allocated lo size bit ref) (hb : bit b = false) (hs : b < size) (j : ι) : ref j ≠ b := by
  intro hj
  have := (h.marked b (h.lo_le_of_bit hb) hs).2 ⟨j, hj⟩
  simp [hb] at this

theorem claim [DecidableEq ι] (h : Allocated lo size bit ref) (hb : bit b = false) (hs : b < size)
    (hi : ref i = 0) : Allocated lo size (update bit b true) (update ref i b) := by
  have hlo : lo ≤ b := h.lo_le_of_bit hb
  have hfresh : ∀ j, ref j ≠ b := h.ref_ne_of_bit hb hs
  refine ⟨h.pos, fun j hj => ?_, fun j k hj hjk => ?_, fun c hc hcs => ?_, fun c hc => ?_⟩
  · by_cases hji : j = i
    · simpa [hji] using ⟨hlo, hs⟩
    · simpa [hji] using h.range j (by simpa [hji] using hj)
  · by_cases hji : j = i <;> by_cases hki : k = i
    · exact hji.trans hki.symm
    · exact absurd hjk.symm (by simpa [hji, hki] using hfresh k)
    · exact absurd hjk (by simpa [hji, hki] using hfresh j)
    · exact h.inj j k (by simpa [hji] using hj) (by simpa [hji, hki] using hjk)
  · by_cases hcb : c = b
    · subst hcb
      simpa using ⟨i, by simp⟩
    -- Place `i` held nothing before, so it does not matter for the other units.
    have hc0 : c ≠ 0 := by have := h.pos; omega
    rw [update_of_ne hcb, h.marked c hc hcs]
    constructor
    · rintro ⟨j, hj⟩
      have hji : j ≠ i := by
        rintro rfl
        exact hc0 (hj.symm.trans hi)
      exact ⟨j, by simpa [hji] using hj⟩
    rintro ⟨j, hj⟩
    have hji : j ≠ i := by
      rintro rfl
      exact hcb (by simpa using hj.symm)
    exact ⟨j, by simpa [hji] using hj⟩
  · have hcb : c ≠ b := by omega
    rw [update_of_ne hcb]
    exact h.reserved c hc

theorem release [DecidableEq ι] (h : Allocated lo size bit ref) (hi : ref i ≠ 0) :
    Allocated lo size (update bit (ref i) false) (update ref i 0) := by
  rcases h.range i hi with ⟨hlo, hs⟩
  refine ⟨h.pos, fun j hj => ?_, fun j k hj hjk => ?_, fun c hc hcs => ?_, fun c hc => ?_⟩
  · have hji : j ≠ i := by
      rintro rfl
      simp at hj
    simpa [hji] using h.range j (by simpa [hji] using hj)
  · have hji : j ≠ i := by
      rintro rfl
      simp at hj
    have hki : k ≠ i := by
      rintro rfl
      exact hj (by simpa using hjk)
    exact h.inj j k (by simpa [hji] using hj) (by simpa [hji, hki] using hjk)
  · by_cases hcb : c = ref i
    · subst hcb
      have hgone : ¬ ∃ j, update ref i 0 j = ref i := by
        rintro ⟨j, hj⟩
        by_cases hji : j = i
        · exact hi (by simpa [hji] using hj.symm)
        · exact hji (h.inj i j hi (by simpa [hji] using hj.symm)).symm
      simpa using hgone
    have hc0 : c ≠ 0 := by have := h.pos; omega
    rw [update_of_ne hcb, h.marked c hc hcs]
    constructor
    · rintro ⟨j, hj⟩
      have hji : j ≠ i := by
        rintro rfl
        exact hcb hj.symm
      exact ⟨j, by simpa [hji] using hj⟩
    rintro ⟨j, hj⟩
    have hji : j ≠ i := by
      rintro rfl
      exact hc0 (by simpa using hj.symm)
    exact ⟨j, by simpa [hji] using hj⟩
  · have hcb : c ≠ ref i := by omega
    rw [update_of_ne hcb]
    exact h.reserved c hc

end Allocated

/-! ## Free units -/

def freeCount (size : ℕ) (bit : ℕ → Bool) : ℕ :=
  ((Finset.range size).filter (fun b => bit b = false)).card

theorem freeCount_congr (h : ∀ b, b < size → bit' b = bit b) :
    freeCount size bit' = freeCount size bit := by
  unfold freeCount
  congr 1
  refine Finset.filter_congr fun b hb => ?_
  rw [h b (Finset.mem_range.1 hb)]

theorem exists_of_freeCount_pos (h : 0 < freeCount size bit) : ∃ b, b < size ∧ bit b = false := by
  rcases Finset.card_pos.1 h with ⟨b, hb⟩
  exact ⟨b, by simpa using hb⟩

theorem freeCount_claim (hb : bit b = false) (hs : b < size) :
    freeCount size (update bit b true) + 1 = freeCount size bit := by
  have herase : (Finset.range size).filter (fun c => update bit b true c = false) =
      ((Finset.range size).filter (fun c => bit c = false)).erase b := by
    ext c
    by_cases hc : c = b
    · simp [hc]
    · simp [hc]
  have hmem : b ∈ (Finset.range size).filter (fun c => bit c = false) := by simp [hb, hs]
  unfold freeCount
  rw [herase, Finset.card_erase_of_mem hmem]
  have hpos := Finset.card_pos.2 ⟨b, hmem⟩
  omega

end Xv6.Common
