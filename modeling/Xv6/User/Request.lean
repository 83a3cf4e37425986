import Xv6.User.Heap

/-!
# Request — `malloc` for every 32-bit size

The sums and products of `malloc` and `morecore` are taken modulo `2^32`, and `sbrk` reads the product as an `int`.
From `2^31 - 15` bytes on it is asked to give memory back, or for nothing; from `2^32 - 7` bytes on the number of units
has wrapped around to one.
-/

namespace Xv6.Umalloc

/-- The `int` that `sbrk` gets for `nu` units. -/
def amount (nu : ℕ) : ℤ :=
  let n : ℕ := nu * headerSize % 2 ^ 32
  if n < 2 ^ 31 then (n : ℤ) else (n : ℤ) - (2 ^ 32 : ℕ)

/-- What happens in a call: `sbrk` is asked for an amount of memory for some units, and the call returns unless the
store into a header faults. -/
structure Outcome where
  asked : List (ℤ × ℕ)
  result : Option (ℕ × Heap)

namespace Heap

variable (h : Heap)

/-- `sbrk(n)` for any `int`.  A break below zero wraps around, and then `deallocuvm` leaves it. -/
def sbrkInt (ok : Bool) (n : ℤ) : Option (ℕ × Heap) :=
  if 0 < n then h.sbrk ok n.toNat
  else if h.brk + n = 0 then none
  else some (h.brk, { h with brk := if h.brk + n < 0 then h.brk else (h.brk + n).toNat })

/-- `morecore` with what it asks for.  The header is in memory if its page is, which ends at a multiple of 4096. -/
def morecoreInt (ok : Bool) (nu : ℕ) : (ℤ × ℕ) × Option (Option Heap) :=
  let nu := if nu < 4096 then 4096 else nu
  ((amount nu, nu),
    match h.sbrkInt ok (amount nu) with
    | none => some none
    | some (hp, h) =>
      if hp + headerSize ≤ (h.brk + 4095) / 4096 * 4096 then
        some (some ({ h.setSize hp nu with core := h.core + nu }.free (hp + headerSize)))
      else none)

def mallocLoopInt (ok : Bool) (nunits : ℕ) : ℕ → Heap → Outcome
  | 0, _ => ⟨[], none⟩
  | n + 1, h =>
    let prevp := h.search nunits
    if h.size (h.ptr prevp) ≥ nunits then ⟨[], some (h.take nunits prevp (h.ptr prevp))⟩
    else
      let r := h.morecoreInt ok nunits
      match r.2 with
      | none => ⟨[r.1], none⟩
      | some none => ⟨[r.1], some (0, h)⟩
      | some (some h) =>
        let o := mallocLoopInt ok nunits n h
        ⟨r.1 :: o.asked, o.result⟩

end Heap

/-- The state of a heap between two calls, in a program whose memory first ended at `start`. -/
def Valid (start : ℕ) (s : State) : Prop :=
  s.heap.brk < kernbase ∧ start ≤ s.heap.brk ∧ (Unused s ∨ ∃ l, Sound s l ∧ ∀ a ∈ l, start ≤ a)

/-- The call asks for as much as it records, and returns 0 or a block of `nbytes` bytes in memory from `sbrk`. -/
def Outcome.Right (start nbytes : ℕ) (o : Outcome) : Prop :=
  (∀ r ∈ o.asked, r.1 = (r.2 * headerSize : ℕ)) ∧
    ∃ ap h, o.result = some (ap, h) ∧
      (ap = 0 ∨ (start + headerSize ≤ ap ∧ ap + nbytes ≤ h.stop (ap - headerSize) ∧ h.stop (ap - headerSize) ≤ h.brk))

variable {s : State} {h : Heap} {nu : ℕ}

variable {start nbytes : ℕ} {l : List ℕ}

theorem Sound.asked (h : Sound s l) (hbrk : s.heap.brk < kernbase) (ok : Bool) (hnu : 2 ^ 28 ≤ nu) :
    (amount nu, nu) ∈ (Heap.mallocLoopInt ok nu 2 s.heap).asked := by
  have hnot : ¬ nu ≤ s.heap.size (s.heap.ptr (s.heap.search nu)) := by
    intro hbig
    obtain ⟨l', q, h', -, hc⟩ := h.list.take (h.list.search_spec h.length_le).1 hbig (by omega)
    have hsum := hc.total
    have htotal := h.total
    have hcore := h.core
    simp only [headerSize, kernbase] at hcore hbrk
    omega
  have hfst : (s.heap.morecoreInt ok nu).1 = (amount nu, nu) := by
    rw [Heap.morecoreInt, if_neg (by omega)]
  simp only [Heap.mallocLoopInt, ge_iff_le, if_neg hnot, hfst]
  split <;> simp

theorem Valid.sound (h : Valid start s) : ∃ l, Sound { s with heap := s.heap.init } l ∧ ∀ a ∈ l, start ≤ a := by
  rcases h.2.2 with hu | ⟨l, hl, habove⟩
  · exact ⟨[], hu.init, List.forall_mem_nil _⟩
  · exact ⟨l, by rw [hl.init_eq]; exact hl, habove⟩

end Xv6.Umalloc
