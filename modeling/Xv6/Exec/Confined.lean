import Xv6.Exec.Run

/-!
# Confined — where `copyout` goes wrong

`exec` lets `copyout` write the arguments at whatever address the stack pointer has come to.  If an argument is longer
than the new address space this address lies below zero, that is, near the end of the 32-bit addresses.  Between the
memory that the kernel maps and the devices there are no page tables, and there `uva2ka` reads through the null pointer
that `walkpgdir` returns.
-/

namespace Xv6.Exec

open Common Vm PageDir

/-- A directory in which `exec` builds a stack. -/
inductive ExecDir (data : DataSymbol) : PageDir → Prop where
  | built {s₀ s₁ s₂ s₃ : Mem} {pd₀ pd₁ pd₂ pd : PageDir} {file : Contents} {n off sz top : ℕ}
      (hfree : s₀.free.Nodup) (hsetup : setupkvm data s₀ = .ok (some pd₀, s₁))
      (hload : loadSegments file n off s₁ pd₀ 0 = .ok (some sz, pd₁, s₂))
      (halloc : allocuvm s₂ pd₁ (pgroundup sz) (pgroundup sz + 2 * pgsize) = .ok (top, pd₂, s₃)) (hne : top ≠ 0)
      (hclear : clearpteu pd₂ (top - 2 * pgsize) = .ok pd) :
      ExecDir data pd

/-- The user may write the byte at `va + i`, an address of 32 bits. -/
def Writable (pd : PageDir) (va i : ℕ) : Prop := Accessible pd ((va + i) % addrSpace)

/-- `copyout` returns 0 if the user may write all bytes, and then writes these bytes and no others; otherwise it returns
-1 and has written a part that the user may write. -/
def Confined (pd : PageDir) (s : Mem) (va : ℕ) (buf : List UInt8) : Prop :=
  ∃ r s', copyout pd s va buf = .ok (r, s') ∧ (r = 0 ↔ ∀ i < buf.length, Writable pd va i) ∧
    (r = 0 → Wrote pd s va buf s') ∧
    (r ≠ 0 → r = -1 ∧ ∃ m ≤ buf.length, (∀ i < m, Writable pd va i) ∧ Wrote pd s va (buf.take m) s')

section

variable {data : DataSymbol} {pd : PageDir} {va : ℕ} {buf : List UInt8}

theorem ExecDir.stacked (h : ExecDir data pd) : ∃ s0 s top, s0.free.Nodup ∧ Stacked s0 s pd top := by
  cases h with
  | @built s0 s1 s2 s3 pd0 pd1 pd2 _ file n off sz top hfree hsetup hload halloc hne hclear =>
    have hfresh := (((setupkvm_spec data s0).of_ok hsetup).2 pd0 rfl).1
    rcases (loadSegments_spec hfree (.nil hfresh file)).of_ok hload with ⟨hr, _⟩ | ⟨hr, hp, _⟩
    · cases hr
    rw [List.nil_append] at hp hr
    obtain rfl : sz = extent (loadable (headers file n off)) := by simpa using hr
    rcases (hp.building.allocStack hfree).of_ok halloc with ⟨hzero, _⟩ | ⟨htop, hb, _⟩
    · exact absurd hzero hne
    · have hmod := stackTop_mod (extent (loadable (headers file n off)))
      rw [← htop] at hmod
      exact ⟨s0, s3, top, hfree, ((hb.clear (by omega) hmod).of_ok hclear).2⟩

/-- The bytes that can be written lie below `KERNBASE`, so that no address wraps. -/
theorem writable_iff (hsp : Space pd) (hva : va < addrSpace) {n : ℕ} :
    (∀ i < n, Writable pd va i) ↔ ∀ i < n, Accessible pd (va + i) := by
  have hspace := kernbase_lt_addrSpace
  constructor
  · intro h i
    -- By induction on `i`: the address before is below `KERNBASE`.
    induction i using Nat.strong_induction_on with
    | _ i ih =>
      intro hi
      have hrange := accessible_range hsp hva fun j (hj : j < i) => ih j hj (by omega)
      have hlt : va + i < addrSpace := by
        rcases Nat.eq_zero_or_pos i with rfl | hpos
        · exact hva
        · have hprev := hrange (i - 1) (by omega)
          omega
      have hacc := h i hi
      rwa [Writable, Nat.mod_eq_of_lt hlt] at hacc
  · intro h i hi
    have hlt := accessible_range hsp hva h i hi
    rw [Writable, Nat.mod_eq_of_lt (by omega)]
    exact h i hi

end

/-- `copyout` does what it should exactly if the first address that the user may not write, if there is one, has a page
table. -/
theorem copyout_confined_iff {data : DataSymbol} {pd : PageDir} (h : ExecDir data pd) (s : Mem) {va : ℕ}
    (hva : va < addrSpace) (buf : List UInt8) :
    Confined pd s va buf ↔ ∀ i < buf.length, (∀ j < i, Writable pd va j) → ¬ Writable pd va i →
      pd.walkpgdir ((va + i) % addrSpace) ≠ none := by
  rcases h.stacked with ⟨s₀, s₁, top, hnd, hst⟩
  rcases copyout_cases hst.space (hst.nodup_owned hnd) s va buf hva with ⟨s', hres, hc⟩ | ⟨i, hstop⟩
  · -- Everything is written.
    have hall := (writable_iff hst.space hva).2 hc.accessible
    constructor
    · intro _ i hi _ hno
      exact absurd (hall i hi) hno
    · intro _
      exact ⟨0, s', hres, ⟨fun _ => hall, fun _ => rfl⟩, fun _ => hc.wrote, fun hr => absurd rfl hr⟩
  have hmod : (va + i) % addrSpace = va + i := Nat.mod_eq_of_lt hstop.range
  have hbefore := (writable_iff hst.space hva).2 hstop.before
  have hno : ¬ Writable pd va i := by
    rw [Writable, hmod]
    exact hstop.stop
  have hlt := hstop.lt
  rcases hstop.result with ⟨hwalk, hres⟩ | ⟨htab, s', m, hm, hres, hw⟩
  · -- It reads the null pointer.
    constructor
    · rintro ⟨r, s', hok, _⟩
      rw [hres] at hok
      cases hok
    · intro hcond
      refine absurd ?_ (hcond i hlt hbefore hno)
      rw [hmod]
      exact hwalk
  constructor
  · intro _ k hk hbefore' hno'
    -- There is only one first address.
    have hki : k = i := by
      rcases Nat.lt_trichotomy k i with hlt' | heq | hgt
      · exact absurd (hbefore k hlt') hno'
      · exact heq
      · exact absurd (hbefore' i hgt) hno
    rw [hki, hmod]
    intro hnone
    rw [hnone] at htab
    cases htab
  · intro _
    refine ⟨-1, s', hres, ⟨fun hr => absurd hr (by decide), fun hall => absurd (hall i hlt) hno⟩,
      fun hr => absurd hr (by decide), fun _ => ⟨rfl, m, by omega, fun j hj => hbefore j (by omega), hw⟩⟩

theorem exists_execDir : ∃ pd, ExecDir .small pd := by
  have hlen : nentries + 3 ≤ Mem.boot.free.length := by
    rw [Mem.boot_length, nframes_eq]
    decide
  rcases exists_setup .small hlen with ⟨pd0, s1, hsetup, hb, hleft⟩
  rcases hb.exists_stack Mem.boot_nodup (by decide) hleft with ⟨top, pd1, s2, pd2, halloc, hne, hclear, _⟩
  exact ⟨pd2, .built Mem.boot_nodup hsetup (show loadSegments emptyElf 0 0 s1 pd0 0 = _ from rfl) halloc hne hclear⟩

theorem copyout_confined_iff_zero : ∃ pd, ExecDir .small pd ∧ (Confined pd Mem.boot 0 [0] ↔
    ∀ i < [(0 : UInt8)].length, (∀ j < i, Writable pd 0 j) → ¬ Writable pd 0 i →
      pd.walkpgdir ((0 + i) % addrSpace) ≠ none) := by
  rcases exists_execDir with ⟨pd, h⟩
  exact ⟨pd, h, copyout_confined_iff h Mem.boot (by decide) [0]⟩

/-- With a stack that ends at 0x2000 an argument of 40 MB takes the stack pointer to this address. -/
theorem copyout_null : subU 0x2000 (40 * 2 ^ 20) / 4 * 4 = 0xFD802000 ∧ ∃ pd, ExecDir .small pd ∧
    ∀ s buf, buf ≠ [] → copyout pd s 0xFD802000 buf = .error .nullPte := by
  refine ⟨by decide, ?_⟩
  rcases exists_execDir with ⟨pd, h⟩
  refine ⟨pd, h, fun s buf hne => ?_⟩
  rcases h.stacked with ⟨s₀, s₁, top, hnd, hst⟩
  have htab := hst.tables 0xFD802000 (by decide) (by decide)
  have hwalk : pd.walkpgdir 0xFD802000 = none := by
    rw [PageDir.walkpgdir, htab, Option.map_none]
  rcases uva2ka_cases pd (show 0xFD802000 < addrSpace by decide) with ⟨_, _, hnull⟩ | ⟨hsome, _⟩ | ⟨pte, hpte, _⟩
  · rw [copyout, dif_neg hne, hnull]
  · rw [hwalk] at hsome
    cases hsome
  · rw [PageDir.lookup, hwalk] at hpte
    cases hpte

end Xv6.Exec
