import Xv6.Vm.Copyuvm

/-!
# Growproc — changing the size of a process

`growproc` hands `sz + n` to `allocuvm` or `deallocuvm` as an unsigned number and takes what they return both for the
new size and, if it is 0, for an error.  It does what its comment says unless the size would become 0 or negative: a
process that gives up all of its memory is told that this failed, and one that gives up more than it has is told that it
succeeded.
-/

namespace Xv6.Vm

open Common PageDir

/-- The fields of `struct proc` that `growproc` uses. -/
structure Image where
  sz : ℕ
  pgdir : PageDir

/-- `sz + n`, the sum of an unsigned and a signed number. -/
def addInt (sz : ℕ) (n : Int32) : ℕ := (((sz : ℤ) + n.toInt) % addrSpace).toNat

def growResult (p : Image) : ℕ × PageDir × Mem → ℤ × Image × Mem
  | (sz, pgdir, s) => if sz = 0 then (-1, { p with pgdir := pgdir }, s) else (0, { sz := sz, pgdir := pgdir }, s)

def growproc (s : Mem) (p : Image) (n : Int32) : Except Panic (ℤ × Image × Mem) :=
  if 0 < n.toInt then
    return growResult p (← allocuvm s p.pgdir p.sz (addInt p.sz n))
  else if n.toInt < 0 then
    return growResult p (← deallocuvm s p.pgdir p.sz (addInt p.sz n))
  else
    return (0, p, s)

/-- A process of a size below `KERNBASE`, whose pages below `PGROUNDUP(sz)` are exactly its user pages, and whose pages
nobody else uses. -/
structure Image.Valid (s : Mem) (p : Image) : Prop where
  lt : p.sz < kernbase
  sized : Sized p.pgdir p.sz
  space : Space p.pgdir
  nodup : (p.pgdir.owned + s.free).Nodup

/-- The size has changed by `n`: what is mapped before and after has kept its bytes, what is new is zero. -/
structure Resized (s : Mem) (p : Image) (n : Int32) (s' : Mem) (p' : Image) : Prop where
  size : (p'.sz : ℤ) = p.sz + n.toInt
  lt : p'.sz < kernbase
  sized : Sized p'.pgdir p'.sz
  kept : ∀ va < pgroundup p.sz, va < pgroundup p'.sz → p'.pgdir.byte s' va = p.pgdir.byte s va
  zero : ∀ va, pgroundup p.sz ≤ va → va < pgroundup p'.sz → p'.pgdir.byte s' va = some 0

structure Unchanged (s : Mem) (p : Image) (s' : Mem) (p' : Image) : Prop where
  size : p'.sz = p.sz
  bytes : ∀ va < kernbase, p'.pgdir.byte s' va = p.pgdir.byte s va

/-- `growproc` returns 0 and has done what it was asked for, or returns -1 and has done nothing. -/
def Exact (s : Mem) (p : Image) (n : Int32) : ℤ × Image × Mem → Prop
  | (r, p', s') => (r = 0 ∧ Resized s p n s' p') ∨ (r = -1 ∧ Unchanged s p s' p')

section

variable {s s' : Mem} {p : Image} {n : Int32} {pd' : PageDir} {newsz : ℕ}

theorem byte_isSome {pd : PageDir} {va : ℕ} : (pd.byte s va).isSome = (pd.lookup va).isSome := Option.isSome_map

theorem Image.Valid.byte_zero (hp : p.Valid s) (hpos : 0 < p.sz) : (p.pgdir.byte s 0).isSome = true := by
  rw [byte_isSome]
  exact (hp.sized 0 (by decide)).2 (Nat.lt_of_lt_of_le hpos (le_pgroundup p.sz))

/-! ## Growing -/

theorem addInt_of_pos (hp : p.sz < kernbase) (hn : 0 < n.toInt) : (addInt p.sz n : ℤ) = p.sz + n.toInt := by
  have hmax := n.toInt_lt
  simp only [kernbase] at hp
  simp only [addInt, addrSpace]
  omega

theorem resized_of_added (hp : p.Valid s) (hnew : newsz < kernbase) (hsize : (newsz : ℤ) = p.sz + n.toInt)
    (hle : p.sz ≤ newsz) (h : Added blank (pgroundup p.sz) (pgroundup newsz) s p.pgdir s' pd') :
    Resized s p n s' { sz := newsz, pgdir := pd' } where
  size := hsize
  lt := hnew
  sized := h.sized hle hp.sized
  kept va hva hva' := by
    have hround := pgroundup_le_kernbase (Nat.le_of_lt hnew)
    have hlast : va < pgroundup newsz := hva'
    have hk : va < kernbase := by omega
    refine hp.space.byte_congr hk ?_ fun f hf => h.page f (not_mem_free hp.nodup hf)
    exact h.outside va (Nat.lt_trans hk kernbase_lt_addrSpace) fun hin => by omega
  zero va hva hva' := by
    rcases h.inside va hva hva' with ⟨f, _, _, hlook, hpage⟩
    rw [PageDir.byte, hlook, Option.map_some, Mem.pageAt, dif_pos f.2, hpage]
    rfl

theorem unchanged_of_added {lo : ℕ} (hp : p.Valid s) (h : Added blank lo lo s p.pgdir s' pd') :
    Unchanged s p s' { p with pgdir := pd' } where
  size := rfl
  bytes va hva := by
    refine hp.space.byte_congr hva ?_ fun f hf => h.page f (not_mem_free hp.nodup hf)
    exact h.outside va (Nat.lt_trans hva kernbase_lt_addrSpace) fun hin => by omega

theorem growproc_pos (hp : p.Valid s) (hn : 0 < n.toInt) : Runs (growproc s p n) (Exact s p n) := by
  have hsize := addInt_of_pos hp.lt hn
  have hnone : ∀ b < kernbase, pgroundup p.sz ≤ b → p.pgdir.lookup b = none :=
    fun b hb hle => hp.sized.lookup_eq_none hb hle
  rw [growproc, if_pos hn]
  refine (allocuvm_spec hnone hp.space hp.nodup).bind fun r hr => .ok ?_
  rcases r with ⟨r, pd', s'⟩
  rcases hr with ⟨rfl, hnew, hle, _, hadd⟩ | ⟨_, hlt, _⟩ | ⟨rfl, _, hadd⟩
  · have hpos : addInt p.sz n ≠ 0 := by omega
    rw [growResult, if_neg hpos]
    exact .inl ⟨rfl, resized_of_added hp hnew hsize hle hadd⟩
  · omega
  · exact .inr ⟨rfl, unchanged_of_added hp hadd⟩

/-! ## Shrinking -/

theorem addInt_of_neg (hp : p.sz < kernbase) (hn : n.toInt < 0) :
    (0 ≤ p.sz + n.toInt ∧ (addInt p.sz n : ℤ) = p.sz + n.toInt) ∨ (p.sz + n.toInt < 0 ∧ p.sz ≤ addInt p.sz n) := by
  have hmin := n.le_toInt
  simp only [kernbase] at hp
  simp only [addInt, addrSpace]
  omega

theorem resized_of_unmapped (hp : p.Valid s) (hsize : (newsz : ℤ) = p.sz + n.toInt) (hle : newsz ≤ p.sz)
    (h : Unmapped (pgroundup newsz) p.sz s p.pgdir s' pd') : Resized s p n s' { sz := newsz, pgdir := pd' } where
  size := hsize
  lt := Nat.lt_of_le_of_lt hle hp.lt
  sized := h.sized hle hp.sized
  kept va hva hva' := by
    have hround := pgroundup_le_kernbase (Nat.le_of_lt hp.lt)
    have hlast : va < pgroundup newsz := hva'
    have hk : va < kernbase := by omega
    have haddr := Nat.lt_trans hk kernbase_lt_addrSpace
    have hlook : pd'.lookup va = p.pgdir.lookup va := by
      rw [h.lookup va haddr, if_neg fun hin => by have := hin.1; omega]
    -- The pages that are left are not free, so nothing was written to them.
    have hnd' : (pd'.owned + s'.free).Nodup := by
      rw [h.owned]
      exact hp.nodup
    rw [Eq.comm]
    refine (h.space hp.space).byte_congr hk hlook.symm fun f hf => ?_
    exact (h.page f (not_mem_free hnd' hf)).symm
  zero va hva hva' := by
    exact absurd (Nat.lt_of_lt_of_le hva' (pgroundup_mono hle)) (Nat.not_lt.2 hva)

theorem growproc_neg (hp : p.Valid s) (hn : n.toInt < 0) (hpos : 0 < p.sz + n.toInt) :
    Runs (growproc s p n) (Exact s p n) := by
  rcases addInt_of_neg hp.lt hn with ⟨_, hsize⟩ | ⟨hlt, _⟩
  · rw [growproc, if_neg (by omega), if_pos hn]
    refine (deallocuvm_spec (Nat.le_of_lt hp.lt) (by omega) hp.space).bind fun r hr => .ok ?_
    rcases r with ⟨r, pd', s'⟩
    rcases hr with ⟨rfl, hu⟩
    have hne : addInt p.sz n ≠ 0 := by omega
    rw [growResult, if_neg hne]
    exact .inl ⟨rfl, resized_of_unmapped hp hsize (by omega) hu⟩
  · omega

/-- Shrinking to nothing unmaps all pages and reports failure. -/
theorem growproc_all (hp : p.Valid s) (hn : n.toInt < 0) (hzero : p.sz + n.toInt = 0) :
    Runs (growproc s p n) fun r => ¬ Exact s p n r := by
  rcases addInt_of_neg hp.lt hn with ⟨_, hsize⟩ | ⟨hlt, _⟩
  · have hnew : addInt p.sz n = 0 := by omega
    rw [growproc, if_neg (by omega), if_pos hn, hnew]
    refine (deallocuvm_spec (Nat.le_of_lt hp.lt) (by omega) hp.space).bind fun r hr => .ok ?_
    rcases r with ⟨r, pd', s'⟩
    rcases hr with ⟨rfl, hu⟩
    rw [growResult, if_pos rfl]
    rintro (⟨h, _⟩ | ⟨_, h⟩)
    · exact absurd h (by decide)
    -- The first page was there and is gone.
    have hsome := hp.byte_zero (by omega)
    have hsized : Sized pd' 0 := hu.sized (Nat.zero_le _) hp.sized
    have hbyte : pd'.byte s' 0 = p.pgdir.byte s 0 := h.bytes 0 (by decide)
    rw [← hbyte, byte_isSome, hsized.lookup_eq_none (by decide) (by decide)] at hsome
    cases hsome
  · omega

theorem growproc_below (hp : p.Valid s) (hn : n.toInt < 0) (hlt : p.sz + n.toInt < 0) :
    growproc s p n = .ok (growResult p (p.sz, p.pgdir, s)) := by
  rcases addInt_of_neg hp.lt hn with ⟨hle, _⟩ | ⟨_, hge⟩
  · omega
  · rw [growproc, if_neg (by omega), if_pos hn, deallocuvm, if_pos hge]
    rfl

theorem unchanged_refl : Unchanged s p s p := ⟨rfl, fun _ _ => rfl⟩

theorem growproc_zero (hp : p.Valid s) (hn : n.toInt = 0) : Runs (growproc s p n) (Exact s p n) := by
  rw [growproc, if_neg (by omega), if_neg (by omega)]
  refine .ok (.inl ⟨rfl, by omega, hp.lt, hp.sized, fun _ _ _ => rfl, fun va hva hva' => ?_⟩)
  exact absurd hva' (Nat.not_lt.2 hva)

/-- `growproc` is exact or has no effect, except where the new size would be 0 or negative. -/
theorem growproc_exact_iff (hp : p.Valid s) :
    (∃ r, growproc s p n = .ok r ∧ Exact s p n r) ↔ 0 ≤ n.toInt ∨ 0 < p.sz + n.toInt ∨ p.sz = 0 := by
  constructor
  · rintro ⟨r, hr, hexact⟩
    by_contra hcond
    simp only [not_or, Int.not_le, Int.not_lt] at hcond
    rcases hcond with ⟨hn, hle, hpos⟩
    rcases Int.lt_or_eq_of_le hle with hlt | hzero
    · -- It reports success with the old size.
      rw [growproc_below hp hn hlt, growResult, if_neg hpos] at hr
      cases hr
      rcases hexact with ⟨_, h⟩ | ⟨h, _⟩
      · have hsize : (p.sz : ℤ) = p.sz + n.toInt := h.size
        omega
      · exact absurd h (by decide)
    · exact (growproc_all hp hn hzero).of_ok hr hexact
  · intro hcond
    refine Ensures.exists_ok ?_ fun _ => trivial
    rcases Int.lt_trichotomy n.toInt 0 with hn | hn | hn
    · by_cases hpos : 0 < p.sz + n.toInt
      · exact growproc_neg hp hn hpos
      · have hzero : p.sz = 0 := by omega
        rw [growproc_below hp hn (by omega), growResult, if_pos hzero]
        exact .ok (.inr ⟨rfl, unchanged_refl⟩)
    · exact growproc_zero hp hn
    · exact growproc_pos hp hn

end

theorem exists_onePage : ∃ (s : Mem) (p : Image), p.Valid s ∧ p.sz = pgsize := by
  have hturns : turns 0 pgsize = 1 := by decide
  have hframes := nframes_eq
  rcases exists_space .small pgsize 0 (by decide) (by rw [hturns, hframes]; decide) with
    ⟨s, pd, hsized, hspace, hnd, _⟩
  exact ⟨s, { sz := pgsize, pgdir := pd }, ⟨(by decide : pgsize < kernbase), hsized, hspace, hnd⟩, rfl⟩

/-- A process with one page grows by one. -/
theorem growproc_exact_onePage : ∃ (s : Mem) (p : Image), p.Valid s ∧ p.sz = pgsize ∧
    ∃ r, growproc s p 4096 = .ok r ∧ Exact s p 4096 r := by
  rcases exists_onePage with ⟨s, p, hp, hsz⟩
  exact ⟨s, p, hp, hsz, (growproc_exact_iff hp).2 (.inl (by decide))⟩

/-- A process gives up its only page: it loses the page and is told that this failed. -/
theorem growproc_not_exact_all : ∃ (s : Mem) (p : Image), p.Valid s ∧ p.sz = pgsize ∧
    ¬ ∃ r, growproc s p (-4096) = .ok r ∧ Exact s p (-4096) r := by
  rcases exists_onePage with ⟨s, p, hp, hsz⟩
  refine ⟨s, p, hp, hsz, ?_⟩
  rintro ⟨r, hr, hexact⟩
  have hn : (-4096 : Int32).toInt = -4096 := by decide
  refine (growproc_all hp (by rw [hn]; decide) ?_).of_ok hr hexact
  rw [hsz, hn]
  rfl

end Xv6.Vm
