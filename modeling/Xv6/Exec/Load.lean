import Xv6.Exec.Elf

/-!
# Load — the program in its new address space

`Built` holds of the new directory at all times: its pages are exactly those below its size, and they come from the free
list that `exec` started with.  As long as the program is loaded all of them are for the user (`Building`).  `Holds` says
what is in them.

The program headers may come in any order.  A later segment that overlaps an earlier one replaces its bytes, and what no
segment has bytes for is zero; `image` is the memory that this gives.
-/

namespace Xv6.Exec

open Common Vm PageDir

/-! ## Reading the file -/

theorem number_lt (bytes : List UInt8) (off n : ℕ) : number bytes off n < 256 ^ n := by
  have hgen : ∀ l : List UInt8, l.foldr (fun b x => b.toNat + 256 * x) 0 < 256 ^ l.length := by
    intro l
    induction l with
    | nil => exact Nat.one_pos
    | cons b l ih =>
      have hb := b.toNat_lt
      rw [List.foldr_cons, List.length_cons, pow_succ]
      omega
  refine Nat.lt_of_lt_of_le (hgen _) (Nat.pow_le_pow_right (by decide) ?_)
  exact List.length_take_le n _

theorem readi_eq_some {file : Contents} {off n : ℕ} {bytes : List UInt8} (h : readi file off n = some bytes) :
    bytes = (file.1.drop off).take n ∧ (0 < bytes.length → off + bytes.length ≤ file.1.length) := by
  unfold readi at h
  split_ifs at h
  obtain rfl : (file.1.drop off).take n = bytes := by simpa using h
  refine ⟨rfl, fun hpos => ?_⟩
  rw [List.length_take, List.length_drop] at hpos ⊢
  omega

theorem take_append_take_drop {α : Type} (l : List α) (off m n : ℕ) :
    (l.drop off).take m ++ (l.drop (off + m)).take n = (l.drop off).take (m + n) := by
  rw [← List.drop_drop, List.take_add]

/-! ## The address space under construction -/

/-- A directory of size `sz`, built from free pages of `s₀`. -/
structure Built (s₀ s : Mem) (pd : PageDir) (sz : ℕ) : Prop where
  lt : sz < kernbase
  sized : Sized pd sz
  space : Space pd
  owned : pd.owned + s.free = s₀.free
  page : ∀ f, f ∉ s₀.free → s.page f = s₀.page f
  tables : ∀ va, kernbase + phystop ≤ va → va < 0xFE000000 → pd.pde (pdx va) = none

/-- All pages are for the user. -/
structure Building (s₀ s : Mem) (pd : PageDir) (sz : ℕ) : Prop extends Built s₀ s pd sz where
  user : ∀ va < kernbase, ∀ pte, pd.lookup va = some pte → pte.perm.u = true

section

variable {s₀ s s' : Mem} {pd pd' : PageDir} {sz sz' : ℕ}

theorem Built.nodup (h : Built s₀ s pd sz) (hnd : s₀.free.Nodup) : (pd.owned + s.free).Nodup := by
  rw [h.owned]
  exact hnd

theorem Built.nodup_owned (h : Built s₀ s pd sz) (hnd : s₀.free.Nodup) : pd.owned.Nodup :=
  (Multiset.nodup_add.1 (h.nodup hnd)).1

theorem Built.mem_free (h : Built s₀ s pd sz) {f : Frame} (hf : f ∈ pd.owned) : f ∈ s₀.free := by
  rw [← Multiset.mem_coe, ← h.owned]
  exact Multiset.mem_add.2 (.inl hf)

variable {va n off : ℕ} {file : Contents} {phs : List Proghdr} {ph : Proghdr}

theorem Built.wrote (h : Built s₀ s pd sz) {bytes : List UInt8} (hva : va + bytes.length ≤ kernbase)
    (hw : Wrote pd s va bytes s') :
    Built s₀ s' pd sz where
  lt := h.lt
  sized := h.sized
  space := h.space
  owned := by rw [hw.free, h.owned]
  page f hf := by
    refine (hw.page f fun vb _ hhi pte hpte heq => ?_).trans (h.page f hf)
    have hvb : vb < kernbase := Nat.lt_of_lt_of_le hhi hva
    rcases h.space.frame hvb hpte with ⟨g, hg, hlook⟩
    obtain rfl : f = g := Subtype.ext (heq.trans hg)
    exact hf (h.mem_free (mem_owned hvb hlook))
  tables := h.tables

theorem Built.freevm (h : Built s₀ s pd sz) :
    Runs (freevm s pd) fun s' => (s'.free : Multiset Frame) = s₀.free ∧ ∀ f, f ∉ s₀.free → s'.page f = s₀.page f := by
  refine (freevm_spec s h.space).mono fun s' hs' => ?_
  have hfree : (s'.free : Multiset Frame) = s₀.free := hs'.1.trans h.owned
  refine ⟨hfree, fun f hf => ?_⟩
  have hf' : f ∉ s'.free := by
    rw [← Multiset.mem_coe, hfree]
    exact hf
  rw [hs'.2 f hf', h.page f hf]

theorem Building.setup (h : Fresh s₀ s pd) : Building s₀ s pd 0 where
  lt := by decide
  sized := h.sized
  space := h.space
  owned := h.owned
  page f _ := by rw [h.page]
  tables va hlo hhi := h.pde va (Nat.lt_trans hhi (by decide)) (.inr ⟨hlo, hhi⟩)
  user va hva pte hpte := by
    rw [h.user va hva] at hpte
    cases hpte

theorem pdx_kernel (hlo : kernbase + phystop ≤ va) (hhi : va < 0xFE000000) : 512 ≤ (pdx va).val := by
  simp only [kernbase, phystop] at hlo
  simp only [pdx]
  omega

theorem Building.grow (h : Building s₀ s pd sz) (hle : sz ≤ sz') (hlt : sz' < kernbase)
    (hadd : Added blank (pgroundup sz) (pgroundup sz') s pd s' pd') : Building s₀ s' pd' sz' where
  lt := hlt
  sized := hadd.sized hle h.sized
  space := hadd.space (pgroundup_le_kernbase (Nat.le_of_lt hlt)) h.space
  owned := hadd.owned.trans h.owned
  page f hf := by
    have hf' : f ∉ s.free := fun hmem => hf (by
      rw [← Multiset.mem_coe, ← h.owned]
      exact Multiset.mem_add.2 (.inr hmem))
    rw [hadd.page f hf', h.page f hf]
  tables va hlo hhi := by rw [hadd.pde _ (pdx_kernel hlo hhi), h.tables va hlo hhi]
  user va hva pte hpte := by
    by_cases hin : pgroundup sz ≤ va ∧ va < pgroundup sz'
    · rcases hadd.inside va hin.1 hin.2 with ⟨f, _, _, hlook, _⟩
      rw [hlook] at hpte
      cases hpte
      rfl
    · rw [hadd.outside va (Nat.lt_trans hva kernbase_lt_addrSpace) hin] at hpte
      exact h.user va hva pte hpte

/-! ## `loaduvm` -/

/-- A piece of the segment has been copied; all of it, if `r` is 0. -/
def Loaded (pd : PageDir) (s : Mem) (addr : ℕ) (file : Contents) (offset sz : ℕ) (r : ℤ) (s' : Mem) : Prop :=
  ∃ bytes, Wrote pd s addr bytes s' ∧ bytes.length ≤ sz ∧
    ((r = 0 ∧ bytes = (file.1.drop offset).take sz ∧ bytes.length = sz) ∨ r = -1)

theorem loadLoop_spec {addr sz i : ℕ} {offset : ℕ} (s : Mem) (hsp : Space pd) (hnd : pd.owned.Nodup)
    (hpres : ∀ va, addr ≤ va → va < addr + sz → pd.Present va) (haddr : addr % pgsize = 0)
    (hend : addr + sz ≤ kernbase) (hmod : i % pgsize = 0) (hoff : offset + i < addrSpace) (hn : turns i sz = n) :
    Runs (loadLoop pd addr file offset sz n s i) fun r =>
      Loaded pd s (addr + i) file (offset + i) (sz - i) r.1 r.2 := by
  induction n generalizing s i with
  | zero =>
    have hge := turns_zero hn
    refine .ok ⟨[], .nil pd s (addr + i), Nat.zero_le _, .inl ⟨rfl, ?_, ?_⟩⟩
    · rw [Nat.sub_eq_zero_of_le hge, List.take_zero]
    · rw [Nat.sub_eq_zero_of_le hge, List.length_nil]
  | succ n ih =>
    rcases turns_succ hn with ⟨hlt, hn'⟩
    have hk : addr + i < kernbase := by omega
    rcases Option.isSome_iff_exists.1 (hpres (addr + i) (by omega) (by omega)) with ⟨pte, hpte⟩
    have hpage : (addr + i) % pgsize = 0 := by
      simp only [pgsize] at *
      omega
    -- The part of the segment that goes into this page.
    have hcount : (if sz - i < pgsize then sz - i else pgsize) = min (sz - i) pgsize := by
      split_ifs <;> omega
    simp only [loadLoop, walk_of_lookup hpte, hcount, Nat.mod_eq_of_lt hoff, Option.map_some, Option.getD_some]
    cases hread : readi file (offset + i) (min (sz - i) pgsize) with
    | none => exact .ok ⟨[], .nil pd s (addr + i), Nat.zero_le _, .inr rfl⟩
    | some bytes =>
      rcases readi_eq_some hread with ⟨hbytes, hfile⟩
      have hlen : bytes.length ≤ min (sz - i) pgsize := by
        rw [hbytes]
        exact List.length_take_le _ _
      have hw : Wrote pd s (addr + i) bytes (s.modifyAt pte.pa (blit 0 bytes)) := by
        have hfit : (addr + i) % pgsize + bytes.length ≤ pgsize := by omega
        have hchunk := Wrote.chunk (s := s) hsp hnd hk hpte hfit
        rwa [hpage] at hchunk
      by_cases hfull : bytes.length = min (sz - i) pgsize
      · simp only [hfull, if_true]
        by_cases hlast : sz - i ≤ pgsize
        · -- It was the last page.
          have hzero : n = 0 := by
            have hge : sz ≤ i + pgsize := by omega
            rw [← hn', turns]
            simp only [pgsize] at *
            omega
          rw [Nat.min_eq_left hlast] at hbytes hfull
          rw [hzero]
          exact .ok ⟨bytes, hw, Nat.le_of_eq hfull, .inl ⟨rfl, hbytes, hfull⟩⟩
        rw [Nat.min_eq_right (by omega)] at hbytes hfull
        have hpos : 0 < bytes.length := by
          rw [hfull]
          decide
        have hle := hfile hpos
        have hsize := file.2
        refine (ih _ (add_pgsize_mod hmod) (by omega) hn').mono fun r hr => ?_
        rcases hr with ⟨rest, hrest, hrlen, hcase⟩
        have haddr' : addr + (i + pgsize) = addr + i + bytes.length := by omega
        rw [haddr'] at hrest
        refine ⟨bytes ++ rest, hw.append hrest, ?_, ?_⟩
        · rw [List.length_append]
          omega
        refine hcase.imp_left ?_
        rintro ⟨hr, heq, hrlen'⟩
        refine ⟨hr, ?_, ?_⟩
        · have hsum : pgsize + (sz - (i + pgsize)) = sz - i := by omega
          rw [heq, hbytes, ← Nat.add_assoc, take_append_take_drop, hsum]
        · rw [List.length_append]
          omega
      · simp only [hfull, if_false]
        exact .ok ⟨bytes, hw, by omega, .inr rfl⟩

theorem loaduvm_spec {addr : ℕ} {offset : ℕ} (hsp : Space pd) (hnd : pd.owned.Nodup)
    (hpres : ∀ va, addr ≤ va → va < addr + n → pd.Present va) (haddr : addr % pgsize = 0) (hend : addr + n ≤ kernbase)
    (hoff : offset < addrSpace) :
    Runs (loaduvm s pd addr file offset n) fun r => Loaded pd s addr file offset n r.1 r.2 := by
  rw [loaduvm, if_neg (not_not.2 haddr)]
  exact loadLoop_spec s hsp hnd hpres haddr hend rfl hoff rfl

/-! ## Segments -/

/-- The program headers that can be read, `n` of them from `off` on. -/
def headers (file : Contents) : ℕ → ℕ → List Proghdr
  | 0, _ => []
  | n + 1, off =>
    match (readStruct file off proghdrSize).map Proghdr.read with
    | none => []
    | some ph => ph :: headers file n ((off + proghdrSize) % addrSpace)

def loadable (phs : List Proghdr) : List Proghdr := phs.filter fun ph => ph.type = elfProgLoad

def extent (phs : List Proghdr) : ℕ := phs.foldl (fun sz ph => max sz (ph.vaddr + ph.memsz)) 0

def image (file : Contents) (phs : List Proghdr) (va : ℕ) : UInt8 :=
  phs.foldl (fun b ph =>
    if ph.vaddr ≤ va ∧ va < ph.vaddr + ph.filesz then file.1.getD (ph.off + (va - ph.vaddr)) 0 else b) 0

/-- What `exec` has found out about a segment when it has loaded it. -/
structure Sound (file : Contents) (ph : Proghdr) : Prop where
  filesz : ph.filesz ≤ ph.memsz
  aligned : ph.vaddr % pgsize = 0
  lt : ph.vaddr + ph.memsz < kernbase
  inFile : 0 < ph.filesz → ph.off + ph.filesz ≤ file.1.length

theorem extent_snoc :
    extent (phs ++ [ph]) = max (extent phs) (ph.vaddr + ph.memsz) := by
  rw [extent, List.foldl_append]
  rfl

theorem image_snoc : image file (phs ++ [ph]) va =
      if ph.vaddr ≤ va ∧ va < ph.vaddr + ph.filesz then file.1.getD (ph.off + (va - ph.vaddr)) 0
      else image file phs va := by
  rw [image, List.foldl_append]
  rfl

theorem image_of_extent_le (hsound : ∀ ph ∈ phs, Sound file ph) (h : extent phs ≤ va) : image file phs va = 0 := by
  induction phs using List.reverseRecOn with
  | nil => rfl
  | append_singleton phs ph ih =>
    rw [extent_snoc] at h
    have hfilesz := (hsound ph (by simp)).filesz
    rw [image_snoc, if_neg (by omega)]
    exact ih (fun ph' hph' => hsound ph' (by simp [hph'])) (by omega)

/-- The pages below the size hold the image. -/
def Holds (pd : PageDir) (s : Mem) (sz : ℕ) (img : ℕ → UInt8) : Prop :=
  ∀ va < pgroundup sz, pd.byte s va = some (img va)

theorem Holds.grow {img : ℕ → UInt8} (h : Holds pd s sz img) (hb : Building s₀ s pd sz) (hnd : s₀.free.Nodup)
    (hlt : sz' < kernbase) (himg : ∀ va, pgroundup sz ≤ va → img va = 0)
    (hadd : Added blank (pgroundup sz) (pgroundup sz') s pd s' pd') : Holds pd' s' sz' img := by
  intro va hva
  have hk : va < kernbase := Nat.lt_of_lt_of_le hva (pgroundup_le_kernbase (Nat.le_of_lt hlt))
  by_cases hold : va < pgroundup sz
  · rw [← h va hold]
    refine hb.space.byte_congr hk ?_ fun f hf => hadd.page f (not_mem_free (hb.nodup hnd) hf)
    exact hadd.outside va (Nat.lt_trans hk kernbase_lt_addrSpace) fun hin => by omega
  · rcases hadd.inside va (Nat.not_lt.1 hold) hva with ⟨f, _, _, hlook, hpage⟩
    rw [himg va (Nat.not_lt.1 hold), PageDir.byte, hlook, Option.map_some, Mem.pageAt, dif_pos f.2, hpage]
    rfl

/-- How far `exec` has come: `phs` are loaded. -/
structure Progress (s₀ s : Mem) (pd : PageDir) (file : Contents) (phs : List Proghdr) : Prop where
  building : Building s₀ s pd (extent phs)
  sound : ∀ ph ∈ phs, Sound file ph
  holds : Holds pd s (extent phs) (image file phs)

theorem Progress.nil (h : Fresh s₀ s pd) (file : Contents) : Progress s₀ s pd file [] where
  building := .setup h
  sound := by simp
  holds va hva := absurd hva (Nat.not_lt_zero va)

/-- `allocuvm` for a segment that ends at `top`: it fails, or the size is now what it should be. -/
theorem Progress.alloc (h : Progress s₀ s pd file phs) (hnd : s₀.free.Nodup) (top : ℕ) :
    Runs (allocuvm s pd (extent phs) top) fun r =>
      (r.1 = 0 ∧ Building s₀ r.2.2 r.2.1 (extent phs)) ∨
        (r.1 = max (extent phs) top ∧ top < kernbase ∧ Building s₀ r.2.2 r.2.1 (max (extent phs) top) ∧
          Holds r.2.1 r.2.2 (max (extent phs) top) (image file phs)) := by
  have hb := h.building
  have himg : ∀ va, pgroundup (extent phs) ≤ va → image file phs va = 0 := fun va hva =>
    image_of_extent_le h.sound (Nat.le_trans (le_pgroundup _) hva)
  refine (allocuvm_spec (fun b hb' hle => hb.sized.lookup_eq_none hb' hle) hb.space (hb.nodup hnd)).mono
    fun r hr => ?_
  rcases hr with ⟨heq, hlt, hle, _, hadd⟩ | ⟨rfl, hlt, hk⟩ | ⟨heq, _, hadd⟩
  · rw [Nat.max_eq_right hle]
    exact .inr ⟨heq, hlt, hb.grow hle hlt hadd, h.holds.grow hb hnd hlt himg hadd⟩
  · rw [Nat.max_eq_left (Nat.le_of_lt hlt)]
    exact .inr ⟨rfl, hk, hb, h.holds⟩
  · exact .inl ⟨heq, hb.grow (Nat.le_refl _) hb.lt hadd⟩

theorem getD_take_drop (l : List UInt8) {k : ℕ} (h : k < n) :
    ((l.drop off).take n).getD k 0 = l.getD (off + k) 0 := by
  rw [List.getD_eq_getElem?_getD, List.getD_eq_getElem?_getD, List.getElem?_take_of_lt h, List.getElem?_drop]

theorem Progress.load (h : Progress s₀ s pd file phs) (hsound : Sound file ph) {s1 s2 : Mem} {pd1 : PageDir}
    (hb : Building s₀ s1 pd1 (extent (phs ++ [ph]))) (hholds : Holds pd1 s1 (extent (phs ++ [ph])) (image file phs))
    (hw : Wrote pd1 s1 ph.vaddr ((file.1.drop ph.off).take ph.filesz) s2)
    (hlen : ((file.1.drop ph.off).take ph.filesz).length = ph.filesz) :
    Progress s₀ s2 pd1 file (phs ++ [ph]) where
  building := by
    have hfilesz := hsound.filesz
    have hlt := hsound.lt
    exact ⟨hb.toBuilt.wrote (by omega) hw, hb.user⟩
  sound ph' hph' := by
    rcases List.mem_append.1 hph' with hph' | hph'
    · exact h.sound ph' hph'
    · obtain rfl : ph' = ph := by simpa using hph'
      exact hsound
  holds va hva := by
    have hk := Nat.lt_of_lt_of_le hva (pgroundup_le_kernbase (Nat.le_of_lt hb.lt))
    rw [image_snoc, hw.byte va hk, hlen]
    by_cases hin : ph.vaddr ≤ va ∧ va < ph.vaddr + ph.filesz
    · rw [if_pos hin, if_pos hin, getD_take_drop _ (by omega)]
    · rw [if_neg hin, if_neg hin]
      exact hholds va hva

theorem loadSegment_spec (hnd : s₀.free.Nodup) (hoff : ph.off < addrSpace) (hvaddr : ph.vaddr < addrSpace)
    (hmemsz : ph.memsz < addrSpace) (h : Progress s₀ s pd file phs) :
    Runs (loadSegment file s pd (extent phs) ph) fun r =>
      (r.1 = none ∧ ∃ sz', Built s₀ r.2.2 r.2.1 sz') ∨
        (r.1 = some (extent (phs ++ [ph])) ∧ Progress s₀ r.2.2 r.2.1 file (phs ++ [ph])) := by
  unfold loadSegment
  by_cases hsize : ph.memsz < ph.filesz
  · rw [if_pos hsize]
    exact .ok (.inl ⟨rfl, _, h.building.toBuilt⟩)
  by_cases hwrap : (ph.vaddr + ph.memsz) % addrSpace < ph.vaddr
  · rw [if_neg hsize, if_pos hwrap]
    exact .ok (.inl ⟨rfl, _, h.building.toBuilt⟩)
  have hsum : (ph.vaddr + ph.memsz) % addrSpace = ph.vaddr + ph.memsz := by
    simp only [addrSpace] at *
    omega
  rw [if_neg hsize, if_neg hwrap, hsum]
  refine (h.alloc hnd _).bind fun r hr => ?_
  rcases r with ⟨sz1, pd1, s1⟩
  rw [← extent_snoc] at hr
  dsimp only at hr ⊢
  by_cases hzero : sz1 = 0
  · rw [if_pos hzero]
    rcases hr with ⟨_, hb⟩ | ⟨_, _, hb, _⟩
    · exact .ok (.inl ⟨rfl, _, hb.toBuilt⟩)
    · exact .ok (.inl ⟨rfl, _, hb.toBuilt⟩)
  rcases hr with ⟨hz, _⟩ | ⟨rfl, hlt, hb, hholds⟩
  · exact absurd hz hzero
  by_cases halign : ph.vaddr % pgsize = 0
  · rw [if_neg hzero, if_neg (not_not.2 halign)]
    -- The segment lies below the size, so its pages are there.
    have hext : ph.vaddr + ph.memsz ≤ pgroundup (extent (phs ++ [ph])) := by
      refine Nat.le_trans ?_ (le_pgroundup _)
      rw [extent_snoc]
      exact Nat.le_max_right _ _
    have hpres : ∀ va, ph.vaddr ≤ va → va < ph.vaddr + ph.filesz → pd1.Present va := fun va _ hva =>
      (hb.sized va (by omega)).2 (by omega)
    refine (loaduvm_spec hb.space (hb.nodup_owned hnd) hpres halign (by omega) hoff).bind fun r hr => .ok ?_
    rcases hr with ⟨bytes, hw, hlen, ⟨hr, rfl, hfull⟩ | hr⟩
    · refine .inr ⟨by simp [hr], h.load ⟨by omega, halign, hlt, fun hpos => ?_⟩ hb hholds hw hfull⟩
      rw [List.length_take, List.length_drop] at hfull
      omega
    · exact .inl ⟨by simp [hr], _, hb.toBuilt.wrote (by omega) hw⟩
  · rw [if_neg hzero, if_pos halign]
    exact .ok (.inl ⟨rfl, _, hb.toBuilt⟩)

theorem readStruct_read (h : (readStruct file off proghdrSize).map Proghdr.read = some ph) :
    ph.off < addrSpace ∧ ph.vaddr < addrSpace ∧ ph.memsz < addrSpace := by
  rcases Option.map_eq_some_iff.1 h with ⟨bytes, _, rfl⟩
  exact ⟨number_lt _ _ 4, number_lt _ _ 4, number_lt _ _ 4⟩

theorem loadSegments_spec (hnd : s₀.free.Nodup) (h : Progress s₀ s pd file phs) :
    Runs (loadSegments file n off s pd (extent phs)) fun r =>
      (r.1 = none ∧ ∃ sz', Built s₀ r.2.2 r.2.1 sz') ∨ (r.1 = some (extent (phs ++ loadable (headers file n off))) ∧
          Progress s₀ r.2.2 r.2.1 file (phs ++ loadable (headers file n off)) ∧
          (headers file n off).length = n) := by
  induction n generalizing s pd phs off with
  | zero =>
    refine .ok (.inr ?_)
    simp only [headers, loadable, List.filter_nil, List.append_nil, List.length_nil]
    exact ⟨trivial, h, trivial⟩
  | succ n ih =>
    rw [loadSegments, headers]
    cases hread : (readStruct file off proghdrSize).map Proghdr.read with
    | none => exact .ok (.inl ⟨rfl, _, h.building.toBuilt⟩)
    | some ph =>
      rcases readStruct_read hread with ⟨hoff, hvaddr, hmemsz⟩
      dsimp only
      by_cases htype : ph.type = elfProgLoad
      · have hload : loadable (ph :: headers file n ((off + proghdrSize) % addrSpace)) =
            [ph] ++ loadable (headers file n ((off + proghdrSize) % addrSpace)) := by
          simp [loadable, htype]
        rw [if_neg (not_not.2 htype), hload, ← List.append_assoc, List.length_cons]
        refine (loadSegment_spec hnd hoff hvaddr hmemsz h).bind fun r hr => ?_
        rcases r with ⟨_ | sz1, pd1, s1⟩
        · rcases hr with hr | ⟨hr, _⟩
          · exact .ok (.inl hr)
          · cases hr
        rcases hr with ⟨hr, _⟩ | ⟨hr, hp⟩
        · cases hr
        · obtain rfl : sz1 = extent (phs ++ [ph]) := by simpa using hr
          refine (ih hp).mono fun r hr => hr.imp_right fun hr => ⟨hr.1, hr.2.1, ?_⟩
          rw [hr.2.2]
      · have hskip : loadable (ph :: headers file n ((off + proghdrSize) % addrSpace)) =
            loadable (headers file n ((off + proghdrSize) % addrSpace)) := by
          simp [loadable, htype]
        rw [if_pos htype, hskip, List.length_cons]
        refine (ih h).mono fun r hr => hr.imp_right fun hr => ⟨hr.1, hr.2.1, ?_⟩
        rw [hr.2.2]

end

end Xv6.Exec
