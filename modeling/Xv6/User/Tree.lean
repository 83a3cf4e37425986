import Xv6.Param
import Mathlib.Data.List.Basic

/-!
# Tree — the arrays of `tree.c`

What `tree` finds under a path is given by a function on paths, and what it does is the list of the array elements it
uses.  Their contents go to the output only.  Each level of the recursion holds a file descriptor, and `stat` needs one
more, so the recursion ends when the process has none left: `fds` is the number of those it can still open.
-/

namespace Xv6.Tree

structure Dirent where
  inum : UInt16
  /-- The bytes of the name before the first NUL. -/
  name : List UInt8

/-- What `open` finds under a path. -/
inductive Node
  | file
  | dir (slots : List Dirent)

abbrev FileSystem := List UInt8 → Option Node

inductive Arr
  | entries
  | isLast
  | nextIsLast
  | buf

def Arr.size : Arr → ℕ
  | .entries => 64
  | .isLast => 32
  | .nextIsLast => 32
  | .buf => 512

structure Access where
  arr : Arr
  idx : ℕ

def InBounds (l : List Access) : Prop :=
  ∀ a ∈ l, a.idx < a.arr.size

def Dirent.valid (de : Dirent) : Bool :=
  decide (de.inum ≠ 0 ∧ de.name ≠ [46] ∧ de.name ≠ [46, 46])

/-- The first loop, which counts the entries: each slot is read into `entries[n]`. -/
def countLoop : ℕ → List Dirent → List Access
  | _, [] => []
  | n, de :: slots => ⟨.entries, n⟩ :: countLoop (if de.valid then n + 1 else n) slots

/-- The path of an entry, in `buf`. -/
def child (path : List UInt8) (de : Dirent) : List UInt8 :=
  path ++ 47 :: de.name

/-- The elements of `buf` that the path of an entry is written to. -/
def childPath (path : List UInt8) : List Access :=
  -- strcpy(buf, path)
  (List.range (path.length + 1)).map (Access.mk .buf) ++
  -- *p++ = '/'
  [⟨.buf, path.length⟩] ++
  -- memmove(p, de.name, DIRSIZ)
  (List.range dirsiz).map (fun i => ⟨.buf, path.length + 1 + i⟩) ++
  -- p[DIRSIZ] = 0
  [⟨.buf, path.length + 1 + dirsiz⟩]

def printIndent (depth : ℕ) : List Access :=
  (List.range depth).map (Access.mk .isLast)

/-- The elements that are used for the arguments of the recursive call. -/
def nextIsLast (depth : ℕ) : List Access :=
  (List.range (depth + 1)).flatMap (fun i => [⟨.nextIsLast, i⟩, ⟨.isLast, i⟩]) ++ [⟨.nextIsLast, depth⟩]

def tree (fs : FileSystem) : ℕ → List UInt8 → ℕ → List Access
  | 0, _, _ => []
  | fds + 1, path, depth =>
    match fs path with
    | some (.dir slots) =>
      countLoop 0 slots ++ (slots.filter Dirent.valid).flatMap fun de =>
        childPath path ++
          match (if fds = 0 then none else fs (child path de)) with
          | none => []
          | some .file => printIndent depth
          | some (.dir _) => printIndent depth ++ nextIsLast depth ++ tree fs fds (child path de) (depth + 1)
    | _ => []

/-- The directories that are visited, with their paths and slots. -/
inductive Visits (fs : FileSystem) : ℕ → List UInt8 → List UInt8 → List Dirent → Prop
  | here {fds : ℕ} {path : List UInt8} {slots : List Dirent} :
      fs path = some (.dir slots) → Visits fs (fds + 1) path path slots
  | inside {fds : ℕ} {path q : List UInt8} {slots l : List Dirent} {de : Dirent} :
      fs path = some (.dir slots) → de ∈ slots.filter Dirent.valid → Visits fs fds (child path de) q l →
        Visits fs (fds + 1) path q l

/-- No slot comes behind 64 entries, and the path of an entry fits into `buf`. -/
structure Fits (path : List UInt8) (slots : List Dirent) : Prop where
  entries : ∀ i < slots.length, (slots.take i).countP Dirent.valid < 64
  buf : slots.any Dirent.valid = true → path.length ≤ 496

variable {depth : ℕ} {fs : FileSystem}

theorem countLoop_iff (n : ℕ) (slots : List Dirent) :
    InBounds (countLoop n slots) ↔ ∀ i < slots.length, n + (slots.take i).countP Dirent.valid < 64 := by
  induction slots generalizing n with
  | nil => exact iff_of_true (List.forall_mem_nil _) fun i hi => absurd hi (Nat.not_lt_zero i)
  | cons de slots ih =>
    have hstep (i : ℕ) : (if de.valid then n + 1 else n) + (slots.take i).countP Dirent.valid =
        n + ((de :: slots).take (i + 1)).countP Dirent.valid := by
      rw [List.take_succ_cons, List.countP_cons]
      split <;> omega
    rw [countLoop, InBounds, List.forall_mem_cons, ← InBounds, ih]
    constructor
    · rintro ⟨hn, hrest⟩ i hi
      cases i with
      | zero => exact hn
      | succ i => exact hstep i ▸ hrest i (Nat.lt_of_succ_lt_succ hi)
    · exact fun h => ⟨h 0 (Nat.succ_pos _), fun i hi => hstep i ▸ h (i + 1) (Nat.succ_lt_succ hi)⟩

theorem childPath_iff (path : List UInt8) : InBounds (childPath path) ↔ path.length ≤ 496 := by
  constructor
  · intro h
    have hlast : path.length + 1 + dirsiz < 512 := h ⟨.buf, _⟩ (List.mem_append_right _ (List.mem_singleton_self _))
    simp only [dirsiz] at hlast
    omega
  intro h a ha
  simp only [childPath, dirsiz, List.mem_append, List.mem_map, List.mem_range, List.mem_singleton] at ha
  rcases ha with ((⟨i, hi, rfl⟩ | rfl) | ⟨i, hi, rfl⟩) | rfl
  all_goals
    simp only [Arr.size]
    omega

theorem printIndent_inBounds (h : depth ≤ 32) : InBounds (printIndent depth) := by
  intro a ha
  obtain ⟨i, hi, rfl⟩ := List.mem_map.mp ha
  exact Nat.lt_of_lt_of_le (List.mem_range.mp hi) h

theorem nextIsLast_inBounds (h : depth < 32) : InBounds (nextIsLast depth) := by
  intro a ha
  rcases List.mem_append.mp ha with ha | ha
  · obtain ⟨i, hi, ha⟩ := List.mem_flatMap.mp ha
    have hlt : i < 32 := Nat.lt_of_le_of_lt (Nat.lt_succ_iff.mp (List.mem_range.mp hi)) h
    rcases List.mem_pair.mp ha with rfl | rfl <;> exact hlt
  · rw [List.mem_singleton.mp ha]
    exact h

theorem Visits.opened {fds : ℕ} {path q : List UInt8} {l : List Dirent} (h : Visits fs fds path q l) :
    fds ≠ 0 ∧ ∃ slots, fs path = some (.dir slots) := by
  cases h with
  | here hdir => exact ⟨Nat.succ_ne_zero _, _, hdir⟩
  | inside hdir _ _ => exact ⟨Nat.succ_ne_zero _, _, hdir⟩

/-- Over the descriptors: an entry is in bounds if its path is and, for a directory, what happens below it. -/
theorem inBounds_tree (fds : ℕ) (path : List UInt8) (h : depth + fds ≤ 32) :
    InBounds (tree fs fds path depth) ↔ ∀ q slots, Visits fs fds path q slots → Fits q slots := by
  induction fds generalizing path depth with
  | zero => exact iff_of_true (List.forall_mem_nil _) fun q slots hv => by cases hv
  | succ fds ih =>
    rw [tree]
    split
    case h_2 hnot =>
      refine iff_of_true (List.forall_mem_nil _) fun q l hv => ?_
      obtain ⟨-, slots, hdir⟩ := hv.opened
      exact absurd hdir (hnot slots)
    case h_1 slots hslots =>
    constructor
    · intro h q l hv
      cases hv with
      | here hdir =>
        obtain rfl : slots = l := by simpa [hslots] using hdir
        constructor
        · simpa using (countLoop_iff 0 slots).mp fun a ha => h a (List.mem_append_left _ ha)
        · intro hany
          obtain ⟨de, hde, hvalid⟩ := List.any_eq_true.mp hany
          refine (childPath_iff path).mp fun a ha => h a (List.mem_append_right _ ?_)
          exact List.mem_flatMap.mpr ⟨de, List.mem_filter.mpr ⟨hde, hvalid⟩, List.mem_append_left _ ha⟩
      | @inside _ _ _ slots' _ de hdir hde hv =>
        obtain rfl : slots = slots' := by simpa [hslots] using hdir
        obtain ⟨hfds, l', hchild⟩ := hv.opened
        refine (@ih (depth + 1) (child path de) (by omega)).mp (fun a ha => h a (List.mem_append_right _ ?_)) q l hv
        refine List.mem_flatMap.mpr ⟨de, hde, List.mem_append_right _ ?_⟩
        rw [if_neg hfds, hchild]
        exact List.mem_append_right _ ha
    · intro h a ha
      have hfits := h path slots (.here hslots)
      rcases List.mem_append.mp ha with ha | ha
      · exact (countLoop_iff 0 slots).mpr (by simpa using hfits.entries) a ha
      obtain ⟨de, hde, ha⟩ := List.mem_flatMap.mp ha
      rcases List.mem_append.mp ha with ha | ha
      · obtain ⟨hmem, hvalid⟩ := List.mem_filter.mp hde
        exact (childPath_iff path).mpr (hfits.buf (List.any_eq_true.mpr ⟨de, hmem, hvalid⟩)) a ha
      split at ha
      · cases ha
      · exact printIndent_inBounds (by omega) a ha
      rcases List.mem_append.mp ha with ha | ha
      · rcases List.mem_append.mp ha with ha | ha
        · exact printIndent_inBounds (by omega) a ha
        · exact nextIsLast_inBounds (by omega) a ha
      · exact (ih (child path de) (by omega)).mpr (fun q l hv => h q l (.inside hslots hde hv)) a ha

/-- The accesses of a run with the descriptors of a process are in bounds just if every directory that is visited fits
into the arrays.  The depth of the tree does not matter: the descriptors run out before the 32 elements do. -/
theorem tree_inBounds_iff (fs : FileSystem) (path : List UInt8) (fds : ℕ) (h : fds ≤ nofile) :
    InBounds (tree fs fds path 0) ↔ ∀ q slots, Visits fs fds path q slots → Fits q slots := by
  have hle : nofile ≤ 32 := by decide
  exact inBounds_tree fds path (by omega)

/-- A root directory as `mkfs` makes it. -/
def freshRoot : FileSystem := fun path =>
  if path = [47] then some (.dir [⟨1, [46]⟩, ⟨1, [46, 46]⟩]) else none

theorem tree_inBounds_freshRoot : InBounds (tree freshRoot 13 [47] 0) := by
  refine (tree_inBounds_iff freshRoot [47] 13 (by decide)).mpr fun q slots hv => ?_
  have hroot : freshRoot [47] = some (.dir [⟨1, [46]⟩, ⟨1, [46, 46]⟩]) := rfl
  cases hv with
  | here hdir =>
    obtain rfl : [⟨1, [46]⟩, ⟨1, [46, 46]⟩] = slots := by simpa [hroot] using hdir
    exact ⟨by decide, by decide⟩
  | @inside _ _ _ l _ _ hdir hde _ =>
    obtain rfl : [⟨1, [46]⟩, ⟨1, [46, 46]⟩] = l := by simpa [hroot] using hdir
    exact absurd hde List.not_mem_nil

/-- A directory with 65 files. -/
def manyFiles : FileSystem := fun path =>
  if path = [47] then some (.dir ((List.range 65).map fun i => ⟨2, [97, UInt8.ofNat (i + 1)]⟩)) else some .file

theorem tree_manyFiles : ¬ InBounds (tree manyFiles 13 [47] 0) := by
  intro h
  have hfits := (inBounds_tree 13 [47] (by decide)).mp h [47] _ (.here rfl)
  exact absurd (hfits.entries 64 (by decide)) (by decide)

end Xv6.Tree
