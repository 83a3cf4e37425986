import Xv6.Fs.Filewrite

/-!
# Lookup — what `namei` and `nameiparent` find

A path stands for the list of its components, the longest pieces without a slash, each cut off after `DIRSIZ` bytes.
`walk` follows them from directory to directory.  `namex` does the same, and takes and drops a reference to each inode on
its way; in the end only the inode that it returns has one more.
-/

namespace Xv6.Fs

open Function (update update_apply update_eq_self update_idem update_of_ne update_self)

/-! ## Paths -/

def components (path : List UInt8) : List (List UInt8) :=
  ((path.splitOnP (· == slash)).filter (· ≠ [])).map (List.take dirsiz)

theorem components_nil : components [] = [] :=
  rfl

theorem components_slash (path : List UInt8) : components (slash :: path) = components path := by
  have hsplit : ([] ++ slash :: path).splitOnP (· == slash) = [] :: path.splitOnP (· == slash) :=
    List.splitOnP_append_cons_of_forall_mem (by simp) slash (by simp) path
  rw [List.nil_append] at hsplit
  rw [components, hsplit, List.filter_cons_of_neg (by simp)]
  rfl

theorem components_dropWhile (path : List UInt8) : components (path.dropWhile (· == slash)) = components path := by
  induction path with
  | nil => rfl
  | cons c path ih =>
    by_cases hc : c = slash
    · subst hc
      rw [List.dropWhile_cons_of_pos (by simp), ih, components_slash]
    · rw [List.dropWhile_cons_of_neg (by simpa using hc)]

theorem components_append {word rest : List UInt8} (hne : word ≠ []) (hword : ∀ a ∈ word, (a == slash) = false)
    (hrest : rest = [] ∨ ∃ rest', rest = slash :: rest') :
    components (word ++ rest) = word.take dirsiz :: components rest := by
  rcases hrest with rfl | ⟨rest', rfl⟩
  · rw [List.append_nil, components, List.splitOnP_eq_singleton hword, List.filter_cons_of_pos (by simpa using hne)]
    rfl
  · rw [components_slash, components, List.splitOnP_append_cons_of_forall_mem hword slash (by simp),
      List.filter_cons_of_pos (by simpa using hne)]
    rfl

theorem components_cons {c : UInt8} (hc : (c != slash) = true) (rest : List UInt8) : components (c :: rest) =
      ((c :: rest).takeWhile (· != slash)).take dirsiz :: components ((c :: rest).dropWhile (· != slash)) := by
  have hword : ∀ a ∈ (c :: rest).takeWhile (· != slash), (a == slash) = false := by
    intro a ha
    simpa using List.all_eq_true.1 List.all_takeWhile a ha
  have hne : (c :: rest).takeWhile (· != slash) ≠ [] := by
    rw [List.takeWhile_cons_of_pos (p := (· != slash)) hc]
    exact List.cons_ne_nil _ _
  have hrest : (c :: rest).dropWhile (· != slash) = [] ∨
      ∃ rest', (c :: rest).dropWhile (· != slash) = slash :: rest' := by
    have hstop := List.head?_dropWhile_not (· != slash) (c :: rest)
    cases hcase : (c :: rest).dropWhile (· != slash) with
    | nil => exact .inl rfl
    | cons a rest' =>
      rw [hcase] at hstop
      obtain rfl : a = slash := by simpa using hstop
      exact .inr ⟨rest', rfl⟩
  have hsplit := components_append hne hword hrest
  rwa [List.takeWhile_append_dropWhile] at hsplit

variable {path name : List UInt8}

theorem components_dropWhile_eq_nil (h : components (path.dropWhile (· == slash)) = []) :
    path.dropWhile (· == slash) = [] := by
  have hhead := List.head?_dropWhile_not (· == slash) path
  cases hdrop : path.dropWhile (· == slash) with
  | nil => rfl
  | cons c rest =>
    rw [hdrop] at h hhead
    rw [components_cons (by simpa using hhead)] at h
    cases h

theorem components_of_skipelem {path' : List UInt8} (h : skipelem path = some (name, path')) :
    components path = name :: components path' ∧ (components path' = [] ↔ path' = []) := by
  have hhead := List.head?_dropWhile_not (· == slash) path
  unfold skipelem at h
  split at h
  next => cases h
  next c rest hdrop =>
      obtain ⟨rfl, rfl⟩ : _ = name ∧ _ = path' := by simpa using h
      rw [hdrop] at hhead
      refine ⟨?_, components_dropWhile_eq_nil, fun hnil => ?_⟩
      · rw [components_dropWhile, ← components_cons (by simpa using hhead), ← hdrop, components_dropWhile]
      · rw [hnil, components_nil]

theorem components_of_skipelem_none (h : skipelem path = none) : components path = [] := by
  unfold skipelem at h
  split at h
  next hdrop => rw [← components_dropWhile, hdrop, components_nil]
  next => cases h

theorem mem_of_skipelem {path' : List UInt8} (h : skipelem path = some (name, path')) :
    name.length ≤ dirsiz ∧ (∀ a ∈ name, a ∈ path) ∧ ∀ a ∈ path', a ∈ path := by
  unfold skipelem at h
  split at h
  next => cases h
  next c rest hdrop =>
      obtain ⟨rfl, rfl⟩ : _ = name ∧ _ = path' := by simpa using h
      have hsub : (c :: rest).Sublist path := hdrop ▸ List.dropWhile_sublist _
      refine ⟨List.length_take_le _ _, fun a ha => hsub.mem ?_, fun a ha => hsub.mem ?_⟩
      · exact (List.takeWhile_sublist _).mem (List.mem_of_mem_take ha)
      · exact (List.dropWhile_sublist _).mem ((List.dropWhile_sublist _).mem ha)

/-! ## Following a path -/

/-- The inode that the components lead to, through directories only. -/
def walk (sb : Superblock) (d : Disk) : ℕ → List (List UInt8) → Option ℕ
  | i, [] => some i
  | i, name :: names =>
    if (din sb d i).type = tDir then
      match (din sb d i).dirMap d name with
      | none => none
      | some next => walk sb d next names
    else none

/-- The directory that all components but the last lead to, and the last one. -/
def walkParent (sb : Superblock) (d : Disk) : ℕ → List (List UInt8) → Option (ℕ × List UInt8)
  | _, [] => none
  | i, [name] => if (din sb d i).type = tDir then some (i, name) else none
  | i, name :: name' :: names =>
    if (din sb d i).type = tDir then
      match (din sb d i).dirMap d name with
      | none => none
      | some next => walkParent sb d next (name' :: names)
    else none

def start (cwd : ℕ) (path : List UInt8) : ℕ := if path.head? = some slash then rootino else cwd

/-- The inode is in use: allocated, and it has a link or somebody holds it. -/
structure InUse (sb : Superblock) (s : State) (i : ℕ) : Prop where
  lt : i < sb.ninodes
  type : (din sb s.disk i).type ≠ 0
  kept : (din sb s.disk i).nlink ≠ 0 ∨ 0 < s.ref i

/-- A file system in which paths can be followed: every name in a directory stands for an inode that is in use. -/
structure Searchable (sb : Superblock) (s : State) : Prop where
  good : Good (fun x d => x.DirOk d sb.ninodes) sb s
  root : InUse sb s rootino
  named : ∀ i < sb.ninodes, (din sb s.disk i).type = tDir → ∀ name next,
    (din sb s.disk i).dirMap s.disk name = some next → InUse sb s next

/-- `s` is `s₀` with one more reference to `ip`; the copies of inodes that are held stay valid. -/
structure Held (sb : Superblock) (s₀ s : State) (ip : ℕ) : Prop where
  good : Good (fun x d => x.DirOk d sb.ninodes) sb s
  disk : s.disk = s₀.disk
  ref : s.ref = update s₀.ref ip (s₀.ref ip + 1)
  valid : ∀ j, 0 < s₀.ref j → s₀.mem j ≠ none → s.mem j ≠ none

/-- The inode that is held is in use. -/
structure Holding (sb : Superblock) (s₀ s : State) (ip : ℕ) : Prop extends Held sb s₀ s ip where
  used : InUse sb s₀ ip

/-- `s` is `s₀` again. -/
structure Released (sb : Superblock) (s₀ s : State) : Prop where
  good : Good (fun x d => x.DirOk d sb.ninodes) sb s
  disk : s.disk = s₀.disk
  ref : s.ref = s₀.ref
  valid : ∀ j, 0 < s₀.ref j → s₀.mem j ≠ none → s.mem j ≠ none

section Steps

variable {sb : Superblock} {s₀ s s' : State} {ip : ℕ}

/-- `iput` of an inode that stays. -/
theorem iput_kept {K : Dinode → Disk → Prop} (hg : Good K sb s) (h : (din sb s.disk ip).nlink ≠ 0 ∨ s.ref ip ≠ 1) :
    iput sb s ip = .ok { s with ref := update s.ref ip (s.ref ip - 1) } := by
  unfold iput
  cases hx : s.mem ip with
  | none => simp only [pure_eq_ok, ok_bind]
  | some x =>
    obtain rfl := (hg.mem ip x hx).2.1
    have hnot : ¬ ((din sb s.disk ip).nlink = 0 ∧ s.ref ip = 1) := by
      rintro ⟨hnlink, href⟩
      rcases h with h | h
      · exact h hnlink
      · exact h href
    simp only [if_neg hnot, pure_eq_ok, ok_bind]

theorem iget_valid {j : ℕ} (next : ℕ) (href : 0 < s.ref j) (hmem : s.mem j ≠ none) : (s.iget next).mem j ≠ none := by
  unfold State.iget
  by_cases hzero : s.ref next = 0
  · have hne : j ≠ next := by
      rintro rfl
      omega
    simpa only [if_pos hzero, update_of_ne hne] using hmem
  · simpa only [if_neg hzero] using hmem

theorem ilock_valid {j : ℕ} (hlock : ilock sb s ip = .ok s') (hmem : s.mem j ≠ none) : s'.mem j ≠ none := by
  unfold ilock at hlock
  cases hx : s.mem ip with
  | some x =>
    simp only [hx, pure_eq_ok] at hlock
    obtain rfl : s = s' := by simpa using hlock
    exact hmem
  | none =>
    simp only [hx] at hlock
    split_ifs at hlock
    obtain rfl := Except.ok.inj hlock
    have hne : j ≠ ip := by
      rintro rfl
      exact hmem hx
    simpa only [update_of_ne hne] using hmem

theorem ilock_error {e : Panic} (hlock : ilock sb s ip = .error e) : e = .ilockNoType ∧ (din sb s.disk ip).type = 0 := by
  unfold ilock at hlock
  cases hx : s.mem ip with
  | some x =>
    rw [hx] at hlock
    cases hlock
  | none =>
    simp only [hx] at hlock
    split_ifs at hlock with htype
    · exact ⟨(Except.error.inj hlock).symm, htype⟩
    · cases hlock

namespace Held

variable (h : Held sb s₀ s ip)

include h

theorem ref_self : s.ref ip = s₀.ref ip + 1 := by
  rw [h.ref, update_self]

theorem le_ref (j : ℕ) : s₀.ref j ≤ s.ref j := by
  rw [h.ref, update_apply]
  split_ifs with heq
  · rw [heq]
    exact Nat.le_succ _
  · exact Nat.le_refl _

theorem lock (hlt : ip < sb.ninodes) (hlock : ilock sb s ip = .ok s') : Held sb s₀ s' ip ∧ Locked sb s' ip := by
  rcases (ilock_spec h.good hlt).of_ok hlock with ⟨hg, hl, hdisk, href, _⟩
  exact ⟨⟨hg, hdisk.trans h.disk, href.trans h.ref, fun j hj hmem => ilock_valid hlock (h.valid j hj hmem)⟩, hl⟩

section Kept

variable (hkept : (din sb s₀.disk ip).nlink ≠ 0 ∨ 0 < s₀.ref ip)

include hkept

theorem kept : (din sb s.disk ip).nlink ≠ 0 ∨ s.ref ip ≠ 1 := by
  have href := h.ref_self
  rw [h.disk]
  exact hkept.imp_right fun hpos => by omega

theorem kept_iget (next : ℕ) : (din sb (s.iget next).disk ip).nlink ≠ 0 ∨ (s.iget next).ref ip ≠ 1 := by
  have href : (s.iget next).ref = update s.ref next (s.ref next + 1) := rfl
  have hip := h.ref_self
  have hle : s.ref ip ≤ (s.iget next).ref ip := by
    rw [href, update_apply]
    split_ifs with heq
    · rw [heq]
      exact Nat.le_succ _
    · exact Nat.le_refl _
  have hdisk : (s.iget next).disk = s₀.disk := h.disk
  rw [hdisk]
  exact hkept.imp_right fun hpos => by omega

theorem put : ∃ s', iput sb s ip = .ok s' ∧ Released sb s₀ s' := by
  have href := h.ref_self
  refine ⟨_, iput_kept h.good (h.kept hkept), h.good.setRef _, h.disk, ?_, h.valid⟩
  simp only [href, Nat.add_sub_cancel, h.ref, update_idem, update_eq_self]

theorem step (next : ℕ) : ∃ s', iput sb (s.iget next) ip = .ok s' ∧ Held sb s₀ s' next := by
  have href : (s.iget next).ref = update s.ref next (s.ref next + 1) := rfl
  refine ⟨_, iput_kept (h.good.iget next) (h.kept_iget hkept next), (h.good.iget next).setRef _, h.disk, ?_,
    fun j hj hmem => iget_valid next (Nat.lt_of_lt_of_le hj (h.le_ref j)) (h.valid j hj hmem)⟩
  funext j
  simp only [href, h.ref]
  by_cases hsame : ip = next
  · subst hsame
    simp only [update_self, update_idem, Nat.add_sub_cancel]
  by_cases hj : j = ip
  · subst hj
    rw [update_self, update_of_ne hsame, update_self, update_of_ne hsame, Nat.add_sub_cancel]
  rw [update_of_ne hj]
  by_cases hj' : j = next
  · subst hj'
    rw [update_self, update_self, update_of_ne (Ne.symm hsame)]
  · rw [update_of_ne hj', update_of_ne hj, update_of_ne hj']

end Kept

end Held

theorem Holding.lock (h : Holding sb s₀ s ip) : ∃ s', ilock sb s ip = .ok s' ∧ Holding sb s₀ s' ip ∧ Locked sb s' ip := by
  have htype : (din sb s.disk ip).type ≠ 0 := by
    rw [h.disk]
    exact h.used.type
  rcases ilock_isOk htype with ⟨s', hlock⟩
  rcases h.toHeld.lock h.used.lt hlock with ⟨h', hl⟩
  exact ⟨s', hlock, ⟨h', h.used⟩, hl⟩

theorem held_iget (hg : Good (fun x d => x.DirOk d sb.ninodes) sb s) (i : ℕ) : Held sb s (s.iget i) i :=
  ⟨hg.iget i, rfl, rfl, fun _ hj hmem => iget_valid i hj hmem⟩

theorem held_idup (hg : Good (fun x d => x.DirOk d sb.ninodes) sb s) (i : ℕ) : Held sb s (s.idup i) i :=
  ⟨hg.idup i, rfl, rfl, fun _ _ hmem => hmem⟩

theorem Searchable.addLinks (hs : Searchable sb s₀) (h : Holding sb s₀ s ip) (hl : Locked sb s ip)
    (hdir : (din sb s₀.disk ip).type ≠ tDir) (delta : UInt16) :
    Searchable sb (s.addLinks sb ip delta) ∧ ∀ j, InUse sb s₀ j → InUse sb (s.addLinks sb ip delta) j := by
  have hK := dirInvariant_dirOk sb
  have hgood := (h.good.addLinks hK hl delta).1
  have hothers : OthersSame sb ip s₀.disk (s.addLinks sb ip delta).disk := by
    have hkept := h.good.kept_iupdate hK (x := { din sb s.disk ip with nlink := (din sb s.disk ip).nlink + delta })
      h.used.lt rfl rfl rfl
    rw [State.addLinks, hl.inode, ← h.disk]
    exact hkept.others
  have hself : (din sb (s.addLinks sb ip delta).disk ip).type = (din sb s₀.disk ip).type := by
    rw [State.addLinks, State.setInode, State.store_disk, din_iupdate_self, hl.inode, h.disk]
  have hkeep : ∀ j, InUse sb s₀ j → InUse sb (s.addLinks sb ip delta) j := by
    intro j hj
    have href : (s.addLinks sb ip delta).ref j = update s₀.ref ip (s₀.ref ip + 1) j := congrFun h.ref j
    by_cases hji : j = ip
    · subst hji
      refine ⟨hj.lt, hself.symm ▸ hj.type, .inr ?_⟩
      rw [href, update_self]
      exact Nat.succ_pos _
    · have hdin := (hothers j hj.lt hji).1
      refine ⟨hj.lt, hdin.symm ▸ hj.type, ?_⟩
      rw [hdin, href, update_of_ne hji]
      exact hj.kept
  refine ⟨⟨hgood, hkeep _ hs.root, fun i hi hidir name next hmap => ?_⟩, hkeep⟩
  have hi' : i ≠ ip := by
    rintro rfl
    exact hdir (hself ▸ hidir)
  rcases hothers i hi hi' with ⟨hdin, hcontent⟩
  rw [hdin] at hidir
  have hne : (din sb s₀.disk i).type ≠ 0 ∧ (din sb s₀.disk i).type ≠ tDev := by
    rw [hidir]
    decide
  rw [dirMap_congr (hcontent hne.1 hne.2)] at hmap
  exact hkeep next (hs.named i hi hidir name next hmap)

end Steps

/-! ## `namex` -/

/-- The references after a call that has returned `r`. -/
def Taken (sb : Superblock) (s₀ : State) (r : Option (ℕ × List UInt8)) (s : State) : Prop :=
  match r with
  | none => Released sb s₀ s
  | some (i, _) => Holding sb s₀ s i

/-- What `namex` is to find from `ip` on. -/
def Leads (sb : Superblock) (d : Disk) (nameiparent : Bool) (ip : ℕ) (names : List (List UInt8))
    (r : Option (ℕ × List UInt8)) : Prop :=
  if nameiparent then r = walkParent sb d ip names else r.map Prod.fst = walk sb d ip names

section Leads

variable {sb : Superblock} {d : Disk} {nameiparent : Bool} {ip : ℕ} {name : List UInt8} {names : List (List UInt8)}
  {r : Option (ℕ × List UInt8)}

theorem leads_of_not_dir (hdir : (din sb d ip).type ≠ tDir) : Leads sb d nameiparent ip (name :: names) none := by
  cases nameiparent with
  | true =>
    cases names with
    | nil => simp [Leads, walkParent, hdir]
    | cons name' names => simp [Leads, walkParent, hdir]
  | false => simp [Leads, walk, hdir]

/-- One component is followed. -/
theorem leads_cons (hdir : (din sb d ip).type = tDir) (hmore : nameiparent = true → names ≠ [])
    (hnone : (din sb d ip).dirMap d name = none → r = none)
    (hsome : ∀ next, (din sb d ip).dirMap d name = some next → Leads sb d nameiparent next names r) :
    Leads sb d nameiparent ip (name :: names) r := by
  cases hmap : (din sb d ip).dirMap d name with
  | none =>
    obtain rfl := hnone hmap
    cases nameiparent with
    | true =>
      cases names with
      | nil => exact absurd rfl (hmore rfl)
      | cons name' names => simp [Leads, walkParent, hmap]
    | false => simp [Leads, walk, hmap]
  | some next =>
    have hrest := hsome next hmap
    cases nameiparent with
    | true =>
      cases names with
      | nil => exact absurd rfl (hmore rfl)
      | cons name' names => simpa [Leads, walkParent, hdir, hmap] using hrest
    | false => simpa [Leads, walk, hdir, hmap] using hrest

end Leads

variable {sb : Superblock} {s₀ s : State} {ip : ℕ}

/-- The inodes that a path may lead through: they are closed under lookup, and none of them is freed by the way. -/
structure Followed (sb : Superblock) (s₀ : State) (P : ℕ → Prop) : Prop where
  lt : ∀ i, P i → i < sb.ninodes
  next : ∀ i name next, P i → (din sb s₀.disk i).type = tDir → (din sb s₀.disk i).dirMap s₀.disk name = some next → P next
  kept : ∀ i, P i → (din sb s₀.disk i).type ≠ 0 → (din sb s₀.disk i).nlink ≠ 0 ∨ 0 < s₀.ref i

/-- The references after a call that has returned `r`, which is one of these inodes. -/
def Reached (sb : Superblock) (P : ℕ → Prop) (s₀ : State) (r : Option (ℕ × List UInt8)) (s : State) : Prop :=
  match r with
  | none => Released sb s₀ s
  | some (i, _) => P i ∧ Held sb s₀ s i

section Ensures

variable {bad : Panic → Prop} {P : ℕ → Prop} (hP : Followed sb s₀ P)
  (hbad : bad .ilockNoType → ∀ i, P i → (din sb s₀.disk i).type ≠ 0)

include hP hbad

/-- The loop of `namex`, from the inode that it holds.  It fails at a free inode only. -/
theorem namexLoop_ensures (nameiparent : Bool) (path : List UInt8) (hpath : ∀ a ∈ path, a ≠ 0) (h : Held sb s₀ s ip)
    (hip : P ip) (hend : nameiparent = true → components path = [] → (din sb s₀.disk ip).type ≠ 0) :
    Common.Ensures bad (namexLoop sb nameiparent s ip path) fun (r, s') =>
      Leads sb s₀.disk nameiparent ip (components path) r ∧ Reached sb P s₀ r s' := by
  induction hn : path.length using Nat.strong_induction_on generalizing s ip path with
  | _ n ih =>
    unfold namexLoop
    split
    next hskip =>
        -- No component is left.
        rw [components_of_skipelem_none hskip] at hend ⊢
        cases nameiparent with
        | true =>
          rcases h.put (hP.kept ip hip (hend rfl rfl)) with ⟨s', hput, hrel⟩
          simp only [if_true, hput, ok_bind, pure_eq_ok]
          exact .ok ⟨rfl, hrel⟩
        | false => exact .ok ⟨rfl, hip, h⟩
    next name path' hskip =>
        rcases components_of_skipelem hskip with ⟨hcomp, hlast⟩
        rcases mem_of_skipelem hskip with ⟨hlen, hname, hrest⟩
        have hkey : key name = name := by
          rw [key_eq_take name fun a ha => hpath a (hname a ha), List.take_of_length_le hlen]
        rw [hcomp]
        cases hlock : ilock sb s ip with
        | error e =>
          refine .error fun hbad' => ?_
          obtain ⟨rfl, htype⟩ := ilock_error hlock
          rw [h.disk] at htype
          exact hbad hbad' ip hip htype
        | ok s1 =>
          rcases h.lock (hP.lt ip hip) hlock with ⟨h1, hl1⟩
          have htype : (din sb s₀.disk ip).type ≠ 0 := by
            rw [← h1.disk]
            exact (h1.good.of_locked hl1).2
          have hkept := hP.kept ip hip htype
          rw [ok_bind, hl1.inode, h1.disk]
          by_cases hdir : (din sb s₀.disk ip).type = tDir
          · rw [if_neg (not_not.2 hdir)]
            by_cases hstop : nameiparent = true ∧ path' = []
            · -- Stop one level early.
              rw [if_pos hstop]
              refine .ok ⟨?_, hip, h1⟩
              rw [Leads, if_pos hstop.1, hstop.2, components_nil, walkParent, if_pos hdir]
            rw [if_neg hstop]
            have hmore : nameiparent = true → components path' ≠ [] :=
              fun hpar hnil => hstop ⟨hpar, hlast.1 hnil⟩
            have hdir1 : (din sb s1.disk ip).type = tDir := by
              rw [h1.disk]
              exact hdir
            rcases @dirlookup_dirMap sb s1 ip name h1.good hl1 hdir1 with
              ⟨next, k, hmap, _, _, hfound⟩ | ⟨hmap, hfound⟩
            · rw [h1.disk, hkey] at hmap
              rcases h1.step hkept next with ⟨s2, hput, h2⟩
              simp only [hfound, ok_bind, hput]
              refine (ih _ (hn ▸ length_skipelem hskip) path' (fun a ha => hpath a (hrest a ha)) h2
                (hP.next ip name next hip hdir hmap) (fun hpar hnil => absurd hnil (hmore hpar)) rfl).mono ?_
              rintro ⟨r, s'⟩ ⟨hleads, hreached⟩
              refine ⟨leads_cons hdir hmore (fun hnone => ?_) (fun next' hmap' => ?_), hreached⟩
              · rw [hmap] at hnone
                cases hnone
              · obtain rfl : next = next' := by simpa [hmap] using hmap'
                exact hleads
            · rw [h1.disk, hkey] at hmap
              rcases h1.put hkept with ⟨s2, hput, hrel⟩
              simp only [hfound, ok_bind, hput, pure_eq_ok]
              refine .ok ⟨leads_cons hdir hmore (fun _ => rfl) (fun next' hmap' => ?_), hrel⟩
              rw [hmap] at hmap'
              cases hmap'
          · rw [if_pos hdir]
            rcases h1.put hkept with ⟨s2, hput, hrel⟩
            simp only [hput, ok_bind, pure_eq_ok]
            exact .ok ⟨leads_of_not_dir hdir, hrel⟩

theorem namex_ensures {cwd : ℕ} (nameiparent : Bool) (path : List UInt8) (hpath : ∀ a ∈ path, a ≠ 0)
    (hg : Good (fun x d => x.DirOk d sb.ninodes) sb s₀) (hstart : P (start cwd path))
    (htype : (din sb s₀.disk (start cwd path)).type ≠ 0) :
    Common.Ensures bad (namex sb s₀ cwd path nameiparent) fun (r, s') =>
      Leads sb s₀.disk nameiparent (start cwd path) (components path) r ∧ Reached sb P s₀ r s' := by
  unfold namex start at *
  by_cases habs : path.head? = some slash
  · rw [if_pos habs] at hstart htype ⊢
    rw [if_pos habs]
    exact namexLoop_ensures hP hbad nameiparent path hpath (held_iget hg _) hstart fun _ _ => htype
  · rw [if_neg habs] at hstart htype ⊢
    rw [if_neg habs]
    exact namexLoop_ensures hP hbad nameiparent path hpath (held_idup hg _) hstart fun _ _ => htype

end Ensures

/-- In a file system that can be searched, `namex` returns. -/
theorem namex_spec (hs : Searchable sb s₀) {cwd : ℕ} (hcwd : InUse sb s₀ cwd) (nameiparent : Bool) (path : List UInt8)
    (hpath : ∀ a ∈ path, a ≠ 0) :
    ∃ r s', namex sb s₀ cwd path nameiparent = .ok (r, s') ∧
      Leads sb s₀.disk nameiparent (start cwd path) (components path) r ∧ Taken sb s₀ r s' := by
  have hP : Followed sb s₀ (InUse sb s₀) :=
    ⟨fun i hi => hi.lt, fun i name next hi hdir hmap => hs.named i hi.lt hdir name next hmap, fun i hi _ => hi.kept⟩
  have hstart : InUse sb s₀ (start cwd path) := by
    unfold start
    split_ifs
    · exact hs.root
    · exact hcwd
  have htotal : Common.Ensures (fun _ => True) (namex sb s₀ cwd path nameiparent) _ :=
    namex_ensures hP (fun _ i hi => hi.type) nameiparent path hpath hs.good hstart hstart.type
  rcases htotal.exists_ok fun _ => trivial with ⟨⟨r, s'⟩, hrun, hleads, hreached⟩
  refine ⟨r, s', hrun, hleads, ?_⟩
  rcases r with _ | ⟨i, name⟩
  · exact hreached
  · exact ⟨hreached.2, hreached.1⟩

theorem namex_ok (hs : Searchable sb s₀) {cwd : ℕ} (hcwd : InUse sb s₀ cwd) {nameiparent : Bool}
    (hpath : ∀ a ∈ path, a ≠ 0) {r : Option (ℕ × List UInt8)} (h : namex sb s₀ cwd path nameiparent = .ok (r, s)) :
    Taken sb s₀ r s := by
  rcases namex_spec hs hcwd nameiparent path hpath with ⟨r', s', hrun, _, htaken⟩
  rw [h] at hrun
  obtain ⟨rfl, rfl⟩ : r = r' ∧ s = s' := by simpa using hrun
  exact htaken

/-- `dirlookup` in a directory that is held. -/
theorem Holding.dirlookup (h : Holding sb s₀ s ip) (hdir : (din sb s₀.disk ip).type = tDir) (hkey : key name = name) :
    ∃ u v found, ilock sb s ip = .ok u ∧ dirlookup sb u ip name = .ok (found, v) ∧
      found.map Prod.fst = (din sb s₀.disk ip).dirMap s₀.disk name := by
  rcases h.lock with ⟨u, hlock, hu, hl⟩
  rcases @dirlookup_dirMap sb u ip name hu.good hl (by rw [hu.disk]; exact hdir) with ⟨next, k, hmap, _, _, hfound⟩ | ⟨hmap, hfound⟩
  · rw [hu.disk, hkey] at hmap
    exact ⟨u, _, _, hlock, hfound, by rw [hmap]; rfl⟩
  · rw [hu.disk, hkey] at hmap
    exact ⟨u, _, _, hlock, hfound, by rw [hmap]; rfl⟩

theorem searchable_smallState (type : UInt16) (htype : type ≠ 0) : Searchable smallSb (smallState (smallDisk type)) := by
  refine ⟨good_smallState (dirInvariant_dirOk smallSb) type, ⟨by decide, ?_, .inr Nat.zero_lt_one⟩,
    fun i hi _ name next hmap => ?_⟩
  · show (din smallSb (smallDisk type) 1).type ≠ 0
    rwa [type_smallDisk]
  have hslots : (din smallSb (smallDisk type) i).slots = 0 := by
    rw [din_smallDisk type hi, Dinode.slots, (smallInode_empty type i).2]
    rfl
  have hnone : (din smallSb (smallDisk type) i).dirMap (smallDisk type) name = none := by
    rw [Dinode.dirMap, hslots]
    rfl
  cases hnone.symm.trans hmap

end Xv6.Fs
