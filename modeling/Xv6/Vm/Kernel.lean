import Xv6.Process.Table
import Xv6.Vm.Copyuvm

/-!
# Kernel — processes with their memory

The process table over the page directories of `Vm`.  A process refers to its directory by the page it lies in, as the
pointer of the source does, so that threads share one directory: `dirs` gives for a page the directory that is there.

`allocproc` is here; `fork` and `clone` start with it.
-/

namespace Xv6.Vm

open Common PageDir
open Process (Slot ProcState)

structure Trapframe where
  eax : UInt32
  ebp : UInt32
  eip : UInt32
  esp : UInt32
  /-- The other registers. -/
  rest : Fin 15 → UInt32

structure Mlfq where
  priority : ℤ
  timeSlices : ℤ
  waitTime : ℤ
  ticksInQueue : UInt32
  totalTicks : UInt32
  arrivalTime : UInt32
  firstRunTime : UInt32
  timesScheduled : Int32

structure Proc where
  sz : ℕ
  pgdir : Option Frame
  kstack : Option Frame
  threadstack : UInt32
  state : ProcState
  pid : Int32
  parent : Option Slot
  tf : Trapframe
  /-- Entries of the file table. -/
  ofile : Fin nofile → Option (Fin nfile)
  /-- An entry of the inode cache. -/
  cwd : Fin ninode
  name : List UInt8
  mlfq : Mlfq

structure Kernel where
  mem : Mem
  dirs : Frame → Option PageDir
  proc : Slot → Proc
  nextpid : Int32
  ticks : UInt32
  /-- `f->ref` -/
  fileRef : Fin nfile → ℕ
  /-- `ip->ref` -/
  inodeRef : Fin ninode → ℕ

namespace Kernel

def set (k : Kernel) (p : Slot) (g : Proc → Proc) : Kernel :=
  { k with proc := Function.update k.proc p (g (k.proc p)) }

def findUnused (k : Kernel) : Option Slot :=
  Process.Table.first fun p => (k.proc p).state == .unused

/-- What `allocproc` writes into the slot it has found. -/
def claim (k : Kernel) (p : Slot) : Kernel :=
  { k with nextpid := k.nextpid + 1 }.set p fun q =>
    { q with
      state := .embryo
      pid := k.nextpid
      mlfq :=
        { priority := 0
          timeSlices := 0
          waitTime := 0
          ticksInQueue := 0
          totalTicks := 0
          arrivalTime := k.ticks
          firstRunTime := 0
          timesScheduled := 0 } }

def allocproc (k : Kernel) : Option (Slot × Frame) × Kernel :=
  match k.findUnused with
  | none => (none, k)
  | some np =>
    match k.mem.kalloc with
    | none => (none, (k.claim np).set np fun q => { q with kstack := none, state := .unused })
    | some (kstack, mem) =>
      (some (np, kstack), { k with mem := mem }.claim np |>.set np fun q => { q with kstack := some kstack })

def filedup (k : Kernel) (f : Fin nfile) : Except Panic Kernel :=
  if k.fileRef f < 1 then .error .filedup
  else .ok { k with fileRef := Function.update k.fileRef f (k.fileRef f + 1) }

def idup (k : Kernel) (ip : Fin ninode) : Kernel :=
  { k with inodeRef := Function.update k.inodeRef ip (k.inodeRef ip + 1) }

/-- The loop of `fork` and `clone` over the open files of `cur`. -/
def dupFiles (cur np : Slot) : List (Fin nofile) → Kernel → Except Panic Kernel
  | [], k => .ok k
  | i :: is, k =>
    match (k.proc cur).ofile i with
    | none => dupFiles cur np is k
    | some f => do
        let k ← k.filedup f
        dupFiles cur np is (k.set np fun q => { q with ofile := Function.update q.ofile i (some f) })

/-- The end of `fork` and `clone`: files, directory and name of the caller, then RUNNABLE. -/
def finish (k : Kernel) (cur np : Slot) : Except Panic Kernel := do
  let k ← dupFiles cur np (List.finRange nofile) k
  let k := (k.idup (k.proc cur).cwd).set np fun q => { q with cwd := (k.proc cur).cwd }
  return k.set np fun q => { q with name := (k.proc cur).name, state := .runnable }

/-! ## What `allocproc` changes -/

variable {k k' : Kernel} {p q np : Slot} {kstack : Frame}

@[simp] theorem set_proc_self (g : Proc → Proc) : (k.set p g).proc p = g (k.proc p) := Function.update_self _ _ _

theorem set_proc_of_ne {g : Proc → Proc} (h : q ≠ p) : (k.set p g).proc q = k.proc q := Function.update_of_ne h _ _

@[simp] theorem set_mem (g : Proc → Proc) : (k.set p g).mem = k.mem := rfl

@[simp] theorem set_dirs (g : Proc → Proc) : (k.set p g).dirs = k.dirs := rfl

theorem findUnused_state (h : k.findUnused = some p) : (k.proc p).state = .unused := by
  simpa using (Process.Table.first_eq_some_iff.1 h).1

theorem claim_proc_of_ne (h : q ≠ p) : (k.claim p).proc q = k.proc q :=
  set_proc_of_ne (k := { k with nextpid := k.nextpid + 1 }) h

@[simp] theorem claim_mem : (k.claim p).mem = k.mem := rfl

@[simp] theorem claim_dirs : (k.claim p).dirs = k.dirs := rfl

/-- Nothing has come of a new process: the pages that were free are free, and only the UNUSED slot that was tried may
have other contents. -/
structure Restored (k k' : Kernel) : Prop where
  free : (k'.mem.free : Multiset Frame) = k.mem.free
  page : ∀ f, f ∉ k.mem.free → k'.mem.page f = k.mem.page f
  dirs : k'.dirs = k.dirs
  other : ∀ p, k.findUnused ≠ some p → k'.proc p = k.proc p
  tried : ∀ p, k.findUnused = some p → (k'.proc p).state = .unused

/-- `allocproc` has made a process. -/
structure Alloced (k : Kernel) (np : Slot) (kstack : Frame) (k' : Kernel) : Prop where
  found : k.findUnused = some np
  kalloc : k.mem.kalloc = some (kstack, k'.mem)
  dirs : k'.dirs = k.dirs
  other : ∀ p, p ≠ np → k'.proc p = k.proc p
  state : (k'.proc np).state = .embryo
  pid : (k'.proc np).pid = k.nextpid

theorem allocproc_spec (k : Kernel) :
    (k.allocproc.1 = none → Restored k k.allocproc.2) ∧
      ∀ np kstack, k.allocproc.1 = some (np, kstack) → Alloced k np kstack k.allocproc.2 := by
  unfold allocproc
  cases hfind : k.findUnused with
  | none => exact ⟨fun _ => ⟨rfl, fun _ _ => rfl, rfl, fun _ _ => rfl, by simp [hfind]⟩, by simp⟩
  | some np =>
    cases halloc : k.mem.kalloc with
    | none =>
      refine ⟨fun _ => ⟨rfl, fun _ _ => rfl, rfl, fun p hp => ?_, fun p hp => ?_⟩, by simp⟩
      · have hne : p ≠ np := fun heq => hp (heq ▸ hfind)
        rw [set_proc_of_ne hne, claim_proc_of_ne hne]
      · obtain rfl : np = p := by simpa [hfind] using hp
        rw [set_proc_self]
    | some r =>
      refine ⟨by simp, fun np' kstack' heq => ?_⟩
      simp only [Option.some.injEq, Prod.mk.injEq] at heq
      rcases heq with ⟨rfl, rfl⟩
      refine ⟨hfind, halloc, rfl, fun p hp => ?_, ?_, ?_⟩
      · dsimp only
        rw [set_proc_of_ne hp, claim_proc_of_ne hp]
      · simp [claim]
      · simp [claim]

end Kernel

end Xv6.Vm
