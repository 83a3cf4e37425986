import Mathlib.Data.Fintype.Basic
import Mathlib.Data.List.FinRange
import Xv6.Common.Program
import Xv6.Param

/-!
# Table — open files, descriptors and pipes

`file.c` with the calls of `sysfile.c`, `pipe.c` and `proc.c` that make and drop references to open files.  An
atomic action is what the code does under one lock, or what it does to memory that no other process looks at.

Of a pipe there are only its page and its two flags here, and of the rest of the kernel only what it can answer:
that a call's arguments are bad, that a path names no file, that there is no page.  Pages that other parts of the
kernel have taken come and go.
-/

namespace Xv6.Files

open Common

abbrev Slot := Fin nproc

abbrev FileNo := Fin nfile

abbrev Fd := Fin nofile

inductive FdType
  | none
  | pipe
  | inode
  deriving DecidableEq

structure File (G : Type) where
  type : FdType
  ref : ℕ
  readable : Bool
  writable : Bool
  pipe : Option G
  ip : ℕ
  off : ℕ

/-- A pipe's flags.  `id` tells pipes apart that were made one after the other in the same page. -/
structure Pipe where
  readopen : Bool
  writeopen : Bool
  id : ℕ
  deriving DecidableEq

def Pipe.close (d : Pipe) (writable : Bool) : Pipe :=
  if writable then { d with writeopen := false } else { d with readopen := false }

inductive Page
  | free
  /-- Taken by a call of `pipealloc` that has not made a pipe of it yet, or by somebody else. -/
  | taken (owner : Option Slot)
  | pipe (d : Pipe)
  deriving DecidableEq

inductive Life
  | unused
  | embryo
  | alive
  | zombie
  deriving DecidableEq

/-- `G` are the pages. -/
structure State (G : Type) where
  file : FileNo → File G
  ofile : Slot → Fd → Option FileNo
  life : Slot → Life
  initproc : Slot
  page : G → Page
  /-- The number of pipes made so far. -/
  made : ℕ
  /-- How often a pipe's page has been freed. -/
  frees : ℕ → ℕ

inductive Panic
  | filedup
  | fileclose
  /-- `pipeclose` is called for something that is not a pipe. -/
  | notPipe
  /-- `kfree` is called for a page that is not the caller's to free. -/
  | notTaken
  /-- "init exiting" -/
  | initExiting
  deriving DecidableEq

/-- What the rest of the kernel answers. -/
inductive Choice (G : Type)
  | fail
  | ok
  | page (g : G)
  | inode (ip : ℕ)
  | slot (q : Slot)

section Code

variable {G : Type} [DecidableEq G]

abbrev Call (G α : Type) := Prog (State G) (Choice G) Panic α

namespace State

variable (s : State G)

def setFile (f : FileNo) (x : File G) : State G :=
  { s with file := Function.update s.file f x }

def setFd (p : Slot) (fd : Fd) (o : Option FileNo) : State G :=
  { s with ofile := Function.update s.ofile p (Function.update (s.ofile p) fd o) }

def setLife (p : Slot) (l : Life) : State G :=
  { s with life := Function.update s.life p l }

def setPage (g : G) (x : Page) : State G :=
  { s with page := Function.update s.page g x }

end State

open Common.Prog (atomic await read modify choose)

/-! ## The file table -/

def filealloc : Call G (Option FileNo) :=
  atomic fun s =>
    match (List.finRange nfile).find? fun f => decide ((s.file f).ref = 0) with
    | some f => .ok (some f, s.setFile f { s.file f with ref := 1 })
    | none => .ok (none, s)

def filedup (f : FileNo) : Call G Unit :=
  atomic fun s =>
    if (s.file f).ref < 1 then .error .filedup
    else .ok ((), s.setFile f { s.file f with ref := (s.file f).ref + 1 })

def kfree (g : G) : Call G Unit :=
  atomic fun s =>
    match s.page g with
    | .pipe d =>
      .ok ((), { s with
        page := Function.update s.page g .free
        frees := Function.update s.frees d.id (s.frees d.id + 1) })
    | _ => .error .notTaken

/-- One end is closed; the answer is whether both are. -/
def closeEnd (g : G) (writable : Bool) : Call G Bool :=
  atomic fun s =>
    match s.page g with
    | .pipe d =>
      .ok (!(d.close writable).readopen && !(d.close writable).writeopen, s.setPage g (.pipe (d.close writable)))
    | _ => .error .notPipe

def pipeclose (pipe : Option G) (writable : Bool) : Call G Unit :=
  match pipe with
  | none => .halt .notPipe
  | some g => do
      if ← closeEnd g writable then kfree g

/-- One reference less; the entry as it was, if that was the last. -/
def dropRef (f : FileNo) : Call G (Option (File G)) :=
  atomic fun s =>
    if (s.file f).ref < 1 then .error .fileclose
    else if (s.file f).ref - 1 > 0 then .ok (none, s.setFile f { s.file f with ref := (s.file f).ref - 1 })
    else .ok (some (s.file f), s.setFile f { s.file f with ref := 0, type := .none })

def fileclose (f : FileNo) : Call G Unit := do
  match ← dropRef f with
  | none => pure ()
  | some ff =>
    match ff.type with
    | .pipe => pipeclose ff.pipe ff.writable
    -- begin_op(), iput(), end_op()
    | .inode => pure ()
    | .none => pure ()

/-! ## Descriptors -/

/-- The descriptor that the caller names, and the file. -/
def argfd (p : Slot) (fd : ℤ) : Call G (Option (Fd × FileNo)) :=
  read fun s =>
    if h : 0 ≤ fd ∧ fd.toNat < nofile then (s.ofile p ⟨fd.toNat, h.2⟩).map fun f => (⟨fd.toNat, h.2⟩, f)
    else none

def fdalloc (p : Slot) (f : FileNo) : Call G (Option Fd) :=
  atomic fun s =>
    match (List.finRange nofile).find? fun fd => decide (s.ofile p fd = none) with
    | some fd => .ok (some fd, s.setFd p fd (some f))
    | none => .ok (none, s)

def getFd (p : Slot) (fd : Fd) : Call G (Option FileNo) :=
  read fun s => s.ofile p fd

def setFd (p : Slot) (fd : Fd) (o : Option FileNo) : Call G Unit :=
  modify fun s => s.setFd p fd o

def sysDup (p : Slot) (fd : ℤ) : Call G ℤ := do
  match ← argfd p fd with
  | none => pure (-1)
  | some (_, f) =>
    match ← fdalloc p f with
    | none => pure (-1)
    | some fd =>
      filedup f
      pure fd.val

def sysClose (p : Slot) (fd : ℤ) : Call G ℤ := do
  match ← argfd p fd with
  | none => pure (-1)
  | some (fd, f) =>
    setFd p fd none
    fileclose f
    pure 0

/-! ## Opening -/

/-- The inode that the path leads to, locked; arguments, path, and mode may be refused. -/
def lookup : Call G (Option ℕ) :=
  choose fun c =>
    match c with
    | .inode ip => some ip
    | _ => none

def sysOpen (p : Slot) (omode : ℕ) : Call G ℤ := do
  match ← lookup with
  | none => pure (-1)
  | some ip =>
    match ← filealloc with
    | none => pure (-1)
    | some f =>
      match ← fdalloc p f with
      | none =>
        fileclose f
        pure (-1)
      | some fd =>
        modify fun s => s.setFile f
          { s.file f with
            type := .inode
            ip := ip
            off := 0
            readable := !omode.testBit 0
            writable := omode.testBit 0 || omode.testBit 1 }
        pure fd.val

/-! ## Pipes -/

def kalloc (p : Slot) : Call G (Option G) :=
  await
    (fun c s =>
      match c with
      | .page g => decide (s.page g = .free)
      | _ => true)
    (fun c s =>
      match c with
      | .page g => .ok (some g, s.setPage g (.taken (some p)))
      | _ => .ok (none, s))

/-- The page becomes a pipe and the two files its ends. -/
def State.pipeInit (s : State G) (g : G) (f₀ f₁ : FileNo) : State G :=
  let t := { s.setPage g (.pipe { readopen := true, writeopen := true, id := s.made }) with made := s.made + 1 }
  let t := t.setFile f₀ { t.file f₀ with type := .pipe, readable := true, writable := false, pipe := some g }
  t.setFile f₁ { t.file f₁ with type := .pipe, readable := false, writable := true, pipe := some g }

/-- Nothing has been made of a page when `pipealloc` fails, so there is none to free. -/
def pipebad (f₀ f₁ : Option FileNo) : Call G (Option (FileNo × FileNo)) := do
  match f₀ with
  | some f => fileclose f
  | none => pure ()
  match f₁ with
  | some f => fileclose f
  | none => pure ()
  pure none

def pipealloc (p : Slot) : Call G (Option (FileNo × FileNo)) := do
  match ← filealloc with
  | none => pipebad none none
  | some f₀ =>
    match ← filealloc with
    | none => pipebad (some f₀) none
    | some f₁ =>
      match ← kalloc p with
      | none => pipebad (some f₀) (some f₁)
      | some g =>
        modify fun s => s.pipeInit g f₀ f₁
        pure (some (f₀, f₁))

def succeeds : Call G Bool :=
  choose fun c =>
    match c with
    | .ok => true
    | _ => false

def sysPipe (p : Slot) : Call G ℤ := do
  -- argptr()
  if !(← succeeds) then pure (-1)
  else
    match ← pipealloc p with
    | none => pure (-1)
    | some (rf, wf) =>
      match ← fdalloc p rf with
      | none =>
        fileclose rf
        fileclose wf
        pure (-1)
      | some fd₀ =>
        match ← fdalloc p wf with
        | none =>
          setFd p fd₀ none
          fileclose rf
          fileclose wf
          pure (-1)
        | some _ => pure 0

/-! ## Processes -/

def setLife (p : Slot) (l : Life) : Call G Unit :=
  modify fun s => s.setLife p l

def findUnused : Call G (Option Slot) :=
  atomic fun s =>
    match (List.finRange nproc).find? fun q => decide (s.life q = .unused) with
    | some q => .ok (some q, s.setLife q .embryo)
    | none => .ok (none, s)

def allocproc : Call G (Option Slot) := do
  match ← findUnused with
  | none => pure none
  | some np =>
    -- the kernel stack
    if ← succeeds then pure (some np)
    else
      setLife np .unused
      pure none

/-- The loop in `fork` and `clone`: the new process has the caller's files. -/
def dupFiles (p np : Slot) : List Fd → Call G Unit
  | [] => pure ()
  | i :: is => do
      match ← getFd p i with
      | none => pure ()
      | some f =>
        filedup f
        setFd np i (some f)
      dupFiles p np is

def fork (p : Slot) : Call G ℤ := do
  match ← allocproc with
  | none => pure (-1)
  | some np =>
    -- copyuvm()
    if !(← succeeds) then
      setLife np .unused
      pure (-1)
    else
      dupFiles p np (List.finRange nofile)
      setLife np .alive
      pure np.val

def clone (p : Slot) : Call G ℤ := do
  match ← allocproc with
  | none => pure (-1)
  | some np =>
    dupFiles p np (List.finRange nofile)
    setLife np .alive
    pure np.val

def closeFiles (p : Slot) : List Fd → Call G Unit
  | [] => pure ()
  | i :: is => do
      match ← getFd p i with
      | none => pure ()
      | some f =>
        fileclose f
        setFd p i none
      closeFiles p is

def exit (p : Slot) : Call G ℤ := do
  if ← read fun s => decide (s.initproc = p) then .halt .initExiting
  else
    closeFiles p (List.finRange nofile)
    setLife p .zombie
    pure 0

/-- What `wait` and `join` do to a slot. -/
def reap : Call G ℤ :=
  await
    (fun c s =>
      match c with
      | .slot q => decide (s.life q = .zombie)
      | _ => true)
    (fun c s =>
      match c with
      | .slot q => .ok (q.val, s.setLife q .unused)
      | _ => .ok (-1, s))

/-- Somebody else takes a page or gives it back. -/
def otherPage : Call G ℤ :=
  await
    (fun c s =>
      match c with
      | .page g => decide (s.page g = .free ∨ s.page g = .taken none)
      | _ => true)
    (fun c s =>
      match c with
      | .page g => .ok (0, s.setPage g (if s.page g = .free then .taken none else .free))
      | _ => .ok (0, s))

/-! ## The system -/

inductive Syscall
  | open (omode : ℕ)
  | dup (fd : ℤ)
  | close (fd : ℤ)
  | pipe
  | fork
  | clone
  | exit
  | wait
  | other

def body (p : Slot) : Syscall → Call G ℤ
  | .open omode => sysOpen p omode
  | .dup fd => sysDup p fd
  | .close fd => sysClose p fd
  | .pipe => sysPipe p
  | .fork => fork p
  | .clone => clone p
  | .exit => exit p
  | .wait => reap
  | .other => otherPage

abbrev Machine (G : Type) := Threads (State G) (Choice G) Panic ℤ Slot

def step (m : Machine G) : Turn Slot Syscall (Choice G) → Option (Machine G) :=
  m.step (fun p _ s => decide (s.life p = .alive)) body

/-- The first process runs and has no files. -/
structure Start (m : Machine G) : Prop where
  code : ∀ p, ∃ a, m.code p = .pure a
  file : ∀ f, (m.shared.file f).ref = 0 ∧ (m.shared.file f).type = .none
  ofile : ∀ p fd, m.shared.ofile p fd = none
  life : ∀ p, m.shared.life p = if p = m.shared.initproc then .alive else .unused
  page : ∀ g, m.shared.page g = .free ∨ m.shared.page g = .taken none
  made : m.shared.made = 0
  frees : ∀ i, m.shared.frees i = 0

def system (G : Type) [DecidableEq G] : System (Machine G) (Turn Slot Syscall (Choice G)) :=
  System.ofStep Start step

end Code

end Xv6.Files
