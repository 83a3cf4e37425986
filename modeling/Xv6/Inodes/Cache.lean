import Mathlib.Data.Fintype.Basic
import Mathlib.Data.List.FinRange
import Xv6.Common.Program
import Xv6.Fs.Layout

/-!
# Cache — the inode cache under concurrent use

`iget`, `idup`, `ilock`, `iunlock`, `iput`, `iupdate` and `ialloc` of `fs.c`, as any number of processes call them.
An atomic action is what the code does under `icache.lock`, under the lock of one buffer, or to the fields of an
inode whose sleep lock it has.

What becomes of the blocks of a file is not part of this model: `itrunc` is here what it does to the inode.
-/

namespace Xv6.Inodes

open Common
open Fs (Dinode)

abbrev Entry := Fin ninode

structure Inode (P : Type) where
  dev : ℕ
  inum : ℕ
  ref : ℕ
  /-- The process that has the sleep lock. -/
  lock : Option P
  valid : Bool
  /-- The copy of the disk inode. -/
  copy : Dinode

def Inode.key {P : Type} (x : Inode P) : ℕ × ℕ :=
  (x.dev, x.inum)

structure State (P : Type) where
  inode : Entry → Inode P
  /-- The disk inodes, by device and number. -/
  disk : ℕ × ℕ → Dinode
  /-- The pointers to an entry that a process has obtained and not given back yet. -/
  refs : P → Entry → ℕ
  /-- The copy has been changed since it was last the same as on disk. -/
  changed : Entry → Bool
  /-- The entry that is the argument of the `iput` the process is in. -/
  putting : P → Option Entry

inductive Panic
  | ilock
  /-- "ilock: no type" -/
  | noType
  | iunlock
  /-- "iget: no inodes" -/
  | igetNoInodes
  /-- "ialloc: no inodes" -/
  | iallocNoInodes
  deriving DecidableEq

abbrev Code (P α : Type) := Prog (State P) Unit Panic α

section Code

variable {P : Type} [DecidableEq P]

namespace State

variable (s : State P)

def setInode (e : Entry) (x : Inode P) : State P :=
  { s with inode := Function.update s.inode e x }

def setDisk (d : ℕ × ℕ) (y : Dinode) : State P :=
  { s with disk := Function.update s.disk d y }

def setRefs (p : P) (e : Entry) (n : ℕ) : State P :=
  { s with refs := Function.update s.refs p (Function.update (s.refs p) e n) }

def setChanged (e : Entry) (b : Bool) : State P :=
  { s with changed := Function.update s.changed e b }

def setPutting (p : P) (o : Option Entry) : State P :=
  { s with putting := Function.update s.putting p o }

def cached (d : ℕ × ℕ) : Option Entry :=
  (List.finRange ninode).find? fun e => decide (0 < (s.inode e).ref ∧ (s.inode e).key = d)

def empty : Option Entry :=
  (List.finRange ninode).find? fun e => decide ((s.inode e).ref = 0)

/-- What `iget` does under `icache.lock`. -/
def get (p : P) (d : ℕ × ℕ) : Except Panic (Entry × State P) :=
  match s.cached d with
  | some e =>
    .ok (e, (s.setInode e { s.inode e with ref := (s.inode e).ref + 1 }).setRefs p e (s.refs p e + 1))
  | none =>
    match s.empty with
    | some e =>
      .ok (e, (s.setInode e { s.inode e with dev := d.1, inum := d.2, ref := 1, valid := false }).setRefs p e
        (s.refs p e + 1))
    | none => .error .igetNoInodes

end State

open Common.Prog (atomic await read modify)

/-- `ok` says when a process may look an inode up. -/
def iget (ok : State P → P → ℕ × ℕ → Bool) (p : P) (d : ℕ × ℕ) : Code P Entry :=
  await (fun _ s => ok s p d) fun _ s => s.get p d

def idup (p : P) (e : Entry) : Code P Unit :=
  modify fun s => (s.setInode e { s.inode e with ref := (s.inode e).ref + 1 }).setRefs p e (s.refs p e + 1)

def load (e : Entry) : Code P Unit :=
  atomic fun s =>
    if (s.disk (s.inode e).key).type = 0 then .error .noType
    else .ok ((), s.setInode e { s.inode e with copy := s.disk (s.inode e).key, valid := true })

def acquiresleep (p : P) (e : Entry) : Code P Unit :=
  await (fun _ s => decide ((s.inode e).lock = none)) fun _ s =>
    .ok ((), s.setInode e { s.inode e with lock := some p })

def ilock (p : P) (e : Entry) : Code P Unit := do
  let ref ← read fun s => (s.inode e).ref
  if ref < 1 then .halt .ilock
  else do
    acquiresleep p e
    let valid ← read fun s => (s.inode e).valid
    if valid then pure () else load e

def iunlock (p : P) (e : Entry) : Code P Unit :=
  atomic fun s =>
    if (s.inode e).lock ≠ some p ∨ (s.inode e).ref < 1 then .error .iunlock
    else .ok ((), s.setInode e { s.inode e with lock := none })

def change (e : Entry) (x : Dinode) : Code P Unit :=
  modify fun s => (s.setInode e { s.inode e with copy := x }).setChanged e true

def iupdate (e : Entry) : Code P Unit :=
  modify fun s => (s.setDisk (s.inode e).key (s.inode e).copy).setChanged e false

/-- The part of `itrunc` and of `iput` that changes the copy: fields are cleared. -/
def clear (e : Entry) (f : Dinode → Dinode) : Code P Unit :=
  modify fun s => s.setInode e { s.inode e with copy := f (s.inode e).copy }

def free (e : Entry) : Code P Unit := do
  clear e fun x => { x with addrs := fun _ => 0, size := 0 }
  iupdate e
  clear e fun x => { x with type := 0 }
  iupdate e
  modify fun s => s.setInode e { s.inode e with valid := false }

def freeUnused (e : Entry) : Code P Unit := do
  let unlinked ← read fun s => (s.inode e).valid && decide ((s.inode e).copy.nlink = 0)
  if unlinked then do
    let ref ← read fun s => (s.inode e).ref
    if ref = 1 then free e else pure ()
  else pure ()

def iput (p : P) (e : Entry) : Code P Unit := do
  await (fun _ s => decide ((s.inode e).lock = none)) fun _ s =>
    .ok ((), (s.setInode e { s.inode e with lock := some p }).setPutting p (some e))
  freeUnused e
  modify fun s => s.setInode e { s.inode e with lock := none }
  modify fun s =>
    ((s.setInode e { s.inode e with ref := (s.inode e).ref - 1 }).setRefs p e (s.refs p e - 1)).setPutting p none

/-- A free inode is marked as allocated under the lock of its block; the block of the next one is read later. -/
def iallocFrom (p : P) (dev : ℕ) (type : UInt16) : List ℕ → Code P Entry
  | [] => .halt .iallocNoInodes
  | inum :: inums => do
      let found ← atomic fun s =>
        if (s.disk (dev, inum)).type = 0 then
          .ok (true, s.setDisk (dev, inum) { Dinode.zero with type := type })
        else .ok (false, s)
      if found then atomic fun s => s.get p (dev, inum) else iallocFrom p dev type inums

def ialloc (p : P) (n dev : ℕ) (type : UInt16) : Code P Entry :=
  iallocFrom p dev type (List.range' 1 (n - 1))

/-! ## Interleavings -/

inductive Call
  | iget (d : ℕ × ℕ)
  | idup (e : Entry)
  | ilock (e : Entry)
  | iunlock (e : Entry)
  | iput (e : Entry)
  | change (e : Entry) (x : Dinode)
  | iupdate (e : Entry)
  | ialloc (n dev : ℕ) (type : UInt16)

/-- A process uses the pointers it has, changes an inode it has locked, does not itself make an allocated inode a free
one, and calls `iupdate` before it unlocks an inode it has changed. -/
def may (p : P) (k : Call) (s : State P) : Bool :=
  match k with
  | .iget _ => true
  | .idup e => decide (0 < s.refs p e)
  | .ilock e => decide (0 < s.refs p e)
  | .iunlock e => decide ((s.inode e).lock = some p ∧ s.changed e = false)
  | .iput e => decide (0 < s.refs p e)
  | .change e x => decide ((s.inode e).lock = some p ∧ x.type ≠ 0)
  | .iupdate e => decide ((s.inode e).lock = some p)
  | .ialloc _ _ type => decide (type ≠ 0)

def body (ok : State P → P → ℕ × ℕ → Bool) (p : P) : Call → Code P Unit
  | .iget d => do
      let _ ← iget ok p d
      pure ()
  | .idup e => idup p e
  | .ilock e => ilock p e
  | .iunlock e => iunlock p e
  | .iput e => iput p e
  | .change e x => change e x
  | .iupdate e => iupdate e
  | .ialloc n dev type => do
      let _ ← ialloc p n dev type
      pure ()

abbrev Machine (P : Type) := Threads (State P) Unit Panic Unit P

def step (ok : State P → P → ℕ × ℕ → Bool) (m : Machine P) (t : Turn P Call Unit) : Option (Machine P) :=
  m.step may (body ok) t

/-- Nobody uses the cache; anything may be on the disk. -/
structure Start (m : Machine P) : Prop where
  code : ∀ p, m.code p = .pure ()
  ref : ∀ e, (m.shared.inode e).ref = 0
  lock : ∀ e, (m.shared.inode e).lock = none
  refs : ∀ p e, m.shared.refs p e = 0
  changed : ∀ e, m.shared.changed e = false

def system (ok : State P → P → ℕ × ℕ → Bool) : System (Machine P) (Turn P Call Unit) :=
  System.ofStep Start (step ok)

end Code

end Xv6.Inodes
