import Mathlib.Algebra.Group.Nat.Defs
import Mathlib.Algebra.GroupWithZero.Nat
import Xv6.Common.Linked
import Xv6.Common.Transition

/-!
# Umalloc — the user heap

`malloc` and `free` of `umalloc.c`, over `sbrk`.  A header is known by its address; addresses and sizes are numbers,
as nothing that `sbrk` returns lies above `KERNBASE`.  The program may write to whatever it has been given, and
others may call `sbrk` as well.
-/

namespace Xv6.Umalloc

def headerSize : ℕ := 8

def kernbase : ℕ := 0x80000000

structure Heap where
  /-- `&base` -/
  base : ℕ
  ptr : ℕ → ℕ
  size : ℕ → ℕ
  freep : ℕ
  /-- The end of the program's memory. -/
  brk : ℕ
  /-- The number of units that `morecore` has obtained. -/
  core : ℕ

namespace Heap

variable (h : Heap)

def stop (a : ℕ) : ℕ :=
  a + headerSize * h.size a

def setPtr (a v : ℕ) : Heap :=
  { h with ptr := Function.update h.ptr a v }

def setSize (a v : ℕ) : Heap :=
  { h with size := Function.update h.size a v }

/-! ## The code -/

/-- Where the loop of `free` stops. -/
def fits (bp p : ℕ) : Bool :=
  (decide (bp > p) && decide (bp < h.ptr p)) ||
    (decide (p ≥ h.ptr p) && (decide (bp > p) || decide (bp < h.ptr p)))

def place (bp : ℕ) : ℕ :=
  Common.seek h.ptr (h.fits bp) h.brk h.freep

/-- `bp` is joined to the block after `p`, or points to it. -/
def joinUpper (bp p : ℕ) : Heap :=
  if h.stop bp = h.ptr p then (h.setSize bp (h.size bp + h.size (h.ptr p))).setPtr bp (h.ptr (h.ptr p))
  else h.setPtr bp (h.ptr p)

/-- `bp` is joined to `p`, or `p` points to it. -/
def joinLower (bp p : ℕ) : Heap :=
  if h.stop p = bp then (h.setSize p (h.size p + h.size bp)).setPtr p (h.ptr bp)
  else h.setPtr p bp

def free (ap : ℕ) : Heap :=
  let bp := ap - headerSize
  let p := h.place bp
  { (h.joinUpper bp p).joinLower bp p with freep := p }

/-- `sbrk(n)`: fails, or returns the old break. -/
def sbrk (ok : Bool) (n : ℕ) : Option (ℕ × Heap) :=
  if ok && decide (h.brk + n < kernbase) then some (h.brk, { h with brk := h.brk + n }) else none

def morecore (ok : Bool) (nu : ℕ) : Option Heap :=
  let nu := if nu < 4096 then 4096 else nu
  match h.sbrk ok (nu * headerSize % 2 ^ 32) with
  | none => none
  | some (hp, h) => some ({ h.setSize hp nu with core := h.core + nu }.free (hp + headerSize))

/-- The loop of `malloc` from one call of `morecore` to the next: `prevp` in front of a block that is large enough,
or of `freep`. -/
def search (nunits : ℕ) : ℕ :=
  Common.seek h.ptr (fun prevp => decide (h.size (h.ptr prevp) ≥ nunits) || decide (h.ptr prevp = h.freep)) h.brk
    h.freep

/-- What `malloc` takes from the block `p` after `prevp`. -/
def take (nunits prevp p : ℕ) : ℕ × Heap :=
  if h.size p = nunits then (p + headerSize, { h.setPtr prevp (h.ptr p) with freep := prevp })
  else
    let h := h.setSize p (h.size p - nunits)
    let p := p + headerSize * h.size p
    (p + headerSize, { h.setSize p nunits with freep := prevp })

/-- The loop of `malloc`, which is left if there is a block or `morecore` fails.  `none` if `morecore` is called too
often. -/
def mallocLoop (ok : Bool) (nunits : ℕ) : ℕ → Heap → Option (ℕ × Heap)
  | 0, _ => none
  | n + 1, h =>
    let prevp := h.search nunits
    if h.size (h.ptr prevp) ≥ nunits then some (h.take nunits prevp (h.ptr prevp))
    else
      match h.morecore ok nunits with
      | none => some (0, h)
      | some h => mallocLoop ok nunits n h

def nunits (nbytes : ℕ) : ℕ :=
  (nbytes + headerSize - 1) % 2 ^ 32 / headerSize + 1

def init : Heap :=
  if h.freep = 0 then { (h.setPtr h.base h.base).setSize h.base 0 with freep := h.base } else h

def malloc (ok : Bool) (nbytes : ℕ) : Option (ℕ × Heap) :=
  mallocLoop ok (nunits nbytes) 2 h.init

end Heap

/-! ## A program -/

structure State where
  heap : Heap
  /-- The headers of the blocks that are live, with the bytes requested. -/
  live : List (ℕ × ℕ)

inductive Action
  /-- `ok` if `sbrk` has memory left. -/
  | malloc (nbytes : ℕ) (ok : Bool)
  | free (bp nbytes : ℕ)
  /-- The program writes to its blocks. -/
  | write (ptr size : ℕ → ℕ)
  /-- Somebody else calls `sbrk`. -/
  | grow (n : ℕ)

/-- A step of a program that frees live blocks only. -/
inductive Step : State → Action → State → Prop
  | malloc {s : State} {nbytes ap : ℕ} {ok : Bool} {h : Heap} (hsize : nbytes < 2 ^ 31 - 2 * 4096 * 8)
      (hm : s.heap.malloc ok nbytes = some (ap, h)) :
      Step s (.malloc nbytes ok)
        { heap := h
          live := if ap = 0 then s.live else (ap - headerSize, nbytes) :: s.live }
  | free {s : State} {bp nbytes : ℕ} (hlive : (bp, nbytes) ∈ s.live) :
      Step s (.free bp nbytes) { heap := s.heap.free (bp + headerSize), live := s.live.erase (bp, nbytes) }
  | write {s : State} {ptr size : ℕ → ℕ}
      (hsame : ∀ a, (∀ b ∈ s.live, a ≤ b.1 ∨ s.heap.stop b.1 ≤ a) → ptr a = s.heap.ptr a ∧ size a = s.heap.size a) :
      Step s (.write ptr size) { s with heap := { s.heap with ptr := ptr, size := size } }
  | grow {s : State} {n : ℕ} (hn : s.heap.brk + n < kernbase) :
      Step s (.grow n) { s with heap := { s.heap with brk := s.heap.brk + n } }

structure Fresh (s : State) : Prop where
  base : 0 < s.heap.base
  brk : s.heap.base + headerSize ≤ s.heap.brk
  freep : s.heap.freep = 0
  core : s.heap.core = 0
  live : s.live = []

end Xv6.Umalloc
