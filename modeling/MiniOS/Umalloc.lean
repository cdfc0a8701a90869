import MiniOS.Kernel.Memory

/-!
# MiniOS.Umalloc

The allocator of user programs, `user/umalloc.c`: a circular list of free blocks,
each with a header of 16 bytes in front, from which `malloc` takes the first that
fits.  `morecore` gets memory from `sbrk`.

Addresses are in bytes, sizes in units of a header.  The loops have fuel; `none`
is a process that does not come back, because it is killed or loops.
-/

namespace MiniOS.Umalloc

open Function (update)

/-- The headers in memory, `freep`, and the size of the process. -/
structure Heap where
  ptr : Nat → Nat
  size : Nat → Nat
  freep : Nat
  sz : Nat

/-- What `sbrk(n)` gives to a process of some size: an address and the new size. -/
abbrev Sbrk := Nat → Int → Option (Nat × Nat)

namespace Heap

/-- `a->s.ptr = v`. -/
def setPtr (h : Heap) (a v : Nat) : Heap := { h with ptr := update h.ptr a v }

/-- `a->s.size = v`, a `uint`. -/
def setSize (h : Heap) (a v : Nat) : Heap := { h with size := update h.size a (v % 2 ^ 32) }

/-- `a + a->s.size`. -/
def fin (h : Heap) (a : Nat) : Nat := a + 16 * h.size a

end Heap

/-- The loop of `free`: the block after which `bp` goes. -/
def findPlace (h : Heap) (bp : Nat) : Nat → Nat → Option Nat
  | 0, _ => none
  | n + 1, p =>
    if bp > p ∧ bp < h.ptr p then some p
    else if p ≥ h.ptr p ∧ (bp > p ∨ bp < h.ptr p) then some p
    else findPlace h bp n (h.ptr p)

/-- `bp` goes after `p`: it is joined to the upper neighbour, or linked to it. -/
def joinUpper (h : Heap) (p bp : Nat) : Heap :=
  if h.fin bp = h.ptr p then
    (h.setSize bp (h.size bp + h.size (h.ptr p))).setPtr bp (h.ptr (h.ptr p))
  else h.setPtr bp (h.ptr p)

/-- `bp` is joined to the lower neighbour, or linked to it. -/
def joinLower (h : Heap) (p bp : Nat) : Heap :=
  if h.fin p = bp then (h.setSize p (h.size p + h.size bp)).setPtr p (h.ptr bp)
  else h.setPtr p bp

/-- `free(ap)`. -/
def free (fuel ap : Nat) (h : Heap) : Option Heap := do
  let bp := ap - 16
  let p ← findPlace h bp fuel h.freep
  return { joinLower (joinUpper h p bp) p bp with freep := p }

/-- The argument of `sbrk` in `morecore`: a product of 64 bits, then an `int`. -/
def morecoreBytes (nu : Nat) : Int := (((max nu 4096) * 16 : Nat) : Int).bmod (2 ^ 32)

/-- `morecore(nu)`: `freep`, or 0.  The process is killed when it stores the header above its last page. -/
def morecore (sbrk : Sbrk) (fuel nu : Nat) (h : Heap) : Option (Nat × Heap) :=
  match sbrk h.sz (morecoreBytes nu) with
  | none => some (0, h)
  | some (p, sz) =>
    if pgRoundUp sz < p + 12 then none
    else do
      let h ← free fuel (p + 16) ({ h with sz := sz }.setSize p (max nu 4096))
      return (h.freep, h)

/-- The loop of `malloc`. -/
def mallocLoop (sbrk : Sbrk) (fuel nunits : Nat) : Nat → Nat → Nat → Heap → Option (Nat × Heap)
  | 0, _, _, _ => none
  | n + 1, prevp, p, h =>
    if nunits ≤ h.size p then
      if h.size p = nunits then some (p + 16, { h.setPtr prevp (h.ptr p) with freep := prevp })
      else
        -- the tail end
        let h := h.setSize p (h.size p - nunits)
        some (h.fin p + 16, { h.setSize (h.fin p) nunits with freep := prevp })
    else if p = h.freep then do
      let (p, h) ← morecore sbrk fuel nunits h
      if p = 0 then some (0, h) else mallocLoop sbrk fuel nunits n p (h.ptr p) h
    else mallocLoop sbrk fuel nunits n p (h.ptr p) h

/-- `nunits` of `malloc`. -/
def unitsFor (nbytes : Nat) : Nat := (nbytes + 15) / 16 + 1

/-- `malloc(nbytes)`, where the static `base` has the given address. -/
def malloc (base : Nat) (sbrk : Sbrk) (fuel nbytes : Nat) (h : Heap) : Option (Nat × Heap) :=
  let h := if h.freep = 0 then { (h.setPtr base base).setSize base 0 with freep := base } else h
  mallocLoop sbrk fuel (unitsFor nbytes) fuel h.freep (h.ptr h.freep) h

/-- `sbrk(n)` by the kernel: `sys_sbrk` and `growproc`, if there is memory or not.  A decrease by
more than the size changes nothing. -/
def kernelSbrk (noMem : Nat → Int → Bool) : Sbrk := fun sz n =>
  if 0 < n then if trapframeVa < sz + n.toNat ∨ noMem sz n then none else some (sz, sz + n.toNat)
  else if sz + n < 0 then some (sz, sz) else some (sz, (sz + n).toNat)

end MiniOS.Umalloc
