import MiniOS.Riscv

/-!
# MiniOS.Kalloc

The physical page allocator of `kernel/kalloc.c`: reference counts, the
reverse map and the address-sorted free list with its `free_block` headers
stored in the free pages themselves.

A function that can `panic` returns `Option`; `none` also stands for a
pointer walk that does not end, which a well-formed free list excludes.
The spinlock is invisible to one complete call, so it is not part of the
state; `kfree_contig` is cut at the points where it releases
`kmem.lock`, because other CPUs can run there.
-/

namespace MiniOS

open Function (update)

/-- What the linker fixes: `end`, the first address after the kernel, and
the page holding `trampoline.S`. -/
class KernelImage where
  kernelEnd : Nat
  trampoline : Nat
  kernBase_le : kernBase ≤ kernelEnd
  kernelEnd_le : pgRoundUp kernelEnd + pgSize ≤ physTop
  trampoline_mod : trampoline % pgSize = 0
  trampoline_lt : trampoline + pgSize ≤ kernelEnd

export KernelImage (kernelEnd trampoline)

/-- A kernel image of 3 MiB, about what the tables of `kalloc.c` make of it. -/
@[reducible] def sampleImage : KernelImage where
  kernelEnd := 0x80300000
  trampoline := 0x80007000
  kernBase_le := by decide
  kernelEnd_le := by decide
  trampoline_mod := by decide
  trampoline_lt := by decide

/-- `struct rmap`. -/
structure Rmap where
  pagetable : Nat
  va : Nat
deriving DecidableEq, Repr

/-- A cleared `reverse_map` entry. -/
def noRmap : Rmap := ⟨0, 0⟩

/-- `(pagetable_t)-1`: the mark of a page used by several page tables. -/
def sharedRmap : Nat := 2 ^ 64 - 1

/-- Physical memory and the tables of `kalloc.c`. -/
structure Kmem where
  mem : Mem
  refCount : Nat → Nat
  reverseMap : Nat → Rmap
  freelist : Nat
  useLock : Bool

/-- `PA2IDX`. -/
def pa2idx (pa : Nat) : Nat := pa / pgSize

/-- The index of a page in `reverse_map`. -/
def rmapIdx (pa : Nat) : Nat := (pa - kernBase) / pgSize

/-! ## free-block headers -/

/-- `((struct free_block*)b)->next`. -/
def next (m : Mem) (b : Nat) : Nat := (m b 0).toNat

/-- `((struct free_block*)b)->num_pages`, the low half of the second word. -/
def numPages (m : Mem) (b : Nat) : Nat := (m b 1).toNat % 2 ^ 32

/-- Store a word of a page. -/
def setWord (m : Mem) (pa : Nat) (i : Fin 512) (w : Word) : Mem :=
  update m pa (update (m pa) i w)

def setNext (m : Mem) (b v : Nat) : Mem := setWord m b 0 (BitVec.ofNat 64 v)

def setNumPages (m : Mem) (b n : Nat) : Mem :=
  setWord m b 1 (BitVec.ofNat 64 ((m b 1).toNat / 2 ^ 32 * 2 ^ 32 + n % 2 ^ 32))

/-- `memset(pa, b, n * PGSIZE)`. -/
def fillPages (m : Mem) (pa n : Nat) (b : Byte) : Mem :=
  fun a => if pa ≤ a ∧ a < pa + n * pgSize then pageFill b else m a

/-! ## reverse map -/

def recordRmap (k : Kmem) (pa pagetable va : Nat) : Kmem :=
  if kernBase ≤ pa ∧ pa < physTop then
    let e := k.reverseMap (rmapIdx pa)
    if e.pagetable = 0 then
      { k with reverseMap := update k.reverseMap (rmapIdx pa) ⟨pagetable, va⟩ }
    else if e.pagetable ≠ pagetable then
      -- used by several page tables: no longer compactable
      { k with reverseMap := update k.reverseMap (rmapIdx pa) { e with pagetable := sharedRmap } }
    else k
  else k

@[simp] theorem recordRmap_mem (k : Kmem) (pa pagetable va : Nat) :
    (recordRmap k pa pagetable va).mem = k.mem := by
  unfold recordRmap; grind
@[simp] theorem recordRmap_refCount (k : Kmem) (pa pagetable va : Nat) :
    (recordRmap k pa pagetable va).refCount = k.refCount := by
  unfold recordRmap; grind
@[simp] theorem recordRmap_freelist (k : Kmem) (pa pagetable va : Nat) :
    (recordRmap k pa pagetable va).freelist = k.freelist := by
  unfold recordRmap; grind

def clearRmap (k : Kmem) (pa : Nat) : Kmem :=
  if kernBase ≤ pa ∧ pa < physTop then
    { k with reverseMap := update k.reverseMap (rmapIdx pa) noRmap }
  else k

/-! ## kfree_contig -/

/-- The counting loop of `kfree_contig`: one reference less on each of `n` pages. -/
def decRefs (rc : Nat → Nat) (pa : Nat) : Nat → Option (Nat → Nat)
  | 0 => some rc
  | i + 1 => (decRefs rc pa i).bind fun rc =>
    let idx := pa2idx (pa + i * pgSize)
    if rc idx = 0 then none else some (update rc idx (rc idx - 1))

/-- The first locked section of `kfree_contig`.  The flag says whether the
block goes on to the free list. -/
def kfreeDecrement (k : Kmem) (pa n : Nat) : Option (Bool × Kmem) :=
  (decRefs k.refCount pa n).bind fun rc =>
    let k := { k with refCount := rc }
    if n = 1 ∧ 0 < rc (pa2idx pa) then some (false, k)
    else if 1 < n ∧ ∃ i < n, 0 < rc (pa2idx (pa + i * pgSize)) then none
    else some (true, k)

/-- The unlocked middle of `kfree_contig`: forget the reverse mappings and
fill with junk to catch dangling references. -/
def kfreeScrub (k : Kmem) (pa n : Nat) : Kmem :=
  let k := (List.range n).foldl (fun k i => clearRmap k (pa + i * pgSize)) k
  { k with mem := fillPages k.mem pa n 1 }

/-- More pointer steps than a free list can have blocks. -/
def listFuel : Nat := (physTop - kernBase) / pgSize + 1

/-- `while(curr != 0 && curr < b)`: the neighbours of `b` in the list. -/
def findSlot (m : Mem) (b : Nat) : Nat → Nat → Nat → Option (Nat × Nat)
  | 0, _, _ => none
  | fuel + 1, prev, curr =>
    if curr ≠ 0 ∧ curr < b then findSlot m b fuel curr (next m curr) else some (prev, curr)

/-- Merge a block with the next one if they touch. -/
def coalesceRight (m : Mem) (b : Nat) : Mem :=
  if next m b ≠ 0 ∧ b + numPages m b * pgSize = next m b then
    let m := setNumPages m b (numPages m b + numPages m (next m b))
    setNext m b (next m (next m b))
  else m

/-- Merge `b` into the previous block if they touch. -/
def coalesceLeft (m : Mem) (prev b : Nat) : Mem :=
  if prev ≠ 0 ∧ prev + numPages m prev * pgSize = b then
    let m := setNumPages m prev (numPages m prev + numPages m b)
    setNext m prev (next m b)
  else m

/-- Link the block `b` between `prev` and `curr` and coalesce; the new list
memory and head. -/
def insertAt (m : Mem) (head prev curr b : Nat) : Mem × Nat :=
  let head := if prev ≠ 0 then head else b
  let m := if prev ≠ 0 then setNext m prev b else m
  let m := setNext m b curr
  let m := coalesceRight m b
  (coalesceLeft m prev b, head)

/-- The second locked section of `kfree_contig`: insert by address and coalesce. -/
def kfreeInsert (k : Kmem) (pa n : Nat) : Option Kmem :=
  let m := setNumPages k.mem pa n
  (findSlot m pa listFuel 0 k.freelist).map fun (prev, curr) =>
    let (m, head) := insertAt m k.freelist prev curr pa
    { k with mem := m, freelist := head }

/-! ## kalloc_contig -/

/-- The best-fit scan: the first block of least sufficient size, with its predecessor. -/
def scanBest (m : Mem) (n : Nat) : Nat → Nat → Nat → Nat → Nat → Option (Nat × Nat)
  | 0, _, _, _, _ => none
  | fuel + 1, prev, curr, bestPrev, bestCurr =>
    if curr = 0 then some (bestPrev, bestCurr)
    else if n ≤ numPages m curr ∧ (bestCurr = 0 ∨ numPages m curr < numPages m bestCurr) then
      scanBest m n fuel curr (next m curr) prev curr
    else
      scanBest m n fuel curr (next m curr) bestPrev bestCurr

/-- `ref_count[..] = 1` for `n` pages. -/
def setRefs (rc : Nat → Nat) (pa : Nat) : Nat → Nat → Nat
  | 0 => rc
  | i + 1 => update (setRefs rc pa i) (pa2idx (pa + i * pgSize)) 1

/-- Take `n` pages off the front of the block `b`, whose predecessor is
`prev`; the new list memory and head. -/
def takeFront (m : Mem) (head prev b n : Nat) : Mem × Nat :=
  if numPages m b = n then
    if prev ≠ 0 then (setNext m prev (next m b), head) else (m, next m b)
  else
    let split := b + n * pgSize
    let m := setNumPages m split (numPages m b - n)
    let m := setNext m split (next m b)
    if prev ≠ 0 then (setNext m prev split, head) else (m, split)

/-- `kalloc_contig(n)`: the address of `n` pages, or 0. -/
def kallocContig (k : Kmem) (n : Nat) : Option (Nat × Kmem) :=
  (scanBest k.mem n listFuel 0 k.freelist 0 0).map fun (bestPrev, bestCurr) =>
    if bestCurr = 0 then (0, k)
    else
      let (m, head) := takeFront k.mem k.freelist bestPrev bestCurr n
      (bestCurr, { k with
        mem := fillPages m bestCurr n 5
        refCount := setRefs k.refCount bestCurr n
        freelist := head })

def kalloc (k : Kmem) : Option (Nat × Kmem) := kallocContig k 1

/-! ## reference counts -/

def incref (k : Kmem) (pa : Nat) : Kmem :=
  { k with refCount := update k.refCount (pa2idx pa) (k.refCount (pa2idx pa) + 1) }

def getref (k : Kmem) (pa : Nat) : Nat := k.refCount (pa2idx pa)

/-- `decref`: drop a reference and return what is left; it never frees. -/
def decref (k : Kmem) (pa : Nat) : Option (Nat × Kmem) :=
  if k.refCount (pa2idx pa) = 0 then none
  else
    let n := k.refCount (pa2idx pa) - 1
    some (n, { k with refCount := update k.refCount (pa2idx pa) n })

section
variable [KernelImage]

/-- `kfree_contig(pa, n)`. -/
def kfreeContig (k : Kmem) (pa n : Nat) : Option Kmem :=
  if pa % pgSize ≠ 0 ∨ pa < kernelEnd ∨ physTop < pa + n * pgSize then none
  else (kfreeDecrement k pa n).bind fun (last, k) =>
    if last then kfreeInsert (kfreeScrub k pa n) pa n else some k

def kfree (k : Kmem) (pa : Nat) : Option Kmem := kfreeContig k pa 1

/-- `freerange(end, PHYSTOP)`. -/
def freerange (k : Kmem) : Option Kmem :=
  let lo := pgRoundUp kernelEnd
  let n := (physTop - lo) / pgSize
  kfreeContig { k with refCount := setRefs k.refCount lo n } lo n

/-- `kinit`, on memory with arbitrary contents. -/
def kinit (mem : Mem) : Option Kmem :=
  (freerange ⟨mem, fun _ => 0, fun _ => noRmap, 0, false⟩).map fun k => { k with useLock := true }

/-- The pages the allocator hands out: `[PGROUNDUP(end), PHYSTOP)`. -/
def Managed (pa : Nat) : Prop := pa % pgSize = 0 ∧ pgRoundUp kernelEnd ≤ pa ∧ pa < physTop

instance (pa : Nat) : Decidable (Managed pa) := inferInstanceAs (Decidable (_ ∧ _ ∧ _))

end

end MiniOS
