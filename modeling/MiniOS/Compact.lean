import MiniOS.Vm

/-!
# MiniOS.Compact

`compact_memory` of `kernel/kalloc.c`: slide movable pages down into the free
block below them.  The `free_block` header of the hole lies in the first bytes
of the page that the moved page overwrites.
-/

namespace MiniOS

/-- `ref_count[idx_hole]` and `ref_count[idx_used]` change places. -/
def swapRefs (rc : Nat → Nat) (i j : Nat) : Nat → Nat :=
  Function.update (Function.update rc i (rc j)) j (rc i)

/-- `while(p != 0 && p->next != curr) p = p->next`: the block before `curr`, or 0. -/
def findPrev (m : Mem) (curr : Nat) : Nat → Nat → Option Nat
  | 0, _ => none
  | fuel + 1, p => if p ≠ 0 ∧ next m p ≠ curr then findPrev m curr fuel (next m p) else some p

/-- The page right above the free block `curr`. -/
def usedAbove (m : Mem) (curr : Nat) : Nat := curr + numPages m curr * pgSize % 2 ^ 32

/-- The guard of the relocation branch.  The counts are indexed by
`pfn_used`, the index of the reverse map. -/
def movable (k : Kmem) (used : Nat) : Bool :=
  let pfnUsed := (used - kernBase) / pgSize
  let e := k.reverseMap pfnUsed
  e.pagetable ≠ 0 ∧ e.pagetable ≠ sharedRmap ∧ k.refCount pfnUsed = 1

/-- Point the recorded entry of the moved page at its new place. -/
def redirect (pagetable va hole : Nat) : K Unit := do
  match ← walk pagetable va false with
  | none => pure ()
  | some r =>
    let pte ← readPte r
    if has pte pteV then writePte r (pa2pte hole ||| pteFlags pte)

/-- Put the hole, now one page higher, into the list in place of `curr` and
merge it with the next block. -/
def shiftHole (curr size : Nat) : K Unit := fun k =>
  let shifted := curr + pgSize
  let m := setNumPages k.mem shifted size
  -- `curr` is the moved page by now
  let m := setNext m shifted (next m curr)
  let linked : Option (Mem × Nat) :=
    if k.freelist = curr then some (m, shifted)
    else (findPrev m curr listFuel k.freelist).map fun p =>
      if p ≠ 0 then (setNext m p shifted, k.freelist) else (m, shifted)
  linked.map fun (m, head) => ((), { k with mem := coalesceRight m shifted, freelist := head })

/-- The relocation branch of `compact_memory`. -/
def relocate (curr : Nat) : K Unit := fun k =>
  let size := numPages k.mem curr
  let used := usedAbove k.mem curr
  let pfnUsed := (used - kernBase) / pgSize
  let e := k.reverseMap pfnUsed
  (do
    (fun k => some ((), { k with refCount := swapRefs k.refCount (pa2idx curr) (pa2idx used) }) : K Unit)
    writePage curr (← readPage used)
    redirect e.pagetable e.va curr
    (fun k => some ((), { k with
      reverseMap := Function.update (Function.update k.reverseMap (rmapIdx curr) e) pfnUsed noRmap }) : K Unit)
    shiftHole curr size) k

/-- The loop of `compact_memory`; the fuel is spent only by a loop that does
not end. -/
def compactLoop : Nat → Nat → K Unit
  | 0, _ => kpanic
  | fuel + 1, curr => fun k =>
    if curr = 0 then some ((), k)
    else
      let used := usedAbove k.mem curr
      if physTop ≤ used then some ((), k)
      else if next k.mem curr ≠ 0 ∧ next k.mem curr = used then compactLoop fuel (next k.mem curr) k
      else if movable k used then
        (relocate curr k).bind fun r => compactLoop fuel r.2.freelist r.2
      else compactLoop fuel (next k.mem curr) k

/-- More rounds than pages can move. -/
def compactFuel : Nat := listFuel * listFuel

def compactMemory : K Unit := fun k =>
  if !k.useLock then some ((), k) else compactLoop compactFuel k.freelist k

end MiniOS
