import MiniOS.Kalloc

/-!
# MiniOS.Vm

Virtual memory: the functions of `kernel/vm.c` that build, copy, unmap and
free user page tables, resolve page faults, and copy between kernel and user
space.

A function works on the allocator state in `K`, where `none` is a `panic`
(or an endless recursion).  A C result of 0 / -1 is a `Bool`, a pointer that
can be null is an `Option`; a physical address that can be 0 stays a number.
Loops over a range of pages recurse on the number of pages left.
-/

namespace MiniOS

/-- Kernel code on the allocator state. -/
abbrev K := StateT Kmem Option

/-- `panic`. -/
def kpanic {α : Type} : K α := fun _ => none

/-- The address of a page-table entry: `&pagetable[idx]`. -/
structure PteRef where
  table : Nat
  idx : Fin 512
deriving DecidableEq, Repr

def readPte (r : PteRef) : K Word := fun k => some (k.mem r.table r.idx, k)

def writePte (r : PteRef) (w : Word) : K Unit := fun k =>
  some ((), { k with mem := setWord k.mem r.table r.idx w })

def readPage (pa : Nat) : K Page := fun k => some (k.mem pa, k)

/-- `memset(pa, 0, PGSIZE)` and `memmove(pa, .., PGSIZE)`. -/
def writePage (pa : Nat) (p : Page) : K Unit := fun k =>
  some ((), { k with mem := Function.update k.mem pa p })

/-- `memmove` of some bytes into a page. -/
def writeBytes (pa off : Nat) (bs : List Byte) : K Unit := fun k =>
  some ((), { k with mem := Function.update k.mem pa (pageWrite (k.mem pa) off bs) })

def recordRmapK (pa pagetable va : Nat) : K Unit := fun k => some ((), recordRmap k pa pagetable va)

def increfK (pa : Nat) : K Unit := fun k => some ((), incref k pa)

def getrefK (pa : Nat) : K Nat := fun k => some (getref k pa, k)

def decrefK (pa : Nat) : K Nat := fun k => decref k pa

def kallocK : K Nat := fun k => kalloc k

/-! ## walk -/

/-- The loop of `walk` from a level down. -/
def walkLevel (va : Nat) (alloc : Bool) : Nat → Nat → K (Option PteRef)
  | 0, pagetable => pure (some ⟨pagetable, px 0 va⟩)
  | level + 1, pagetable => do
      let pte ← readPte ⟨pagetable, px (level + 1) va⟩
      if has pte pteV then
        walkLevel va alloc level (pte2pa pte)
      else if alloc then
        let child ← kallocK
        if child = 0 then pure none
        else
          writePage child zeroPage
          writePte ⟨pagetable, px (level + 1) va⟩ (pa2pte child ||| pteV)
          walkLevel va alloc level child
      else pure none

/-- `walk(pagetable, va, alloc)`. -/
def walk (pagetable va : Nat) (alloc : Bool) : K (Option PteRef) :=
  if maxVa ≤ va then kpanic else walkLevel va alloc 2 pagetable

/-- `walkaddr`: the page a user address is mapped to, or 0. -/
def walkaddr (pagetable va : Nat) : K Nat :=
  if maxVa ≤ va then pure 0
  else do
    match ← walk pagetable va false with
    | none => pure 0
    | some r =>
      let pte ← readPte r
      if !has pte pteV then pure 0
      else if !has pte pteU then pure 0
      else pure (pte2pa pte)

/-! ## mappages -/

/-- The loop of `mappages` over the pages left. -/
def mappagesLoop (pagetable : Nat) (perm : Word) : Nat → Nat → Nat → K Bool
  | 0, _, _ => pure true
  | n + 1, a, pa => do
      match ← walk pagetable a true with
      | none => pure false
      | some r =>
        let pte ← readPte r
        if has pte pteV then kpanic
        else
          writePte r (pa2pte pa ||| perm ||| pteV)
          if has perm pteU then recordRmapK pa pagetable a
          mappagesLoop pagetable perm n (a + pgSize) ((pa + pgSize) % 2 ^ 64)

def mappages (pagetable va size pa : Nat) (perm : Word) : K Bool :=
  if va % pgSize ≠ 0 then kpanic
  else if size % pgSize ≠ 0 then kpanic
  else if size = 0 then kpanic
  else mappagesLoop pagetable perm (size / pgSize) va pa

/-- `uvmcreate`: an empty page table, or 0. -/
def uvmcreate : K Nat := do
  let pagetable ← kallocK
  if pagetable = 0 then pure 0
  else
    writePage pagetable zeroPage
    pure pagetable

section
variable [KernelImage]

def kfreeK (pa : Nat) : K Unit := fun k => (kfree k pa).map fun k => ((), k)

/-! ## uvmunmap, uvmalloc, uvmdealloc -/

def uvmunmapLoop (pagetable : Nat) (doFree : Bool) : Nat → Nat → K Unit
  | 0, _ => pure ()
  | n + 1, a => do
      match ← walk pagetable a false with
      | none => uvmunmapLoop pagetable doFree n (a + pgSize)
      | some r =>
        let pte ← readPte r
        if !has pte pteV then uvmunmapLoop pagetable doFree n (a + pgSize)
        else
          if doFree then kfreeK (pte2pa pte)
          writePte r 0
          uvmunmapLoop pagetable doFree n (a + pgSize)

def uvmunmap (pagetable va npages : Nat) (doFree : Bool) : K Unit :=
  if va % pgSize ≠ 0 then kpanic else uvmunmapLoop pagetable doFree npages va

def uvmdealloc (pagetable oldsz newsz : Nat) : K Nat :=
  if oldsz ≤ newsz then pure oldsz
  else do
    if pgRoundUp newsz < pgRoundUp oldsz then
      uvmunmap pagetable (pgRoundUp newsz) ((pgRoundUp oldsz - pgRoundUp newsz) / pgSize) true
    pure newsz

/-- The loop of `uvmalloc` over the pages left; `oldsz` is already rounded up. -/
def uvmallocLoop (pagetable oldsz newsz : Nat) (xperm : Word) : Nat → Nat → K Nat
  | 0, _ => pure newsz
  | n + 1, a => do
      let mem ← kallocK
      if mem = 0 then
        let _ ← uvmdealloc pagetable a oldsz
        pure 0
      else
        writePage mem zeroPage
        if ← mappages pagetable a pgSize mem (pteR ||| pteU ||| xperm) then
          uvmallocLoop pagetable oldsz newsz xperm n (a + pgSize)
        else
          kfreeK mem
          let _ ← uvmdealloc pagetable a oldsz
          pure 0

/-- `uvmalloc`: the new size, or 0. -/
def uvmalloc (pagetable oldsz newsz : Nat) (xperm : Word) : K Nat :=
  if newsz < oldsz then pure oldsz
  else
    uvmallocLoop pagetable (pgRoundUp oldsz) newsz xperm
      ((newsz - pgRoundUp oldsz + pgSize - 1) / pgSize) (pgRoundUp oldsz)

/-! ## freewalk, uvmfree -/

/-- The entries of one page-table page, in order; `child` frees a subtree. -/
def freewalkEntries (child : Nat → K Unit) (pagetable : Nat) : List (Fin 512) → K Unit
  | [] => pure ()
  | i :: is => do
      let pte ← readPte ⟨pagetable, i⟩
      if has pte pteV && !has pte (pteR ||| pteW ||| pteX) then
        child (pte2pa pte)
        writePte ⟨pagetable, i⟩ 0
        freewalkEntries child pagetable is
      else if has pte pteV then kpanic
      else freewalkEntries child pagetable is

/-- `freewalk` on a page table of some number of levels; user page tables have
three, and a deeper recursion does not return. -/
def freewalk : Nat → Nat → K Unit
  | 0, _ => kpanic
  | level + 1, pagetable => do
      freewalkEntries (freewalk level) pagetable (List.finRange 512)
      kfreeK pagetable

def uvmfree (pagetable sz : Nat) : K Unit := do
  if 0 < sz then uvmunmap pagetable 0 (pgRoundUp sz / pgSize) true
  freewalk 3 pagetable

/-! ## uvmcopy -/

/-- The flags a page is shared with: writable pages become copy-on-write. -/
def cowFlags (flags : Word) : Word :=
  if has flags pteW then (flags &&& ~~~pteW) ||| pteCow else flags

def uvmcopyLoop (old new : Nat) : Nat → Nat → K Bool
  | 0, _ => pure true
  | n + 1, i => do
      match ← walk old i false with
      | none => uvmcopyLoop old new n (i + pgSize)
      | some r =>
        let pte ← readPte r
        if !has pte pteV then uvmcopyLoop old new n (i + pgSize)
        else
          let pa := pte2pa pte
          let flags := pteFlags pte
          if has flags pteW then writePte r (pa2pte pa ||| cowFlags flags)
          if ← mappages new i pgSize pa (cowFlags flags) then
            increfK pa
            uvmcopyLoop old new n (i + pgSize)
          else
            uvmunmap new 0 (i / pgSize) true
            pure false

/-- `uvmcopy`: share the pages of `old` below `sz` with `new`. -/
def uvmcopy (old new sz : Nat) : K Bool :=
  uvmcopyLoop old new ((sz + pgSize - 1) / pgSize) 0

/-- `uvmclear`: no user access to the page of `va`. -/
def uvmclear (pagetable va : Nat) : K Unit := do
  match ← walk pagetable va false with
  | none => kpanic
  | some r =>
    let pte ← readPte r
    writePte r (pte &&& ~~~pteU)

/-! ## vmfault -/

/-- The entry of a page that the faulting process has copied. -/
def copiedPte (mem : Nat) : Word := pa2pte mem ||| pteW ||| pteU ||| pteR ||| pteV ||| pteU

omit [KernelImage] in
theorem pte2pa_copiedPte {mem : Nat} (h : mem < 2 ^ 64) (ha : mem % pgSize = 0) :
    pte2pa (copiedPte mem) = mem := by
  have hU := toNat_pte_lt.2.2.2.2.1
  rw [copiedPte, pte2pa_or _ hU, pte2pa_or _ toNat_pte_lt.1, pte2pa_or _ toNat_pte_lt.2.1,
    pte2pa_or _ hU, pte2pa_pa2pte_or h ha toNat_pte_lt.2.2.1]

/-- The entry of a page promoted in place, after its two updates. -/
def promotedPte (pte : Word) : Word := (pte ||| pteW) &&& ~~~pteCow

omit [KernelImage] in
theorem pte2pa_promotedPte (pte : Word) : pte2pa (promotedPte pte) = pte2pa pte := by
  rw [promotedPte, pte2pa_and_not _ toNat_pte_lt.2.2.2.2.2, pte2pa_or _ toNat_pte_lt.2.2.1]

/-- Case 1 of `vmfault`: allocate the page lazily. -/
def vmfaultLazy (pagetable va : Nat) : K Nat := do
  let mem ← kallocK
  if mem = 0 then pure 0
  else
    writePage mem zeroPage
    if ← mappages pagetable va pgSize mem (pteW ||| pteU ||| pteR) then pure mem
    else
      kfreeK mem
      pure 0

/-- Case 2 of `vmfault`: a write to a copy-on-write page. -/
def vmfaultCow (pagetable va : Nat) (r : PteRef) (pte : Word) : K Nat := do
  let pa := pte2pa pte
  let ref ← getrefK pa
  if 1 < ref then
    -- multiple references: must copy
    let mem ← kallocK
    if mem = 0 then pure 0
    else
      writePage mem (← readPage pa)
      writePte r (copiedPte mem)
      let _ ← decrefK pa
      recordRmapK (pte2pa (copiedPte mem)) pagetable va
      pure (pte2pa (copiedPte mem))
  else
    -- last reference: promote in place
    writePte r (pte ||| pteW)
    writePte r (promotedPte pte)
    recordRmapK (pte2pa (promotedPte pte)) pagetable va
    pure (pte2pa (promotedPte pte))

/-- `vmfault(pagetable, va, read)` of a process of size `sz`: the page now
mapped at `va`, or 0. -/
def vmfault (sz pagetable va : Nat) : K Nat :=
  if sz ≤ va then pure 0
  else do
    let va := pgRoundDown va
    match ← walk pagetable va false with
    | none => vmfaultLazy pagetable va
    | some r =>
      let pte ← readPte r
      if !has pte pteV then vmfaultLazy pagetable va
      else if has pte pteCow && !has pte pteW then vmfaultCow pagetable va r pte
      else pure 0

/-! ## copyout, copyin -/

/-- The page `copyout` and `copyin` work on: the one `va0` is mapped to, or
the one a fault brings in; 0 if there is none. -/
def userPage (sz pagetable va0 : Nat) : K Nat := do
  let pa0 ← walkaddr pagetable va0
  if pa0 = 0 then vmfault sz pagetable va0 else pure pa0

/-- The loop of `copyout`; the fuel is the number of bytes left, each round
copies at least one.  The result is C's, with the number of bytes copied. -/
def copyoutLoop (sz pagetable : Nat) : Nat → Nat → List Byte → Nat → K (Bool × Nat)
  | 0, _, _, done => pure (true, done)
  | fuel + 1, dstva, src, done =>
    if src = [] then pure (true, done)
    else
      let va0 := pgRoundDown dstva
      if maxVa ≤ va0 then pure (false, done)
      else do
        let pa0 ← userPage sz pagetable va0
        if pa0 = 0 then pure (false, done)
        else
          match ← walk pagetable va0 false with
          | none => kpanic
          | some r =>
            let pte ← readPte r
            -- forbid copyout over read-only user text pages
            if !has pte pteW then pure (false, done)
            else
              let n := min (pgSize - (dstva - va0)) src.length
              writeBytes pa0 (dstva - va0) (src.take n)
              copyoutLoop sz pagetable fuel (va0 + pgSize) (src.drop n) (done + n)

/-- `copyout(pagetable, dstva, src, len)` by a process of size `sz`. -/
def copyout (sz pagetable dstva : Nat) (src : List Byte) : K (Bool × Nat) :=
  copyoutLoop sz pagetable src.length dstva src 0

/-- The bytes of a page from an offset. -/
def pageBytes (p : Page) (off n : Nat) : List Byte := (List.range n).map fun i => pageByte p (off + i)

/-- The loop of `copyin`, with the bytes copied so far. -/
def copyinLoop (sz pagetable : Nat) : Nat → Nat → Nat → List Byte → K (Option (List Byte))
  | 0, _, _, dst => pure (some dst)
  | fuel + 1, srcva, len, dst =>
    if len = 0 then pure (some dst)
    else do
      let va0 := pgRoundDown srcva
      let pa0 ← userPage sz pagetable va0
      if pa0 = 0 then pure none
      else
        let n := min (pgSize - (srcva - va0)) len
        let page ← readPage pa0
        copyinLoop sz pagetable fuel (va0 + pgSize) (len - n) (dst ++ pageBytes page (srcva - va0) n)

/-- `copyin(pagetable, dst, srcva, len)` by a process of size `sz`: the bytes
read, or `none`. -/
def copyin (sz pagetable srcva len : Nat) : K (Option (List Byte)) :=
  copyinLoop sz pagetable len srcva len []

end

end MiniOS
