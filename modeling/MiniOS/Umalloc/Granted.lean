import MiniOS.Umalloc

/-!
# MiniOS.Umalloc.Granted

What `malloc` returns lies below the break if the request of `morecore` is a
positive `int`.  From 2³¹ - 31 bytes on it is not, the kernel takes it for a
small or negative one, and `malloc` hands out memory that nobody has granted.
-/

namespace MiniOS.Umalloc

open Function (update_self update_of_ne)
open Total

/-! ## The kernel's `sbrk` -/

/-- The system call does what `kernelSbrk` says of the size. -/
theorem sysSbrk_kernelSbrk [KernelImage] {s : Sys} {p : Fin nproc} (h : s.Inv)
    (hl : (s.procs p).state ≠ .unused) (n : BitVec 32) :
    Returns (sysSbrk p n true) s fun res s' => ∃ noMem,
      kernelSbrk noMem (s.procs p).sz n.toInt = res.map fun a => (a, (s'.procs p).sz) := by
  refine (h.sysSbrk hl n true).with_run.mono ?_
  rintro res s' ⟨hrun, sz, hr, -, hsome⟩
  have hsz : (s'.procs p).sz = sz := by rw [hr.procs, update_self]
  rw [hsz]
  cases res with
  | none =>
    refine ⟨fun _ _ => true, ?_⟩
    by_cases hpos : 0 < n.toInt
    · simp [kernelSbrk, hpos]
    · -- without growth there is nothing to fail
      exfalso
      rw [sysSbrk, bind_eq_some] at hrun
      obtain ⟨proc, s₁, -, hrun⟩ := hrun
      rw [if_pos (.inl rfl), bind_eq_some] at hrun
      obtain ⟨ok, s₂, hgrow, hrun⟩ := hrun
      rw [growproc, bind_eq_some] at hgrow
      obtain ⟨proc', s₃, -, hgrow⟩ := hgrow
      rw [if_neg hpos] at hgrow
      have hok : ok = true := by
        split at hgrow
        · obtain ⟨_, _, -, hgrow⟩ := bind_eq_some.mp hgrow
          obtain ⟨_, _, -, hgrow⟩ := bind_eq_some.mp hgrow
          cases hgrow
          rfl
        · cases hgrow
          rfl
      rw [hok] at hrun
      cases hrun
  | some a =>
    obtain ⟨rfl, hcase⟩ := hsome a rfl
    refine ⟨fun _ _ => false, ?_⟩
    obtain ⟨es, hm, -⟩ := hr.moves
    have hlive : (s'.procs p).state ≠ .unused := by
      rw [hr.procs, update_self]
      exact hl
    have hle := (hm.inv.live hlive).size
    rw [hsz] at hle
    rw [kernelSbrk, Option.map_some]
    rcases hcase with hcase | ⟨hneg, rfl⟩
    · by_cases hpos : 0 < n.toInt
      · rw [if_pos hpos, if_neg (by rintro (h | h) <;> [omega; cases h])]
        congr 2
        omega
      · rw [if_neg hpos, if_neg (by omega)]
        congr 2
        omega
    · rw [if_neg (by omega), if_pos hneg]

/-- The bytes of the request, as a signed number of 32 bits. -/
theorem morecoreBytes_eq {nu v : Nat} (hv : max nu 4096 * 16 = v) (hlt : v < 3 * 2 ^ 31) :
    morecoreBytes nu = if v < 2 ^ 31 then (v : Int) else v - 2 ^ 32 := by
  have h : (v : Int).bmod 4294967296 = if v < 2147483648 then (v : Int) else v - 4294967296 := by
    rw [Int.bmod_def]
    omega
  subst hv
  exact h

/-! ## Blocks below the break -/

/-- Following the list from `freep` stays in `L`, whose blocks are between the start of the heap and the
break; `base` is below and empty. -/
structure Owned (base start : Nat) (L : Set Nat) (h : Heap) : Prop where
  base_mem : base ∈ L
  freep_mem : h.freep ∈ L
  ptr_mem : ∀ a ∈ L, h.ptr a ∈ L
  start_le : ∀ a ∈ L, a ≠ base → start ≤ a
  fin_le : ∀ a ∈ L, a ≠ base → h.fin a ≤ h.sz
  base_size : h.size base = 0
  pos : 0 < base
  base_lt : base < start
  start_le_sz : start ≤ h.sz

namespace Owned
variable {base start : Nat} {L : Set Nat} {h : Heap} {a b p bp : Nat}

section
variable (ho : Owned base start L h)
include ho

theorem pos_of_mem (ha : a ∈ L) : a ≠ 0 := by
  have := ho.pos
  have := ho.base_lt
  by_cases hb : a = base
  · omega
  · have := ho.start_le a ha hb
    omega

theorem setPtr (hb : b ∈ L) : Owned base start L (h.setPtr a b) where
  __ := ho
  ptr_mem c hc := by
    by_cases hca : c = a
    · simp only [Heap.setPtr, hca, update_self]
      exact hb
    · simp only [Heap.setPtr, update_of_ne hca]
      exact ho.ptr_mem c hc

/-- A header gets a size with which its block is below the break. -/
theorem setSize {v : Nat} (ha : a ≠ base) (hv : a + 16 * v ≤ h.sz) :
    Owned base start L (h.setSize a v) where
  __ := ho
  fin_le c hc hne := by
    have hmod := Nat.mod_le v (2 ^ 32)
    by_cases hca : c = a
    · simp only [Heap.fin, Heap.setSize, hca, update_self]
      omega
    · simp only [Heap.fin, Heap.setSize, update_of_ne hca]
      exact ho.fin_le c hc hne
  base_size := by
    simp only [Heap.setSize, update_of_ne (Ne.symm ha)]
    exact ho.base_size

/-- A block below the break is linked to one of the list. -/
theorem add (hs : start ≤ a) (hfin : h.fin a ≤ h.sz) (hb : b ∈ L) :
    Owned base start (insert a L) (h.setPtr a b) where
  __ := ho
  base_mem := Set.mem_insert_of_mem _ ho.base_mem
  freep_mem := Set.mem_insert_of_mem _ ho.freep_mem
  ptr_mem c hc := by
    refine Set.mem_insert_of_mem _ ?_
    by_cases hca : c = a
    · simp only [Heap.setPtr, hca, update_self]
      exact hb
    · simp only [Heap.setPtr, update_of_ne hca]
      exact ho.ptr_mem c (hc.resolve_left hca)
  start_le c hc hne := by
    rcases hc with rfl | hc
    · exact hs
    · exact ho.start_le c hc hne
  fin_le c hc hne := by
    rcases hc with rfl | hc
    · exact hfin
    · exact ho.fin_le c hc hne

theorem joinUpper (hp : p ∈ L) (hs : start ≤ bp) (hfin : h.fin bp ≤ h.sz) :
    Owned base start (insert bp L) (joinUpper h p bp) := by
  have hq := ho.ptr_mem p hp
  rw [Umalloc.joinUpper]
  split
  · next heq =>
      have hlt := ho.base_lt
      rw [Heap.fin] at heq
      -- `base` is below every block
      have hend := ho.fin_le _ hq (by omega)
      rw [Heap.fin] at hend
      have hsize : bp + 16 * (h.size bp + h.size (h.ptr p)) ≤ h.sz := by omega
      refine (ho.setSize (by omega) hsize).add hs ?_ (ho.ptr_mem _ hq)
      have := Nat.mod_le (h.size bp + h.size (h.ptr p)) (2 ^ 32)
      simp only [Heap.fin, Heap.setSize, update_self]
      omega
  · exact ho.add hs hfin hq

theorem joinLower (hbp : bp ∈ L) (hne : bp ≠ base) :
    Owned base start L (joinLower h p bp) := by
  rw [Umalloc.joinLower]
  split
  · next heq =>
      have hpne : p ≠ base := by
        rintro rfl
        rw [Heap.fin, ho.base_size] at heq
        exact hne heq.symm
      have hend := ho.fin_le bp hbp hne
      rw [Heap.fin] at heq hend
      exact (ho.setSize hpne (by omega)).setPtr (ho.ptr_mem bp hbp)
  · exact ho.setPtr hbp

theorem findPlace {n q : Nat} (hp : p ∈ L) (hf : findPlace h bp n p = some q) :
    q ∈ L := by
  induction n generalizing p with
  | zero => cases hf
  | succ n ih =>
    rw [Umalloc.findPlace] at hf
    split at hf
    · cases hf
      exact hp
    · split at hf
      · cases hf
        exact hp
      · exact ih (ho.ptr_mem p hp) hf

theorem free {fuel : Nat} {h' : Heap} (hs : start ≤ bp) (hfin : h.fin bp ≤ h.sz)
    (hf : free fuel (bp + 16) h = some h') : Owned base start (insert bp L) h' := by
  rw [Umalloc.free, Option.bind_eq_bind, Option.bind_eq_some_iff] at hf
  obtain ⟨p, hp, hf⟩ := hf
  rw [Nat.add_sub_cancel] at hp hf
  cases hf
  have hlt := ho.base_lt
  have hpl := ho.findPlace ho.freep_mem hp
  have := (ho.joinUpper hpl hs hfin).joinLower (p := p) (Set.mem_insert _ _) (by omega)
  exact { this with freep_mem := Set.mem_insert_of_mem _ hpl }

/-- `morecore` puts a block of the requested size on the list. -/
theorem morecore {noMem : Nat → Int → Bool} {fuel nu : Nat} (hnu : nu < 2 ^ 27)
    {r : Nat} {h' : Heap} (hm : morecore (kernelSbrk noMem) fuel nu h = some (r, h')) (hr : r ≠ 0) :
    r = h'.freep ∧ ∃ L', Owned base start L' h' := by
  have hbytes : morecoreBytes nu = (max nu 4096 * 16 : Nat) := by
    rw [morecoreBytes_eq rfl (by omega), if_pos (by omega)]
  have hlt := ho.base_lt
  have hle := ho.start_le_sz
  rw [Umalloc.morecore, hbytes, kernelSbrk, if_pos (by omega)] at hm
  split at hm
  · cases hm
    exact absurd rfl hr
  · next q sz hsbrk =>
      split at hsbrk
      · cases hsbrk
      · cases hsbrk
        split at hm
        · cases hm
        · obtain ⟨h₁, hfree, hm⟩ := Option.bind_eq_some_iff.mp hm
          cases hm
          have hgrown : Owned base start L { h with sz := h.sz + ((max nu 4096 * 16 : Nat) : Int).toNat } :=
            { ho with
              fin_le := fun a ha hne => Nat.le_trans (ho.fin_le a ha hne) (Nat.le_add_right _ _)
              start_le_sz := Nat.le_trans hle (Nat.le_add_right _ _) }
          refine ⟨rfl, _, (hgrown.setSize (by omega) ?_).free hle ?_ hfree⟩
          · simp only
            omega
          · have := Nat.mod_le (max nu 4096) (2 ^ 32)
            simp only [Heap.fin, Heap.setSize, update_self]
            omega

end

/-- A block for `nunits` is below the break. -/
theorem mallocLoop {noMem : Nat → Int → Bool} {fuel nunits : Nat} (hpos : 0 < nunits) (hnu : nunits < 2 ^ 27) {n prevp r : Nat}
    {h' : Heap} (ho : Owned base start L h) (hprev : prevp ∈ L) (hp : p ∈ L)
    (hm : mallocLoop (kernelSbrk noMem) fuel nunits n prevp p h = some (r, h')) (hr : r ≠ 0) :
    start + 16 ≤ r ∧ r + 16 * (nunits - 1) ≤ h'.sz := by
  induction n generalizing L prevp p h with
  | zero => cases hm
  | succ n ih =>
    rw [Umalloc.mallocLoop] at hm
    split at hm
    · next hfit =>
        have hne : p ≠ base := by
          rintro rfl
          rw [ho.base_size] at hfit
          omega
        have hstart := ho.start_le p hp hne
        have hfin := ho.fin_le p hp hne
        rw [Heap.fin] at hfin
        split at hm
        · next heq =>
            cases hm
            simp only [Heap.setPtr]
            omega
        · cases hm
          simp only [Heap.setSize, Heap.fin, update_self]
          have := Nat.mod_le (h.size p - nunits) (2 ^ 32)
          omega
    · split at hm
      · obtain ⟨⟨q, h₁⟩, hmore, hm⟩ := Option.bind_eq_some_iff.mp hm
        dsimp only at hm
        split at hm
        · cases hm
          exact absurd rfl hr
        · next hq =>
            obtain ⟨rfl, L', ho'⟩ := ho.morecore hnu hmore hq
            exact ih ho' ho'.freep_mem (ho'.ptr_mem _ ho'.freep_mem) hm
      · exact ih ho hp (ho.ptr_mem p hp) hm

end Owned

/-- A heap that was never used, or whose list is in memory below the break. -/
inductive HeapState (base start : Nat) (h : Heap) : Prop
  | fresh (hfree : h.freep = 0) (hpos : 0 < base) (hlt : base < start) (hle : start ≤ h.sz)
  | used (L : Set Nat) (ho : Owned base start L h)

/-- `base` alone. -/
def Heap.init (h : Heap) (base : Nat) : Heap := { (h.setPtr base base).setSize base 0 with freep := base }

section
variable {base start : Nat} {h : Heap}

theorem owned_init (hpos : 0 < base) (hlt : base < start) (hle : start ≤ h.sz) :
    Owned base start {base} (h.init base) where
  base_mem := rfl
  freep_mem := rfl
  ptr_mem a ha := by
    rw [ha]
    exact update_self ..
  start_le a ha hne := absurd ha hne
  fin_le a ha hne := absurd ha hne
  base_size := update_self ..
  pos := hpos
  base_lt := hlt
  start_le_sz := hle

theorem HeapState.malloc (hs : HeapState base start h) {noMem : Nat → Int → Bool} {fuel nbytes r : Nat} {h' : Heap}
    (hn : nbytes + 32 ≤ 2 ^ 31) (hm : malloc base (kernelSbrk noMem) fuel nbytes h = some (r, h')) (hr : r ≠ 0) :
    start ≤ r ∧ r + nbytes ≤ h'.sz := by
  have hloop {L : Set Nat} {h₁ : Heap} (ho : Owned base start L h₁)
      (hm : Umalloc.mallocLoop (kernelSbrk noMem) fuel (unitsFor nbytes) fuel h₁.freep (h₁.ptr h₁.freep) h₁ =
        some (r, h')) : start ≤ r ∧ r + nbytes ≤ h'.sz := by
    have hpos : 0 < unitsFor nbytes := Nat.succ_pos _
    have hlt : unitsFor nbytes < 2 ^ 27 := by
      rw [unitsFor]
      omega
    have := Owned.mallocLoop hpos hlt ho ho.freep_mem (ho.ptr_mem _ ho.freep_mem) hm hr
    rw [unitsFor] at this
    omega
  rw [Umalloc.malloc] at hm
  cases hs with
  | fresh hfree hpos hlt hle =>
    rw [if_pos hfree] at hm
    exact hloop (owned_init hpos hlt hle) hm
  | used L ho =>
    rw [if_neg (ho.pos_of_mem ho.freep_mem)] at hm
    exact hloop ho hm

/-- The first block goes after `base`. -/
theorem free_first {bp : Nat} (hfree : h.freep = base) (hptr : h.ptr base = base) (hsize : h.size base = 0)
    (hlt : base < bp) (n : Nat) :
    free (n + 1) (bp + 16) h = some { (h.setPtr bp base).setPtr base bp with freep := base } := by
  have hplace : findPlace h bp (n + 1) base = some base := by
    rw [findPlace, hptr, if_neg (by omega), if_pos (by omega)]
  have hupper : joinUpper h base bp = h.setPtr bp base := by
    rw [joinUpper, hptr, if_neg]
    rw [Heap.fin]
    omega
  have hlower : joinLower (h.setPtr bp base) base bp = (h.setPtr bp base).setPtr base bp := by
    rw [joinLower, if_neg]
    rw [Heap.fin, Heap.setPtr, hsize]
    omega
  rw [free, Nat.add_sub_cancel, hfree, hplace, Option.bind_eq_bind, Option.bind_some, hupper, hlower]
  rfl

/-- The first request, when `sbrk` moves the break to `sz`: the block is at the old break. -/
theorem malloc_first {sbrk : Sbrk} {nbytes sz : Nat} (hfree : h.freep = 0) (hpos : 0 < base) (hlt : base < h.sz)
    (hbig : 4096 ≤ unitsFor nbytes) (hn : nbytes < 2 ^ 32)
    (hsbrk : sbrk h.sz (morecoreBytes (unitsFor nbytes)) = some (h.sz, sz)) (hacc : h.sz + 12 ≤ pgRoundUp sz) :
    ∃ h', malloc base sbrk 2 nbytes h = some (h.sz + 16, h') ∧ h'.sz = sz := by
  have hne : base ≠ h.sz := Nat.ne_of_lt hlt
  generalize hnu : unitsFor nbytes = nu at hbig hsbrk
  have hmod : nu % 2 ^ 32 = nu := by
    rw [← hnu, unitsFor]
    omega
  -- the list that `morecore` finds and the one it leaves
  have hmore : morecore sbrk 2 nu (h.init base) = some (base, { (({ h.init base with sz := sz }.setSize h.sz
      nu).setPtr h.sz base).setPtr base h.sz with freep := base }) := by
    have hinit : ({ h.init base with sz := sz }.setSize h.sz nu).size base = 0 :=
      (update_of_ne hne ..).trans (update_self ..)
    have hptr : ({ h.init base with sz := sz }.setSize h.sz nu).ptr base = base := update_self ..
    rw [morecore, show (h.init base).sz = h.sz from rfl, hsbrk]
    dsimp only
    rw [if_neg (by omega), Nat.max_eq_left hbig, free_first rfl hptr hinit hlt]
    rfl
  rw [malloc, if_pos hfree, hnu]
  change ∃ h', mallocLoop sbrk 2 nu 2 base ((h.init base).ptr base) (h.init base) = _ ∧ _
  rw [mallocLoop]
  have hinit : (h.init base).ptr base = base := update_self ..
  have hsize : (h.init base).size base = 0 := update_self ..
  rw [hinit, hsize, if_neg (by omega), if_pos (show base = (h.init base).freep from rfl), hmore, Option.bind_eq_bind,
    Option.bind_some]
  dsimp only
  rw [if_neg (by omega), mallocLoop]
  simp only [Heap.setPtr, Heap.setSize, update_self, hmod, Nat.le_refl, if_true]
  exact ⟨_, rfl, rfl⟩

end

/-- For every number of bytes: `malloc` promises only memory that is granted, from every state of the
heap, exactly if it is asked for at most 2³¹ - 32 bytes. -/
theorem malloc_granted_iff (nbytes : Nat) (hn : nbytes < 2 ^ 32) :
    (∀ base start h noMem fuel r h', HeapState base start h →
      malloc base (kernelSbrk noMem) fuel nbytes h = some (r, h') → r ≠ 0 → start ≤ r ∧ r + nbytes ≤ h'.sz) ↔
    nbytes ≤ 2 ^ 31 - 32 := by
  constructor
  · intro hall
    by_contra hbig
    have hbytes : morecoreBytes (unitsFor nbytes) = (unitsFor nbytes * 16 : Nat) - 2 ^ 32 := by
      rw [morecoreBytes_eq rfl (by rw [unitsFor]; omega), if_neg (by rw [unitsFor]; omega), Nat.max_eq_left]
      rw [unitsFor]
      omega
    -- a break that stays, or moves by at most 16 bytes, within its page
    have hbad (sz sz' : Nat) (hsz : 32 ≤ sz) (hle : sz' ≤ sz + 16) (hacc : sz + 12 ≤ pgRoundUp sz')
        (hsbrk : kernelSbrk (fun _ _ => false) sz (morecoreBytes (unitsFor nbytes)) = some (sz, sz')) : False := by
      obtain ⟨h', hm, rfl⟩ := @malloc_first 16 ⟨fun _ => 0, fun _ => 0, 0, sz⟩ _ nbytes sz' rfl (by decide)
        (show 16 < sz by omega) (by rw [unitsFor]; omega) hn hsbrk hacc
      have := hall 16 32 _ _ 2 _ h' (.fresh rfl (by decide) (by decide) hsz) hm (Nat.succ_ne_zero _)
      dsimp only at this
      omega
    generalize hu : unitsFor nbytes = nu at hbytes hbad
    have hnu : nu ≤ 2 ^ 28 + 1 ∧ 2 ^ 27 ≤ nu := by
      rw [← hu, unitsFor]
      omega
    rw [hbytes] at hbad
    by_cases hneg : nu * 16 + 1040 < 2 ^ 32
    · refine hbad 1040 1040 (by decide) (by decide) (by decide) ?_
      rw [kernelSbrk, if_neg (by omega), if_pos (by omega)]
    · refine hbad 4000 (4000 + nu * 16 - 2 ^ 32) (by decide) (by omega) ?_ ?_
      · simp only [pgRoundUp, pgSize]
        omega
      · rw [kernelSbrk]
        by_cases hpos : (0 : Int) < (nu * 16 : Nat) - 2 ^ 32
        · have hsz : 4000 + ((nu * 16 : Nat) - 2 ^ 32 : Int).toNat = 4000 + nu * 16 - 2 ^ 32 := by omega
          rw [if_pos hpos, if_neg, hsz]
          · simp only [trapframeVa, trampolineVa, maxVa, pgSize, Bool.false_eq_true, or_false]
            omega
        · have hsz : ((4000 : Nat) + ((nu * 16 : Nat) - 2 ^ 32) : Int).toNat = 4000 + nu * 16 - 2 ^ 32 := by omega
          rw [if_neg hpos, if_neg (by omega), hsz]
  · intro hfit base start h noMem fuel r h' hs hm hr
    exact hs.malloc (by omega) hm hr

theorem malloc_granted_one : (1 : Nat) ≤ 2 ^ 31 - 32 ∧ ∀ base start h noMem fuel r h', HeapState base start h →
    malloc base (kernelSbrk noMem) fuel 1 h = some (r, h') → r ≠ 0 → start ≤ r ∧ r + 1 ≤ h'.sz :=
  ⟨by decide, (malloc_granted_iff 1 (by decide)).mpr (by decide)⟩

/-- A program of five pages asks for 2³² - 1 bytes: `sbrk` grants 16, and `malloc` returns their end. -/
theorem malloc_promises_too_much : ∃ h h', HeapState 0x1000 0x5000 h ∧ h.sz = 0x5000 ∧
    malloc 0x1000 (kernelSbrk fun _ _ => false) 2 (2 ^ 32 - 1) h = some (0x5010, h') ∧ h'.sz = 0x5010 := by
  have hbytes : morecoreBytes (unitsFor (2 ^ 32 - 1)) = 16 := by
    rw [morecoreBytes_eq rfl (by decide)]
    decide
  obtain ⟨h', hm, hsz⟩ := @malloc_first 0x1000 ⟨fun _ => 0, fun _ => 0, 0, 0x5000⟩ (kernelSbrk fun _ _ => false)
    (2 ^ 32 - 1) 0x5010 rfl (by decide) (by decide) (by decide) (by decide) (by rw [hbytes]; decide) (by decide)
  exact ⟨_, h', .fresh rfl (by decide) (by decide) (Nat.le_refl _), rfl, hm, hsz⟩

end MiniOS.Umalloc
