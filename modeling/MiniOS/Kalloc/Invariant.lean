import MiniOS.Kalloc.Spec
import Mathlib.Logic.Relation

/-!
# MiniOS.Kalloc.Invariant

The representation invariant of the free list over whole runs of the
allocator: whatever sequence of calls its clients make, the list stays
ascending, aligned, in range and fully coalesced, and it lists exactly the
pages whose reference count is 0 (`freeListInvariant_of_run`).
-/

namespace MiniOS

open Extents
open Function (update update_self update_of_ne)

section
variable [KernelImage]

/-- The blocks of `kmem.freelist`. -/
def Kmem.blocks (k : Kmem) : Option (List (Nat × Nat)) := readBlocks k.mem listFuel k.freelist

/-- `pa` lies in a block of `kmem.freelist`. -/
def OnFreelist (k : Kmem) (pa : Nat) : Prop :=
  ∃ bs, k.blocks = some bs ∧ ∃ b ∈ bs, b.1 ≤ pa ∧ pa < b.1 + b.2 * pgSize

/-- The free list is ascending, aligned, in range and fully coalesced, and
covers exactly the managed pages whose count is 0. -/
structure FreeListInvariant (k : Kmem) (bs : List (Nat × Nat)) : Prop where
  read : k.blocks = some bs
  ascending : bs.Pairwise fun a b => a.1 < b.1
  aligned : ∀ b ∈ bs, b.1 % pgSize = 0
  nonempty : ∀ b ∈ bs, 1 ≤ b.2
  inside : ∀ b ∈ bs, pgRoundUp kernelEnd ≤ b.1 ∧ b.1 + b.2 * pgSize ≤ physTop
  disjoint : bs.Pairwise fun a b => a.1 + a.2 * pgSize ≤ b.1 ∨ b.1 + b.2 * pgSize ≤ a.1
  coalesced : bs.Pairwise fun a b => a.1 + a.2 * pgSize ≠ b.1
  exact : ∀ pa, Managed pa →
    (k.refCount (pa2idx pa) = 0 ↔ ∃ b ∈ bs, b.1 ≤ pa ∧ pa < b.1 + b.2 * pgSize)

/-- One allocator call by a client that frees only what is allocated, and
one store of a client into an allocated page. -/
inductive AllocStep : Kmem → Kmem → Prop
  | kalloc {k k' : Kmem} (n pa : Nat) (hn : 1 ≤ n) (h : kallocContig k n = some (pa, k')) :
      AllocStep k k'
  | kfree {k k' : Kmem} (pa n : Nat) (hn : 1 ≤ n)
      (hal : ∀ i < n, Managed (pa + i * pgSize) ∧ 0 < getref k (pa + i * pgSize))
      (h : kfreeContig k pa n = some k') : AllocStep k k'
  | incref {k : Kmem} (pa : Nat) (hal : Managed pa ∧ 0 < getref k pa) : AllocStep k (incref k pa)
  | decref {k k' : Kmem} (pa c : Nat) (hal : Managed pa) (h : decref k pa = some (c, k'))
      (hc : 0 < c) : AllocStep k k'
  | store {k : Kmem} (pa : Nat) (p : Page) (hal : Managed pa ∧ 0 < getref k pa) :
      AllocStep k { k with mem := update k.mem pa p }

/-- The allocator's invariant on the represented list. -/
def AllocInv (k : Kmem) : Prop :=
  ∃ bs, FreeRep k bs ∧ ∀ x, Managed (x * pgSize) → (k.refCount x = 0 ↔ Covers bs x)

variable {k : Kmem} {pa : Nat}

omit [KernelImage] in
/-- A free list of one block, in the sample kernel. -/
theorem allocInv_of_block {b : Block} (hlen : 0 < b.len) (hlo : 0x80300 ≤ b.start) (hhi : b.fin ≤ 0x88000)
    (hseg : Seg k.mem k.freelist [b] 0) (href : ∀ x, k.refCount x = 0 ↔ b.Has x) : @AllocInv sampleImage k := by
  let _ := sampleImage
  have hcov : ∀ x, Covers [b] x ↔ b.Has x := fun x => by simp [Covers]
  have hend : pgRoundUp sampleImage.kernelEnd = 0x80300000 := by decide
  refine ⟨[b], ⟨hseg, ⟨by simpa using hlen, by simp⟩, fun x hx => ?_⟩, fun x _ => ?_⟩
  · obtain ⟨hx₀, hx₁⟩ := (hcov x).mp hx
    rw [Managed, hend]
    simp only [pgSize, physTop, kernBase]
    omega
  · rw [hcov, href]

/-- `kalloc_contig` returns and keeps the invariant. -/
theorem AllocInv.kallocContig {n : Nat} (h : AllocInv k) (hn : 1 ≤ n) :
    ∃ pa k', kallocContig k n = some (pa, k') ∧ AllocInv k' := by
  obtain ⟨bs, hrep, hex⟩ := h
  cases hbest : bestFit n bs with
  | none => exact ⟨0, k, kallocContig_none hrep hbest, bs, hrep, hex⟩
  | some b =>
    obtain ⟨k₁, hk₁, hrep', hal⟩ := kallocContig_some hrep hn hbest
    have hbo := bestOf_bestFit n bs
    rw [hbest] at hbo
    refine ⟨_, k₁, hk₁, _, hrep', fun x hx => ?_⟩
    rw [hal.ref x, covers_carve hbo.1 hbo.2.1 hrep.canon]
    by_cases hin : b.start ≤ x ∧ x < b.start + n
    · simp [hin]
    · rw [if_neg hin, hex x hx]
      exact ⟨fun hc => ⟨hc, hin⟩, fun hc => hc.1⟩

theorem AllocInv.refUpdate {c : Nat} (h : AllocInv k)
    (hold : 0 < getref k pa) (hc : 0 < c) :
    AllocInv { k with refCount := update k.refCount (pa2idx pa) c } := by
  obtain ⟨bs, hrep, hex⟩ := h
  refine ⟨bs, hrep.congr rfl fun _ _ => rfl, fun x hx => ?_⟩
  simp only
  by_cases hxe : x = pa2idx pa
  · subst hxe
    rw [update_self, ← hex _ hx]
    unfold getref at hold; omega
  · rw [update_of_ne hxe, hex x hx]

/-- `kfree_contig` of allocated pages returns and keeps the invariant, except
for a longer block with a shared page, on which it panics. -/
theorem AllocInv.kfreeContig {n : Nat} (h : AllocInv k) (hn : 1 ≤ n)
    (hal : ∀ i < n, Managed (pa + i * pgSize) ∧ 0 < getref k (pa + i * pgSize)) :
    (∃ k', kfreeContig k pa n = some k' ∧ AllocInv k') ∨
      (1 < n ∧ kfreeContig k pa n = none ∧ ∃ i < n, 1 < getref k (pa + i * pgSize)) := by
  obtain ⟨bs, hrep, hex⟩ := h
  have hpa : pa % pgSize = 0 := by simpa using (hal 0 hn).1.1
  let b : Block := ⟨pa / pgSize, n⟩
  have hb : addr b = pa := by simp only [b, addr, pgSize] at *; omega
  -- the pages of the block, by offset
  have hoff : ∀ x, b.Has x → ∃ i < n, x = pa2idx pa + i ∧ pa + i * pgSize = x * pgSize := by
    intro x hx
    simp only [b, Block.Has, Block.fin] at hx
    refine ⟨x - pa / pgSize, by omega, by rw [pa2idx]; omega, ?_⟩
    simp only [pgSize] at *; omega
  have hpage : ∀ x, b.Has x → Managed (x * pgSize) ∧ 0 < k.refCount x := by
    intro x hx
    obtain ⟨i, hi, hxi, haddr⟩ := hoff x hx
    have := hal i hi
    rwa [getref, pa2idx_add, ← hxi, haddr] at this
  by_cases hone : ∀ x, b.Has x → k.refCount x = 1
  · left
    obtain ⟨k', hk', hrep', hfr⟩ := kfreeContig_last (b := b) hrep hn fun x hx =>
      ⟨(hpage x hx).1, hone x hx, fun hc => by
        have := (hex x (hpage x hx).1).mpr hc
        have := hone x hx; omega⟩
    rw [hb] at hk'
    refine ⟨k', hk', _, hrep', fun x hx => ?_⟩
    rw [hfr.ref x, covers_insert]
    by_cases hin : b.Has x
    · simp [hin]
    · rw [if_neg hin, hex x hx]
      exact ⟨Or.inr, fun hc => hc.resolve_left hin⟩
  · -- a page with other references: a single page only loses one, a longer block panics
    simp only [not_forall, exists_prop] at hone
    obtain ⟨x, hx, hne⟩ := hone
    obtain ⟨i, hi, hxi, -⟩ := hoff x hx
    have hpos := (hpage x hx).2
    have href : 1 < getref k (pa + i * pgSize) := by
      rw [getref, pa2idx_add, ← hxi]; omega
    by_cases hn1 : n = 1
    · left
      subst hn1
      obtain rfl : i = 0 := by omega
      rw [Nat.zero_mul, Nat.add_zero] at href
      refine ⟨_, kfree_shared (by simpa using (hal 0 hn).1) href, ?_⟩
      unfold getref at href
      exact AllocInv.refUpdate ⟨bs, hrep, hex⟩ (by unfold getref; omega) (by omega)
    · exact .inr ⟨by omega, kfreeContig_partial (by omega) hi href, i, hi, href⟩

theorem AllocInv.store (p : Page) (h : AllocInv k) (hm : Managed pa)
    (hold : 0 < getref k pa) : AllocInv { k with mem := update k.mem pa p } := by
  obtain ⟨bs, hrep, hex⟩ := h
  refine ⟨bs, hrep.congr rfl fun q hq => update_of_ne ?_ _ _, hex⟩
  rintro rfl
  have hx : Managed (q / pgSize * pgSize) := by rw [managed_div hm]; exact hm
  have := (hex _ hx).mpr hq.2
  simp only [getref, pa2idx] at hold; omega

/-- `kalloc` returns 0 and changes nothing, or a page whose count was 0. -/
theorem AllocInv.kalloc (h : AllocInv k) :
    MiniOS.kalloc k = some (0, k) ∨ ∃ pa k', MiniOS.kalloc k = some (pa, k') ∧ AllocInv k' ∧
      Managed pa ∧ getref k pa = 0 ∧ k'.refCount = update k.refCount (pa2idx pa) 1 := by
  obtain ⟨pa₁, k₁, hk₁, hinv⟩ := h.kallocContig Nat.le.refl
  obtain ⟨bs, hrep, hex⟩ := h
  rcases kalloc_spec hrep with ⟨-, hk⟩ | ⟨pa, k', bs', hk, hgot⟩
  · exact .inl hk
  · obtain ⟨rfl, rfl⟩ : pa₁ = pa ∧ k₁ = k' := by
      have := hk₁.symm.trans hk
      simpa using this
    have hx : Managed (pa₁ / pgSize * pgSize) := by rw [managed_div hgot.managed]; exact hgot.managed
    exact .inr ⟨pa₁, k₁, hk, hinv, hgot.managed, (hex _ hx).mpr hgot.was_free.2, hgot.ref⟩

/-- `kfree` of the last reference to a page. -/
theorem AllocInv.kfree (h : AllocInv k) (hm : Managed pa)
    (href : getref k pa = 1) :
    ∃ k', MiniOS.kfree k pa = some k' ∧ AllocInv k' ∧
      k'.refCount = update k.refCount (pa2idx pa) 0 := by
  have hal : ∀ i < 1, Managed (pa + i * pgSize) ∧ 0 < getref k (pa + i * pgSize) := fun i hi => by
    obtain rfl : i = 0 := by omega
    simp [hm, href]
  rcases h.kfreeContig Nat.le.refl hal with ⟨k₁, hk₁, hinv⟩ | ⟨hlt, -⟩
  · obtain ⟨bs, hrep, hex⟩ := h
    have hx : Managed (pa / pgSize * pgSize) := by rw [managed_div hm]; exact hm
    have hnf : ¬ FreePage bs pa := fun hf => by
      have := (hex _ hx).mpr hf.2
      simp only [getref, pa2idx] at href
      omega
    obtain ⟨k', bs', hk', hput⟩ := kfree_last hrep hm href hnf
    obtain rfl : k₁ = k' := by
      have := hk₁.symm.trans hk'
      simpa using this
    exact ⟨k₁, hk', hinv, hput.ref⟩
  · omega

/-- Every allocator call keeps the invariant. -/
theorem AllocInv.step {k' : Kmem} (h : AllocInv k) (hs : AllocStep k k') : AllocInv k' := by
  cases hs with
  | kalloc n pa hn hk =>
    obtain ⟨pa', k₁, hk₁, hinv⟩ := h.kallocContig hn
    rw [hk] at hk₁
    cases hk₁
    exact hinv
  | kfree pa n hn hal hk =>
    rcases h.kfreeContig hn hal with ⟨k₁, hk₁, hinv⟩ | ⟨-, hnone, -⟩
    · rw [hk] at hk₁
      cases hk₁
      exact hinv
    · rw [hk] at hnone
      cases hnone
  | incref pa hal => exact h.refUpdate hal.2 (Nat.succ_pos _)
  | decref pa c hal hk hc =>
    rw [decref] at hk
    split at hk
    · cases hk
    · next h0 =>
        cases hk
        exact h.refUpdate (by unfold getref; omega) hc
  | store pa p hal => exact h.store p hal.1 hal.2

theorem FreeRep.blocks {bs : List Block} (h : FreeRep k bs) :
    k.blocks = some (bs.map fun b => (addr b, b.len)) :=
  readBlocks_of_seg bs h.seg h.bounded.pos h.length_lt

theorem onFreelist_iff {bs : List Block} (h : FreeRep k bs)
    (hpa : pa % pgSize = 0) : OnFreelist k pa ↔ FreePage bs pa := by
  constructor
  · rintro ⟨cs, hcs, c, hc, hin⟩
    rw [h.blocks] at hcs
    cases hcs
    obtain ⟨b, hb, rfl⟩ := List.mem_map.mp hc
    refine ⟨hpa, b, hb, ?_⟩
    simp only [Block.Has, Block.fin, addr, pgSize] at *; omega
  · rintro ⟨-, b, hb, hin⟩
    refine ⟨_, h.blocks, _, List.mem_map.mpr ⟨b, hb, rfl⟩, ?_⟩
    simp only [Block.Has, Block.fin, addr, pgSize] at *; omega

/-- A page is free exactly when its count is 0, for any allocator state in
its invariant. -/
theorem AllocInv.onFreelist_iff (h : AllocInv k) (hpa : Managed pa) :
    OnFreelist k pa ↔ k.refCount (pa2idx pa) = 0 := by
  obtain ⟨bs, hrep, hex⟩ := h
  have hx : Managed (pa / pgSize * pgSize) := by rw [managed_div hpa]; exact hpa
  rw [MiniOS.onFreelist_iff hrep hpa.1, show pa2idx pa = pa / pgSize from rfl, hex _ hx]
  exact ⟨fun h => h.2, fun h => ⟨hpa.1, h⟩⟩

theorem AllocInv.freeListInvariant (h : AllocInv k) : ∃ bs, FreeListInvariant k bs := by
  obtain ⟨bs, hrep, hex⟩ := h
  have hpair : ∀ {R : Nat × Nat → Nat × Nat → Prop},
      (∀ a b : Block, a ∈ bs → b ∈ bs → a.Before b → R (addr a, a.len) (addr b, b.len)) →
      (bs.map fun b => (addr b, b.len)).Pairwise R := by
    intro R hR
    rw [List.pairwise_map]
    exact hrep.canon.sep.imp_of_mem fun ha hb => hR _ _ ha hb
  refine ⟨_, hrep.blocks, ?_, ?_, ?_, ?_, ?_, ?_, ?_⟩
  · refine hpair fun a b ha _ hab => ?_
    simp only [Block.Before, Block.fin, addr, pgSize] at *; omega
  · intro b hb
    obtain ⟨c, _, rfl⟩ := List.mem_map.mp hb
    simp only [addr, pgSize]; omega
  · intro b hb
    obtain ⟨c, hc, rfl⟩ := List.mem_map.mp hb
    exact hrep.canon.pos c hc
  · intro b hb
    obtain ⟨c, hc, rfl⟩ := List.mem_map.mp hb
    have h1 := hrep.block_range hc
    have h2 := pgRoundUp_mod kernelEnd
    simp only [Block.fin, addr, pgSize, physTop, kernBase] at *; omega
  · refine hpair fun a b _ _ hab => ?_
    simp only [Block.Before, Block.fin, addr, pgSize] at *; omega
  · refine hpair fun a b _ _ hab => ?_
    simp only [Block.Before, Block.fin, addr, pgSize] at *; omega
  · intro pa hpa
    rw [← AllocInv.onFreelist_iff ⟨bs, hrep, hex⟩ hpa]
    simp only [OnFreelist, hrep.blocks, Option.some.injEq, exists_eq_left']

theorem allocInv_kinit {mem : Mem} (h : kinit mem = some k) : AllocInv k := by
  obtain ⟨k₁, hk₁, hrep, href, -⟩ := kinit_spec mem
  rw [h] at hk₁
  cases hk₁
  refine ⟨_, hrep, fun x hx => ?_⟩
  rw [href x]
  exact ⟨fun _ => ⟨_, by simp, (has_wholeRange x).mpr hx⟩, fun _ => rfl⟩

/-- After `kinit` and any run of allocator calls the free list satisfies its
representation invariant, and the next call returns: every allocation, and
every release of a block whose pages have no other references. -/
theorem freeListInvariant_of_run {mem : Mem} {k₀ k : Kmem} (hinit : kinit mem = some k₀)
    (hrun : Relation.ReflTransGen AllocStep k₀ k) :
    (∃ bs, FreeListInvariant k bs) ∧
      (∀ n, 1 ≤ n → ∃ pa k', kallocContig k n = some (pa, k')) ∧
      ∀ pa n, 1 ≤ n → (∀ i < n, Managed (pa + i * pgSize) ∧ 0 < getref k (pa + i * pgSize)) →
        (n = 1 ∨ ∀ i < n, getref k (pa + i * pgSize) = 1) → ∃ k', kfreeContig k pa n = some k' := by
  have hinv : AllocInv k := by
    induction hrun with
    | refl => exact allocInv_kinit hinit
    | tail _ hs ih => exact ih.step hs
  refine ⟨hinv.freeListInvariant, fun n hn => ?_, fun pa n hn hal hlast => ?_⟩
  · obtain ⟨pa, k', hk, -⟩ := hinv.kallocContig hn
    exact ⟨pa, k', hk⟩
  · rcases hinv.kfreeContig hn hal with ⟨k', hk', -⟩ | ⟨hn', -, i, hi, href⟩
    · exact ⟨k', hk'⟩
    · rcases hlast with rfl | hone
      · omega
      · rw [hone i hi] at href; omega

end

/-- The free list of the sample kernel after `kinit` on zeroed memory and one allocation. -/
theorem freeListInvariant_sampleImage :
    ∃ k₀ k, @kinit sampleImage (fun _ => zeroPage) = some k₀ ∧
      (∃ pa, pa ≠ 0 ∧ kalloc k₀ = some (pa, k)) ∧ ∃ bs, @FreeListInvariant sampleImage k bs := by
  let _ := sampleImage
  obtain ⟨k₀, hk₀, hrep, -⟩ := kinit_spec fun _ => zeroPage
  rcases kalloc_spec hrep with ⟨habs, -⟩ | ⟨pa, k, bs', hk, hgot⟩
  · cases habs
  · refine ⟨k₀, k, hk₀, ⟨pa, managed_ne_zero hgot.managed, hk⟩, ?_⟩
    exact (freeListInvariant_of_run hk₀ (.single (.kalloc 1 pa Nat.le.refl hk))).1

end MiniOS
