import MiniOS.Kalloc.Invariant

/-!
# MiniOS.Kalloc.BestFit

`kalloc_contig` and `kfree_contig` as operations on the set of free pages.
The free list is the only coalesced description of that set, so a request
fails only when no run of free pages is long enough, and what the list is
after a series of releases depends on the pages alone, not on their order.
-/

namespace MiniOS

open Extents

section
variable [KernelImage] {k k₁ k₂ : Kmem} {bs : List (Nat × Nat)}

/-! ## the list and the set -/

/-- An entry of the free list in units of pages. -/
def unitBlock (b : Nat × Nat) : Block := ⟨b.1 / pgSize, b.2⟩

section
omit [KernelImage]

theorem seg_of_readBlocks {m : Mem} {fuel h : Nat} (hr : readBlocks m fuel h = some bs)
    (ha : ∀ b ∈ bs, b.1 % pgSize = 0) : Seg m h (bs.map unitBlock) 0 := by
  induction fuel generalizing h bs with
  | zero => cases hr
  | succ fuel ih =>
    rw [readBlocks] at hr
    split at hr
    · next h0 =>
        cases hr
        exact h0
    · obtain ⟨cs, hcs, rfl⟩ := Option.map_eq_some_iff.mp hr
      refine ⟨?_, rfl, ih hcs fun b hb => ha b (by simp [hb])⟩
      have := ha (h, numPages m h) (by simp)
      simp only [addr, unitBlock, pgSize] at *; omega

theorem has_unitBlock {b : Nat × Nat} (hb : b.1 % pgSize = 0) (x : Nat) :
    (unitBlock b).Has x ↔ b.1 ≤ x * pgSize ∧ x * pgSize < b.1 + b.2 * pgSize := by
  simp only [Block.Has, Block.fin, unitBlock, pgSize] at *; omega

end

theorem FreeListInvariant.freeRep (h : FreeListInvariant k bs) : FreeRep k (bs.map unitBlock) := by
  have hsep : bs.Pairwise fun a b => (unitBlock a).Before (unitBlock b) := by
    have hall := (h.ascending.and h.disjoint).and h.coalesced
    refine hall.imp_of_mem fun {a b} ha hb hab => ?_
    have h1 := h.aligned a ha
    have h2 := h.aligned b hb
    have h3 := h.nonempty b hb
    simp only [Block.Before, Block.fin, unitBlock, pgSize] at *; omega
  refine ⟨seg_of_readBlocks h.read h.aligned, ⟨fun b hb => ?_, List.pairwise_map.mpr hsep⟩, ?_⟩
  · obtain ⟨c, hc, rfl⟩ := List.mem_map.mp hb
    exact h.nonempty c hc
  · rintro x ⟨b, hb, hx⟩
    obtain ⟨c, hc, rfl⟩ := List.mem_map.mp hb
    have h1 := (has_unitBlock (h.aligned c hc) x).mp hx
    have h2 := h.inside c hc
    refine ⟨by simp only [pgSize]; omega, by omega, by omega⟩

theorem FreeListInvariant.allocInv (h : FreeListInvariant k bs) : AllocInv k := by
  refine ⟨bs.map unitBlock, h.freeRep, fun x hx => ?_⟩
  have hidx : pa2idx (x * pgSize) = x := by simp only [pa2idx, pgSize]; omega
  have := h.exact _ hx
  rw [hidx] at this
  rw [this]
  constructor
  · rintro ⟨b, hb, hin⟩
    exact ⟨_, List.mem_map_of_mem hb, (has_unitBlock (h.aligned b hb) x).mpr hin⟩
  · rintro ⟨c, hc, hin⟩
    obtain ⟨b, hb, rfl⟩ := List.mem_map.mp hc
    exact ⟨b, hb, (has_unitBlock (h.aligned b hb) x).mp hin⟩

/-- The free list is determined by the set of pages whose count is 0. -/
theorem AllocInv.blocks_eq (h₁ : AllocInv k₁) (h₂ : AllocInv k₂)
    (hr : ∀ x, Managed (x * pgSize) → (k₁.refCount x = 0 ↔ k₂.refCount x = 0)) : k₁.blocks = k₂.blocks := by
  obtain ⟨as, hrep₁, hex₁⟩ := h₁
  obtain ⟨bs, hrep₂, hex₂⟩ := h₂
  have heq : as = bs := by
    refine hrep₁.canon.ext hrep₂.canon fun x => ⟨fun hx => ?_, fun hx => ?_⟩
    · have hm := hrep₁.range x hx
      exact (hex₂ x hm).mp ((hr x hm).mp ((hex₁ x hm).mpr hx))
    · have hm := hrep₂.range x hx
      exact (hex₁ x hm).mp ((hr x hm).mpr ((hex₂ x hm).mpr hx))
  rw [hrep₁.blocks, hrep₂.blocks, heq]

/-! ## best fit -/

/-- A run of `n` free pages from `a` on. -/
def FreeRun (k : Kmem) (a n : Nat) : Prop :=
  ∀ i < n, Managed (a + i * pgSize) ∧ OnFreelist k (a + i * pgSize)

theorem exists_block_of_freeRun {cs : List Block} {a n : Nat} (h : FreeRep k cs) (hn : 1 ≤ n)
    (hr : FreeRun k a n) : ∃ c ∈ cs, n ≤ c.len := by
  have ha : a % pgSize = 0 := by simpa using (hr 0 hn).1.1
  obtain ⟨c, hc, hs, hf⟩ := h.canon.exists_block (s := a / pgSize) hn fun i hi => by
    obtain ⟨hm, hfree⟩ := hr i hi
    have := ((onFreelist_iff h hm.1).mp hfree).2
    rwa [show (a + i * pgSize) / pgSize = a / pgSize + i by simp only [pgSize]; omega] at this
  exact ⟨c, hc, by simp only [Block.fin] at hf; omega⟩

/-- The pages of a block are free. -/
theorem freeRun_block {cs : List Block} {c : Block} {n : Nat} (h : FreeRep k cs) (hc : c ∈ cs)
    (hn : n ≤ c.len) : FreeRun k (addr c) n := by
  intro i hi
  have hx : Covers cs (c.start + i) := ⟨c, hc, by simp only [Block.Has, Block.fin]; omega⟩
  have heq : addr c + i * pgSize = (c.start + i) * pgSize := by simp only [addr, pgSize]; omega
  have hm := h.range _ hx
  rw [heq]
  refine ⟨hm, (onFreelist_iff h hm.1).mpr ⟨hm.1, ?_⟩⟩
  rwa [Nat.mul_div_cancel _ (by decide)]

/-- `kalloc_contig(n)` fails exactly when there is no run of `n` free pages.  Otherwise it takes the
first of the smallest blocks that are large enough: the counts of its first `n` pages become 1, and
these pages and no others are no longer free. -/
theorem kallocContig_best_fit {n : Nat} (h : FreeListInvariant k bs) (hn : 1 ≤ n) :
    ∃ pa k', kallocContig k n = some (pa, k') ∧
      (pa = 0 ↔ ¬ ∃ a, FreeRun k a n) ∧ (pa = 0 → k' = k) ∧
      (pa ≠ 0 →
        (∃ len, (pa, len) ∈ bs ∧ n ≤ len ∧ ∀ c ∈ bs, n ≤ c.2 → len ≤ c.2 ∧ (c.2 = len → pa ≤ c.1)) ∧
        (∀ i, k'.refCount i = if pa2idx pa ≤ i ∧ i < pa2idx pa + n then 1 else k.refCount i) ∧
        ∀ p, p % pgSize = 0 → (OnFreelist k' p ↔ OnFreelist k p ∧ ¬ (pa ≤ p ∧ p < pa + n * pgSize))) := by
  have hrep := h.freeRep
  have hbest := bestOf_bestFit n (bs.map unitBlock)
  cases hfit : bestFit n (bs.map unitBlock) with
  | none =>
    rw [hfit] at hbest
    refine ⟨0, k, kallocContig_none hrep hfit, ⟨fun _ => ?_, fun _ => rfl⟩, fun _ => rfl, absurd rfl⟩
    rintro ⟨a, hr⟩
    obtain ⟨c, hc, hlen⟩ := exists_block_of_freeRun hrep hn hr
    exact absurd (hbest c hc) (Nat.not_lt.mpr hlen)
  | some b =>
    rw [hfit] at hbest
    obtain ⟨hb, hnb, hmin⟩ := hbest
    obtain ⟨k', hk', hrep', hal⟩ := kallocContig_some hrep hn hfit
    obtain ⟨xs, ys, hsplit, hfirst⟩ := bestFit_eq_some hfit
    obtain ⟨c, hc, rfl⟩ := List.mem_map.mp hb
    have haddr : addr (unitBlock c) = c.1 := by
      have := h.aligned c hc
      simp only [addr, unitBlock, pgSize] at *; omega
    have hpos : c.1 ≠ 0 := by
      have := hrep.bounded.pos _ hb
      simp only [unitBlock, pgSize] at this; omega
    have hrun := freeRun_block hrep hb hnb
    rw [haddr] at hk' hrun
    refine ⟨c.1, k', hk', ⟨fun h0 => absurd h0 hpos, fun hno => absurd ⟨c.1, hrun⟩ hno⟩,
      fun h0 => absurd h0 hpos, fun _ => ⟨⟨c.2, hc, hnb, fun d hd hdn => ?_⟩, ?_, ?_⟩⟩
    · have hmem := List.mem_map_of_mem (f := unitBlock) hd
      refine ⟨hmin _ hmem hdn, fun heq => ?_⟩
      -- a block before the chosen one would be larger
      rw [hsplit] at hmem
      rcases List.mem_append.mp hmem with hx | hy
      · have := hfirst _ hx hdn
        simp only [unitBlock] at this; omega
      · have hle : (unitBlock c).start ≤ (unitBlock d).start := by
          rcases List.mem_cons.mp hy with heq | hy
          · exact Nat.le_of_eq (congrArg Block.start heq.symm)
          · have hcan := hrep.canon.sep
            rw [hsplit, List.pairwise_append] at hcan
            have := (List.pairwise_cons.mp hcan.2.1).1 _ hy
            simp only [Block.Before, Block.fin] at this; omega
        have h1 := h.aligned c hc
        have h2 := h.aligned d hd
        simp only [unitBlock, pgSize] at *; omega
    · have := hal.ref
      simpa only [← pa2idx_addr, haddr] using this
    · intro p hp
      rw [onFreelist_iff hrep' hp, onFreelist_iff hrep hp, FreePage, FreePage,
        covers_carve hb hnb hrep.canon, and_assoc]
      have h1 := h.aligned c hc
      have hiff : ((unitBlock c).start ≤ p / pgSize ∧ p / pgSize < (unitBlock c).start + n) ↔
          c.1 ≤ p ∧ p < c.1 + n * pgSize := by
        simp only [unitBlock, pgSize] at *; omega
      rw [hiff]

end

/-- Three pages of the sample kernel after `kinit` on zeroed memory. -/
theorem kallocContig_best_fit_kinit :
    ∃ k bs pa k', @kinit sampleImage (fun _ => zeroPage) = some k ∧ @FreeListInvariant sampleImage k bs ∧
      kallocContig k 3 = some (pa, k') ∧ (pa = 0 ↔ ¬ ∃ a, @FreeRun sampleImage k a 3) := by
  let _ := sampleImage
  obtain ⟨k, hk, -⟩ := kinit_spec fun _ => zeroPage
  obtain ⟨bs, hbs⟩ := (allocInv_kinit hk).freeListInvariant
  obtain ⟨pa, k', hk', hiff, -⟩ := kallocContig_best_fit (n := 3) hbs (by decide)
  exact ⟨k, bs, pa, k', hk, hbs, hk', hiff⟩

/-! ## release -/

section
variable [KernelImage] {k k₁ k₂ : Kmem} {bs : List (Nat × Nat)}

/-- Releasing distinct pages without other references: it succeeds, and their counts are 0. -/
theorem AllocInv.kfree_list {l : List Nat} (h : AllocInv k) (hnd : l.Nodup)
    (hl : ∀ p ∈ l, Managed p ∧ getref k p = 1) :
    ∃ k', l.foldlM MiniOS.kfree k = some k' ∧ AllocInv k' ∧
      ∀ x, k'.refCount x = if x * pgSize ∈ l then 0 else k.refCount x := by
  induction l generalizing k with
  | nil => exact ⟨k, rfl, h, fun x => by simp⟩
  | cons p l ih =>
    obtain ⟨hp, hnd⟩ := List.nodup_cons.mp hnd
    obtain ⟨hm, href⟩ := hl p (by simp)
    obtain ⟨k₁, hk₁, h₁, hr₁⟩ := h.kfree hm href
    have hidx : ∀ x, x = pa2idx p ↔ x * pgSize = p := fun x => by
      have := hm.1
      simp only [pa2idx, pgSize] at *; omega
    have hrest : ∀ q ∈ l, Managed q ∧ getref k₁ q = 1 := fun q hq => by
      obtain ⟨hmq, hrq⟩ := hl q (by simp [hq])
      have hne : pa2idx q ≠ pa2idx p := fun e => by
        have := (hidx (pa2idx q)).mp e
        rw [show pa2idx q * pgSize = q from managed_div hmq] at this
        exact hp (this ▸ hq)
      refine ⟨hmq, ?_⟩
      rw [getref, hr₁, Function.update_of_ne hne]
      exact hrq
    obtain ⟨k', hk', h', hr'⟩ := ih h₁ hnd hrest
    refine ⟨k', by rw [List.foldlM_cons, hk₁]; exact hk', h', fun x => ?_⟩
    rw [hr', hr₁]
    by_cases hx : x = pa2idx p
    · have := (hidx x).mp hx
      rw [hx, Function.update_self, ← hx, this]
      simp
    · have := (hidx x).not.mp hx
      rw [Function.update_of_ne hx]
      simp only [List.mem_cons, this, false_or]

theorem FreeRep.kfreeContig_kallocContig {cs : List Block} {n pa : Nat} {k' : Kmem} (h : FreeRep k cs)
    (hex : ∀ x, Managed (x * pgSize) → (k.refCount x = 0 ↔ Covers cs x)) (hn : 1 ≤ n)
    (hk : kallocContig k n = some (pa, k')) (h0 : pa ≠ 0) :
    ∃ k'', kfreeContig k' pa n = some k'' ∧ k''.blocks = k.blocks := by
  have hbest := bestOf_bestFit n cs
  cases hfit : bestFit n cs with
  | none =>
    rw [kallocContig_none h hfit] at hk
    cases hk
    exact absurd rfl h0
  | some b =>
    rw [hfit] at hbest
    obtain ⟨hb, hnb, -⟩ := hbest
    obtain ⟨k₁, hk₁, hrep', hal⟩ := kallocContig_some h hn hfit
    rw [hk] at hk₁
    cases hk₁
    let c : Block := ⟨b.start, n⟩
    have hcov : ∀ x, c.Has x → Covers cs x := fun x hx =>
      ⟨b, hb, hx.1, by have := hx.2; simp only [c, Block.fin] at *; omega⟩
    have hcarve : ∀ x, Covers (carve b.start n cs) x ↔ Covers cs x ∧ ¬ c.Has x := covers_carve hb hnb h.canon
    have href : ∀ i, k'.refCount i = if c.Has i then 1 else k.refCount i := hal.ref
    obtain ⟨k'', hk'', hrep'', hfr⟩ := kfreeContig_last (b := c) hrep' hn fun x hx => by
      refine ⟨h.range x (hcov x hx), ?_, fun hx' => ((hcarve x).mp hx').2 hx⟩
      rw [href, if_pos hx]
    refine ⟨k'', hk'', AllocInv.blocks_eq ⟨_, hrep'', fun x hx => ?_⟩ ⟨cs, h, hex⟩ fun x hx => ?_⟩
    · rw [covers_insert, hcarve, hfr.ref, href]
      by_cases hin : c.Has x
      · simp [hin]
      · rw [if_neg hin, if_neg hin, hex x hx]
        exact ⟨fun hc => .inr ⟨hc, hin⟩, fun hc => (hc.resolve_left hin).1⟩
    · rw [hfr.ref, href]
      by_cases hin : c.Has x
      · simp only [hin, if_true, true_iff]
        exact (hex x hx).mpr (hcov x hin)
      · rw [if_neg hin, if_neg hin]

/-- Releasing what was just allocated gives the free list back, and pages without other references
can be released in any order. -/
theorem kfree_canonical (h : FreeListInvariant k bs) :
    (∀ n pa k', 1 ≤ n → kallocContig k n = some (pa, k') → pa ≠ 0 →
      ∃ k'', kfreeContig k' pa n = some k'' ∧ k''.blocks = some bs) ∧
    ∀ l l' : List Nat, l.Nodup → l.Perm l' → (∀ p ∈ l, Managed p ∧ getref k p = 1) →
      ∃ k₁ k₂ cs, l.foldlM kfree k = some k₁ ∧ l'.foldlM kfree k = some k₂ ∧
        k₁.blocks = some cs ∧ k₂.blocks = some cs := by
  obtain ⟨cs, hrep, hex⟩ := h.allocInv
  refine ⟨fun n pa k' hn hk h0 => ?_, fun l l' hnd hp hl => ?_⟩
  · rw [← h.read]
    exact hrep.kfreeContig_kallocContig hex hn hk h0
  · obtain ⟨k₁, hk₁, h₁, hr₁⟩ := h.allocInv.kfree_list hnd hl
    obtain ⟨k₂, hk₂, h₂, hr₂⟩ := h.allocInv.kfree_list (hp.nodup_iff.mp hnd) fun p hp' =>
      hl p (hp.mem_iff.mpr hp')
    have heq := h₁.blocks_eq h₂ fun x _ => by simp only [hr₁, hr₂, hp.mem_iff]
    obtain ⟨ds, hrep₁, -⟩ := h₁
    exact ⟨k₁, k₂, _, hk₁, hk₂, hrep₁.blocks, heq ▸ hrep₁.blocks⟩

end

/-- A page of the sample kernel is allocated and released. -/
theorem kfree_canonical_kinit :
    ∃ k bs pa k' k'', @kinit sampleImage (fun _ => zeroPage) = some k ∧ k.blocks = some bs ∧
      kallocContig k 1 = some (pa, k') ∧ pa ≠ 0 ∧ @kfreeContig sampleImage k' pa 1 = some k'' ∧
      k''.blocks = some bs := by
  let _ := sampleImage
  obtain ⟨k, hk, hrep, -⟩ := kinit_spec fun _ => zeroPage
  obtain ⟨bs, hbs⟩ := (allocInv_kinit hk).freeListInvariant
  rcases kalloc_spec hrep with ⟨habs, -⟩ | ⟨pa, k', bs', hk', hgot⟩
  · cases habs
  · have h0 := managed_ne_zero hgot.managed
    obtain ⟨k'', hk'', hb⟩ := (kfree_canonical hbs).1 1 pa k' (by decide) hk' h0
    exact ⟨k, bs, pa, k', k'', hk, hbs.read, hk', h0, hk'', hb⟩

end MiniOS
