import MiniOS.Kalloc.FreeList

/-!
# MiniOS.Kalloc.Spec

What one call of the allocator does, for any state whose free list is well
formed (`FreeRep`): one specification each for `kalloc_contig`,
`kfree_contig` and `kinit`, in terms of the represented block list.  Later
modules cite these and never unfold the pointer code.
-/

namespace MiniOS

open Extents
open Function (update update_self update_of_ne)

theorem pa2idx_add (pa i : Nat) : pa2idx (pa + i * pgSize) = pa2idx pa + i := by
  simp only [pa2idx, pgSize]; omega

theorem pa2idx_addr (b : Block) : pa2idx (addr b) = b.start := by
  simp only [pa2idx, addr, pgSize]; omega

theorem setRefs_apply (rc : Nat → Nat) (pa n i : Nat) :
    setRefs rc pa n i = if pa2idx pa ≤ i ∧ i < pa2idx pa + n then 1 else rc i := by
  induction n with
  | zero =>
    have h : ¬ (pa2idx pa ≤ i ∧ i < pa2idx pa + 0) := by omega
    rw [setRefs, if_neg h]
  | succ n ih =>
    rw [setRefs, pa2idx_add]
    by_cases hi : i = pa2idx pa + n
    · rw [hi, update_self, if_pos (by omega)]
    · rw [update_of_ne hi, ih]
      have hiff : (pa2idx pa ≤ i ∧ i < pa2idx pa + n) ↔
          (pa2idx pa ≤ i ∧ i < pa2idx pa + (n + 1)) := by omega
      simp only [hiff]

/-- The page `p` lies in the `n` pages from block unit `s`. -/
def InRange (s n p : Nat) : Prop := s ≤ p / pgSize ∧ p / pgSize < s + n

variable {m : Mem} {n p : Nat}

theorem fillPages_of_inRange {b : Block} (c : Byte)
    (h : InRange b.start n p) : fillPages m (addr b) n c p = pageFill c := by
  rw [fillPages, if_pos]
  simp only [InRange, addr, pgSize] at *; omega

theorem fillPages_of_not_inRange {b : Block} (c : Byte)
    (h : ¬ InRange b.start n p) : fillPages m (addr b) n c p = m p := by
  rw [fillPages, if_neg]
  simp only [InRange, addr, pgSize] at *; omega

theorem takeFront_of_ne {head prev b : Nat} (hp : prev ≠ 0 → p ≠ prev)
    (hs : numPages m b ≠ n → p ≠ b + n * pgSize) : (takeFront m head prev b n).1 p = m p := by
  unfold takeFront
  split
  · split
    · next h => exact setNext_of_ne (hp h) _ _
    · rfl
  · next hne =>
      have hsplit : ∀ v, setNext (setNumPages m (b + n * pgSize) (numPages m b - n)) (b + n * pgSize) v p =
          m p := fun v => by rw [setNext_of_ne (hs hne), setNumPages_of_ne (hs hne)]
      simp only
      split
      · next h => exact (setNext_of_ne (hp h) _ _).trans (hsplit _)
      · exact hsplit _

theorem scrub_spec (pa : Nat) (hpa : pa % pgSize = 0) (hlo : kernBase ≤ pa) (n : Nat) (k : Kmem)
    (hhi : pa + n * pgSize ≤ physTop) :
    (kfreeScrub k pa n).refCount = k.refCount ∧ (kfreeScrub k pa n).useLock = k.useLock ∧
      (kfreeScrub k pa n).freelist = k.freelist ∧ (kfreeScrub k pa n).mem = fillPages k.mem pa n 1 ∧
      ∀ i, (kfreeScrub k pa n).reverseMap i =
        if pa2idx pa ≤ i + kernBase / pgSize ∧ i + kernBase / pgSize < pa2idx pa + n then noRmap
        else k.reverseMap i := by
  -- the clearing loop, page by page
  have hloop : ∀ j ≤ n,
      let k' := (List.range j).foldl (fun k i => clearRmap k (pa + i * pgSize)) k
      k'.refCount = k.refCount ∧ k'.useLock = k.useLock ∧ k'.freelist = k.freelist ∧ k'.mem = k.mem ∧
        ∀ i, k'.reverseMap i =
          if pa2idx pa ≤ i + kernBase / pgSize ∧ i + kernBase / pgSize < pa2idx pa + j then noRmap
          else k.reverseMap i := by
    intro j
    induction j with
    | zero =>
      intro _
      refine ⟨rfl, rfl, rfl, rfl, fun i => ?_⟩
      rw [if_neg (by omega)]; rfl
    | succ j ih =>
      intro hj
      obtain ⟨h1, h2, h3, h4, h5⟩ := ih (by omega)
      simp only [List.range_succ, List.foldl_append, List.foldl_cons, List.foldl_nil]
      have hin : kernBase ≤ pa + j * pgSize ∧ pa + j * pgSize < physTop := by
        simp only [pgSize] at *; omega
      rw [clearRmap, if_pos hin]
      refine ⟨h1, h2, h3, h4, fun i => ?_⟩
      simp only
      by_cases hi : i = rmapIdx (pa + j * pgSize)
      · rw [hi, update_self, if_pos]
        simp only [rmapIdx, pa2idx, pgSize, kernBase] at *; omega
      · rw [update_of_ne hi, h5 i]
        have hiff : (pa2idx pa ≤ i + kernBase / pgSize ∧ i + kernBase / pgSize < pa2idx pa + j) ↔
            (pa2idx pa ≤ i + kernBase / pgSize ∧ i + kernBase / pgSize < pa2idx pa + (j + 1)) := by
          simp only [rmapIdx, pa2idx, pgSize, kernBase] at *; omega
        simp only [hiff]
  obtain ⟨h1, h2, h3, h4, h5⟩ := hloop n (Nat.le_refl n)
  exact ⟨h1, h2, h3, by rw [kfreeScrub]; simp only [h4], h5⟩

theorem decRefs_some {rc rc' : Nat → Nat} {pa : Nat} (h : decRefs rc pa n = some rc') :
    (∀ i < n, 0 < rc (pa2idx pa + i)) ∧
      ∀ j, rc' j = if pa2idx pa ≤ j ∧ j < pa2idx pa + n then rc j - 1 else rc j := by
  induction n generalizing rc' with
  | zero =>
    cases h
    refine ⟨by simp, fun j => ?_⟩
    rw [if_neg (by omega)]
  | succ n ih =>
    rw [decRefs] at h
    cases hd : decRefs rc pa n with
    | none => rw [hd] at h; cases h
    | some rc₁ =>
      obtain ⟨hpos, hval⟩ := ih hd
      rw [hd, Option.bind_some, pa2idx_add] at h
      have hn := hval (pa2idx pa + n)
      rw [if_neg (by omega)] at hn
      simp only at h
      split at h
      · cases h
      · next hne =>
          cases h
          rw [hn] at hne
          refine ⟨fun i hi => ?_, fun j => ?_⟩
          · by_cases hin : i = n
            · subst hin; omega
            · exact hpos i (by omega)
          · by_cases hj : j = pa2idx pa + n
            · subst hj
              rw [update_self, hn, if_pos (by omega)]
            · rw [update_of_ne hj, hval j]
              have hiff : (pa2idx pa ≤ j ∧ j < pa2idx pa + n) ↔
                  (pa2idx pa ≤ j ∧ j < pa2idx pa + (n + 1)) := by omega
              simp only [hiff]

theorem decRefs_isSome (rc : Nat → Nat) (pa : Nat) (h : ∀ i < n, 0 < rc (pa2idx pa + i)) :
    ∃ rc', decRefs rc pa n = some rc' := by
  induction n with
  | zero => exact ⟨rc, rfl⟩
  | succ n ih =>
    obtain ⟨rc₁, h₁⟩ := ih fun i hi => h i (by omega)
    have hval := (decRefs_some h₁).2 (pa2idx pa + n)
    rw [if_neg (by omega)] at hval
    have hpos := h n (by omega)
    have h0 : rc₁ (pa2idx pa + n) ≠ 0 := by omega
    exact ⟨_, by rw [decRefs, h₁, Option.bind_some, pa2idx_add]; exact if_neg h0⟩

theorem pa2idx_ne {q : Nat} (hp : p % pgSize = 0) (hq : q % pgSize = 0) (h : p ≠ q) :
    pa2idx p ≠ pa2idx q := by
  simp only [pa2idx, pgSize] at *; omega

/-- The one-page block at `pa`. -/
def pageBlock (pa : Nat) : Block := ⟨pa / pgSize, 1⟩

theorem has_pageBlock (pa x : Nat) : (pageBlock pa).Has x ↔ x = pa2idx pa := by
  simp only [pageBlock, Block.Has, Block.fin, pa2idx]; omega

theorem addr_pageBlock {pa : Nat} (h : pa % pgSize = 0) : addr (pageBlock pa) = pa := by
  simp only [addr, pageBlock, pgSize] at *; omega

theorem scanBest_ne_zero {fuel prev curr bp bc : Nat} {r : Nat × Nat}
    (h : scanBest m n fuel prev curr bp bc = some r) (hbc : bc ≠ 0) : r.2 ≠ 0 := by
  induction fuel generalizing prev curr bp bc with
  | zero => cases h
  | succ fuel ih =>
    unfold scanBest at h
    split at h
    · cases h
      exact hbc
    · next hcurr =>
        split at h
        · exact ih h hcurr
        · exact ih h hbc

/-- `kalloc` finds a page when the first block of the free list has one. -/
theorem kalloc_ne_zero {k k' : Kmem} {pa : Nat} (hfree : k.freelist ≠ 0)
    (hpages : 1 ≤ numPages k.mem k.freelist) (h : kalloc k = some (pa, k')) : pa ≠ 0 := by
  obtain ⟨⟨bp, bc⟩, hscan, heq⟩ := Option.map_eq_some_iff.mp h
  have hbc : bc ≠ 0 := by
    rw [listFuel, scanBest, if_neg hfree, if_pos ⟨hpages, .inl rfl⟩] at hscan
    exact scanBest_ne_zero hscan hfree
  dsimp only at heq
  rw [if_neg hbc] at heq
  cases heq
  exact hbc

section
variable [KernelImage]

/-- `pa` is a page of one of the listed blocks. -/
def FreePage (bs : List Block) (pa : Nat) : Prop := pa % pgSize = 0 ∧ Covers bs (pa / pgSize)

/-- The free list of `k` is the canonical list `bs`, inside the managed range. -/
structure FreeRep (k : Kmem) (bs : List Block) : Prop where
  seg : Seg k.mem k.freelist bs 0
  canon : Canonical bs
  range : ∀ x, Covers bs x → Managed (x * pgSize)

variable {pa : Nat} {k : Kmem} {bs : List Block} {b : Block}

theorem kernBase_le_of_managed (h : Managed pa) : kernBase ≤ pa :=
  Nat.le_trans KernelImage.kernBase_le (Nat.le_trans (le_pgRoundUp _) h.2.1)

theorem managed_lt (h : Managed pa) : pa < 2 ^ 64 :=
  Nat.lt_trans h.2.2 (by decide)

theorem managed_ne_zero (h : Managed pa) : pa ≠ 0 := by
  have := kernBase_le_of_managed h
  simp only [kernBase] at this; omega

theorem managed_iff_idx (x : Nat) :
    Managed (x * pgSize) ↔ pgRoundUp kernelEnd / pgSize ≤ x ∧ x < physTop / pgSize := by
  have := pgRoundUp_mod kernelEnd
  simp only [Managed, pgSize, physTop, kernBase] at *; omega

theorem managed_div (h : Managed pa) : pa / pgSize * pgSize = pa := by
  have := h.1
  simp only [pgSize] at *; omega

theorem FreeRep.block_range (h : FreeRep k bs) (hb : b ∈ bs) :
    pgRoundUp kernelEnd / pgSize ≤ b.start ∧ b.fin ≤ physTop / pgSize := by
  have hpos := h.canon.pos b hb
  have h1 := (managed_iff_idx _).mp (h.range b.start ⟨b, hb, by simp only [Block.Has, Block.fin]; omega⟩)
  have h2 := (managed_iff_idx _).mp
    (h.range (b.fin - 1) ⟨b, hb, by simp only [Block.Has, Block.fin] at *; omega⟩)
  exact ⟨h1.1, by omega⟩

theorem kernBase_le_lo : kernBase / pgSize ≤ pgRoundUp kernelEnd / pgSize :=
  Nat.div_le_div_right (Nat.le_trans KernelImage.kernBase_le (le_pgRoundUp _))

theorem FreeRep.bounded (h : FreeRep k bs) : Bounded bs := by
  refine ⟨fun b hb => ?_, fun b hb => ?_⟩
  · have := (h.block_range hb).1
    have := kernBase_le_lo
    simp only [kernBase, pgSize] at *; omega
  · have := (h.block_range hb).2
    simp only [physTop, kernBase, pgSize] at this; omega

theorem FreeRep.length_lt (h : FreeRep k bs) :
    bs.length < listFuel := by
  by_cases hne : bs = []
  · subst hne; simp [listFuel]
  · obtain ⟨b, hb, hle⟩ := length_le_of_bounded (n := kernBase / pgSize) h.canon
      (fun c hc => Nat.le_trans kernBase_le_lo (h.block_range hc).1) hne
    have := (h.block_range hb).2
    simp only [listFuel, physTop, kernBase, pgSize] at *; omega

/-- The free list depends only on its own pages. -/
theorem FreeRep.congr {k' : Kmem} (h : FreeRep k bs)
    (hf : k'.freelist = k.freelist) (hm : ∀ p, FreePage bs p → k'.mem p = k.mem p) :
    FreeRep k' bs := by
  refine ⟨?_, h.canon, h.range⟩
  rw [hf]
  refine seg_congr (fun c hc => hm _ ⟨?_, c, hc, ?_⟩) h.seg
  · simp only [addr, pgSize]; omega
  · have h3 : addr c / pgSize = c.start := pa2idx_addr c
    have := h.canon.pos c hc
    rw [h3]
    simp only [Block.Has, Block.fin]; omega

/-! ## kalloc_contig -/

/-- What a successful `kalloc_contig(n)` that returns unit `s` does. -/
structure Allocated (k k' : Kmem) (bs : List Block) (s n : Nat) : Prop where
  rmap : k'.reverseMap = k.reverseMap
  lock : k'.useLock = k.useLock
  ref : ∀ i, k'.refCount i = if s ≤ i ∧ i < s + n then 1 else k.refCount i
  frame : ∀ p, p % pgSize = 0 → ¬ FreePage bs p → k'.mem p = k.mem p
  fresh : ∀ p, InRange s n p → k'.mem p = pageFill 5

theorem kallocContig_none {n : Nat} (h : FreeRep k bs)
    (hbest : bestFit n bs = none) : kallocContig k n = some (0, k) := by
  obtain ⟨bp, bc, hscan, hrep⟩ := scanBest_spec (n := n) (m := k.mem) bs [] 0 0 none
    h.seg (by simpa using h.bounded.pos) h.length_lt rfl
  rw [show bs.foldl (better n) none = none from hbest] at hrep
  have hbc : bc = 0 := hrep
  have hscan' : scanBest k.mem n listFuel 0 k.freelist 0 0 = some (bp, bc) := hscan
  simp [kallocContig, hscan', hbc]

theorem kallocContig_some {n : Nat} (h : FreeRep k bs)
    (hn : 0 < n) (hbest : bestFit n bs = some b) :
    ∃ k', kallocContig k n = some (addr b, k') ∧ FreeRep k' (carve b.start n bs) ∧
      Allocated k k' bs b.start n := by
  obtain ⟨bp, bc, hscan, hrep⟩ := scanBest_spec (n := n) (m := k.mem) bs [] 0 0 none
    h.seg (by simpa using h.bounded.pos) h.length_lt rfl
  rw [show bs.foldl (better n) none = some b from hbest] at hrep
  obtain ⟨xs, ys, heq, hbp, hbc, hbnum⟩ := hrep
  rw [List.nil_append] at heq
  subst hbp hbc
  have hbo := bestOf_bestFit n bs
  rw [hbest] at hbo
  obtain ⟨hb, hnb, -⟩ := hbo
  have hbd := h.bounded
  have hb0 : addr b ≠ 0 := by
    have := hbd.pos b hb
    simp only [addr, pgSize]; omega
  have hscan' : scanBest k.mem n listFuel 0 k.freelist 0 0 = some (lastAddr 0 xs, addr b) := hscan
  simp only [kallocContig, hscan', Option.map_some, if_neg hb0]
  refine ⟨_, rfl, ⟨?_, canonical_carve hb hnb h.canon, ?_⟩, ⟨rfl, rfl, ?_, ?_, ?_⟩⟩
  · -- the remaining blocks avoid the pages that are filled
    have hs := seg_takeFront (m := k.mem) (heq ▸ h.seg) (heq ▸ h.canon) (heq ▸ hbd) hn hnb
    rw [← heq] at hs
    refine seg_congr (fun c hc => fillPages_of_not_inRange _ ?_) hs
    have hcc : Covers (carve b.start n bs) c.start :=
      ⟨c, hc, by have := (canonical_carve hb hnb h.canon).pos c hc; simp only [Block.Has, Block.fin]; omega⟩
    have := ((covers_carve hb hnb h.canon _).mp hcc).2
    simp only [InRange, addr, pgSize] at *; omega
  · intro x hx
    exact h.range x ((covers_carve hb hnb h.canon x).mp hx).1
  · intro i
    refine (setRefs_apply _ _ _ _).trans ?_
    rw [pa2idx_addr]
  · intro p hp hfree
    have hbcov : ∀ x, b.start ≤ x → x < b.fin → Covers bs x := fun x h1 h2 => ⟨b, hb, h1, h2⟩
    have hnr : ¬ (b.start ≤ p / pgSize ∧ p / pgSize < b.fin) := fun hr =>
      hfree ⟨hp, hbcov _ hr.1 hr.2⟩
    refine (fillPages_of_not_inRange _ (by simp only [InRange, Block.fin] at *; omega)).trans ?_
    refine takeFront_of_ne (fun hne heqp => hfree ⟨hp, ?_⟩) fun hne heqp => hnr ?_
    · rcases List.eq_nil_or_concat xs with rfl | ⟨xs, a, rfl⟩
      · exact absurd rfl hne
      · rw [List.concat_eq_append] at heq heqp
        rw [lastAddr_concat] at heqp
        have ha : a ∈ bs := by rw [heq]; simp
        have := h.canon.pos a ha
        refine ⟨a, ha, ?_⟩
        rw [heqp]
        simp only [Block.Has, Block.fin, addr, pgSize]; omega
    · rw [hbnum] at hne
      rw [heqp]
      simp only [addr, pgSize, Block.fin]; omega
  · intro p hp
    exact fillPages_of_inRange _ hp

/-! ## kfree_contig -/

/-- What the second half of `kfree_contig` does with the block `b`. -/
structure Inserted (k k' : Kmem) (bs : List Block) (b : Block) : Prop where
  rmap : ∀ i, k'.reverseMap i = if b.Has (i + kernBase / pgSize) then noRmap else k.reverseMap i
  lock : k'.useLock = k.useLock
  ref : k'.refCount = k.refCount
  frame : ∀ p, p % pgSize = 0 → ¬ FreePage (Extents.insert b bs) p → k'.mem p = k.mem p

theorem kfreeInsert_spec (h : FreeRep k bs) (hb : 0 < b.len)
    (hm : ∀ x, b.Has x → Managed (x * pgSize) ∧ ¬ Covers bs x) :
    ∃ k', kfreeInsert (kfreeScrub k (addr b) b.len) (addr b) b.len = some k' ∧
      FreeRep k' (Extents.insert b bs) ∧ Inserted k k' bs b := by
  have hhas : ∀ i < b.len, b.Has (b.start + i) := fun i hi => by simp only [Block.Has, Block.fin]; omega
  have hfirst := (hm b.start (hhas 0 hb)).1
  have hlast := (hm (b.start + (b.len - 1)) (hhas _ (by omega))).1
  have hkb : kernBase ≤ addr b := kernBase_le_of_managed hfirst
  have hhi : addr b + b.len * pgSize ≤ physTop := by
    have := hlast.2.2
    simp only [addr, pgSize, physTop, kernBase] at *; omega
  obtain ⟨hs1, hs2, hs3, hs4, hs5⟩ := scrub_spec (addr b) hfirst.1 hkb b.len k hhi
  have hap : Apart b bs := apart_of_not_covers h.canon hb fun x hx => (hm x hx).2
  have hseg : Seg (kfreeScrub k (addr b) b.len).mem (kfreeScrub k (addr b) b.len).freelist bs 0 := by
    rw [hs3, hs4]
    refine seg_congr (fun c hc => fillPages_of_not_inRange _ ?_) h.seg
    have h1 := hap c hc
    have h2 := h.canon.pos c hc
    have h3 : addr c / pgSize = c.start := pa2idx_addr c
    simp only [InRange, h3, Block.fin] at h1 ⊢; omega
  have hbd : 0 < b.start ∧ b.fin ≤ 2 ^ 20 := by
    simp only [addr, Block.fin, pgSize, physTop, kernBase] at hkb hhi ⊢; omega
  obtain ⟨m, head, hins, hseg', hframe⟩ :=
    seg_kfreeInsert hseg h.canon h.bounded h.length_lt hap hb hbd.1 hbd.2
  refine ⟨_, hins, ⟨hseg', canonical_insert hb hap h.canon, ?_⟩, ⟨?_, hs2, hs1, ?_⟩⟩
  · intro x hx
    rcases (covers_insert _ _ _).mp hx with hx | hx
    · exact (hm x hx).1
    · exact h.range x hx
  · intro i
    have := hs5 i
    rw [pa2idx_addr] at this
    exact this
  · intro p hp hnf
    have hout : ¬ b.Has (p / pgSize) := fun hr => hnf ⟨hp, (covers_insert _ _ _).mpr (Or.inl hr)⟩
    refine (hframe p ?_ fun c hc => ?_).trans
      ((congrFun hs4 p).trans (fillPages_of_not_inRange _ hout))
    · rintro rfl
      have hb' : addr b / pgSize = b.start := pa2idx_addr b
      exact hout (by rw [hb']; exact hhas 0 hb)
    · rintro rfl
      have hc0 := h.canon.pos c hc
      have h3 : addr c / pgSize = c.start := pa2idx_addr c
      refine hnf ⟨hp, (covers_insert _ _ _).mpr (Or.inr ⟨c, hc, ?_⟩)⟩
      rw [h3]
      simp only [Block.Has, Block.fin]; omega

/-- What `kfree_contig` of the last references to the block `b` does. -/
structure Freed (k k' : Kmem) (bs : List Block) (b : Block) : Prop where
  rmap : ∀ i, k'.reverseMap i = if b.Has (i + kernBase / pgSize) then noRmap else k.reverseMap i
  lock : k'.useLock = k.useLock
  ref : ∀ i, k'.refCount i = if b.Has i then 0 else k.refCount i
  frame : ∀ p, p % pgSize = 0 → ¬ FreePage (Extents.insert b bs) p → k'.mem p = k.mem p

/-- Freeing a page that other references keep alive only drops the count. -/
theorem kfree_shared (hm : Managed pa) (href : 1 < getref k pa) :
    kfree k pa = some { k with
      refCount := update k.refCount (pa2idx pa) (k.refCount (pa2idx pa) - 1) } := by
  unfold getref at href
  have hlo : ¬ pa < kernelEnd := by
    have := hm.2.1
    have := le_pgRoundUp kernelEnd
    omega
  have hhi : pa + pgSize ≤ physTop := by
    have := hm.1
    have := hm.2.2
    simp only [pgSize, physTop, kernBase] at *; omega
  have h0 : k.refCount (pa2idx pa) ≠ 0 := by omega
  have hdec : decRefs k.refCount pa 1 =
      some (update k.refCount (pa2idx pa) (k.refCount (pa2idx pa) - 1)) := by
    simp [decRefs, h0]
  have hpos : 0 < k.refCount (pa2idx pa) - 1 := by omega
  simp [kfree, kfreeContig, hm.1, hlo, hhi, kfreeDecrement, hdec, hpos]

/-- Freeing the last references to a block puts it on the free list. -/
theorem kfreeContig_last (h : FreeRep k bs) (hb : 0 < b.len)
    (hm : ∀ x, b.Has x → Managed (x * pgSize) ∧ k.refCount x = 1 ∧ ¬ Covers bs x) :
    ∃ k', kfreeContig k (addr b) b.len = some k' ∧ FreeRep k' (Extents.insert b bs) ∧
      Freed k k' bs b := by
  have hhas : ∀ i < b.len, b.Has (b.start + i) := fun i hi => by simp only [Block.Has, Block.fin]; omega
  have hfirst := (hm b.start (hhas 0 hb)).1
  have hlast := (hm (b.start + (b.len - 1)) (hhas _ (by omega))).1
  obtain ⟨rc, hdec⟩ := decRefs_isSome k.refCount (addr b) (n := b.len) fun i hi => by
    rw [pa2idx_addr, (hm _ (hhas i hi)).2.1]; decide
  have hrc : ∀ x, rc x = if b.Has x then k.refCount x - 1 else k.refCount x := by
    have := (decRefs_some hdec).2
    rwa [pa2idx_addr] at this
  have hzero : ∀ x, b.Has x → rc x = 0 := by
    intro x hx
    rw [hrc x, if_pos hx, (hm x hx).2.1]
  obtain ⟨k', hins, hrep', hi⟩ := kfreeInsert_spec (k := { k with refCount := rc }) (b := b)
    (h.congr rfl fun _ _ => rfl) hb fun x hx => ⟨(hm x hx).1, (hm x hx).2.2⟩
  refine ⟨k', ?_, hrep', hi.rmap, hi.lock, fun i => ?_, hi.frame⟩
  · have hdone : kfreeDecrement k (addr b) b.len = some (true, { k with refCount := rc }) := by
      rw [kfreeDecrement, hdec, Option.bind_some]
      simp only [pa2idx_add, pa2idx_addr]
      have h0 := hzero b.start (hhas 0 hb)
      rw [if_neg fun hh => by omega, if_neg]
      rintro ⟨-, i, hi, hpos⟩
      have := hzero _ (hhas i hi); omega
    have hpan : ¬ (addr b % pgSize ≠ 0 ∨ addr b < kernelEnd ∨ physTop < addr b + b.len * pgSize) := by
      rintro (hh | hh | hh)
      · exact hh hfirst.1
      · have := hfirst.2.1
        have := le_pgRoundUp kernelEnd
        simp only [addr] at *; omega
      · have := hlast.2.2
        simp only [addr, pgSize, physTop, kernBase] at *; omega
    rw [kfreeContig, if_neg hpan, hdone, Option.bind_some]
    exact hins
  · refine (congrFun hi.ref i).trans ((hrc i).trans ?_)
    by_cases hi : b.Has i
    · rw [if_pos hi, if_pos hi, (hm i hi).2.1]
    · rw [if_neg hi, if_neg hi]

/-- Freeing a block of several pages panics if one of them is still shared. -/
theorem kfreeContig_partial {n i : Nat} (hn : 1 < n) (hi : i < n)
    (href : 1 < getref k (pa + i * pgSize)) : kfreeContig k pa n = none := by
  unfold getref at href
  rw [kfreeContig]
  split
  · rfl
  · rw [kfreeDecrement]
    cases hdec : decRefs k.refCount pa n with
    | none => rfl
    | some rc =>
      have hrc := (decRefs_some hdec).2 (pa2idx (pa + i * pgSize))
      rw [if_pos (by rw [pa2idx_add]; omega)] at hrc
      have hpos : 1 < n ∧ ∃ i < n, 0 < rc (pa2idx (pa + i * pgSize)) := ⟨hn, i, hi, by omega⟩
      have hne : ¬ (n = 1 ∧ 0 < rc (pa2idx pa)) := by omega
      simp only [Option.bind_some, if_neg hne, if_pos hpos, Option.bind_none]

/-! ## one page at a time -/

theorem freePage_managed (h : FreeRep k bs) {p : Nat}
    (hp : FreePage bs p) : Managed p := by
  have := h.range _ hp.2
  have heq : p / pgSize * pgSize = p := by
    have := hp.1
    simp only [pgSize] at *; omega
  rwa [heq] at this

/-- What a successful `kalloc` that returns `pa` does. -/
structure GotPage (k k' : Kmem) (bs bs' : List Block) (pa : Nat) : Prop where
  managed : Managed pa
  was_free : FreePage bs pa
  rep : FreeRep k' bs'
  free_iff : ∀ p, FreePage bs' p ↔ FreePage bs p ∧ p ≠ pa
  ref : k'.refCount = update k.refCount (pa2idx pa) 1
  rmap : k'.reverseMap = k.reverseMap
  lock : k'.useLock = k.useLock
  frame : ∀ p, p % pgSize = 0 → ¬ FreePage bs p → k'.mem p = k.mem p
  fresh : k'.mem pa = pageFill 5

/-- `kalloc` returns a free page, or 0 exactly when there is none. -/
theorem kalloc_spec (h : FreeRep k bs) :
    (bs = [] ∧ kalloc k = some (0, k)) ∨
      ∃ pa k' bs', kalloc k = some (pa, k') ∧ GotPage k k' bs bs' pa := by
  have hbo := bestOf_bestFit 1 bs
  cases hbest : bestFit 1 bs with
  | none =>
    rw [hbest] at hbo
    refine Or.inl ⟨?_, kallocContig_none h hbest⟩
    rcases bs with _ | ⟨b, bs⟩
    · rfl
    · have := hbo b (by simp)
      have := h.canon.pos b (by simp)
      omega
  | some b =>
    rw [hbest] at hbo
    obtain ⟨hb, hb1, -⟩ := hbo
    obtain ⟨k', hk', hrep', hal⟩ := kallocContig_some h Nat.one_pos hbest
    have hfree : FreePage bs (addr b) := by
      refine ⟨by simp only [addr, pgSize]; omega, b, hb, ?_⟩
      rw [show addr b / pgSize = b.start from pa2idx_addr b]
      simp only [Block.Has, Block.fin]; omega
    refine Or.inr ⟨addr b, k', _, hk', freePage_managed h hfree, hfree, hrep', fun p => ?_, ?_,
      hal.rmap, hal.lock, hal.frame, hal.fresh _ ?_⟩
    · simp only [FreePage, covers_carve hb hb1 h.canon]
      constructor
      · rintro ⟨hp, hc, hout⟩
        refine ⟨⟨hp, hc⟩, ?_⟩
        rintro rfl
        simp only [addr, pgSize] at hout; omega
      · rintro ⟨⟨hp, hc⟩, hne⟩
        refine ⟨hp, hc, ?_⟩
        simp only [addr, pgSize] at *; omega
    · funext i
      rw [hal.ref i, pa2idx_addr]
      by_cases hi : i = b.start
      · subst hi
        rw [update_self, if_pos (by omega)]
      · rw [update_of_ne hi, if_neg (by omega)]
    · simp only [InRange, addr, pgSize]; omega

/-- What `kfree` of the last reference to `pa` does. -/
structure PutPage (k k' : Kmem) (bs bs' : List Block) (pa : Nat) : Prop where
  rep : FreeRep k' bs'
  free_iff : ∀ p, FreePage bs' p ↔ FreePage bs p ∨ p = pa
  ref : k'.refCount = update k.refCount (pa2idx pa) 0
  rmap : k'.reverseMap = update k.reverseMap (rmapIdx pa) noRmap
  lock : k'.useLock = k.useLock
  frame : ∀ p, p % pgSize = 0 → ¬ FreePage bs' p → k'.mem p = k.mem p

omit [KernelImage] in
theorem freePage_insert (hpa : pa % pgSize = 0) (bs : List Block) (p : Nat) :
    FreePage (Extents.insert (pageBlock pa) bs) p ↔ FreePage bs p ∨ p = pa := by
  simp only [FreePage, covers_insert, has_pageBlock, pa2idx]
  constructor
  · rintro ⟨hp, heq | hc⟩
    · right
      simp only [pgSize] at *; omega
    · exact Or.inl ⟨hp, hc⟩
  · rintro (⟨hp, hc⟩ | rfl)
    · exact ⟨hp, Or.inr hc⟩
    · exact ⟨hpa, Or.inl rfl⟩

theorem rmap_pageBlock (hm : Managed pa) (f : Nat → Rmap) (i : Nat) :
    (if (pageBlock pa).Has (i + kernBase / pgSize) then noRmap else f i) =
      update f (rmapIdx pa) noRmap i := by
  have hkb := kernBase_le_of_managed hm
  have hiff : (pageBlock pa).Has (i + kernBase / pgSize) ↔ i = rmapIdx pa := by
    rw [has_pageBlock]
    simp only [pa2idx, rmapIdx, pgSize, kernBase] at *; omega
  by_cases hi : i = rmapIdx pa
  · rw [if_pos (hiff.mpr hi), hi, update_self]
  · rw [if_neg fun h => hi (hiff.mp h), update_of_ne hi]

theorem kfree_last (h : FreeRep k bs) (hm : Managed pa)
    (href : k.refCount (pa2idx pa) = 1) (hnf : ¬ FreePage bs pa) :
    ∃ k' bs', kfree k pa = some k' ∧ PutPage k k' bs bs' pa := by
  obtain ⟨k', hk', hrep', hfr⟩ := kfreeContig_last (b := pageBlock pa) h Nat.one_pos fun x hx => by
    rw [has_pageBlock] at hx
    subst hx
    exact ⟨by rw [show pa2idx pa * pgSize = pa from managed_div hm]; exact hm, href,
      fun hc => hnf ⟨hm.1, hc⟩⟩
  rw [addr_pageBlock hm.1] at hk'
  refine ⟨k', _, hk', hrep', freePage_insert hm.1 bs, ?_, ?_, hfr.lock, hfr.frame⟩
  · funext i
    rw [hfr.ref i]
    by_cases hi : i = pa2idx pa
    · rw [if_pos ((has_pageBlock _ _).mpr hi), hi, update_self]
    · rw [if_neg fun h => hi ((has_pageBlock _ _).mp h), update_of_ne hi]
  · funext i
    rw [hfr.rmap i, rmap_pageBlock hm]

/-! ## kinit -/

/-- All the pages between the kernel and the end of memory, as one block. -/
def wholeRange : Block :=
  ⟨pgRoundUp kernelEnd / pgSize, (physTop - pgRoundUp kernelEnd) / pgSize⟩

theorem addr_wholeRange : addr wholeRange = pgRoundUp kernelEnd := by
  have := pgRoundUp_mod kernelEnd
  simp only [addr, wholeRange, pgSize] at *; omega

theorem has_wholeRange (x : Nat) : wholeRange.Has x ↔ Managed (x * pgSize) := by
  have h1 := pgRoundUp_mod kernelEnd
  have h2 := KernelImage.kernelEnd_le
  rw [managed_iff_idx]
  simp only [Block.Has, Block.fin, wholeRange, pgSize, physTop, kernBase] at *; omega

/-- After `kinit` every managed page is free and nothing is mapped. -/
theorem kinit_spec (mem : Mem) :
    ∃ k, kinit mem = some k ∧ FreeRep k [wholeRange] ∧ (∀ i, k.refCount i = 0) ∧
      (∀ i, k.reverseMap i = noRmap) ∧ k.useLock = true := by
  have hpos : 0 < wholeRange.len := by
    have := KernelImage.kernelEnd_le
    simp only [wholeRange, pgSize, physTop, kernBase] at *; omega
  let rc := setRefs (fun _ => 0) (pgRoundUp kernelEnd) ((physTop - pgRoundUp kernelEnd) / pgSize)
  let k₀ : Kmem := ⟨mem, rc, fun _ => noRmap, 0, false⟩
  have hrc : ∀ x, rc x = if wholeRange.Has x then 1 else 0 := fun x => setRefs_apply _ _ _ _
  have hrep : FreeRep k₀ [] := ⟨rfl, canonical_nil, fun x hx => absurd hx (covers_nil x)⟩
  obtain ⟨k, hk, hrep', hfreed⟩ := kfreeContig_last hrep hpos fun x hx =>
    ⟨(has_wholeRange x).mp hx, (hrc x).trans (if_pos hx), covers_nil x⟩
  have hfr : freerange ⟨mem, fun _ => 0, fun _ => noRmap, 0, false⟩ = some k := by
    rw [addr_wholeRange] at hk
    exact hk
  refine ⟨{ k with useLock := true }, by rw [kinit, hfr]; rfl,
    ⟨hrep'.seg, hrep'.canon, hrep'.range⟩, fun i => ?_, fun i => ?_, rfl⟩
  · refine (hfreed.ref i).trans ?_
    by_cases hi : wholeRange.Has i
    · rw [if_pos hi]
    · rw [if_neg hi]; exact (hrc i).trans (if_neg hi)
  · refine (hfreed.rmap i).trans ?_
    split <;> rfl

end

end MiniOS
