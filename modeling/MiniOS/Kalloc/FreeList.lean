import MiniOS.Kalloc
import MiniOS.Lib.Extents

/-!
# MiniOS.Kalloc.FreeList

The free list in memory.  `Seg m h bs t` says that following `next` from
the address `h` visits the headers of the blocks `bs`, in page units, and
arrives at `t`; the free list is such a segment ending in 0.

The pointer manipulations of `kfree_contig` and `kalloc_contig` are shown
to compute `Extents.insert` and `Extents.carve` on the represented list
(`seg_kfreeInsert`, `seg_takeFront`), so that order, disjointness and
coalescing come from the library.
-/

namespace MiniOS

open Extents

/-! ## header fields -/

theorem setWord_self (m : Mem) (pa : Nat) (i : Fin 512) (w : Word) :
    setWord m pa i w pa = Function.update (m pa) i w := Function.update_self ..

variable {p b n : Nat} {m : Mem} {bs : List Block}

theorem setWord_of_ne {pa : Nat} (h : p ≠ pa) (m : Mem) (i : Fin 512) (w : Word) :
    setWord m pa i w p = m p := Function.update_of_ne h ..

theorem setNext_of_ne (h : p ≠ b) (m : Mem) (v : Nat) : setNext m b v p = m p :=
  setWord_of_ne h ..

theorem setNumPages_of_ne (h : p ≠ b) (m : Mem) (n : Nat) :
    setNumPages m b n p = m p := setWord_of_ne h ..

theorem next_setNext (m : Mem) (b : Nat) {v : Nat} (hv : v < 2 ^ 64) : next (setNext m b v) b = v := by
  rw [next, setNext, setWord_self, Function.update_self, BitVec.toNat_ofNat, Nat.mod_eq_of_lt hv]

theorem next_congr {m' : Mem} (h : m' b = m b) : next m' b = next m b := by
  rw [next, next, h]

theorem numPages_congr {m' : Mem} (h : m' b = m b) : numPages m' b = numPages m b := by
  rw [numPages, numPages, h]

@[simp] theorem numPages_setNext (m : Mem) (b v c : Nat) :
    numPages (setNext m b v) c = numPages m c := by
  by_cases h : c = b
  · subst h
    have h10 : (1 : Fin 512) ≠ 0 := by decide
    rw [numPages, numPages, setNext, setWord_self, Function.update_of_ne h10]
  · exact numPages_congr (setNext_of_ne h m v)

@[simp] theorem next_setNumPages (m : Mem) (b n c : Nat) :
    next (setNumPages m b n) c = next m c := by
  by_cases h : c = b
  · subst h
    have h01 : (0 : Fin 512) ≠ 1 := by decide
    rw [next, next, setNumPages, setWord_self, Function.update_of_ne h01]
  · exact next_congr (setNumPages_of_ne h m n)

theorem numPages_setNumPages (m : Mem) (b : Nat) (hn : n < 2 ^ 32) :
    numPages (setNumPages m b n) b = n := by
  have hlt := (m b 1).isLt
  simp only [numPages, setNumPages, setWord_self, Function.update_self, BitVec.toNat_ofNat]
  omega

/-! ## list segments -/

/-- The address of a block's header. -/
def addr (b : Block) : Nat := b.start * pgSize

/-- Following `next` from `h` visits the blocks `bs` and arrives at `t`. -/
def Seg (m : Mem) : Nat → List Block → Nat → Prop
  | h, [], t => h = t
  | h, b :: bs, t => h = addr b ∧ numPages m h = b.len ∧ Seg m (next m h) bs t

theorem seg_append {xs ys : List Block} : ∀ {h t : Nat},
    Seg m h (xs ++ ys) t ↔ ∃ u, Seg m h xs u ∧ Seg m u ys t := by
  induction xs with
  | nil => intro h t; simp [Seg]
  | cons x xs ih =>
    intro h t
    simp only [List.cons_append, Seg, ih]
    constructor
    · rintro ⟨h1, h2, u, h3, h4⟩; exact ⟨u, ⟨h1, h2, h3⟩, h4⟩
    · rintro ⟨u, ⟨h1, h2, h3⟩, h4⟩; exact ⟨h1, h2, u, h3, h4⟩

/-- A segment reads only the headers of its blocks. -/
theorem seg_congr {m' : Mem} : ∀ {h t : Nat},
    (∀ b ∈ bs, m' (addr b) = m (addr b)) → Seg m h bs t → Seg m' h bs t := by
  induction bs with
  | nil => intro h t _ hs; exact hs
  | cons b bs ih =>
    rintro h t hag ⟨rfl, hnum, hs⟩
    have hb := hag b (by simp)
    refine ⟨rfl, by rw [numPages_congr hb, hnum], ?_⟩
    rw [next_congr hb]
    exact ih (fun c hc => hag c (by simp [hc])) hs

/-- The address the last block of a prefix leaves in `prev`. -/
def lastAddr (prev : Nat) : List Block → Nat
  | [] => prev
  | b :: bs => lastAddr (addr b) bs

/-- The address of the first block, or 0. -/
def headAddr : List Block → Nat
  | [] => 0
  | b :: _ => addr b

theorem lastAddr_concat (prev : Nat) (bs : List Block) (b : Block) :
    lastAddr prev (bs ++ [b]) = addr b := by
  induction bs generalizing prev with
  | nil => rfl
  | cons c cs ih => exact ih (addr c)

theorem seg_headAddr {h : Nat} (hs : Seg m h bs 0) : h = headAddr bs := by
  cases bs with
  | nil => exact hs
  | cons b bs => exact hs.1

theorem addr_ne {a b : Block} (h : a.start ≠ b.start) : addr a ≠ addr b := by
  simp only [addr, pgSize]; omega

/-! ## insertion -/

/-- Merging a block with its right neighbour in memory is `Extents.join`. -/
theorem seg_coalesceRight {b : Block} {post : List Block}
    (hnum : numPages m (addr b) = b.len) (hs : Seg m (next m (addr b)) post 0)
    (hne : ∀ c ∈ post, c.start ≠ b.start) (hpos : ∀ c ∈ post, 0 < c.start)
    (hlen : ∀ c ∈ post, b.len + c.len < 2 ^ 32) :
    Seg (coalesceRight m (addr b)) (addr b) (join b post) 0 := by
  cases post with
  | nil =>
    have h0 : next m (addr b) = 0 := hs
    rw [coalesceRight, if_neg (by simp [h0])]
    exact ⟨rfl, hnum, h0⟩
  | cons c cs =>
    obtain ⟨hnext, hcnum, hs⟩ := hs
    rw [hnext] at hcnum hs
    have hc0 : addr c ≠ 0 := by
      have := hpos c (by simp)
      simp only [addr, pgSize]; omega
    have hadj : addr b + numPages m (addr b) * pgSize = next m (addr b) ↔ b.fin = c.start := by
      rw [hnum, hnext]; simp only [addr, pgSize, Block.fin]; omega
    rw [join]
    by_cases h : b.fin = c.start
    · rw [if_pos h, coalesceRight, if_pos ⟨by rw [hnext]; exact hc0, hadj.mpr h⟩]
      have hcb : addr c ≠ addr b := addr_ne (hne c (by simp))
      have hnc : next m (addr c) < 2 ^ 64 := (m (addr c) 0).isLt
      simp only [next_setNumPages, hnext, hnum, hcnum]
      refine ⟨rfl, ?_, ?_⟩
      · rw [numPages_setNext, numPages_setNumPages _ _ (hlen c (by simp))]
      · rw [next_setNext _ _ hnc]
        refine seg_congr (fun d hd => ?_) hs
        have hdb : addr d ≠ addr b := addr_ne (hne d (by simp [hd]))
        rw [setNext_of_ne hdb, setNumPages_of_ne hdb]
    · rw [if_neg h, coalesceRight, if_neg (fun hh => h (hadj.mp hh.2))]
      refine ⟨rfl, hnum, ?_⟩
      rw [hnext]
      exact ⟨rfl, hcnum, hs⟩

theorem coalesceRight_of_ne (h : p ≠ b) (m : Mem) : coalesceRight m b p = m p := by
  unfold coalesceRight
  split
  · rw [setNext_of_ne h, setNumPages_of_ne h]
  · rfl

/-- Merging to the left is merging the predecessor to the right. -/
theorem coalesceLeft_eq {prev : Nat} (hp : prev ≠ 0) (hb : b ≠ 0)
    (hn : next m prev = b) : coalesceLeft m prev b = coalesceRight m prev := by
  subst hn
  simp only [coalesceLeft, coalesceRight, next_setNumPages, ne_eq, hp, hb, not_false_eq_true, true_and]

theorem findSlot_spec : ∀ (fuel prev : Nat) {h : Nat},
    Seg m h bs 0 → bs.Pairwise Block.Before → (∀ c ∈ bs, 0 < c.start) → bs.length < fuel →
    ∃ pre post, bs = pre ++ post ∧ (∀ a ∈ pre, addr a < b) ∧ (∀ c ∈ post, b ≤ addr c) ∧
      findSlot m b fuel prev h = some (lastAddr prev pre, headAddr post) := by
  induction bs with
  | nil =>
    intro fuel prev h hs _ _ hf
    obtain ⟨fuel, rfl⟩ : ∃ n, fuel = n + 1 := ⟨fuel - 1, by simp only [List.length_nil] at hf; omega⟩
    have h0 : h = 0 := hs
    exact ⟨[], [], rfl, by simp, by simp, by simp [findSlot, h0, lastAddr, headAddr]⟩
  | cons c cs ih =>
    intro fuel prev h hs hsep hpos hf
    obtain ⟨fuel, rfl⟩ : ∃ n, fuel = n + 1 := ⟨fuel - 1, by simp only [List.length_cons] at hf; omega⟩
    obtain ⟨rfl, hnum, hs⟩ := hs
    rw [List.pairwise_cons] at hsep
    have hc0 : addr c ≠ 0 := by
      have := hpos c (by simp)
      simp only [addr, pgSize]; omega
    by_cases hlt : addr c < b
    · obtain ⟨pre, post, heq, hpre, hpost, hfind⟩ :=
        ih fuel (addr c) hs hsep.2 (fun d hd => hpos d (by simp [hd]))
          (by simp only [List.length_cons] at hf; omega)
      refine ⟨c :: pre, post, by rw [heq]; rfl, ?_, hpost, ?_⟩
      · intro a ha
        rcases List.mem_cons.mp ha with rfl | ha
        · exact hlt
        · exact hpre a ha
      · rw [findSlot, if_pos ⟨hc0, hlt⟩, hfind]; rfl
    · refine ⟨[], c :: cs, rfl, by simp, ?_, ?_⟩
      · intro d hd
        rcases List.mem_cons.mp hd with rfl | hd
        · omega
        · have := hsep.1 d hd
          simp only [Block.Before, Block.fin] at this
          simp only [addr, pgSize] at hlt ⊢; omega
      · rw [findSlot, if_neg (fun hh => hlt hh.2)]; rfl

/-- What a free list needs of its blocks: no block at page 0, and lengths
far below what `num_pages` can hold. -/
structure Bounded (bs : List Block) : Prop where
  pos : ∀ b ∈ bs, 0 < b.start
  fin_le : ∀ b ∈ bs, b.fin ≤ 2 ^ 20

/-- A canonical bounded list is shorter than the pointer walks allow. -/
theorem length_le_of_bounded (hcan : Canonical bs)
    (hlo : ∀ b ∈ bs, n ≤ b.start) (hne : bs ≠ []) : ∃ b ∈ bs, n + bs.length ≤ b.fin := by
  induction bs generalizing n with
  | nil => exact absurd rfl hne
  | cons a as ih =>
    obtain ⟨ha, hsep, hcan⟩ := canonical_cons.mp hcan
    have hna := hlo a (by simp)
    cases as with
    | nil => exact ⟨a, by simp, by simp only [List.length_cons, List.length_nil, Block.fin]; omega⟩
    | cons c cs =>
      obtain ⟨b, hb, hle⟩ := ih (n := n + 1) hcan
        (fun d hd => by have := hsep d hd; simp only [Block.Before, Block.fin] at this; omega)
        (by simp)
      exact ⟨b, by simp [hb], by simp only [List.length_cons] at hle ⊢; omega⟩

theorem coalesceLeft_of_ne {prev : Nat} (hp : prev ≠ 0 → p ≠ prev) (m : Mem) (b : Nat) :
    coalesceLeft m prev b p = m p := by
  unfold coalesceLeft
  split
  · next h => rw [setNext_of_ne (hp h.1), setNumPages_of_ne (hp h.1)]
  · rfl

theorem insertAt_of_ne {prev : Nat} (hb : p ≠ b) (hp : prev ≠ 0 → p ≠ prev) (m : Mem)
    (head curr : Nat) : (insertAt m head prev curr b).1 p = m p := by
  show coalesceLeft _ prev b p = m p
  rw [coalesceLeft_of_ne hp, coalesceRight_of_ne hb, setNext_of_ne hb]
  split
  · next h => exact setNext_of_ne (hp h) _ _
  · rfl

section
variable {m : Mem} {head : Nat} {b : Block} {post : List Block}
  (hnumb : numPages m (addr b) = b.len) (hspost : Seg m (headAddr post) post 0)
  (hne : ∀ c ∈ post, b.start < c.start) (hb0 : 0 < b.start) (hbf : b.fin ≤ 2 ^ 20)
  (hpf : ∀ c ∈ post, c.fin ≤ 2 ^ 20)
include hnumb hspost hne hbf hpf

/-- The block and what follows it, once its own header is complete. -/
theorem seg_setNext_coalesceRight (m' : Mem) (hm : ∀ p, p = addr b ∨ (∃ c ∈ post, p = addr c) → m' p = m p) :
    Seg (coalesceRight (setNext m' (addr b) (headAddr post)) (addr b)) (addr b) (join b post) 0 := by
  have hhead : headAddr post < 2 ^ 64 := by
    cases post with
    | nil => simp [headAddr]
    | cons c cs =>
      have := hpf c (by simp)
      simp only [headAddr, addr, pgSize, Block.fin] at *; omega
  refine seg_coalesceRight ?_ ?_ (fun c hc => (by have := hne c hc; omega))
    (fun c hc => (by have := hne c hc; omega)) fun c hc => ?_
  · rw [numPages_setNext, numPages_congr (hm _ (Or.inl rfl)), hnumb]
  · rw [next_setNext _ _ hhead]
    refine seg_congr (fun c hc => ?_) hspost
    have := hne c hc
    rw [setNext_of_ne (addr_ne (by omega)), hm _ (Or.inr ⟨c, hc, rfl⟩)]
  · have := hpf c hc
    simp only [Block.fin] at *; omega

/-- A block smaller than the whole list becomes its head. -/
theorem seg_insertAt_head :
    (insertAt m head 0 (headAddr post) (addr b)).2 = addr b ∧
      Seg (insertAt m head 0 (headAddr post) (addr b)).1 (addr b) (join b post) 0 := by
  refine ⟨rfl, ?_⟩
  have h := seg_setNext_coalesceRight hnumb hspost hne hbf hpf m fun _ _ => rfl
  simpa only [insertAt, coalesceLeft, ne_eq, not_true_eq_false, false_and, if_false] using h

include hb0 in
/-- Otherwise it goes right after its predecessor `a`, which may absorb it. -/
theorem seg_insertAt_after {pre : List Block} {a : Block} (hspre : Seg m head (pre ++ [a]) (headAddr post))
    (hpre : ∀ c ∈ pre, c.start < a.start) (hab : a.start < b.start) (ha0 : 0 < a.start)
    (haf : a.fin ≤ 2 ^ 20) :
    (insertAt m head (addr a) (headAddr post) (addr b)).2 = head ∧
      Seg (insertAt m head (addr a) (headAddr post) (addr b)).1 head (pre ++ join a (join b post)) 0 := by
  have haddr0 : addr a ≠ 0 := by simp only [addr, pgSize]; omega
  have hbddr0 : addr b ≠ 0 := by simp only [addr, pgSize]; omega
  have hbddr : addr b < 2 ^ 64 := by simp only [addr, pgSize, Block.fin] at *; omega
  have hneab : addr a ≠ addr b := addr_ne (by omega)
  simp only [insertAt, ne_eq, haddr0, not_false_eq_true, if_true, true_and]
  -- the memory before the left merge: `a` points at `b`, everything before `a` is untouched
  have hsb := seg_setNext_coalesceRight hnumb hspost hne hbf hpf (setNext m (addr a) (addr b))
    (by
      rintro p (rfl | ⟨c, hc, rfl⟩)
      · exact setNext_of_ne hneab.symm _ _
      · have := hne c hc
        exact setNext_of_ne (addr_ne (by omega)) _ _)
  generalize hm2 : coalesceRight (setNext (setNext m (addr a) (addr b)) (addr b) (headAddr post))
    (addr b) = m2 at hsb ⊢
  have hm2a : m2 (addr a) = setNext m (addr a) (addr b) (addr a) := by
    rw [← hm2, coalesceRight_of_ne hneab, setNext_of_ne hneab]
  have hnexta : next m2 (addr a) = addr b := by
    rw [next_congr hm2a, next_setNext _ _ hbddr]
  obtain ⟨v, hsp, hva, hanum, -⟩ := seg_append.mp hspre
  subst hva
  rw [coalesceLeft_eq haddr0 hbddr0 hnexta]
  have hstart : ∀ c ∈ join b post, b.start ≤ c.start :=
    start_le_of_mem_join (Nat.le_refl _) fun c hc => (by have := hne c hc; omega)
  have hlen : ∀ c ∈ join b post, c.len ≤ 2 ^ 21 := by
    cases post with
    | nil =>
      intro c hc
      rw [List.mem_singleton.mp hc]
      simp only [Block.fin] at hbf; omega
    | cons d ds =>
      have hd := hpf d (by simp)
      intro c hc
      rw [join] at hc
      simp only [Block.fin] at hbf hd hpf
      split at hc
      · rcases List.mem_cons.mp hc with rfl | hc
        · simp only; omega
        · have := hpf c (by simp [hc]); omega
      · rcases List.mem_cons.mp hc with rfl | hc
        · omega
        · have := hpf c hc; omega
  refine seg_append.mpr ⟨addr a, ?_, seg_coalesceRight ?_ (by rw [hnexta]; exact hsb) ?_ ?_ ?_⟩
  · refine seg_congr (fun c hc => ?_) hsp
    have hca := hpre c hc
    have hne1 : addr c ≠ addr a := addr_ne (by omega)
    have hne2 : addr c ≠ addr b := addr_ne (by omega)
    rw [coalesceRight_of_ne hne1, ← hm2, coalesceRight_of_ne hne2, setNext_of_ne hne2,
      setNext_of_ne hne1]
  · rw [numPages_congr hm2a, numPages_setNext, hanum]
  · intro c hc; have := hstart c hc; omega
  · intro c hc; have := hstart c hc; omega
  · intro c hc
    have := hlen c hc
    simp only [Block.fin] at haf; omega

end

/-- Inserting a block in memory is `Extents.insert`; only the headers of the
new block and of listed blocks are written. -/
theorem seg_kfreeInsert {k : Kmem} {b : Block} (hs : Seg k.mem k.freelist bs 0)
    (hcan : Canonical bs) (hbd : Bounded bs) (hlen : bs.length < listFuel) (hap : Apart b bs)
    (hb : 0 < b.len) (hb0 : 0 < b.start) (hbf : b.fin ≤ 2 ^ 20) :
    ∃ m head, kfreeInsert k (addr b) b.len = some { k with mem := m, freelist := head } ∧
      Seg m head (Extents.insert b bs) 0 ∧
      ∀ p, p ≠ addr b → (∀ c ∈ bs, p ≠ addr c) → m p = k.mem p := by
  have hfin : ∀ c ∈ bs, c.start ≠ b.start := by
    intro c hc heq
    have := hap c hc
    have := hcan.pos c hc
    simp only [Block.fin] at *; omega
  have hs1 : Seg (setNumPages k.mem (addr b) b.len) k.freelist bs 0 :=
    seg_congr (fun c hc => setNumPages_of_ne (addr_ne (hfin c hc)) _ _) hs
  have hnumb : numPages (setNumPages k.mem (addr b) b.len) (addr b) = b.len :=
    numPages_setNumPages _ _ (by simp only [Block.fin] at hbf; omega)
  obtain ⟨pre, post, rfl, hpre, hpost, hfind⟩ :=
    findSlot_spec (b := addr b) listFuel 0 hs1 hcan.sep hbd.pos hlen
  have hpost' : ∀ c ∈ post, b.start < c.start := fun c hc => by
    have := hpost c hc
    have := hfin c (by simp [hc])
    simp only [addr, pgSize] at *; omega
  have hpf : ∀ c ∈ post, c.fin ≤ 2 ^ 20 := fun c hc => hbd.fin_le c (by simp [hc])
  obtain ⟨u, hspre, hspost⟩ := seg_append.mp hs1
  rw [seg_headAddr hspost] at hspre hspost
  simp only [kfreeInsert, hfind, Option.map_some]
  refine ⟨_, _, rfl, ?_, fun p hp hpc => ?_⟩
  · rcases List.eq_nil_or_concat pre with rfl | ⟨pre, a, rfl⟩
    · rw [insert_append (by simp) fun c hc => Nat.le_of_lt (hpost' c hc), List.foldr_nil, lastAddr,
        (seg_insertAt_head hnumb hspost hpost' hbf hpf).1]
      exact (seg_insertAt_head hnumb hspost hpost' hbf hpf).2
    · rw [List.concat_eq_append] at *
      rw [List.append_assoc, List.singleton_append] at hcan hbd ⊢
      have hpw := List.pairwise_append.mp hcan.sep
      have hab : a.start < b.start := by
        have := hpre a (by simp)
        simp only [addr, pgSize] at this; omega
      have h := seg_insertAt_after hnumb hspost hpost' hb0 hbf hpf hspre
        (fun c hc => (by have := hpw.2.2 c hc a (by simp); simp only [Block.Before, Block.fin] at this; omega))
        hab (hbd.pos a (by simp)) (hbd.fin_le a (by simp))
      rw [insert_append_concat hcan.sep hab fun c hc => Nat.le_of_lt (hpost' c hc), lastAddr_concat, h.1]
      exact h.2
  · rw [insertAt_of_ne hp ?_, setNumPages_of_ne hp]
    rcases List.eq_nil_or_concat pre with rfl | ⟨pre, a, rfl⟩
    · exact fun h => absurd rfl h
    · intro _
      rw [List.concat_eq_append, lastAddr_concat]
      exact hpc a (by simp)

/-! ## allocation -/

/-- The scan's two pointers describe the best block so far and its predecessor. -/
def BestRep (m : Mem) (bs : List Block) (bestPrev bestCurr : Nat) : Option Block → Prop
  | none => bestCurr = 0
  | some b => ∃ xs ys, bs = xs ++ b :: ys ∧ bestPrev = lastAddr 0 xs ∧ bestCurr = addr b ∧
      numPages m bestCurr = b.len

theorem bestRep_append {cs : List Block} {bp bc : Nat} {best : Option Block}
    (h : BestRep m bs bp bc best) : BestRep m (bs ++ cs) bp bc best := by
  cases best with
  | none => exact h
  | some b =>
    obtain ⟨xs, ys, rfl, h⟩ := h
    exact ⟨xs, ys ++ cs, by simp, h⟩

/-- The pointer scan computes `Extents.bestFit`. -/
theorem scanBest_spec (cs : List Block) :
    ∀ (bs : List Block) (bp bc : Nat) (best : Option Block) {fuel curr : Nat},
    Seg m curr cs 0 → (∀ c ∈ bs ++ cs, 0 < c.start) → cs.length < fuel → BestRep m bs bp bc best →
    ∃ bp' bc', scanBest m n fuel (lastAddr 0 bs) curr bp bc = some (bp', bc') ∧
      BestRep m (bs ++ cs) bp' bc' (cs.foldl (better n) best) := by
  induction cs with
  | nil =>
    intro bs bp bc best fuel curr hs _ hf hrep
    obtain ⟨fuel, rfl⟩ : ∃ f, fuel = f + 1 := ⟨fuel - 1, by simp only [List.length_nil] at hf; omega⟩
    have h0 : curr = 0 := hs
    exact ⟨bp, bc, by simp [scanBest, h0], by simpa using hrep⟩
  | cons c cs ih =>
    intro bs bp bc best fuel curr hs hpos hf hrep
    obtain ⟨fuel, rfl⟩ : ∃ f, fuel = f + 1 := ⟨fuel - 1, by simp only [List.length_cons] at hf; omega⟩
    obtain ⟨rfl, hnum, hs⟩ := hs
    have hc0 : addr c ≠ 0 := by
      have := hpos c (by simp)
      simp only [addr, pgSize]; omega
    have hlen : cs.length < fuel := by simp only [List.length_cons] at hf; omega
    have hpos' : ∀ d ∈ (bs ++ [c]) ++ cs, 0 < d.start := fun d hd => hpos d (by simpa using hd)
    have hnew : BestRep m (bs ++ [c]) (lastAddr 0 bs) (addr c) (some c) :=
      ⟨bs, [], rfl, rfl, rfl, hnum⟩
    -- what the scan keeps after looking at `c` is `better n best c`
    have hstep : ∃ bp₁ bc₁, scanBest m n (fuel + 1) (lastAddr 0 bs) (addr c) bp bc =
          scanBest m n fuel (lastAddr 0 (bs ++ [c])) (next m (addr c)) bp₁ bc₁ ∧
        BestRep m (bs ++ [c]) bp₁ bc₁ (better n best c) := by
      rw [scanBest, if_neg hc0, hnum, lastAddr_concat]
      unfold better
      cases best with
      | none =>
        have hbc : bc = 0 := hrep
        by_cases hn : n ≤ c.len
        · exact ⟨_, _, by rw [if_pos ⟨hn, Or.inl hbc⟩], by rw [if_pos hn]; exact hnew⟩
        · exact ⟨_, _, by rw [if_neg fun h => hn h.1], by rw [if_neg hn]; exact hbc⟩
      | some b =>
        obtain ⟨xs, ys, heq, hbp, hbc, hbnum⟩ := hrep
        have hb0 : bc ≠ 0 := by
          have := hpos b (by simp [heq])
          rw [hbc]; simp only [addr, pgSize]; omega
        have hold : BestRep m (bs ++ [c]) bp bc (some b) :=
          bestRep_append (show BestRep m bs bp bc (some b) from ⟨xs, ys, heq, hbp, hbc, hbnum⟩)
        rw [hbnum]
        by_cases hn : n ≤ c.len
        · by_cases hlt : c.len < b.len
          · exact ⟨_, _, by rw [if_pos ⟨hn, Or.inr hlt⟩], by simp only [if_pos hn, if_pos hlt]; exact hnew⟩
          · exact ⟨_, _, by rw [if_neg fun h => h.2.elim hb0 hlt],
              by simp only [if_pos hn, if_neg hlt]; exact hold⟩
        · exact ⟨_, _, by rw [if_neg fun h => hn h.1], by simp only [if_neg hn]; exact hold⟩
    obtain ⟨bp₁, bc₁, heq, hrep₁⟩ := hstep
    obtain ⟨bp', bc', hscan, hrep'⟩ := ih (bs ++ [c]) bp₁ bc₁ _ hs hpos' hlen hrep₁
    exact ⟨bp', bc', by rw [heq, hscan], by simpa using hrep'⟩

/-- Unlinking or splitting the chosen block in memory is `Extents.carve`. -/
theorem seg_takeFront {head : Nat} {xs ys : List Block} {b : Block}
    (hs : Seg m head (xs ++ b :: ys) 0) (hcan : Canonical (xs ++ b :: ys))
    (hbd : Bounded (xs ++ b :: ys)) (hn0 : 0 < n) (hn : n ≤ b.len) :
    Seg (takeFront m head (lastAddr 0 xs) (addr b) n).1 (takeFront m head (lastAddr 0 xs) (addr b) n).2
      (carve b.start n (xs ++ b :: ys)) 0 := by
  have hpw := List.pairwise_append.mp hcan.sep
  have hys : ∀ c ∈ ys, b.fin < c.start := (List.pairwise_cons.mp hpw.2.1).1
  have hxs : ∀ a ∈ xs, a.fin < b.start := fun a ha => hpw.2.2 a ha b (by simp)
  have hbf := hbd.fin_le b (by simp)
  rw [carve_append n fun a ha => (by have := hxs a ha; simp only [Block.fin] at this; omega)]
  obtain ⟨u, hsx, hub, hbnum, hsy⟩ := seg_append.mp hs
  subst hub
  -- the tail of the list and its entry pointer `t`, in a memory `m'` changed below `b.fin` only
  have key : ∀ (m' : Mem) (t : Nat) (zs : List Block), t < 2 ^ 64 → Seg m' t zs 0 →
      (∀ c ∈ zs, b.start ≤ c.start) → (∀ a ∈ xs, m' (addr a) = m (addr a)) →
      Seg (if lastAddr 0 xs ≠ 0 then setNext m' (lastAddr 0 xs) t else m')
        (if lastAddr 0 xs ≠ 0 then head else t) (xs ++ zs) 0 := by
    intro m' t zs ht hsz hzs hag
    rcases List.eq_nil_or_concat xs with rfl | ⟨xs, a, rfl⟩
    · simpa [lastAddr] using hsz
    · rw [List.concat_eq_append] at *
      have ha0 : addr a ≠ 0 := by
        have := hbd.pos a (by simp)
        simp only [addr, pgSize]; omega
      have hab := hxs a (by simp)
      rw [lastAddr_concat, if_pos ha0, if_pos ha0]
      obtain ⟨v, hsv, hva, hanum, -⟩ := seg_append.mp hsx
      subst hva
      rw [List.append_assoc, List.singleton_append]
      refine seg_append.mpr ⟨addr a, ?_, rfl, ?_, ?_⟩
      · refine seg_congr (fun c hc => ?_) hsv
        have := (List.pairwise_append.mp hpw.1).2.2 c hc a (by simp)
        have hca : addr c ≠ addr a := addr_ne (by simp only [Block.Before, Block.fin] at this; omega)
        rw [setNext_of_ne hca, hag c (by simp [hc])]
      · rw [numPages_setNext, numPages_congr (hag a (by simp)), hanum]
      · rw [next_setNext _ _ ht]
        refine seg_congr (fun c hc => ?_) hsz
        have := hzs c hc
        exact setNext_of_ne (addr_ne (by simp only [Block.fin] at hab; omega)) _ _
  have hnb : next m (addr b) < 2 ^ 64 := (m (addr b) 0).isLt
  unfold takeFront
  rw [hbnum]
  by_cases hlen : b.len = n
  · rw [if_pos hlen, if_pos hlen]
    have h := key m (next m (addr b)) ys hnb hsy
      (fun c hc => by have := hys c hc; simp only [Block.fin] at this; omega) fun _ _ => rfl
    split at h <;> simp_all
  · rw [if_neg hlen, if_neg hlen]
    have hsplit : addr b + n * pgSize = addr ⟨b.start + n, b.len - n⟩ := by
      simp only [addr, pgSize]; omega
    have hsne : ∀ c : Block, c.start < b.start ∨ b.fin < c.start → addr c ≠ addr b + n * pgSize := by
      intro c hc
      rw [hsplit]
      exact addr_ne (by simp only [Block.fin] at hc ⊢; omega)
    simp only [next_setNumPages]
    have h := key (setNext (setNumPages m (addr b + n * pgSize) (b.len - n)) (addr b + n * pgSize)
        (next m (addr b))) (addr b + n * pgSize) (⟨b.start + n, b.len - n⟩ :: ys)
      (by simp only [addr, pgSize, Block.fin] at *; omega)
      ⟨hsplit, by rw [numPages_setNext, numPages_setNumPages _ _ (by simp only [Block.fin] at hbf; omega)], ?_⟩
      ?_ ?_
    · split at h <;> simp_all
    · rw [next_setNext _ _ hnb]
      refine seg_congr (fun c hc => ?_) hsy
      have hcs := hsne c (Or.inr (hys c hc))
      rw [setNext_of_ne hcs, setNumPages_of_ne hcs]
    · intro c hc
      rcases List.mem_cons.mp hc with rfl | hc
      · simp only; omega
      · have := hys c hc
        simp only [Block.fin] at this; omega
    · intro a ha
      have has := hsne a (Or.inl (by have := hxs a ha; simp only [Block.fin] at this; omega))
      rw [setNext_of_ne has, setNumPages_of_ne has]

/-! ## reading the list back -/

/-- Read the free list off memory: `(address, num_pages)` of each block. -/
def readBlocks (m : Mem) : Nat → Nat → Option (List (Nat × Nat))
  | 0, _ => none
  | fuel + 1, h =>
    if h = 0 then some [] else (readBlocks m fuel (next m h)).map ((h, numPages m h) :: ·)

theorem readBlocks_of_seg (bs : List Block) : ∀ {h fuel : Nat}, Seg m h bs 0 →
    (∀ b ∈ bs, 0 < b.start) → bs.length < fuel →
    readBlocks m fuel h = some (bs.map fun b => (addr b, b.len)) := by
  induction bs with
  | nil =>
    intro h fuel hs _ hf
    obtain ⟨fuel, rfl⟩ : ∃ f, fuel = f + 1 := ⟨fuel - 1, by simp only [List.length_nil] at hf; omega⟩
    have h0 : h = 0 := hs
    simp [readBlocks, h0]
  | cons b bs ih =>
    intro h fuel hs hpos hf
    obtain ⟨fuel, rfl⟩ : ∃ f, fuel = f + 1 := ⟨fuel - 1, by simp only [List.length_cons] at hf; omega⟩
    obtain ⟨rfl, hnum, hs⟩ := hs
    have hb0 : addr b ≠ 0 := by
      have := hpos b (by simp)
      simp only [addr, pgSize]; omega
    rw [readBlocks, if_neg hb0, ih hs (fun c hc => hpos c (by simp [hc]))
      (by simp only [List.length_cons] at hf; omega)]
    simp [hnum]

end MiniOS
