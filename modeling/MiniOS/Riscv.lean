import Mathlib.Algebra.GroupWithZero.Nat
import Mathlib.Algebra.Ring.Int.Defs
import Mathlib.Logic.Function.Basic
import Mathlib.Tactic.Common

/-!
# MiniOS.Riscv

The machine layer: 64-bit words, physical pages, the memory layout of
`kernel/memlayout.h` and the Sv39 page-table entries of `kernel/riscv.h`.

Physical memory is a map from page base addresses to pages of 512 words.
Page tables, free-list headers and user bytes all live in these words, so
a write through one of them is seen through the others.  Addresses are
natural numbers; `(pagetable_t)-1` is `2 ^ 64 - 1`.

The entry lemmas at the end (`pte2pa_pa2pte_or`, `has_pte*`) are what the
page-table proofs use; no later module looks inside a bit pattern.
-/

namespace MiniOS

abbrev Word := BitVec 64

abbrev Byte := BitVec 8

/-! ## Layout -/

abbrev pgSize : Nat := 4096

/-- `PGROUNDUP`. -/
def pgRoundUp (a : Nat) : Nat := (a + pgSize - 1) / pgSize * pgSize

/-- `PGROUNDDOWN`. -/
def pgRoundDown (a : Nat) : Nat := a / pgSize * pgSize

abbrev kernBase : Nat := 0x80000000

abbrev physTop : Nat := kernBase + 128 * 1024 * 1024

abbrev maxVa : Nat := 2 ^ 38

abbrev trampolineVa : Nat := maxVa - pgSize

abbrev trapframeVa : Nat := trampolineVa - pgSize

theorem pgRoundDown_le (a : Nat) : pgRoundDown a ≤ a := by
  simp only [pgRoundDown, pgSize]; omega

theorem pgRoundDown_div (a : Nat) : pgRoundDown a / pgSize = a / pgSize := by
  simp only [pgRoundDown, pgSize]; omega

theorem le_pgRoundUp (a : Nat) : a ≤ pgRoundUp a := by
  simp only [pgRoundUp, pgSize]; omega

theorem pgRoundUp_mod (a : Nat) : pgRoundUp a % pgSize = 0 := by
  simp only [pgRoundUp, pgSize]; omega

/-- A page base lies below `sz` exactly when it lies below `PGROUNDUP(sz)`. -/
theorem lt_pgRoundUp_iff (v sz : Nat) : v * pgSize < sz ↔ v < pgRoundUp sz / pgSize := by
  simp only [pgRoundUp, pgSize]; omega

/-- A smaller size has no more pages. -/
theorem pages_mono {sz sz' : Nat} (h : sz ≤ sz') : pgRoundUp sz / pgSize ≤ pgRoundUp sz' / pgSize := by
  simp only [pgRoundUp, pgSize]; omega

/-! ## Pages and bytes -/

/-- A physical page: 512 words, or 4096 bytes in little-endian order. -/
abbrev Page := Fin 512 → Word

instance neZero_512 : NeZero (512 : Nat) := ⟨by decide⟩

/-- Physical memory, by page base address. -/
abbrev Mem := Nat → Page

/-- Byte `j` of a word. -/
def wordByte (w : Word) (j : Nat) : Byte := w.extractLsb' (8 * j) 8

/-- Replace byte `j` of a word. -/
def setWordByte (w : Word) (j : Nat) (b : Byte) : Word :=
  (w &&& ~~~(0xFF#64 <<< (8 * j))) ||| (b.zeroExtend 64 <<< (8 * j))

theorem getLsbD_0xFF (i : Nat) : (0xFF#64).getLsbD i = decide (i < 8) := by
  by_cases h : i < 8
  · have hbit : ∀ i : Fin 8, (0xFF#64).getLsbD i = true := by decide
    simpa only [h, decide_true] using hbit ⟨i, h⟩
  · have hlt : 255 < 2 ^ i := Nat.lt_of_lt_of_le (by decide) (Nat.pow_le_pow_right (by decide) (by omega : 8 ≤ i))
    simp only [h, decide_false, BitVec.getLsbD, BitVec.toNat_ofNat]
    exact Nat.testBit_lt_two_pow hlt

theorem wordByte_setWordByte (w : Word) (j j' : Nat) (b : Byte) (hj : j < 8) (hj' : j' < 8) :
    wordByte (setWordByte w j b) j' = if j' = j then b else wordByte w j' := by
  ext i hi
  have h64 : 8 * j' + i < 64 := by omega
  have hget : (wordByte (setWordByte w j b) j')[i] =
      ((w.getLsbD (8 * j' + i) && !(decide (8 * j ≤ 8 * j' + i) && decide (8 * j' + i - 8 * j < 8))) ||
        (decide (8 * j ≤ 8 * j' + i) && b.getLsbD (8 * j' + i - 8 * j))) := by
    rw [wordByte, BitVec.getElem_extractLsb', setWordByte, BitVec.getLsbD_or, BitVec.getLsbD_and,
      BitVec.getLsbD_not, BitVec.getLsbD_shiftLeft, BitVec.getLsbD_shiftLeft, getLsbD_0xFF]
    simp [h64]
    grind
  rw [hget]
  by_cases h : j' = j
  · subst h
    simp [hi]
  · have hout : ¬ (8 * j ≤ 8 * j' + i ∧ 8 * j' + i - 8 * j < 8) := by omega
    by_cases hle : 8 * j ≤ 8 * j' + i
    · have hge : ¬ 8 * j' + i - 8 * j < 8 := fun hlt => hout ⟨hle, hlt⟩
      have hb : b.getLsbD (8 * j' + i - 8 * j) = false := BitVec.getLsbD_of_ge b _ (by omega)
      simp [h, hge, hb, wordByte]
    · simp [h, hle, wordByte]

/-- The word holding byte `o` of a page. -/
def wordIdx (o : Nat) : Fin 512 := ⟨o / 8 % 512, Nat.mod_lt _ (by decide)⟩

/-- Byte `o` of a page. -/
def pageByte (p : Page) (o : Nat) : Byte := wordByte (p (wordIdx o)) (o % 8)

/-- A one-byte store into a page. -/
def pageSet (p : Page) (o : Nat) (b : Byte) : Page :=
  Function.update p (wordIdx o) (setWordByte (p (wordIdx o)) (o % 8) b)

/-- `memmove` into a page: the bytes `bs` at offset `o`, first to last. -/
def pageWrite (p : Page) (o : Nat) : List Byte → Page
  | [] => p
  | b :: bs => pageWrite (pageSet p o b) (o + 1) bs

/-- `memset` of a whole page. -/
def pageFill (b : Byte) : Page := fun _ => BitVec.ofNat 64 (b.toNat * 0x0101010101010101)

/-- The page `memset(_, 0, PGSIZE)` leaves. -/
def zeroPage : Page := pageFill 0

@[simp] theorem zeroPage_apply (i : Fin 512) : zeroPage i = 0#64 := rfl

theorem pageByte_pageSet (p : Page) (o o' : Nat) (b : Byte) (ho : o < pgSize) (ho' : o' < pgSize) :
    pageByte (pageSet p o b) o' = if o' = o then b else pageByte p o' := by
  simp only [pgSize] at ho ho'
  unfold pageByte pageSet
  by_cases hw : wordIdx o' = wordIdx o
  · have hdiv : o' / 8 % 512 = o / 8 % 512 := congrArg Fin.val hw
    rw [hw, Function.update_self, wordByte_setWordByte _ _ _ _ (by omega) (by omega)]
    have hiff : o' % 8 = o % 8 ↔ o' = o := by omega
    simp only [hiff]
  · have hne : o' ≠ o := fun h => hw (by rw [h])
    rw [Function.update_of_ne hw, if_neg hne]

theorem pageByte_pageWrite (bs : List Byte) : ∀ (p : Page) (o o' : Nat),
    o + bs.length ≤ pgSize → o' < pgSize →
    pageByte (pageWrite p o bs) o' =
      if o ≤ o' ∧ o' < o + bs.length then bs.getD (o' - o) 0 else pageByte p o' := by
  induction bs with
  | nil =>
    intro p o o' _ _
    have h : ¬ (o ≤ o' ∧ o' < o + 0) := by omega
    simp only [pageWrite, List.length_nil, if_neg h]
  | cons b bs ih =>
    intro p o o' hlen ho'
    simp only [List.length_cons] at hlen ⊢
    rw [pageWrite, ih _ _ _ (by omega) ho', pageByte_pageSet _ _ _ _ (by omega) ho']
    by_cases h : o' = o
    · subst h
      have h1 : ¬ (o' + 1 ≤ o' ∧ o' < o' + 1 + bs.length) := by omega
      have h2 : o' ≤ o' ∧ o' < o' + (bs.length + 1) := by omega
      simp only [if_neg h1, if_pos h2, if_true, Nat.sub_self, List.getD_cons_zero]
    · by_cases h1 : o + 1 ≤ o' ∧ o' < o + 1 + bs.length
      · have h2 : o ≤ o' ∧ o' < o + (bs.length + 1) := by omega
        have h3 : o' - o = (o' - (o + 1)) + 1 := by omega
        rw [if_pos h1, if_pos h2, h3, List.getD_cons_succ]
      · have h2 : ¬ (o ≤ o' ∧ o' < o + (bs.length + 1)) := by omega
        rw [if_neg h1, if_neg h2, if_neg h]

/-! ## Page-table entries -/

def pteV : Word := 1#64 <<< 0
def pteR : Word := 1#64 <<< 1
def pteW : Word := 1#64 <<< 2
def pteX : Word := 1#64 <<< 3
def pteU : Word := 1#64 <<< 4
def pteCow : Word := 1#64 <<< 8

/-- `PA2PTE`. -/
def pa2pte (pa : Nat) : Word := (BitVec.ofNat 64 pa >>> 12) <<< 10

/-- `PTE2PA`. -/
def pte2pa (w : Word) : Nat := ((w >>> 10) <<< 12).toNat

/-- `PTE_FLAGS`. -/
def pteFlags (w : Word) : Word := w &&& 0x3FF#64

/-- The C test `(w & m)`: some bit of the mask is set. -/
def has (w m : Word) : Bool := w &&& m != 0#64

/-- `PX(level, va)`: the 9-bit index of `va` at a page-table level. -/
def px (level va : Nat) : Fin 512 := ⟨va / 2 ^ (12 + 9 * level) % 512, Nat.mod_lt _ (by decide)⟩

/-! ### single bits -/

theorem has_bit (w : Word) (i : Nat) (hi : i < 64) : has w (1#64 <<< i) = w.getLsbD i := by
  rw [has, show 1#64 <<< i = BitVec.twoPow 64 i from (BitVec.twoPow_eq 64 i).symm, BitVec.and_twoPow]
  cases h : w.getLsbD i
  · simp
  · simp only [↓reduceIte, bne_iff_ne, ne_eq]
    intro h0
    have := congrArg (fun b => b.getLsbD i) h0
    simp [hi] at this

theorem has_pteV (w : Word) : has w pteV = w.getLsbD 0 := has_bit w 0 (by decide)
theorem has_pteR (w : Word) : has w pteR = w.getLsbD 1 := has_bit w 1 (by decide)
theorem has_pteW (w : Word) : has w pteW = w.getLsbD 2 := has_bit w 2 (by decide)
theorem has_pteX (w : Word) : has w pteX = w.getLsbD 3 := has_bit w 3 (by decide)
theorem has_pteU (w : Word) : has w pteU = w.getLsbD 4 := has_bit w 4 (by decide)
theorem has_pteCow (w : Word) : has w pteCow = w.getLsbD 8 := has_bit w 8 (by decide)

/-! ### addresses and flags -/

theorem toNat_pa2pte {pa : Nat} (hp : pa < 2 ^ 64) : (pa2pte pa).toNat = pa / 4096 * 1024 := by
  simp only [pa2pte, BitVec.toNat_shiftLeft, BitVec.toNat_ushiftRight, BitVec.toNat_ofNat,
    Nat.shiftRight_eq_div_pow, Nat.shiftLeft_eq]
  omega

theorem pte2pa_eq (w : Word) : pte2pa w = w.toNat / 1024 * 4096 % 2 ^ 64 := by
  simp only [pte2pa, BitVec.toNat_shiftLeft, BitVec.toNat_ushiftRight,
    Nat.shiftRight_eq_div_pow, Nat.shiftLeft_eq]

theorem toNat_pa2pte_or {pa : Nat} {f : Word} (hp : pa < 2 ^ 64) (hf : f.toNat < 1024) :
    (pa2pte pa ||| f).toNat = pa / 4096 * 1024 + f.toNat := by
  rw [BitVec.toNat_or, toNat_pa2pte hp]
  have h := Nat.shiftLeft_add_eq_or_of_lt (show f.toNat < 2 ^ 10 from hf) (pa / 4096)
  rw [Nat.shiftLeft_eq] at h
  exact h.symm

/-- An entry built from a page address and flags points back at the page. -/
theorem pte2pa_pa2pte_or {pa : Nat} {f : Word} (hp : pa < 2 ^ 64) (ha : pa % pgSize = 0)
    (hf : f.toNat < 1024) : pte2pa (pa2pte pa ||| f) = pa := by
  rw [pte2pa_eq, toNat_pa2pte_or hp hf]
  simp only [pgSize] at ha
  omega

theorem pte2pa_lt (w : Word) : pte2pa w < 2 ^ 64 := by
  rw [pte2pa_eq]; exact Nat.mod_lt _ (by decide)

theorem pte2pa_mod (w : Word) : pte2pa w % pgSize = 0 := by
  rw [pte2pa_eq]; simp only [pgSize]; omega

theorem getLsbD_pa2pte (pa i : Nat) (hi : i < 10) : (pa2pte pa).getLsbD i = false := by
  simp [pa2pte]; omega

theorem getLsbD_pteFlags (w : Word) (i : Nat) (hi : i < 10) : (pteFlags w).getLsbD i = w.getLsbD i := by
  have hm : ∀ i : Fin 10, (0x3FF#64).getLsbD i = true := by decide
  rw [pteFlags, BitVec.getLsbD_and, hm ⟨i, hi⟩, Bool.and_true]

theorem toNat_pteFlags_lt (w : Word) : (pteFlags w).toNat < 1024 := by
  rw [pteFlags, BitVec.toNat_and]
  exact Nat.lt_of_le_of_lt Nat.and_le_right (by decide)

theorem getLsbD_of_lt_1024 {f : Word} (hf : f.toNat < 1024) (i : Nat) (hi : 10 ≤ i) :
    f.getLsbD i = false := by
  rw [BitVec.getLsbD]
  exact Nat.testBit_lt_two_pow
    (Nat.lt_of_lt_of_le hf (Nat.pow_le_pow_right (n := 2) (by decide) hi))

/-- Changing bits below the address field leaves the address alone. -/
theorem pte2pa_congr {w w' : Word} (h : w >>> 10 = w' >>> 10) : pte2pa w = pte2pa w' := by
  rw [pte2pa, pte2pa, h]

theorem toNat_or_lt_1024 {a b : Word} (ha : a.toNat < 1024) (hb : b.toNat < 1024) :
    (a ||| b).toNat < 1024 := by
  rw [BitVec.toNat_or]
  exact Nat.or_lt_two_pow (n := 10) ha hb

theorem toNat_and_lt_1024 {a : Word} (b : Word) (ha : a.toNat < 1024) : (a &&& b).toNat < 1024 := by
  rw [BitVec.toNat_and]
  exact Nat.lt_of_le_of_lt Nat.and_le_left ha

/-- Setting flags leaves the address alone. -/
theorem pte2pa_or (w : Word) {f : Word} (hf : f.toNat < 1024) : pte2pa (w ||| f) = pte2pa w := by
  refine pte2pa_congr ?_
  ext i hi
  simp [getLsbD_of_lt_1024 hf (10 + i) (by omega)]

/-- Clearing flags leaves the address alone. -/
theorem pte2pa_and_not (w : Word) {f : Word} (hf : f.toNat < 1024) :
    pte2pa (w &&& ~~~f) = pte2pa w := by
  refine pte2pa_congr (BitVec.eq_of_getLsbD_eq fun i hi => ?_)
  rw [BitVec.getLsbD_ushiftRight, BitVec.getLsbD_ushiftRight, BitVec.getLsbD_and, BitVec.getLsbD_not,
    getLsbD_of_lt_1024 hf (10 + i) (by omega)]
  by_cases h : 10 + i < 64
  · simp [h]
  · simp [BitVec.getLsbD_of_ge w (10 + i) (by omega)]

/-- An entry built from a page address and flags has these flags. -/
theorem pteFlags_pa2pte_or (pa : Nat) {f : Word} (hf : f.toNat < 1024) :
    pteFlags (pa2pte pa ||| f) = f := by
  refine BitVec.eq_of_getLsbD_eq fun i _ => ?_
  by_cases hi : i < 10
  · rw [getLsbD_pteFlags _ i hi, BitVec.getLsbD_or, getLsbD_pa2pte pa i hi, Bool.false_or]
  · rw [getLsbD_of_lt_1024 (toNat_pteFlags_lt _) i (by omega), getLsbD_of_lt_1024 hf i (by omega)]

/-! ### flags of compound entries -/

@[simp] theorem has_or (w f m : Word) : has (w ||| f) m = (has w m || has f m) := by
  have h : (w ||| f) &&& m = (w &&& m) ||| (f &&& m) := by
    ext i hi
    simp [Bool.and_or_distrib_right]
  rw [has, has, has, h, Bool.eq_iff_iff]
  simp only [bne_iff_ne, ne_eq, Bool.or_eq_true, BitVec.or_eq_zero_iff, not_and_or]

@[simp] theorem has_or_right (w m n : Word) : has w (m ||| n) = (has w m || has w n) := by
  have h : ∀ a b, has a b = has b a := fun a b => by rw [has, has, BitVec.and_comm]
  rw [h, has_or, h m, h n]

theorem has_and (w g : Word) (i : Nat) (hi : i < 64) :
    has (w &&& g) (1#64 <<< i) = (has w (1#64 <<< i) && has g (1#64 <<< i)) := by
  simp only [has_bit _ i hi, BitVec.getLsbD_and]

@[simp] theorem has_and_pteV (w g : Word) : has (w &&& g) pteV = (has w pteV && has g pteV) :=
  has_and w g 0 (by decide)
@[simp] theorem has_and_pteR (w g : Word) : has (w &&& g) pteR = (has w pteR && has g pteR) :=
  has_and w g 1 (by decide)
@[simp] theorem has_and_pteW (w g : Word) : has (w &&& g) pteW = (has w pteW && has g pteW) :=
  has_and w g 2 (by decide)
@[simp] theorem has_and_pteX (w g : Word) : has (w &&& g) pteX = (has w pteX && has g pteX) :=
  has_and w g 3 (by decide)
@[simp] theorem has_and_pteU (w g : Word) : has (w &&& g) pteU = (has w pteU && has g pteU) :=
  has_and w g 4 (by decide)
@[simp] theorem has_and_pteCow (w g : Word) : has (w &&& g) pteCow = (has w pteCow && has g pteCow) :=
  has_and w g 8 (by decide)

/-- The flags are distinct bits. -/
@[simp] theorem has_flag :
    (has pteV pteV ∧ has pteV pteR = false ∧ has pteV pteW = false ∧ has pteV pteX = false ∧ has pteV pteU = false ∧
      has pteV pteCow = false) ∧
    (has pteR pteV = false ∧ has pteR pteR ∧ has pteR pteW = false ∧ has pteR pteX = false ∧ has pteR pteU = false ∧
      has pteR pteCow = false) ∧
    (has pteW pteV = false ∧ has pteW pteR = false ∧ has pteW pteW ∧ has pteW pteX = false ∧ has pteW pteU = false ∧
      has pteW pteCow = false) ∧
    (has pteX pteV = false ∧ has pteX pteR = false ∧ has pteX pteW = false ∧ has pteX pteX ∧ has pteX pteU = false ∧
      has pteX pteCow = false) ∧
    (has pteU pteV = false ∧ has pteU pteR = false ∧ has pteU pteW = false ∧ has pteU pteX = false ∧ has pteU pteU ∧
      has pteU pteCow = false) ∧
    (has pteCow pteV = false ∧ has pteCow pteR = false ∧ has pteCow pteW = false ∧ has pteCow pteX = false ∧
      has pteCow pteU = false ∧ has pteCow pteCow) := by decide

/-- Clearing a flag keeps the others. -/
@[simp] theorem has_not_flag :
    (has (~~~pteW) pteV ∧ has (~~~pteW) pteR ∧ has (~~~pteW) pteW = false ∧ has (~~~pteW) pteX ∧
      has (~~~pteW) pteU ∧ has (~~~pteW) pteCow) ∧
    (has (~~~pteU) pteV ∧ has (~~~pteU) pteR ∧ has (~~~pteU) pteW ∧ has (~~~pteU) pteX ∧
      has (~~~pteU) pteU = false ∧ has (~~~pteU) pteCow) ∧
    (has (~~~pteCow) pteV ∧ has (~~~pteCow) pteR ∧ has (~~~pteCow) pteW ∧ has (~~~pteCow) pteX ∧
      has (~~~pteCow) pteU ∧ has (~~~pteCow) pteCow = false) := by decide

/-- An address carries no flags. -/
@[simp] theorem has_pa2pte (pa : Nat) :
    has (pa2pte pa) pteV = false ∧ has (pa2pte pa) pteR = false ∧ has (pa2pte pa) pteW = false ∧
      has (pa2pte pa) pteX = false ∧ has (pa2pte pa) pteU = false ∧ has (pa2pte pa) pteCow = false := by
  simp only [has_pteV, has_pteR, has_pteW, has_pteX, has_pteU, has_pteCow,
    getLsbD_pa2pte pa _ (by decide : 0 < 10), getLsbD_pa2pte pa _ (by decide : 1 < 10),
    getLsbD_pa2pte pa _ (by decide : 2 < 10), getLsbD_pa2pte pa _ (by decide : 3 < 10),
    getLsbD_pa2pte pa _ (by decide : 4 < 10), getLsbD_pa2pte pa _ (by decide : 8 < 10), and_self]

/-- `PTE_FLAGS` keeps the flags. -/
@[simp] theorem has_pteFlags (w : Word) :
    has (pteFlags w) pteV = has w pteV ∧ has (pteFlags w) pteR = has w pteR ∧
      has (pteFlags w) pteW = has w pteW ∧ has (pteFlags w) pteX = has w pteX ∧
      has (pteFlags w) pteU = has w pteU ∧ has (pteFlags w) pteCow = has w pteCow := by
  simp only [has_pteV, has_pteR, has_pteW, has_pteX, has_pteU, has_pteCow,
    getLsbD_pteFlags w _ (by decide : 0 < 10), getLsbD_pteFlags w _ (by decide : 1 < 10),
    getLsbD_pteFlags w _ (by decide : 2 < 10), getLsbD_pteFlags w _ (by decide : 3 < 10),
    getLsbD_pteFlags w _ (by decide : 4 < 10), getLsbD_pteFlags w _ (by decide : 8 < 10),
    and_self]

@[simp] theorem has_zero (m : Word) : has 0#64 m = false := by simp [has]

theorem toNat_pte_lt : pteV.toNat < 1024 ∧ pteR.toNat < 1024 ∧ pteW.toNat < 1024 ∧
    pteX.toNat < 1024 ∧ pteU.toNat < 1024 ∧ pteCow.toNat < 1024 := by decide

end MiniOS
