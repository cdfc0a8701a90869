import MiniOS.Riscv

/-!
# MiniOS.Disk

Disk blocks of `BSIZE` bytes, with the little-endian `uint` words that the log
header and indirect blocks are made of.
-/

namespace MiniOS

/-- `BSIZE`. -/
abbrev bsize : Nat := 1024

/-- The contents of a disk block. -/
abbrev BlockData := Fin bsize → Byte

/-- A disk: the contents of every block. -/
abbrev Disk := Nat → BlockData

/-- The offset of a byte in its block. -/
def blockOff (o : Nat) : Fin bsize := ⟨o % bsize, Nat.mod_lt _ (by decide)⟩

/-- A block of zeros. -/
def zeroBlock : BlockData := fun _ => 0

namespace BlockData

def byte (b : BlockData) (o : Nat) : Byte := b (blockOff o)

def setByte (b : BlockData) (o : Nat) (x : Byte) : BlockData := Function.update b (blockOff o) x

/-- `((uint*)data)[i]`. -/
def word (b : BlockData) (i : Nat) : Nat :=
  (b.byte (4 * i)).toNat + 256 * (b.byte (4 * i + 1)).toNat + 65536 * (b.byte (4 * i + 2)).toNat +
    16777216 * (b.byte (4 * i + 3)).toNat

/-- `((uint*)data)[i] = w`. -/
def setWord (b : BlockData) (i w : Nat) : BlockData :=
  (((b.setByte (4 * i) (BitVec.ofNat 8 w)).setByte (4 * i + 1) (BitVec.ofNat 8 (w / 256))).setByte
    (4 * i + 2) (BitVec.ofNat 8 (w / 65536))).setByte (4 * i + 3) (BitVec.ofNat 8 (w / 16777216))

theorem byte_setByte (b : BlockData) {o o' : Nat} (ho : o < bsize) (ho' : o' < bsize) (x : Byte) :
    (b.setByte o x).byte o' = if o' = o then x else b.byte o' := by
  unfold setByte byte
  by_cases h : o' = o
  · rw [if_pos h, h, Function.update_self]
  · rw [if_neg h, Function.update_of_ne]
    intro hc
    have := congrArg Fin.val hc
    simp only [blockOff, Nat.mod_eq_of_lt ho, Nat.mod_eq_of_lt ho'] at this
    exact h this

theorem byte_setWord (b : BlockData) {i o : Nat} (hi : i < 256) (ho : o < bsize) (w : Nat)
    (h : o / 4 ≠ i) : (b.setWord i w).byte o = b.byte o := by
  simp only [bsize] at ho
  unfold setWord
  rw [byte_setByte _ (by simp only [bsize]; omega) ho, if_neg (by omega),
    byte_setByte _ (by simp only [bsize]; omega) ho, if_neg (by omega),
    byte_setByte _ (by simp only [bsize]; omega) ho, if_neg (by omega),
    byte_setByte _ (by simp only [bsize]; omega) ho, if_neg (by omega)]

/-- The other words stay. -/
theorem word_setWord_of_ne (b : BlockData) {i j : Nat} (hi : i < 256) (hj : j < 256) (h : j ≠ i) (w : Nat) :
    (b.setWord i w).word j = b.word j := by
  have hb : ∀ k < 4, (b.setWord i w).byte (4 * j + k) = b.byte (4 * j + k) := fun k hk =>
    byte_setWord b hi (by simp only [bsize]; omega) w (by omega)
  have h0 := hb 0 (by decide)
  rw [Nat.add_zero] at h0
  rw [word, word, h0, hb 1 (by decide), hb 2 (by decide), hb 3 (by decide)]

theorem word_setWord (b : BlockData) {i w : Nat} (hi : i < 256) (hw : w < 2 ^ 32) :
    (b.setWord i w).word i = w := by
  have h : ∀ k < 4, 4 * i + k < bsize := fun k hk => by simp only [bsize]; omega
  have h0 : 4 * i < bsize := h 0 (by decide)
  have h1 := h 1 (by decide)
  have h2 := h 2 (by decide)
  have h3 := h 3 (by decide)
  simp only [setWord, word, byte_setByte _ h3 h0, byte_setByte _ h3 h1, byte_setByte _ h3 h2,
    byte_setByte _ h3 h3, byte_setByte _ h2 h0, byte_setByte _ h2 h1, byte_setByte _ h2 h2,
    byte_setByte _ h1 h0, byte_setByte _ h1 h1, byte_setByte _ h0 h0]
  simp
  omega

@[simp] theorem word_zeroBlock (i : Nat) : zeroBlock.word i = 0 := rfl

end BlockData

end MiniOS
