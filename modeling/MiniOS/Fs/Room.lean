import MiniOS.Fs.Inode
import Mathlib.Data.Finset.Card

/-!
# MiniOS.Fs.Room

When `bmap` finds a block: the blocks that a file needs for one more block of
contents, and the blocks that are left on the disk.
-/

namespace MiniOS

open Checked

/-- The blocks that `bmap` has to take for block `bn` of the contents. -/
def Dinode.blocksNeeded (d : Dinode) (data : Disk) (bn : Nat) : Nat :=
  if d.blockAt data bn ≠ 0 then 0 else if ndirect ≤ bn ∧ d.addrs ndirect = 0 then 2 else 1

namespace Fs

theorem findFree_eq_none {bitmap : Nat → Bool} {n b₀ : Nat} (h : findFree bitmap n b₀ = none) :
    ∀ b, b₀ ≤ b → b < b₀ + n → bitmap b = true := by
  induction n generalizing b₀ with
  | zero => intro b h1 h2; omega
  | succ n ih =>
    unfold findFree at h
    split at h
    · next hb =>
        intro b h1 h2
        rcases Nat.eq_or_lt_of_le h1 with rfl | h1
        · exact hb
        · exact ih h b h1 (by omega)
    · cases h

variable [Superblock]

/-- The number of blocks that are not in use. -/
def freeBlocks (s : Fs) : Nat := ((Finset.range Superblock.size).filter fun b => s.bitmap b = false).card

variable {A : Panic → Prop} {i : Fin ninode} {s : Fs}

section
variable (h0 : s.bitmap 0 = true)
include h0

/-- `balloc` takes a block if there is one; block 0 is always in use. -/
theorem sat_balloc_room :
    Sat A balloc s fun b s' => (b = 0 ∧ s' = s ∧ s.freeBlocks = 0) ∨
      (b ≠ 0 ∧ s'.freeBlocks + 1 = s.freeBlocks ∧ s'.bitmap 0 = true ∧ s'.data b = zeroBlock) := by
  refine sat_bind rfl ?_
  split
  · next b hb =>
      obtain ⟨hfree, hlt⟩ := findFree_eq_some hb
      have hne : b ≠ 0 := by
        rintro rfl
        rw [h0] at hfree
        cases hfree
      refine sat_bind rfl (sat_bind rfl (sat_bind rfl (sat_pure (.inr ⟨hne, ?_, ?_, ?_⟩))))
      · have herase : (Finset.range Superblock.size).filter (fun c => Function.update s.bitmap b true c = false) =
            ((Finset.range Superblock.size).filter fun c => s.bitmap c = false).erase b := by
          ext c
          simp only [Finset.mem_filter, Finset.mem_erase, Finset.mem_range]
          by_cases hc : c = b
          · simp [hc]
          · simp [hc]
        have hmem : b ∈ (Finset.range Superblock.size).filter fun c => s.bitmap c = false :=
          Finset.mem_filter.mpr ⟨Finset.mem_range.mpr (by omega), hfree⟩
        unfold freeBlocks
        simp only
        rw [herase]
        exact Finset.card_erase_add_one hmem
      · exact (Function.update_of_ne hne.symm _ _).trans h0
      · exact Function.update_self ..
  · next hnone =>
      refine sat_pure (.inl ⟨rfl, rfl, Finset.card_eq_zero.mpr (Finset.filter_eq_empty_iff.mpr ?_)⟩)
      intro b hb
      rw [findFree_eq_none hnone b (Nat.zero_le _) (by have := Finset.mem_range.mp hb; omega)]
      decide

/-- A slot of `ip->addrs` gets a block if there is one. -/
theorem sat_bmapAddr_room {n : Nat} :
    Sat A (bmapAddr i n) s fun r s' =>
      ((s.itable i).d.addrs n ≠ 0 ∧ r = (s.itable i).d.addrs n ∧ s' = s) ∨
      ((s.itable i).d.addrs n = 0 ∧ r = 0 ∧ s.freeBlocks = 0) ∨
      ((s.itable i).d.addrs n = 0 ∧ r ≠ 0 ∧ s'.freeBlocks + 1 = s.freeBlocks ∧ s'.bitmap 0 = true ∧
        s'.data r = zeroBlock) := by
  refine sat_bind rfl ?_
  dsimp only
  refine sat_ite (fun ha => (sat_balloc_room h0).bind ?_) fun ha => sat_pure (.inl ⟨ha, rfl, rfl⟩)
  rintro b s₁ (⟨rfl, rfl, hfull⟩ | ⟨hb, hroom, hz⟩)
  · rw [if_neg (by simp)]
    exact sat_pure (.inr (.inl ⟨ha, rfl, hfull⟩))
  · rw [if_pos hb]
    exact sat_bind rfl (sat_pure (.inr (.inr ⟨ha, hb, hroom, hz⟩)))

/-- An entry of the indirect block gets a block if there is one. -/
theorem sat_bmapEntry_room {ind bn : Nat} :
    Sat A (bmapEntry ind bn) s fun r _ => r = 0 ↔ (s.data ind).word bn = 0 ∧ s.freeBlocks = 0 := by
  refine sat_bind rfl ?_
  dsimp only
  refine sat_ite (fun ha => (sat_balloc_room h0).bind ?_) fun ha => sat_pure ⟨fun h => absurd h ha, fun h => h.1⟩
  rintro b s₁ (⟨rfl, rfl, hfull⟩ | ⟨hb, hroom, -⟩)
  · rw [if_neg (by simp)]
    exact sat_pure ⟨fun _ => ⟨ha, hfull⟩, fun _ => rfl⟩
  · rw [if_pos hb]
    refine sat_bind rfl (sat_bind rfl (sat_bind rfl (sat_pure ⟨fun h => absurd h hb, fun h => ?_⟩)))
    omega

/-- `bmap` fails exactly when the disk has not the blocks it needs. -/
theorem sat_bmap_room {bn : Nat} (hbn : bn < maxFile) :
    Sat A (bmap i bn) s fun r _ => r = 0 ↔ s.freeBlocks < (s.itable i).d.blocksNeeded s.data bn := by
  unfold Dinode.blocksNeeded
  refine sat_ite (fun hlt => ?_) fun hge => sat_ite (fun hj => ?_) fun hj => ?_
  · refine (sat_bmapAddr_room h0).mono fun r s' hs => ?_
    rw [Dinode.blockAt_of_lt hlt, if_neg (fun hc : ndirect ≤ bn ∧ _ => by omega)]
    rcases hs with ⟨ha, rfl, -⟩ | ⟨ha, rfl, hfull⟩ | ⟨ha, hr, hroom, -⟩
    · simp [ha]
    · simp [ha, hfull]
    · simp only [ha, hr, ne_eq, not_true_eq_false, if_false, false_iff]
      omega
  · have hle : ndirect ≤ bn := Nat.not_lt.mp hge
    refine (sat_bmapAddr_room h0).bind ?_
    rintro ind s₁ (⟨ha, rfl, rfl⟩ | ⟨ha, rfl, hfull⟩ | ⟨ha, hind, hroom, h0', hz⟩)
    · rw [if_neg ha, Dinode.blockAt_of_le hle hbn ha]
      refine (sat_bmapEntry_room h0).mono fun r _ hr => hr.trans ?_
      by_cases hw : (s₁.data ((s₁.itable i).d.addrs ndirect)).word (bn - ndirect) = 0
      · simp only [hw, ha, ne_eq, not_true_eq_false, if_false, and_false, true_and]
        omega
      · simp [hw]
    · rw [if_pos rfl, Dinode.blockAt_of_no_indirect hle ha]
      refine sat_pure ?_
      simp [ha, hle, hfull]
    · rw [if_neg hind, Dinode.blockAt_of_no_indirect hle ha]
      refine (sat_bmapEntry_room h0').mono fun r _ hr => hr.trans ?_
      simp only [hz, BlockData.word_zeroBlock, ha, hle, ne_eq, not_true_eq_false, if_false, and_self, if_true,
        true_and]
      omega
  · exact absurd hbn (by simp only [maxFile]; omega)

end

/-- A write inside one block is complete if `bmap` finds the block, and writes nothing otherwise. -/
theorem sat_writei_room (h : Wf s) (hl : s.Locked i) {off : Nat} {src : List Byte} (hsrc : src ≠ [])
    (hoff : off ≤ (s.dinode (s.itable i).inum).size) (hfit : off % bsize + src.length ≤ bsize) :
    Sat A (writei i (fun _ => none) off src) s fun r _ => r = some src.length ↔
      off + src.length ≤ maxFile * bsize ∧
        (s.dinode (s.itable i).inum).blocksNeeded s.data (off / bsize) ≤ s.freeBlocks := by
  have hd := (h.cached i hl).1
  have hsize := h.size_le _ (h.type_ne hl)
  have hlen : 0 < src.length := List.length_pos_iff.mpr hsrc
  refine sat_bind rfl ?_
  dsimp only
  rw [hd, if_neg (by simp only [maxFile, ndirect, nindirect, bsize] at *; omega)]
  refine sat_ite (fun hmax => sat_pure ⟨nofun, fun hc => by omega⟩) fun hmax => ?_
  have hbn : off / bsize < maxFile := Nat.div_lt_of_lt_mul (by rw [Nat.mul_comm]; omega)
  have h0 : s.bitmap 0 = true := h.owned.below 0 h.owned.pos
  suffices hloop : Sat A (writeLoop i (fun _ => none) src.length off src) s fun off' _ =>
      off' = off ∧ s.freeBlocks < (s.dinode (s.itable i).inum).blocksNeeded s.data (off / bsize) ∨
        off' = off + src.length ∧
          (s.dinode (s.itable i).inum).blocksNeeded s.data (off / bsize) ≤ s.freeBlocks by
    refine hloop.bind fun off' s₁ hend => sat_bind rfl (sat_bind rfl (sat_pure ?_))
    rw [Option.some.injEq]
    omega
  obtain ⟨n, hn⟩ : ∃ n, src.length = n + 1 := ⟨src.length - 1, by omega⟩
  rw [hn, writeLoop, if_neg hsrc]
  have hroom := sat_bmap_room (A := A) (i := i) h0 hbn
  rw [hd] at hroom
  refine hroom.bind fun r s₁ hr => sat_ite (fun hz => sat_pure (.inl ⟨rfl, hr.mp hz⟩)) fun hz => sat_bind rfl ?_
  dsimp only
  have hchunk : src.take (bsize - off % bsize) = src := List.take_of_length_le (by omega)
  rw [hchunk]
  refine sat_bind rfl (sat_bind rfl ?_)
  rw [List.drop_length]
  have hend : ∀ s₂, writeLoop i (fun _ => none) n (off + src.length) [] s₂ = .ok (off + src.length, s₂) := by
    intro s₂
    cases n <;> rfl
  exact sat_of_eq (hend _) (.inr ⟨by rw [hn], Nat.not_lt.mp fun hc => hz (hr.mpr hc)⟩)

end Fs

end MiniOS
