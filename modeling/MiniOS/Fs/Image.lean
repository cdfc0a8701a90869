import MiniOS.Fs.Inode

/-!
# MiniOS.Fs.Image

The file system that `mkfs/mkfs.c` makes, without files: a root directory with
the entries `.` and `..`.
-/

namespace MiniOS

/-- The first block of the root directory. -/
def rootBlock : BlockData := fun o =>
  match o.val with
  | 0 | 16 => 1
  | 2 | 18 | 19 => 46
  | _ => 0

/-- The inode of the root directory; `mkfs` rounds its size up to a block. -/
def rootDinode : Dinode := ⟨.dir, 0, 0, 1, bsize, fun k => if k = 0 then 49 else 0⟩

/-- The disk that `mkfs` writes, with the inode table of a kernel that has just started. -/
def mkfsImage : Fs where
  bitmap b := b < 50
  dinode n := if n = rootIno then rootDinode else .free
  data b := if b = 49 then rootBlock else zeroBlock
  itable _ := ⟨0, 0, false, .free⟩
  locked _ := false
  logged := ∅

theorem mkfsImage_dinode_type {n : Nat} (h : (mkfsImage.dinode n).type ≠ .free) : n = rootIno := by
  by_contra hn
  exact h (by simp only [mkfsImage, if_neg hn]; rfl)

theorem rootDinode_blockAt {data : Disk} {bn : Nat} : rootDinode.blockAt data bn = if bn = 0 then 49 else 0 := by
  by_cases hbn : bn < ndirect
  · rw [Dinode.blockAt_of_lt hbn]
    rfl
  · have h0 : bn ≠ 0 := by
      rintro rfl
      exact hbn (by decide)
    rw [Dinode.blockAt_of_no_indirect (Nat.not_lt.mp hbn) rfl, if_neg h0]

/-- The only block in use in the data area is that of the root directory. -/
theorem owner_mkfsImage (x : Nat × Place) :
    owner mkfsImage.dinode mkfsImage.data x = if x = (rootIno, .block 0) then 49 else 0 := by
  obtain ⟨n, p⟩ := x
  by_cases hn : n = rootIno
  · subst hn
    rw [owner_of_alloc (D := mkfsImage.dinode) (by decide)]
    cases p with
    | indirect => exact (if_neg (by simp)).symm
    | block bn =>
      refine rootDinode_blockAt.trans ?_
      simp only [Prod.mk.injEq, true_and, Place.block.injEq, Fin.ext_iff]
      rfl
  · rw [if_neg (by simp [hn]), owner, if_pos]
    by_contra ht
    exact hn (mkfsImage_dinode_type ht)

theorem wf_mkfsImage : @Fs.Wf mkfsSuperblock mkfsImage := by
  let _ := mkfsSuperblock
  have hstart : @dataStart mkfsSuperblock = 49 := by decide
  refine ⟨⟨by decide, fun b hb => ?_, fun x y hx hxy => ?_, fun x hx => ?_, List.nodup_nil, nofun,
    fun b hlo hhi hb => .inr ⟨(rootIno, .block 0), ?_⟩⟩, fun n hn => ?_, fun n bn hn hb => ?_,
    fun i hi => ?_, fun i j hi => ?_⟩
  · rw [hstart] at hb
    exact decide_eq_true (by omega)
  · simp only [owner_mkfsImage] at hx hxy
    split at hx
    · next hxe =>
        rw [if_pos hxe] at hxy
        split at hxy
        · next hye => rw [hxe, hye]
        · cases hxy
    · exact absurd rfl hx
  · rw [owner_mkfsImage] at hx ⊢
    split at hx
    · next hxe =>
        rw [if_pos hxe]
        exact ⟨by decide, by decide, by decide, nofun⟩
    · exact absurd rfl hx
  · rw [owner_mkfsImage, if_pos rfl]
    have := of_decide_eq_true hb
    omega
  · rw [mkfsImage_dinode_type hn]
    decide
  · rw [mkfsImage_dinode_type hn] at hb ⊢
    have hb : bn * bsize < bsize := hb
    obtain rfl : bn = 0 := by simp only [bsize] at hb; omega
    exact rootDinode_blockAt.trans_ne (by decide)
  · exact absurd hi.ref (Nat.lt_irrefl 0)
  · exact absurd hi (Nat.lt_irrefl 0)

end MiniOS
