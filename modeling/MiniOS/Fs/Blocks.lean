import MiniOS.Fs
import MiniOS.Lib.Owners

/-!
# MiniOS.Fs.Blocks

The blocks of the data area and the inodes that refer to them.  An inode
refers to a block as its indirect block or as the block `bn` of its contents,
through a direct slot or an entry of the indirect block.  `Owned` says that
the bitmap is exact for these references; the lemmas give what the steps of
`bmap` and `writei` do to it and to the contents of all inodes.
-/

namespace MiniOS

open Function (update update_self update_of_ne)

/-- Where an inode refers to a block. -/
inductive Place
  | indirect
  | block (bn : Fin maxFile)
deriving DecidableEq

namespace Dinode

/-- Block `bn` of the contents; 0 when there is none. -/
def blockAt (d : Dinode) (data : Disk) (bn : Nat) : Nat :=
  if bn < ndirect then d.addrs bn
  else if maxFile ≤ bn ∨ d.addrs ndirect = 0 then 0 else (data (d.addrs ndirect)).word (bn - ndirect)

def ptr (d : Dinode) (data : Disk) : Place → Nat
  | .indirect => d.addrs ndirect
  | .block bn => d.blockAt data bn

/-- Byte `o` of the contents; 0 when it has no block. -/
def byteAt (d : Dinode) (data : Disk) (o : Nat) : Byte :=
  if d.blockAt data (o / bsize) = 0 then 0 else (data (d.blockAt data (o / bsize))).byte (o % bsize)

variable {d : Dinode} {data data' : Disk}

theorem blockAt_of_lt {bn : Nat} (h : bn < ndirect) : d.blockAt data bn = d.addrs bn := if_pos h

theorem blockAt_of_le {bn : Nat} (h : ndirect ≤ bn) (hlt : bn < maxFile) (h0 : d.addrs ndirect ≠ 0) :
    d.blockAt data bn = (data (d.addrs ndirect)).word (bn - ndirect) := by
  rw [blockAt, if_neg (Nat.not_lt.mpr h), if_neg (by simp only [not_or]; omega)]

theorem blockAt_of_no_indirect {bn : Nat} (h : ndirect ≤ bn) (h0 : d.addrs ndirect = 0) :
    d.blockAt data bn = 0 := by
  rw [blockAt, if_neg (Nat.not_lt.mpr h), if_pos (.inr h0)]

/-- An inode without blocks. -/
theorem ptr_eq_zero (h : ∀ k, k ≤ ndirect → d.addrs k = 0) (p : Place) : d.ptr data p = 0 := by
  cases p with
  | indirect => exact h ndirect Nat.le.refl
  | block bn =>
    rcases Nat.lt_or_ge bn ndirect with hbn | hbn
    · exact (blockAt_of_lt hbn).trans (h bn (Nat.le_of_lt hbn))
    · exact blockAt_of_no_indirect hbn (h ndirect Nat.le.refl)

theorem lt_of_blockAt {bn : Nat} (h : d.blockAt data bn ≠ 0) : bn < maxFile := by
  unfold blockAt at h
  split at h
  · simp only [maxFile]; omega
  · split at h
    · exact absurd rfl h
    · next hc => omega

theorem blockAt_congr (h : d.addrs ndirect ≠ 0 → data' (d.addrs ndirect) = data (d.addrs ndirect))
    (bn : Nat) : d.blockAt data' bn = d.blockAt data bn := by
  unfold blockAt
  split
  · rfl
  · split
    · rfl
    · next h0 => rw [h fun e => h0 (.inr e)]

theorem byteAt_congr (hb : d.blockAt data' = d.blockAt data) {o : Nat}
    (h : d.blockAt data (o / bsize) ≠ 0 →
      data' (d.blockAt data (o / bsize)) = data (d.blockAt data (o / bsize))) :
    d.byteAt data' o = d.byteAt data o := by
  unfold byteAt
  rw [hb]
  split
  · rfl
  · next h0 => rw [h h0]

/-- The bytes of a file from `off` on. -/
def bytes (d : Dinode) (data : Disk) (off n : Nat) : List Byte :=
  (List.range n).map fun k => d.byteAt data (off + k)

theorem bytes_add (d : Dinode) (data : Disk) (off m n : Nat) :
    d.bytes data off (m + n) = d.bytes data off m ++ d.bytes data (off + m) n := by
  unfold bytes
  rw [List.range_add, List.map_append, List.map_map]
  congr 1
  exact List.map_congr_left fun k _ => by rw [Function.comp, Nat.add_assoc]

/-- The part of a file inside one block. -/
theorem bytes_block {d : Dinode} {data : Disk} {off m : Nat}
    (h0 : d.blockAt data (off / bsize) ≠ 0) (hm : off % bsize + m ≤ bsize) :
    d.bytes data off m = (List.range m).map fun k => (data (d.blockAt data (off / bsize))).byte (off % bsize + k) := by
  refine List.map_congr_left fun k hk => ?_
  have hk := List.mem_range.mp hk
  have hdiv : (off + k) / bsize = off / bsize := by simp only [bsize] at *; omega
  have hmod : (off + k) % bsize = off % bsize + k := by simp only [bsize] at *; omega
  rw [byteAt, hdiv, if_neg h0, hmod]

end Dinode

theorem byte_overwrite (bp : BlockData) {o : Nat} {ys : List Byte} (hfit : o + ys.length ≤ bsize) (p : Nat)
    (hp : p < bsize) :
    (Fs.overwrite bp o ys).byte p = if o ≤ p ∧ p < o + ys.length then ys.getD (p - o) 0 else bp.byte p := by
  induction ys generalizing bp o with
  | nil => rw [Fs.overwrite, if_neg (by simp only [List.length_nil]; omega)]
  | cons y ys ih =>
    rw [List.length_cons] at hfit ⊢
    rw [Fs.overwrite, ih _ (by omega), BlockData.byte_setByte _ (by omega) hp]
    by_cases hpo : p = o
    · rw [if_neg (by omega), if_pos hpo, if_pos (by omega), hpo, Nat.sub_self, List.getD_cons_zero]
    · by_cases hr : o + 1 ≤ p ∧ p < o + 1 + ys.length
      · rw [if_pos hr, if_pos (by omega), show p - o = p - (o + 1) + 1 by omega, List.getD_cons_succ]
      · rw [if_neg hr, if_neg hpo, if_neg (by omega)]

/-- The block that an allocated inode refers to at a place. -/
def owner (D : Nat → Dinode) (data : Disk) (x : Nat × Place) : Nat :=
  if (D x.1).type = .free then 0 else (D x.1).ptr data x.2

section
variable [Superblock]

/-- The first block after the bitmap. -/
def dataStart : Nat := Superblock.bmapstart + (Superblock.size / bpb + 1)

/-- The blocks in use are those that exactly one allocated inode refers to, at one place, and `loose`. -/
abbrev Owned (D : Nat → Dinode) (data : Disk) (bitmap : Nat → Bool) (loose : List Nat) : Prop :=
  Owners.Exact dataStart Superblock.size (owner D data) bitmap loose

end

/-- The contents of allocated inodes and the blocks they have are kept; inode `n` may get new blocks. -/
structure Remap (D : Nat → Dinode) (data : Disk) (D' : Nat → Dinode) (data' : Disk) (n : Nat) : Prop where
  others : ∀ m, m ≠ n → D' m = D m
  same : ∃ addrs, D' n = { D n with addrs := addrs }
  byte : ∀ m o, (D m).type ≠ .free → (D' m).byteAt data' o = (D m).byteAt data o
  block : ∀ m bn, (D m).type ≠ .free → (D m).blockAt data bn ≠ 0 →
    (D' m).blockAt data' bn = (D m).blockAt data bn
  indirect : (D n).addrs ndirect ≠ 0 → (D' n).addrs ndirect = (D n).addrs ndirect

namespace Remap

variable {D D' D₂ : Nat → Dinode} {data data' data₂ : Disk} {n : Nat}

theorem refl : Remap D data D data n :=
  ⟨fun _ _ => rfl, ⟨_, rfl⟩, fun _ _ _ => rfl, fun _ _ _ _ => rfl, fun _ => rfl⟩

theorem type_eq (h : Remap D data D' data' n) (m : Nat) : (D' m).type = (D m).type := by
  by_cases hm : m = n
  · obtain ⟨addrs, ha⟩ := h.same
    rw [hm, ha]
  · rw [h.others m hm]

theorem trans (h : Remap D data D' data' n) (h' : Remap D' data' D₂ data₂ n) :
    Remap D data D₂ data₂ n := by
  refine ⟨fun m hm => (h'.others m hm).trans (h.others m hm), ?_, fun m o ht => ?_, fun m bn ht hb => ?_,
    fun h0 => ?_⟩
  · obtain ⟨a, ha⟩ := h.same
    obtain ⟨a', ha'⟩ := h'.same
    exact ⟨a', by rw [ha', ha]⟩
  · rw [h'.byte m o (by rwa [h.type_eq]), h.byte m o ht]
  · have hb' := h.block m bn ht hb
    rw [h'.block m bn (by rwa [h.type_eq]) (by rwa [hb']), hb']
  · have h1 := h.indirect h0
    rw [h'.indirect (by rwa [h1]), h1]

end Remap

section
variable {D : Nat → Dinode} {data : Disk} {n : Nat}

theorem owner_of_alloc (h : (D n).type ≠ .free) (p : Place) : owner D data (n, p) = (D n).ptr data p :=
  if_neg h

theorem owner_block (h : (D n).type ≠ .free) {bn : Nat} (hbn : bn < maxFile) :
    owner D data (n, .block ⟨bn, hbn⟩) = (D n).blockAt data bn := owner_of_alloc h _

/-- The owners are determined by the indirect slots and the blocks of allocated inodes. -/
theorem owner_eq_of {D' : Nat → Dinode} {data' : Disk} (ht : ∀ m, (D' m).type = (D m).type)
    (hi : ∀ m, (D m).type ≠ .free → (D' m).addrs ndirect = (D m).addrs ndirect)
    (hb : ∀ m bn, (D m).type ≠ .free → (D' m).blockAt data' bn = (D m).blockAt data bn) :
    owner D' data' = owner D data := by
  funext ⟨m, p⟩
  unfold owner
  rw [ht m]
  split
  · rfl
  · next h =>
      cases p with
      | indirect => exact hi m h
      | block bn => exact hb m bn h

/-- An inode is replaced by one with the same blocks. -/
theorem owner_update {d : Dinode} (ht : d.type = (D n).type) (hi : d.addrs ndirect = (D n).addrs ndirect)
    (hb : ∀ bn, d.blockAt data bn = (D n).blockAt data bn) :
    owner (update D n d) data = owner D data := by
  refine owner_eq_of (fun m => ?_) (fun m _ => ?_) fun m bn _ => ?_
  all_goals by_cases hm : m = n
  · rw [hm, update_self, ht]
  · rw [update_of_ne hm]
  · rw [hm, update_self, hi]
  · rw [update_of_ne hm]
  · rw [hm, update_self, hb]
  · rw [update_of_ne hm]

/-- The contents of a block that is nobody's indirect block are changed. -/
theorem blockAt_update {c : Nat} (hc : ∀ m, (D m).type ≠ .free → (D m).addrs ndirect ≠ 0 →
      (D m).addrs ndirect ≠ c) (x : BlockData) {m : Nat} (ht : (D m).type ≠ .free) :
    (D m).blockAt (update data c x) = (D m).blockAt data :=
  funext fun bn => Dinode.blockAt_congr (fun h0 => update_of_ne (hc m ht h0) _ _) bn

end

section
variable [Superblock] {D : Nat → Dinode} {data : Disk} {bitmap : Nat → Bool} {loose : List Nat} {n b : Nat}

namespace Owned

/-- Two different places of allocated inodes have different blocks. -/
theorem ne (h : Owned D data bitmap loose) {x y : Nat × Place} (h0 : owner D data x ≠ 0)
    (hxy : x ≠ y) : owner D data x ≠ owner D data y := fun e => hxy (h.inj x y h0 e)

/-- The block of an allocated inode is in use and not loose. -/
theorem block_named (h : Owned D data bitmap loose) {m bn : Nat} (ht : (D m).type ≠ .free)
    (h0 : (D m).blockAt data bn ≠ 0) :
    dataStart ≤ (D m).blockAt data bn ∧ (D m).blockAt data bn < Superblock.size ∧
      bitmap ((D m).blockAt data bn) = true ∧ (D m).blockAt data bn ∉ loose := by
  have hbn := Dinode.lt_of_blockAt h0
  have := h.named (m, .block ⟨bn, hbn⟩) (by rwa [owner_block ht hbn])
  rwa [owner_block ht hbn] at this

theorem indirect_named (h : Owned D data bitmap loose) {m : Nat} (ht : (D m).type ≠ .free)
    (h0 : (D m).addrs ndirect ≠ 0) :
    dataStart ≤ (D m).addrs ndirect ∧ (D m).addrs ndirect < Superblock.size ∧
      bitmap ((D m).addrs ndirect) = true ∧ (D m).addrs ndirect ∉ loose := by
  have := h.named (m, .indirect) (by rwa [owner_of_alloc ht])
  rwa [owner_of_alloc ht] at this

/-- A block of an inode is not the indirect block of any. -/
theorem block_ne_indirect (h : Owned D data bitmap loose) {m m' bn : Nat} (ht : (D m).type ≠ .free)
    (ht' : (D m').type ≠ .free) (h0 : (D m).blockAt data bn ≠ 0) :
    (D m').addrs ndirect ≠ (D m).blockAt data bn := by
  have hbn := Dinode.lt_of_blockAt h0
  have := h.ne (x := (m, .block ⟨bn, hbn⟩)) (y := (m', .indirect)) (by rwa [owner_block ht hbn]) (by simp)
  rw [owner_block ht hbn, owner_of_alloc ht'] at this
  exact this.symm

/-- Different blocks of the contents are different. -/
theorem block_ne (h : Owned D data bitmap loose) {m m' bn bn' : Nat} (ht : (D m).type ≠ .free)
    (ht' : (D m').type ≠ .free) (h0 : (D m).blockAt data bn ≠ 0) (hne : ¬ (m' = m ∧ bn' = bn)) :
    (D m').blockAt data bn' ≠ (D m).blockAt data bn := by
  intro he
  have hbn := Dinode.lt_of_blockAt h0
  have hbn' := Dinode.lt_of_blockAt (he ▸ h0)
  refine h.ne (x := (m, .block ⟨bn, hbn⟩)) (y := (m', .block ⟨bn', hbn'⟩)) (by rwa [owner_block ht hbn])
    ?_ (by rw [owner_block ht hbn, owner_block ht' hbn', he])
  simp only [ne_eq, Prod.mk.injEq, Place.block.injEq, Fin.mk.injEq]
  exact fun e => hne ⟨e.1.symm, e.2.symm⟩

/-- A block that is not in use is zeroed and marked. -/
theorem zeroed (h : Owned D data bitmap loose) (hb : bitmap b = false) (hlt : b < Superblock.size) :
    Owned D (update data b zeroBlock) (update bitmap b true) (b :: loose) ∧
      Remap D data D (update data b zeroBlock) n := by
  have hi : ∀ m, (D m).type ≠ .free → (D m).addrs ndirect ≠ 0 → (D m).addrs ndirect ≠ b := by
    rintro m ht h0 rfl
    rw [(h.indirect_named ht h0).2.2.1] at hb
    cases hb
  have hblock : ∀ m, (D m).type ≠ .free →
      (D m).blockAt (update data b zeroBlock) = (D m).blockAt data :=
    fun m ht => blockAt_update hi _ ht
  refine ⟨(h.take hb hlt).congr fun x => ?_, fun _ _ => rfl, ⟨_, rfl⟩, fun m o ht => ?_, fun m bn ht _ => ?_,
    fun _ => rfl⟩
  · exact congrFun (owner_eq_of (fun _ => rfl) (fun _ _ => rfl) fun m bn ht => congrFun (hblock m ht) bn) x
  · refine Dinode.byteAt_congr (hblock m ht) fun h0 => update_of_ne ?_ _ _
    intro e
    rw [← e, (h.block_named ht h0).2.2.1] at hb
    cases hb
  · rw [hblock m ht]

/-- Inode `n` takes over a loose block of zeros at a place where it has none. -/
theorem attachAt {D' : Nat → Dinode} {data' : Disk} {p : Place} (h : Owned D data bitmap (b :: loose))
    (ht : (D n).type ≠ .free) (h0 : (D n).ptr data p = 0) (hothers : ∀ m, m ≠ n → D' m = D m)
    (hsame : ∃ addrs, D' n = { D n with addrs := addrs })
    (hptr : ∀ q, (D' n).ptr data' q = if q = p then b else (D n).ptr data q)
    (hblock : ∀ m bn, m ≠ n → (D m).type ≠ .free → (D m).blockAt data' bn = (D m).blockAt data bn)
    (hz : data' b = zeroBlock)
    (hdata : ∀ m bn, (D m).type ≠ .free → (D m).blockAt data bn ≠ 0 →
      data' ((D m).blockAt data bn) = data ((D m).blockAt data bn)) :
    Owned D' data' bitmap loose ∧ Remap D data D' data' n := by
  have htype : ∀ m, (D' m).type = (D m).type := fun m => by
    by_cases hm : m = n
    · obtain ⟨addrs, ha⟩ := hsame
      rw [hm, ha]
    · rw [hothers m hm]
  have hnew : ∀ bn, (hbn : bn < maxFile) → (D' n).blockAt data' bn =
      if Place.block ⟨bn, hbn⟩ = p then b else (D n).blockAt data bn := fun bn hbn => hptr (.block ⟨bn, hbn⟩)
  have hkeep : ∀ m bn, (D m).type ≠ .free → (D m).blockAt data bn ≠ 0 →
      (D' m).blockAt data' bn = (D m).blockAt data bn := by
    intro m bn htm hb0
    by_cases hm : m = n
    · subst hm
      have hbn := Dinode.lt_of_blockAt hb0
      rw [hnew bn hbn, if_neg]
      rintro rfl
      exact hb0 h0
    · rw [hothers m hm, hblock m bn hm htm]
  refine ⟨h.attach (x := (n, p)) ?_ fun ⟨m, q⟩ => ?_, hothers, hsame, fun m o htm => ?_, hkeep, fun hi => ?_⟩
  · rw [owner_of_alloc ht, h0]
  · by_cases hm : m = n
    · subst hm
      rw [owner_of_alloc (by rwa [htype]), hptr, owner_of_alloc ht]
      simp only [Prod.mk.injEq, true_and]
    · rw [if_neg (by simp [hm])]
      unfold owner
      rw [hothers m hm]
      split
      · rfl
      · next hf =>
          cases q with
          | indirect => rfl
          | block bn => exact hblock m bn hm hf
  · unfold Dinode.byteAt
    by_cases hb0 : (D m).blockAt data (o / bsize) = 0
    · rw [if_pos hb0]
      -- no block before: none now, or the new block of zeros
      by_cases hb1 : (D' m).blockAt data' (o / bsize) = 0
      · rw [if_pos hb1]
      · rw [if_neg hb1]
        have hbn := Dinode.lt_of_blockAt hb1
        by_cases hm : m = n
        · subst hm
          rw [hnew _ hbn] at hb1 ⊢
          split
          · rw [hz]
            rfl
          · next hp => rw [if_neg hp] at hb1; exact absurd hb0 hb1
        · rw [hothers m hm, hblock m _ hm htm] at hb1
          exact absurd hb0 hb1
    · rw [if_neg hb0, hkeep m _ htm hb0, if_neg hb0, hdata m _ htm hb0]
  · have hnp : Place.indirect ≠ p := by
      rintro rfl
      exact hi h0
    exact (hptr .indirect).trans (if_neg hnp)

/-- A loose block becomes a direct block. -/
theorem attachDirect (h : Owned D data bitmap (b :: loose)) (ht : (D n).type ≠ .free) {k : Nat}
    (hk : k < ndirect) (h0 : (D n).addrs k = 0) (hz : data b = zeroBlock) :
    Owned (update D n { D n with addrs := update (D n).addrs k b }) data bitmap loose ∧
      Remap D data (update D n { D n with addrs := update (D n).addrs k b }) data n := by
  have hk' : k < maxFile := by simp only [maxFile]; omega
  have hind : update (D n).addrs k b ndirect = (D n).addrs ndirect :=
    update_of_ne (Nat.ne_of_gt hk) _ _
  refine h.attachAt (p := .block ⟨k, hk'⟩) ht ((Dinode.blockAt_of_lt hk).trans h0)
    (fun m hm => update_of_ne hm _ _) ⟨_, update_self ..⟩ (fun q => ?_)
    (fun _ _ _ _ => rfl) hz fun _ _ _ _ => rfl
  rw [update_self]
  cases q with
  | indirect => exact hind
  | block bn =>
    simp only [Dinode.ptr, Place.block.injEq, Fin.ext_iff]
    by_cases hbn : bn.val = k
    · rw [if_pos hbn, hbn, Dinode.blockAt_of_lt hk]
      exact update_self ..
    · rw [if_neg hbn]
      simp only [Dinode.blockAt, hind, update_of_ne hbn]

/-- A loose block becomes the indirect block. -/
theorem attachIndirect (h : Owned D data bitmap (b :: loose)) (ht : (D n).type ≠ .free)
    (h0 : (D n).addrs ndirect = 0) (hz : data b = zeroBlock) :
    Owned (update D n { D n with addrs := update (D n).addrs ndirect b }) data bitmap
        loose ∧
      Remap D data (update D n { D n with addrs := update (D n).addrs ndirect b }) data
        n := by
  refine h.attachAt (p := .indirect) ht h0 (fun m hm => update_of_ne hm _ _)
    ⟨_, update_self ..⟩ (fun q => ?_) (fun _ _ _ _ => rfl) hz fun _ _ _ _ => rfl
  rw [update_self]
  cases q with
  | indirect => simp only [Dinode.ptr, update_self, if_true]
  | block bn =>
    have hp : Place.block bn ≠ .indirect := nofun
    rw [if_neg hp]
    have hb : b ≠ 0 := by
      have := h.pos
      have := (h.alloc b (by simp)).1
      omega
    by_cases hbn : bn.val < ndirect
    · simp only [Dinode.ptr, Dinode.blockAt_of_lt hbn, update_of_ne (Nat.ne_of_lt hbn)]
    · have hle := Nat.not_lt.mp hbn
      simp only [Dinode.ptr]
      rw [Dinode.blockAt_of_no_indirect hle h0, Dinode.blockAt_of_le hle bn.isLt]
      · simp only [update_self, hz, BlockData.word_zeroBlock]
      · simp only [update_self]
        exact hb

/-- A loose block goes to a slot of `addrs`. -/
theorem attachSlot (h : Owned D data bitmap (b :: loose)) (ht : (D n).type ≠ .free) {k : Nat}
    (hk : k ≤ ndirect) (h0 : (D n).addrs k = 0) (hz : data b = zeroBlock) :
    Owned (update D n { D n with addrs := update (D n).addrs k b }) data bitmap loose ∧
      Remap D data (update D n { D n with addrs := update (D n).addrs k b }) data n := by
  rcases Nat.lt_or_eq_of_le hk with hk | rfl
  · exact h.attachDirect ht hk h0 hz
  · exact h.attachIndirect ht h0 hz

/-- A loose block becomes an entry of the indirect block. -/
theorem attachEntry (h : Owned D data bitmap (b :: loose)) (ht : (D n).type ≠ .free) {j : Nat}
    (hi : (D n).addrs ndirect ≠ 0) (hj : j < nindirect) (h0 : (data ((D n).addrs ndirect)).word j = 0)
    (hz : data b = zeroBlock) :
    Owned D (update data ((D n).addrs ndirect) ((data ((D n).addrs ndirect)).setWord j b)) bitmap
        loose ∧
      Remap D data D
        (update data ((D n).addrs ndirect) ((data ((D n).addrs ndirect)).setWord j b)) n := by
  have hb32 : b < 2 ^ 32 := Nat.lt_trans (h.alloc b (by simp)).2.1 Superblock.size_lt
  have hbi : b ≠ (D n).addrs ndirect := fun e => (h.indirect_named ht hi).2.2.2 (by simp [e])
  have hj' : ndirect + j < maxFile := by simp only [maxFile]; omega
  refine h.attachAt (p := .block ⟨ndirect + j, hj'⟩) ht ?_ (fun _ _ => rfl) ⟨_, rfl⟩ (fun q => ?_)
    (fun m bn hm htm => ?_) ((update_of_ne hbi _ _).trans hz) fun m bn htm hb0 => ?_
  · simp only [Dinode.ptr]
    rw [Dinode.blockAt_of_le (Nat.le_add_right _ _) hj' hi, Nat.add_sub_cancel_left, h0]
  · cases q with
    | indirect => exact (if_neg (by simp)).symm
    | block bn =>
      simp only [Dinode.ptr, Place.block.injEq, Fin.ext_iff]
      by_cases hbn : bn.val < ndirect
      · rw [if_neg (by omega), Dinode.blockAt_of_lt hbn, Dinode.blockAt_of_lt hbn]
      · have hle := Nat.not_lt.mp hbn
        have hlt := bn.isLt
        rw [Dinode.blockAt_of_le hle hlt hi, Dinode.blockAt_of_le hle hlt hi, update_self]
        have hlt' : bn.val - ndirect < nindirect := by simp only [maxFile] at hlt; omega
        by_cases he : bn.val = ndirect + j
        · rw [if_pos he, he, Nat.add_sub_cancel_left, BlockData.word_setWord _ hj hb32]
        · rw [if_neg he, BlockData.word_setWord_of_ne _ hj hlt' (by omega)]
  · refine Dinode.blockAt_congr (fun h0' => update_of_ne ?_ _ _) bn
    have := h.ne (x := (m, .indirect)) (y := (n, .indirect)) (by rwa [owner_of_alloc htm]) (by simp [hm])
    rwa [owner_of_alloc htm, owner_of_alloc ht] at this
  · exact update_of_ne (h.block_ne_indirect htm ht hb0).symm _ _

/-- A block of the contents of inode `n` is written. -/
theorem store (h : Owned D data bitmap loose) (ht : (D n).type ≠ .free) {bn : Nat}
    (h0 : (D n).blockAt data bn ≠ 0) (x : BlockData) :
    Owned D (update data ((D n).blockAt data bn) x) bitmap loose ∧
      (∀ m, (D m).type ≠ .free → (D m).blockAt (update data ((D n).blockAt data bn) x) =
        (D m).blockAt data) ∧
      ∀ m o, (D m).type ≠ .free → (D m).byteAt (update data ((D n).blockAt data bn) x) o =
        if m = n ∧ o / bsize = bn then x.byte (o % bsize) else (D m).byteAt data o := by
  have hblock : ∀ m, (D m).type ≠ .free →
      (D m).blockAt (update data ((D n).blockAt data bn) x) = (D m).blockAt data :=
    fun m htm => blockAt_update (D := D) (m := m) (fun m' htm' _ => h.block_ne_indirect ht htm' h0) x htm
  refine ⟨h.congr fun y => ?_, hblock, fun m o htm => ?_⟩
  · exact congrFun (owner_eq_of (fun _ => rfl) (fun _ _ => rfl) fun m bn htm => congrFun (hblock m htm) bn) y
  · split
    · next he =>
        obtain ⟨rfl, rfl⟩ := he
        unfold Dinode.byteAt
        rw [hblock m htm, if_neg h0, update_self]
    · next hne =>
        refine Dinode.byteAt_congr (hblock m htm) fun _ => update_of_ne ?_ _ _
        exact h.block_ne ht htm h0 hne

/-- Bytes `ys` are written at `off` of inode `n`, inside one block. -/
theorem overwrite (h : Owned D data bitmap loose) (ht : (D n).type ≠ .free) {off : Nat} {ys : List Byte}
    (hfit : off % bsize + ys.length ≤ bsize) (h0 : (D n).blockAt data (off / bsize) ≠ 0) {m o : Nat}
    (htm : (D m).type ≠ .free) :
    (D m).byteAt (update data ((D n).blockAt data (off / bsize))
        (Fs.overwrite (data ((D n).blockAt data (off / bsize))) (off % bsize) ys)) o =
      if m = n ∧ off ≤ o ∧ o < off + ys.length then ys.getD (o - off) 0 else (D m).byteAt data o := by
  rw [(h.store ht h0 _).2.2 m o htm]
  have hmod : o % bsize < bsize := Nat.mod_lt _ (by decide)
  by_cases hb : m = n ∧ o / bsize = off / bsize
  · rw [if_pos hb, byte_overwrite _ hfit _ hmod]
    obtain ⟨rfl, hdiv⟩ := hb
    -- inside the block, offsets of the file and of the block go together
    have heq : off ≤ o ∧ o < off + ys.length ↔ off % bsize ≤ o % bsize ∧ o % bsize < off % bsize + ys.length := by
      simp only [bsize] at *; omega
    by_cases hr : off ≤ o ∧ o < off + ys.length
    · have hsub : o % bsize - off % bsize = o - off := by simp only [bsize] at *; omega
      rw [if_pos (heq.mp hr), if_pos ⟨rfl, hr⟩, hsub]
    · rw [if_neg (fun hc => hr (heq.mpr hc)), if_neg (fun hc => hr hc.2)]
      unfold Dinode.byteAt
      rw [hdiv, if_neg h0]
  · rw [if_neg hb, if_neg]
    rintro ⟨rfl, hlo, hhi⟩
    refine hb ⟨rfl, ?_⟩
    simp only [bsize] at *; omega

end Owned

end

end MiniOS
