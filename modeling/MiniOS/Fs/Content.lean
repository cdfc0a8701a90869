import MiniOS.Fs.Blocks
import Mathlib.Data.List.GetD

/-!
# MiniOS.Fs.Content

`bmap`, `readi` and `writei` on a locked inode.  While a call works on the
in-memory copy of inode `i`, the inodes are those of the disk with that copy in
place (`Fs.eff`): the bitmap is exact for these at every step.
-/

namespace MiniOS

open Checked
open Function (update update_self update_of_ne update_idem update_eq_self)

/-- `c` is a block of the bitmap. -/
def IsBitmap [Superblock] (c : Nat) : Prop := ∃ b < Superblock.size, c = bblock b

namespace Fs

/-- The inodes, with the in-memory copy of `i` in place of the one on disk. -/
def eff (s : Fs) (i : Fin ninode) : Nat → Dinode := update s.dinode (s.itable i).inum (s.itable i).d

theorem eff_self (s : Fs) (i : Fin ninode) : s.eff i (s.itable i).inum = (s.itable i).d :=
  update_self ..

/-- Apart from the disk blocks, only the copy in entry `i` changes. -/
structure Only (i : Fin ninode) (s s' : Fs) : Prop where
  dinode : s'.dinode = s.dinode
  itable : ∃ d, s'.itable = update s.itable i { s.itable i with d := d }

/-- Blocks that are logged are in `T`. -/
def Logs (T : Nat → Prop) (s s' : Fs) : Prop := ∀ c ∈ s'.logged, c ∈ s.logged ∨ T c

variable {i : Fin ninode} {s s' s'' : Fs}

theorem Only.refl : Only i s s := ⟨rfl, _, (update_eq_self i s.itable).symm⟩

theorem Only.trans (h : Only i s s') (h' : Only i s' s'') : Only i s s'' := by
  obtain ⟨d, hd⟩ := h.itable
  obtain ⟨d', hd'⟩ := h'.itable
  refine ⟨h'.dinode.trans h.dinode, d', ?_⟩
  rw [hd', hd, update_self, update_idem]

theorem Only.entry (h : Only i s s') : s'.itable i = { s.itable i with d := (s'.itable i).d } := by
  obtain ⟨d, hd⟩ := h.itable
  rw [hd, update_self]

theorem Only.inum (h : Only i s s') : (s'.itable i).inum = (s.itable i).inum := by rw [h.entry]

theorem Logs.refl {T : Nat → Prop} : Logs T s s := fun _ hc => .inl hc

theorem Logs.trans {T : Nat → Prop} (h : Logs T s s') (h' : Logs T s' s'') : Logs T s s'' := fun c hc =>
  (h' c hc).elim (h c) .inr

theorem Logs.mono {T T' : Nat → Prop} (h : Logs T s s') (hT : ∀ c, T c → T' c) : Logs T' s s' := fun c hc =>
  (h c hc).imp_right (hT c)

end Fs

open Fs

theorem findFree_eq_some {bitmap : Nat → Bool} {n b₀ b : Nat} (h : findFree bitmap n b₀ = some b) :
    bitmap b = false ∧ b < b₀ + n := by
  induction n generalizing b₀ with
  | zero => cases h
  | succ n ih =>
    unfold findFree at h
    split at h
    · have := ih h
      exact ⟨this.1, by omega⟩
    · next hb =>
        cases h
        exact ⟨by simpa using hb, by omega⟩

section
variable [Superblock] {A : Panic → Prop} {i : Fin ninode} {s s' s'' : Fs}

/-- `balloc` takes a block that is not in use, or changes nothing. -/
theorem sat_balloc :
    Sat A balloc s fun b s' => (b = 0 ∧ s' = s) ∨
      (s.bitmap b = false ∧ b < Superblock.size ∧ s' = { s with
        bitmap := update s.bitmap b true
        data := update s.data b zeroBlock
        logged := insert b (insert (bblock b) s.logged) }) := by
  refine sat_bind rfl ?_
  split
  · next b hb =>
      obtain ⟨hfree, hlt⟩ := findFree_eq_some hb
      exact sat_bind rfl (sat_bind rfl (sat_bind rfl (sat_pure (.inr ⟨hfree, by omega, rfl⟩))))
  · exact sat_pure (.inl ⟨rfl, rfl⟩)

/-- Inode `i` may have got new blocks. -/
structure Fs.Maps (i : Fin ninode) (s s' : Fs) : Prop where
  only : Only i s s'
  owned : Owned (s'.eff i) s'.data s'.bitmap []
  remap : Remap (s.eff i) s.data (s'.eff i) s'.data (s.itable i).inum

theorem Fs.Maps.trans (h : Maps i s s') (h' : Maps i s' s'') : Maps i s s'' :=
  ⟨h.only.trans h'.only, h'.owned, h.remap.trans (h.only.inum ▸ h'.remap)⟩

theorem Fs.Maps.same (h : Maps i s s') : ∃ addrs, (s'.itable i).d = { (s.itable i).d with addrs := addrs } := by
  obtain ⟨addrs, ha⟩ := h.remap.same
  rw [eff_self, ← h.only.inum, eff_self] at ha
  exact ⟨addrs, ha⟩

theorem Fs.Maps.indirect (h : Maps i s s') (h0 : (s.itable i).d.addrs ndirect ≠ 0) :
    (s'.itable i).d.addrs ndirect = (s.itable i).d.addrs ndirect := by
  have := h.remap.indirect
  rw [eff_self, ← h.only.inum, eff_self] at this
  exact this h0

/-- A block that `balloc` takes is not block 0. -/
theorem Owned.ne_zero {D : Nat → Dinode} {data : Disk} {bitmap : Nat → Bool} {loose : List Nat} {b : Nat}
    (h : Owned D data bitmap loose) (hb : bitmap b = false) : b ≠ 0 := by
  rintro rfl
  rw [h.below 0 h.pos] at hb
  cases hb

section
variable (h : Owned (s.eff i) s.data s.bitmap []) (ht : (s.itable i).d.type ≠ .free)
include h ht

/-- `bmap` on a slot of `ip->addrs`. -/
theorem sat_bmapAddr {k : Nat}
    (hk : k ≤ ndirect) :
    Sat A (bmapAddr i k) s fun r s' => Maps i s s' ∧ r = (s'.itable i).d.addrs k ∧
      ((s.itable i).d.addrs k ≠ 0 → s' = s) ∧ Logs (fun c => IsBitmap c ∨ (c ≠ 0 ∧ c = r)) s s' := by
  have hself := s.eff_self i
  refine sat_bind rfl ?_
  dsimp only
  refine sat_ite (fun h0 => sat_balloc.bind ?_) fun h0 => ?_
  · rintro b s₁ (⟨rfl, rfl⟩ | ⟨hfree, hlt, rfl⟩)
    · rw [if_neg (by simp)]
      exact sat_pure ⟨⟨.refl, h, .refl⟩, h0.symm, fun hc => absurd h0 hc, .refl⟩
    · rw [if_pos (h.ne_zero hfree)]
      refine sat_bind rfl (sat_pure ?_)
      obtain ⟨hz, hrz⟩ := h.zeroed (n := (s.itable i).inum) hfree hlt
      obtain ⟨ha, hra⟩ := hz.attachSlot (n := (s.itable i).inum) (by rw [hself]; exact ht) hk
        (by rw [hself]; exact h0) (update_self ..)
      rw [hself, eff, update_idem] at ha hra
      refine ⟨⟨⟨rfl, _, rfl⟩, ?_, ?_⟩, ?_, fun hc => absurd h0 hc, fun c hc => ?_⟩
      · simp only [eff, update_self]
        exact ha
      · simp only [eff, update_self] at hrz ⊢
        exact hrz.trans hra
      · simp only [update_self]
      · simp only [Finset.mem_insert] at hc
        rcases hc with rfl | rfl | hc
        · exact .inr (.inr ⟨h.ne_zero hfree, rfl⟩)
        · exact .inr (.inl ⟨b, hlt, rfl⟩)
        · exact .inl hc
  · exact sat_pure ⟨⟨.refl, h, .refl⟩, rfl, fun _ => rfl, .refl⟩

/-- `bmap` on an entry of the indirect block. -/
theorem sat_bmapEntry {j : Nat}
    (hj : j < nindirect) (hi : (s.itable i).d.addrs ndirect ≠ 0) :
    Sat A (bmapEntry ((s.itable i).d.addrs ndirect) j) s fun r s' => Maps i s s' ∧
      r = (s'.itable i).d.blockAt s'.data (ndirect + j) ∧
      ((s.itable i).d.blockAt s.data (ndirect + j) ≠ 0 → s' = s) ∧
      Logs (fun c => IsBitmap c ∨ (c ≠ 0 ∧ (c = r ∨ c = (s'.itable i).d.addrs ndirect))) s s' := by
  have hself := s.eff_self i
  have hj' : ndirect + j < maxFile := by simp only [maxFile]; omega
  have hblock : ∀ data : Disk, (s.itable i).d.blockAt data (ndirect + j) =
      (data ((s.itable i).d.addrs ndirect)).word j := fun data => by
    rw [Dinode.blockAt_of_le (Nat.le_add_right _ _) hj' hi, Nat.add_sub_cancel_left]
  refine sat_bind rfl ?_
  dsimp only
  refine sat_ite (fun h0 => sat_balloc.bind ?_) fun h0 => ?_
  · rintro b s₁ (⟨rfl, rfl⟩ | ⟨hfree, hlt, rfl⟩)
    · rw [if_neg (by simp)]
      exact sat_pure ⟨⟨.refl, h, .refl⟩, ((hblock _).trans h0).symm,
        fun hc => absurd ((hblock _).trans h0) hc, .refl⟩
    · rw [if_pos (h.ne_zero hfree)]
      refine sat_bind rfl (sat_bind rfl (sat_bind rfl (sat_pure ?_)))
      obtain ⟨hz, hrz⟩ := h.zeroed (n := (s.itable i).inum) hfree hlt
      have hbi : (s.itable i).d.addrs ndirect ≠ b := by
        rintro rfl
        have := (h.indirect_named (m := (s.itable i).inum) (by rw [hself]; exact ht)
          (by rw [hself]; exact hi)).2.2.1
        rw [hself, hfree] at this
        cases this
      obtain ⟨ha, hra⟩ := hz.attachEntry (n := (s.itable i).inum) (by rw [hself]; exact ht)
        (by rw [hself]; exact hi) hj (by rw [hself, update_of_ne hbi]; exact h0)
        (update_self ..)
      rw [hself] at ha hra
      refine ⟨⟨⟨rfl, _, (update_eq_self i s.itable).symm⟩, ha, hrz.trans hra⟩, ?_,
        fun hc => absurd ((hblock _).trans h0) hc, fun c hc => ?_⟩
      · have hb32 : b < 2 ^ 32 := Nat.lt_trans hlt Superblock.size_lt
        simp only [hblock, update_self, BlockData.word_setWord _ hj hb32]
      · simp only [Finset.mem_insert] at hc
        rcases hc with rfl | rfl | rfl | hc
        · exact .inr (.inr ⟨hi, .inr rfl⟩)
        · exact .inr (.inr ⟨h.ne_zero hfree, .inl rfl⟩)
        · exact .inr (.inl ⟨b, hlt, rfl⟩)
        · exact .inl hc
  · exact sat_pure ⟨⟨.refl, h, .refl⟩, (hblock _).symm, fun _ => rfl, .refl⟩

/-- `bmap`: block `bn` of a locked inode, new if there was none and the disk has room. -/
theorem sat_bmap {bn : Nat}
    (hbn : bn < maxFile) :
    Sat A (bmap i bn) s fun r s' => Maps i s s' ∧ r = (s'.itable i).d.blockAt s'.data bn ∧
      ((s.itable i).d.blockAt s.data bn ≠ 0 → s' = s) ∧
      Logs (fun c => IsBitmap c ∨ (c ≠ 0 ∧ (c = r ∨ c = (s'.itable i).d.addrs ndirect))) s s' := by
  refine sat_ite (fun hlt => ?_) fun hge => sat_ite (fun hj => ?_) fun hj => ?_
  · refine (sat_bmapAddr h ht (Nat.le_of_lt hlt)).mono fun r s' hs => ?_
    rw [Dinode.blockAt_of_lt hlt, Dinode.blockAt_of_lt hlt]
    exact ⟨hs.1, hs.2.1, hs.2.2.1, hs.2.2.2.mono fun c => Or.imp_right fun hc => ⟨hc.1, .inl hc.2⟩⟩
  · have hle := Nat.not_lt.mp hge
    refine (sat_bmapAddr h ht Nat.le.refl).bind ?_
    rintro ind s₁ ⟨hm, rfl, hsame, hlog⟩
    refine sat_ite (fun h0 => sat_pure ⟨hm, ?_, fun hc => ?_, hlog.mono fun c => Or.imp_right ?_⟩) fun h0 => ?_
    · rw [Dinode.blockAt_of_no_indirect hle h0]
    · refine absurd (Dinode.blockAt_of_no_indirect hle ?_) hc
      by_contra hi
      exact hi ((hm.indirect hi).symm.trans h0)
    · exact fun hc => ⟨hc.1, .inr hc.2⟩
    · have ht₁ : (s₁.itable i).d.type ≠ .free := by
        obtain ⟨addrs, ha⟩ := hm.same
        rw [ha]
        exact ht
      refine (sat_bmapEntry hm.owned ht₁ hj h0).mono ?_
      rintro r s₂ ⟨hm₂, hr, hsame₂, hlog₂⟩
      rw [Nat.add_sub_cancel' hle] at hr hsame₂
      have hind := hm₂.indirect h0
      refine ⟨hm.trans hm₂, hr, fun hc => ?_, (hlog.mono fun c => Or.imp_right fun e => ?_).trans hlog₂⟩
      · have hi : (s.itable i).d.addrs ndirect ≠ 0 := fun e =>
          hc (Dinode.blockAt_of_no_indirect hle e)
        have hs₁ := hsame hi
        rw [hs₁] at hsame₂
        exact hsame₂ hc
      · exact ⟨e.1, .inr (e.2.trans hind.symm)⟩
  · exact absurd hbn (by simp only [maxFile]; omega)

end

/-! ## Writing -/

/-- `c` is the indirect block, or a block with one of the `len` bytes from `off` on. -/
def Dinode.Touches (d : Dinode) (data : Disk) (off len c : Nat) : Prop :=
  c ≠ 0 ∧ (c = d.addrs ndirect ∨ ∃ o, off ≤ o ∧ o < off + len ∧ c = d.blockAt data (o / bsize))

/-- The bytes `src` are written to inode `i` from `off` up to `off'`, where the writing stopped. -/
structure Fs.Wrote (i : Fin ninode) (fails : Nat → Option Nat) (off : Nat) (src : List Byte) (s : Fs)
    (off' : Nat) (s' : Fs) : Prop where
  only : Only i s s'
  owned : Owned (s'.eff i) s'.data s'.bitmap []
  same : ∃ addrs, (s'.itable i).d = { (s.itable i).d with addrs := addrs }
  indirect : (s.itable i).d.addrs ndirect ≠ 0 →
    (s'.itable i).d.addrs ndirect = (s.itable i).d.addrs ndirect
  le : off ≤ off'
  le_add : off' ≤ off + src.length
  aligned : off' = off ∨ off' = off + src.length ∨ off' % bsize = 0
  stopped : off' < off + src.length →
    fails off' ≠ none ∨ (s'.itable i).d.blockAt s'.data (off' / bsize) = 0
  reached : ∀ o, off ≤ o → o < off' → o = off ∨ o % bsize = 0 → fails o = none
  mapped : ∀ o, off ≤ o → o < off' → (s'.itable i).d.blockAt s'.data (o / bsize) ≠ 0
  block : ∀ m bn, (s.eff i m).type ≠ .free → (s.eff i m).blockAt s.data bn ≠ 0 →
    (s'.eff i m).blockAt s'.data bn = (s.eff i m).blockAt s.data bn
  written : ∀ o, off ≤ o → o < off' → (s'.itable i).d.byteAt s'.data o = src.getD (o - off) 0
  torn : ∀ k o, fails off' = some k → (s'.itable i).d.blockAt s'.data (off' / bsize) ≠ 0 → off' ≤ o →
    o < off' + k → o < off + src.length → o / bsize = off' / bsize →
    (s'.itable i).d.byteAt s'.data o = src.getD (o - off) 0
  byte : ∀ m o, (s.eff i m).type ≠ .free →
    ¬ (m = (s.itable i).inum ∧ off ≤ o ∧ (o < off' ∨ ∃ k, fails off' = some k ∧ o < off' + k)) →
    (s'.eff i m).byteAt s'.data o = (s.eff i m).byteAt s.data o
  logs : Logs (fun c => IsBitmap c ∨ (s'.itable i).d.Touches s'.data off src.length c) s s'

variable {fails : Nat → Option Nat} {off : Nat} {src : List Byte}

theorem Fs.Wrote.type_eq {off' : Nat} (h : Wrote i fails off src s off' s') (m : Nat) :
    (s'.eff i m).type = (s.eff i m).type := by
  by_cases hm : m = (s.itable i).inum
  · obtain ⟨addrs, ha⟩ := h.same
    subst hm
    rw [eff_self, ← h.only.inum, eff_self, ha]
  · have hm' : m ≠ (s'.itable i).inum := by rwa [h.only.inum]
    rw [eff, eff, update_of_ne hm, update_of_ne hm', h.only.dinode]

theorem Fs.Wrote.type_ne {off' : Nat} (h : Wrote i fails off src s off' s')
    (ht : (s.itable i).d.type ≠ .free) : (s'.itable i).d.type ≠ .free := by
  obtain ⟨addrs, ha⟩ := h.same
  rw [ha]
  exact ht

/-- Nothing is written, but blocks may have been added. -/
theorem Fs.Maps.wrote (h : Maps i s s')
    (hl : Logs (fun c => IsBitmap c ∨ (s'.itable i).d.Touches s'.data off src.length c) s s')
    (hstop : 0 < src.length → (s'.itable i).d.blockAt s'.data (off / bsize) = 0) :
    Wrote i fails off src s off s' := by
  refine ⟨h.only, h.owned, h.same, ?_, Nat.le_refl _, Nat.le_add_right _ _, .inl rfl,
    fun hlt => .inr (hstop (by omega)), fun o h1 h2 => ?_, fun o h1 h2 => ?_, h.remap.block,
    fun o h1 h2 => ?_, fun k o _ h0 h1 h2 h3 => absurd (hstop (by omega)) h0,
    fun m o ht _ => h.remap.byte m o ht, hl⟩
  · exact h.indirect
  · omega
  · omega
  · omega

/-- A chunk inside one block is stored after `bmap` has found the block. -/
theorem Fs.Maps.store (h : Maps i s s') (s'' : Fs) (ht : (s.itable i).d.type ≠ .free) {ys : List Byte}
    (hfit : off % bsize + ys.length ≤ bsize) (h0 : (s'.itable i).d.blockAt s'.data (off / bsize) ≠ 0)
    (hs'' : s''.bitmap = s'.bitmap ∧ s''.dinode = s'.dinode ∧ s''.itable = s'.itable)
    (hdata : s''.data = update s'.data ((s'.itable i).d.blockAt s'.data (off / bsize))
      (Fs.overwrite (s'.data ((s'.itable i).d.blockAt s'.data (off / bsize))) (off % bsize) ys)) :
    Only i s s'' ∧ Owned (s''.eff i) s''.data s''.bitmap [] ∧
      (∀ bn, (s''.itable i).d.blockAt s''.data bn = (s'.itable i).d.blockAt s'.data bn) ∧
      (∀ m bn, (s.eff i m).type ≠ .free → (s.eff i m).blockAt s.data bn ≠ 0 →
        (s''.eff i m).blockAt s''.data bn = (s.eff i m).blockAt s.data bn) ∧
      ∀ m o, (s.eff i m).type ≠ .free → (s''.eff i m).byteAt s''.data o =
        if m = (s.itable i).inum ∧ off ≤ o ∧ o < off + ys.length then ys.getD (o - off) 0
        else (s.eff i m).byteAt s.data o := by
  obtain ⟨hb, hd, hi⟩ := hs''
  have heff : s''.eff i = s'.eff i := by rw [eff, hd, hi, eff]
  have hself := s'.eff_self i
  have ht' : (s'.eff i (s'.itable i).inum).type ≠ .free := by
    obtain ⟨addrs, ha⟩ := h.same
    rw [hself, ha]
    exact ht
  have h0' : (s'.eff i (s'.itable i).inum).blockAt s'.data (off / bsize) ≠ 0 := by rw [hself]; exact h0
  have hstore := h.owned.store ht' h0' (Fs.overwrite
    (s'.data ((s'.itable i).d.blockAt s'.data (off / bsize))) (off % bsize) ys)
  have hover := fun {m o} => h.owned.overwrite (m := m) (o := o) ht' hfit h0'
  rw [hself] at hstore hover
  rw [← hdata] at hstore hover
  have htm : ∀ m, (s.eff i m).type ≠ .free → (s'.eff i m).type ≠ .free := fun m hm => by
    rwa [h.remap.type_eq]
  refine ⟨h.only.trans ⟨hd, _, by rw [hi, update_eq_self]⟩, ?_, fun bn => ?_, fun m bn hm hbn => ?_,
    fun m o hm => ?_⟩
  · rw [heff, hb]
    exact hstore.1
  · have := congrFun (hstore.2.1 _ ht') bn
    rw [hself] at this
    rw [hi]
    exact this
  · rw [heff, hstore.2.1 m (htm m hm), h.remap.block m bn hm hbn]
  · rw [heff, hover (htm m hm), h.only.inum, h.remap.byte m o hm]

/-- The copy of a chunk fails: its block is changed and not logged. -/
theorem Fs.Maps.wrote_failed {k : Nat} {ys : List Byte} (h : Maps i s s') (s'' : Fs)
    (ht : (s.itable i).d.type ≠ .free)
    (hl : Logs (fun c => IsBitmap c ∨ (s'.itable i).d.Touches s'.data off src.length c) s s')
    (h0 : (s'.itable i).d.blockAt s'.data (off / bsize) ≠ 0)
    (hk : fails off = some k) (hys : ys = (src.take (bsize - off % bsize)).take k)
    (hs'' : s''.bitmap = s'.bitmap ∧ s''.dinode = s'.dinode ∧ s''.itable = s'.itable)
    (hdata : s''.data = update s'.data ((s'.itable i).d.blockAt s'.data (off / bsize))
      (Fs.overwrite (s'.data ((s'.itable i).d.blockAt s'.data (off / bsize))) (off % bsize) ys))
    (hlogged : s''.logged = s'.logged) : Wrote i fails off src s off s'' := by
  have hmod : off % bsize < bsize := Nat.mod_lt _ (by decide)
  have hlen : ys.length = min k (min (bsize - off % bsize) src.length) := by
    rw [hys, List.length_take, List.length_take]
  obtain ⟨hon, how, hbl, hblock, hbyte⟩ := h.store s'' ht (by omega) h0 hs'' hdata
  refine ⟨hon, how, ?_, ?_, Nat.le_refl _, Nat.le_add_right _ _, .inl rfl, fun _ => .inl (by simp [hk]),
    fun o h1 h2 => ?_, fun o h1 h2 => ?_, hblock, fun o h1 h2 => ?_, fun k' o hk' _ h1 h2 h3 hdiv => ?_,
    fun m o htm hno => ?_, fun c hc => ?_⟩
  · rw [hs''.2.2]
    exact h.same
  · rw [hs''.2.2]
    exact h.indirect
  · omega
  · omega
  · omega
  · obtain rfl : k = k' := Option.some.inj (hk.symm.trans hk')
    have hin : o - off < bsize - off % bsize := by simp only [bsize] at *; omega
    have := hbyte (s.itable i).inum o (by rwa [eff_self])
    rw [if_pos ⟨rfl, h1, by omega⟩, ← hon.inum, eff_self] at this
    rw [this, hys, List.getD_eq_getElem?_getD, List.getElem?_take_of_lt (by omega),
      List.getElem?_take_of_lt hin, List.getD_eq_getElem?_getD]
  · rw [hbyte m o htm, if_neg]
    exact fun ⟨hmi, hlo, hhi⟩ => hno ⟨hmi, hlo, .inr ⟨k, hk, by omega⟩⟩
  · rw [hlogged] at hc
    simp only [Dinode.Touches, hbl]
    rw [hs''.2.2]
    exact hl c hc

/-- A chunk is written in full. -/
theorem Fs.Maps.wrote_chunk {ys : List Byte} (h : Maps i s s') (s'' : Fs)
    (ht : (s.itable i).d.type ≠ .free)
    (hl : Logs (fun c => IsBitmap c ∨ (s'.itable i).d.Touches s'.data off ys.length c) s s')
    (hfit : off % bsize + ys.length ≤ bsize) (hpos : 0 < ys.length)
    (h0 : (s'.itable i).d.blockAt s'.data (off / bsize) ≠ 0)
    (hs'' : s''.bitmap = s'.bitmap ∧ s''.dinode = s'.dinode ∧ s''.itable = s'.itable)
    (hdata : s''.data = update s'.data ((s'.itable i).d.blockAt s'.data (off / bsize))
      (Fs.overwrite (s'.data ((s'.itable i).d.blockAt s'.data (off / bsize))) (off % bsize) ys))
    (hlogged : s''.logged = insert ((s'.itable i).d.blockAt s'.data (off / bsize)) s'.logged) :
    Wrote i (fun _ => none) off ys s (off + ys.length) s'' := by
  obtain ⟨hon, how, hbl, hblock, hbyte⟩ := h.store s'' ht hfit h0 hs'' hdata
  have hdiv : ∀ o, off ≤ o → o < off + ys.length → o / bsize = off / bsize := fun o h1 h2 => by
    simp only [bsize] at *; omega
  refine ⟨hon, how, ?_, ?_, Nat.le_add_right _ _, Nat.le_refl _, .inr (.inl rfl), fun hlt => ?_,
    fun _ _ _ _ => rfl, fun o h1 h2 => ?_, hblock, fun o h1 h2 => ?_, nofun, fun m o htm hno => ?_,
    fun c hc => ?_⟩
  · rw [hs''.2.2]
    exact h.same
  · rw [hs''.2.2]
    exact h.indirect
  · omega
  · rw [hbl, hdiv o h1 h2]
    exact h0
  · have := hbyte (s.itable i).inum o (by rwa [eff_self])
    rw [if_pos ⟨rfl, h1, h2⟩, ← hon.inum, eff_self] at this
    exact this
  · rw [hbyte m o htm, if_neg]
    exact fun ⟨hmi, hlo, hhi⟩ => hno ⟨hmi, hlo, .inl hhi⟩
  · rw [hlogged, Finset.mem_insert] at hc
    simp only [Dinode.Touches, hbl]
    rw [hs''.2.2]
    rcases hc with rfl | hc
    · exact .inr (.inr ⟨h0, .inr ⟨off, Nat.le_refl _, by omega, rfl⟩⟩)
    · exact hl c hc

/-- A chunk that is written in full, and then the rest. -/
theorem Fs.Wrote.append {s₁ : Fs} {chunk rest : List Byte} {off' : Nat} (ht : (s.itable i).d.type ≠ .free)
    (h₁ : Wrote i (fun _ => none) off chunk s (off + chunk.length) s₁)
    (h₂ : Wrote i fails (off + chunk.length) rest s₁ off' s') (hok : fails off = none)
    (hfit : off % bsize + chunk.length ≤ bsize)
    (hchunk : rest = [] ∨ (off + chunk.length) % bsize = 0) :
    Wrote i fails off (chunk ++ rest) s off' s' := by
  have hle := h₂.le
  have hle' := h₂.le_add
  have ht₁ : (s₁.eff i (s₁.itable i).inum).type ≠ .free := by
    obtain ⟨addrs, ha⟩ := h₁.same
    rw [eff_self, ha]
    exact ht
  have hblock : ∀ bn, (s₁.itable i).d.blockAt s₁.data bn ≠ 0 →
      (s'.itable i).d.blockAt s'.data bn = (s₁.itable i).d.blockAt s₁.data bn := fun bn hb => by
    have := h₂.block (s₁.itable i).inum bn ht₁ (by rwa [eff_self])
    rwa [eff_self, ← h₂.only.inum, eff_self] at this
  refine ⟨h₁.only.trans h₂.only, h₂.owned, ?_, fun h0 => ?_, by omega, by rw [List.length_append]; omega,
    ?_, fun hlt => h₂.stopped (by rw [List.length_append] at hlt; omega), fun o hlo hhi hst => ?_,
    fun o hlo hhi => ?_, fun m bn hm hb => ?_, fun o hlo hhi => ?_, fun k o hk h0 hlo hhi hlt hdiv => ?_,
    fun m o hm hno => ?_, ?_⟩
  · obtain ⟨a₁, ha₁⟩ := h₁.same
    obtain ⟨a₂, ha₂⟩ := h₂.same
    exact ⟨a₂, by rw [ha₂, ha₁]⟩
  · have hi := h₁.indirect h0
    rw [h₂.indirect (by rwa [hi]), hi]
  · rw [List.length_append]
    rcases h₂.aligned with ha | ha | ha
    · rcases hchunk with rfl | hc
      · exact .inr (.inl (by rw [ha, List.length_nil]; omega))
      · exact .inr (.inr (by rw [ha, hc]))
    · exact .inr (.inl (by omega))
    · exact .inr (.inr ha)
  · by_cases ho : o < off + chunk.length
    · obtain rfl : o = off := hst.elim id fun hz => by simp only [bsize] at *; omega
      exact hok
    · exact h₂.reached o (by omega) hhi (hst.imp_left fun he => by omega)
  · by_cases ho : o < off + chunk.length
    · have := h₁.mapped o hlo ho
      rwa [hblock _ this]
    · exact h₂.mapped o (by omega) hhi
  · have hb₁ := h₁.block m bn hm hb
    rw [h₂.block m bn (by rwa [h₁.type_eq]) (by rwa [hb₁]), hb₁]
  · by_cases ho : o < off + chunk.length
    · have := h₂.byte (s₁.itable i).inum o ht₁ fun hc => by omega
      rw [eff_self, ← h₂.only.inum, eff_self] at this
      rw [this, h₁.written o hlo ho, List.getD_append _ _ _ _ (by omega)]
    · rw [h₂.written o (by omega) hhi, List.getD_append_right _ _ _ _ (by omega)]
      congr 1
      omega
  · rw [List.length_append] at hlt
    rw [h₂.torn k o hk h0 hlo hhi (by omega) hdiv, List.getD_append_right _ _ _ _ (by omega)]
    congr 1
    omega
  · have hno₁ : ¬ (m = (s.itable i).inum ∧ off ≤ o ∧ (o < off + chunk.length ∨
        ∃ k, (none : Option Nat) = some k ∧ o < off + chunk.length + k)) := by
      rintro ⟨hmi, hlo, ho | ⟨k, hk, -⟩⟩
      · exact hno ⟨hmi, hlo, .inl (by omega)⟩
      · cases hk
    have hno₂ : ¬ (m = (s₁.itable i).inum ∧ off + chunk.length ≤ o ∧
        (o < off' ∨ ∃ k, fails off' = some k ∧ o < off' + k)) := by
      rintro ⟨hmi, hlo, ho⟩
      exact hno ⟨hmi.trans h₁.only.inum, by omega, ho⟩
    rw [h₂.byte m o (by rwa [h₁.type_eq]) hno₂, h₁.byte m o hm hno₁]
  · have hl₁ : Logs (fun c => IsBitmap c ∨ (s'.itable i).d.Touches s'.data off (chunk ++ rest).length c)
        s s₁ := h₁.logs.mono fun c => Or.imp_right fun ⟨hc0, hc⟩ => ⟨hc0, by
      rcases hc with hc | ⟨o, hlo, hhi, hc⟩
      · exact .inl (hc.trans (h₂.indirect (hc ▸ hc0)).symm)
      · exact .inr ⟨o, hlo, by rw [List.length_append]; omega, by rw [hblock _ (hc ▸ hc0), hc]⟩⟩
    refine hl₁.trans (h₂.logs.mono fun c => Or.imp_right fun ⟨hc0, hc⟩ => ⟨hc0, hc.imp_right ?_⟩)
    exact fun ⟨o, hlo, hhi, hc⟩ => ⟨o, by omega, by rw [List.length_append]; omega, hc⟩

/-- The loop of `writei`. -/
theorem sat_writeLoop (h : Owned (s.eff i) s.data s.bitmap []) (ht : (s.itable i).d.type ≠ .free)
    {fuel : Nat} (hfuel : src.length ≤ fuel) (hmax : off + src.length ≤ maxFile * bsize) :
    Sat A (writeLoop i fails fuel off src) s fun off' s' => Wrote i fails off src s off' s' := by
  induction fuel generalizing s off src with
  | zero => exact sat_pure (Maps.wrote ⟨.refl, h, .refl⟩ .refl fun hpos => by omega)
  | succ fuel ih =>
    refine sat_ite (fun he => sat_pure (Maps.wrote ⟨.refl, h, .refl⟩ .refl fun hpos => ?_)) fun hsrc => ?_
    · rw [he] at hpos
      cases hpos
    have hlen : 0 < src.length := List.length_pos_iff.mpr hsrc
    have hbn : off / bsize < maxFile := Nat.div_lt_of_lt_mul (by rw [Nat.mul_comm]; omega)
    refine (sat_bmap h ht hbn).bind ?_
    rintro r s₁ ⟨hm, rfl, -, hlog⟩
    have hlogs : ∀ len, 0 < len →
        Logs (fun c => IsBitmap c ∨ (s₁.itable i).d.Touches s₁.data off len c) s s₁ := fun len hl =>
      hlog.mono fun c => Or.imp_right fun ⟨hc0, hc⟩ => ⟨hc0, hc.symm.imp_right fun e =>
        ⟨off, Nat.le_refl _, by omega, e⟩⟩
    refine sat_ite (fun h0 => sat_pure (hm.wrote (hlogs _ hlen) fun _ => h0)) fun h0 => sat_bind rfl ?_
    have hmod : off % bsize < bsize := Nat.mod_lt _ (by decide)
    have hchunk : (src.take (bsize - off % bsize)).length = min (bsize - off % bsize) src.length :=
      List.length_take
    have hrest : src.take (bsize - off % bsize) ++ src.drop (src.take (bsize - off % bsize)).length = src := by
      rcases Nat.le_total (bsize - off % bsize) src.length with hle | hle
      · rw [hchunk, Nat.min_eq_left hle, List.take_append_drop]
      · rw [List.take_of_length_le hle, List.drop_length, List.append_nil]
    split
    · next k hk =>
        refine sat_bind rfl (sat_pure ?_)
        exact hm.wrote_failed _ ht (hlogs _ hlen) h0 hk rfl ⟨rfl, rfl, rfl⟩ rfl rfl
    · next hok =>
      refine sat_bind rfl (sat_bind rfl ?_)
      generalize src.take (bsize - off % bsize) = chunk at hchunk hrest ⊢
      have hpos : 0 < chunk.length := by omega
      have hw := hm.wrote_chunk { s₁ with
          data := update s₁.data ((s₁.itable i).d.blockAt s₁.data (off / bsize))
            (Fs.overwrite (s₁.data ((s₁.itable i).d.blockAt s₁.data (off / bsize))) (off % bsize) chunk)
          logged := insert ((s₁.itable i).d.blockAt s₁.data (off / bsize)) s₁.logged }
        ht (hlogs chunk.length hpos) (by omega) hpos h0 ⟨rfl, rfl, rfl⟩ rfl rfl
      refine (ih hw.owned (hw.type_ne ht) ?_ ?_).mono fun off' s' hw' => ?_
      · rw [List.length_drop]; omega
      · rw [List.length_drop]; omega
      · rw [← hrest]
        refine hw.append ht hw' hok (by omega) ?_
        rcases Nat.le_total (bsize - off % bsize) src.length with hle | hle
        · refine .inr ?_
          rw [hchunk, Nat.min_eq_left hle]
          simp only [bsize] at *; omega
        · exact .inl (List.drop_eq_nil_of_le (by omega))

end

end MiniOS
