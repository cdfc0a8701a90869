import MiniOS.Fs.Content

/-!
# MiniOS.Fs.Inode

The calls of `kernel/fs.c` on whole inodes.  Before and after each of them the
file system is well-formed (`Fs.Wf`): the bitmap is exact, files have no
holes, and the inode table has at most one entry for an inode, with a copy of
the inode on disk.
-/

namespace MiniOS

open Checked Fs
open Function (update update_self update_of_ne update_idem update_eq_self)

/-- Entry `i` of the inode table is in use and has been read from disk. -/
structure Fs.Locked (s : Fs) (i : Fin ninode) : Prop where
  ref : 0 < (s.itable i).ref
  valid : (s.itable i).valid = true

/-- A well-formed file system, between calls of `fs.c`. -/
structure Fs.Wf [Superblock] (s : Fs) : Prop where
  owned : Owned s.dinode s.data s.bitmap []
  size_le : ∀ n, (s.dinode n).type ≠ .free → (s.dinode n).size ≤ maxFile * bsize
  mapped : ∀ n bn, (s.dinode n).type ≠ .free → bn * bsize < (s.dinode n).size →
    (s.dinode n).blockAt s.data bn ≠ 0
  cached : ∀ i, s.Locked i → (s.itable i).d = s.dinode (s.itable i).inum ∧ (s.itable i).d.type ≠ .free
  distinct : ∀ i j, 0 < (s.itable i).ref → 0 < (s.itable j).ref →
    (s.itable i).inum = (s.itable j).inum → i = j

/-- A call on the locked inode `i` changes its inode and its contents, nothing of other inodes. -/
structure Fs.Frame (i : Fin ninode) (s s' : Fs) : Prop where
  others : ∀ m, m ≠ (s.itable i).inum → s'.dinode m = s.dinode m
  itable : s'.itable =
    update s.itable i { s.itable i with d := s'.dinode (s.itable i).inum }
  byte : ∀ m o, m ≠ (s.itable i).inum → (s.dinode m).type ≠ .free →
    (s'.dinode m).byteAt s'.data o = (s.dinode m).byteAt s.data o

section
variable [Superblock] {A : Panic → Prop} {i : Fin ninode} {s s' s'' : Fs}

namespace Fs

/-- The copy of inode `i` becomes `d` and is written to disk. -/
def put (s : Fs) (i : Fin ninode) (d : Dinode) : Fs := { s with
  itable := update s.itable i { s.itable i with d := d }
  dinode := update s.dinode (s.itable i).inum d
  logged := insert (iblock (s.itable i).inum) s.logged }

/-- Fields of an inode are assigned, and then there is `iupdate`. -/
theorem sat_put {α : Type} {f : Dinode → Dinode} {g : F α} {Q : α → Fs → Prop}
    (h : Sat A g (s.put i (f (s.itable i).d)) Q) : Sat A (do modifyInode i f; iupdate i; g) s Q := by
  refine sat_bind rfl (sat_bind rfl ?_)
  simp only [update_self]
  exact h

theorem sat_put_last {f : Dinode → Dinode} {Q : Unit → Fs → Prop}
    (h : Q () (s.put i (f (s.itable i).d))) : Sat A (do modifyInode i f; iupdate i) s Q := by
  refine sat_bind rfl (sat_of_eq rfl ?_)
  simp only [update_self]
  exact h

theorem Wf.eff_eq (h : Wf s) (hl : s.Locked i) : s.eff i = s.dinode := by
  rw [eff, (h.cached i hl).1, update_eq_self]

theorem Wf.type_ne (h : Wf s) (hl : s.Locked i) : (s.dinode (s.itable i).inum).type ≠ .free := by
  have := h.cached i hl
  rw [← this.1]
  exact this.2

section
omit [Superblock]

theorem Frame.inum (h : Frame i s s') : (s'.itable i).inum = (s.itable i).inum := by
  rw [h.itable, update_self]

theorem Frame.locked (h : Frame i s s') {j : Fin ninode} : s'.Locked j ↔ s.Locked j := by
  have : (s'.itable j).ref = (s.itable j).ref ∧ (s'.itable j).valid = (s.itable j).valid := by
    rw [h.itable]
    by_cases hj : j = i
    · rw [hj, update_self]; exact ⟨rfl, rfl⟩
    · rw [update_of_ne hj]; exact ⟨rfl, rfl⟩
  exact ⟨fun hl => ⟨this.1 ▸ hl.ref, this.2 ▸ hl.valid⟩, fun hl => ⟨this.1 ▸ hl.ref, this.2 ▸ hl.valid⟩⟩

end

/-- What is to be shown of inode `i` after a call that changes only that inode. -/
theorem Wf.of_frame (h : Wf s) (hl : s.Locked i) (hf : Frame i s s')
    (howned : Owned s'.dinode s'.data s'.bitmap [])
    (hblock : ∀ m bn, m ≠ (s.itable i).inum → (s.dinode m).type ≠ .free →
      (s.dinode m).blockAt s.data bn ≠ 0 → (s'.dinode m).blockAt s'.data bn ≠ 0)
    (htype : (s'.dinode (s.itable i).inum).type ≠ .free)
    (hsize : (s'.dinode (s.itable i).inum).size ≤ maxFile * bsize)
    (hmapped : ∀ bn, bn * bsize < (s'.dinode (s.itable i).inum).size →
      (s'.dinode (s.itable i).inum).blockAt s'.data bn ≠ 0) : Wf s' := by
  have hsame : ∀ j, (s'.itable j).inum = (s.itable j).inum ∧ (s'.itable j).ref = (s.itable j).ref := by
    intro j
    rw [hf.itable]
    by_cases hj : j = i
    · rw [hj, update_self]; exact ⟨rfl, rfl⟩
    · rw [update_of_ne hj]; exact ⟨rfl, rfl⟩
  refine ⟨howned, fun m htm => ?_, fun m bn htm hb => ?_, fun j hj => ?_, fun j k hj hk he => ?_⟩
  · by_cases hm : m = (s.itable i).inum
    · rwa [hm]
    · rw [hf.others m hm] at htm ⊢
      exact h.size_le m htm
  · by_cases hm : m = (s.itable i).inum
    · rw [hm] at hb ⊢
      exact hmapped bn hb
    · rw [hf.others m hm] at htm hb
      exact hblock m bn hm htm (h.mapped m bn htm hb)
  · have hj' := hf.locked.mp hj
    by_cases hji : j = i
    · subst hji
      rw [hf.itable, update_self]
      exact ⟨rfl, htype⟩
    · have hne : (s.itable j).inum ≠ (s.itable i).inum := fun e => hji (h.distinct j i hj'.ref hl.ref e)
      rw [(hsame j).1, hf.others _ hne, hf.itable, update_of_ne hji]
      exact h.cached j hj'
  · rw [(hsame j).2] at hj
    rw [(hsame k).2] at hk
    rw [(hsame j).1, (hsame k).1] at he
    exact h.distinct j k hj hk he

end Fs

/-! ## Reading -/

/-- The loop of `readi` over a part of the file that has no holes. -/
theorem sat_readLoop (h : Wf s) (hl : s.Locked i) {fails : Nat → Bool} {fuel off n : Nat} (hfuel : n ≤ fuel)
    (hmax : off + n ≤ maxFile * bsize)
    (hb : ∀ o, off ≤ o → o < off + n →
      (s.dinode (s.itable i).inum).blockAt s.data (o / bsize) ≠ 0) (acc : List Byte) :
    Sat A (readLoop i fails fuel off n acc) s fun r s' => s' = s ∧
      (r = some (acc ++ (s.dinode (s.itable i).inum).bytes s.data off n) ∨ r = none ∧ ∃ o, fails o = true) := by
  induction fuel generalizing off n acc with
  | zero =>
    obtain rfl : n = 0 := by omega
    exact sat_pure ⟨rfl, .inl (by simp [Dinode.bytes])⟩
  | succ fuel ih =>
    refine sat_ite (fun h0 => sat_pure ⟨rfl, .inl (by simp [h0, Dinode.bytes])⟩) fun h0 => ?_
    have hbn : off / bsize < maxFile := Nat.div_lt_of_lt_mul (by rw [Nat.mul_comm]; omega)
    have hd := (h.cached i hl).1
    have hb0 := hb off (Nat.le_refl _) (by omega)
    refine (sat_bmap (h.eff_eq hl ▸ h.owned) (h.cached i hl).2 hbn).bind ?_
    rintro r s₁ ⟨-, hr, hsame, -⟩
    obtain rfl := hsame (by rwa [hd])
    rw [hd] at hr
    subst hr
    rw [if_neg hb0]
    refine sat_bind rfl ?_
    dsimp only
    refine sat_ite (fun hf => sat_pure ⟨rfl, .inr ⟨rfl, off, hf⟩⟩) fun _ => ?_
    have hmod : off % bsize < bsize := Nat.mod_lt _ (by decide)
    generalize hm : min n (bsize - off % bsize) = m
    refine (ih (by omega) (by omega) (fun o h1 h2 => hb o (by omega) (by omega)) _).mono ?_
    rintro r s₂ ⟨rfl, hr⟩
    refine ⟨rfl, hr.imp_left fun hr => ?_⟩
    rw [hr, List.append_assoc, ← Dinode.bytes_block hb0 (by omega), ← Dinode.bytes_add,
      Nat.add_sub_cancel' (by omega)]

/-- `readi` returns the contents, as far as they go, and changes nothing. -/
theorem sat_readi (h : Wf s) (hl : s.Locked i) {fails : Nat → Bool} {off n : Nat} :
    Sat A (readi i fails off n) s fun r s' => s' = s ∧
      ((r = some [] ∧ ((s.dinode (s.itable i).inum).size < off ∨ 2 ^ 32 ≤ off + n)) ∨
        (r = some ((s.dinode (s.itable i).inum).bytes s.data off
            (min n ((s.dinode (s.itable i).inum).size - off))) ∧
          off ≤ (s.dinode (s.itable i).inum).size ∧ off + n < 2 ^ 32) ∨
        (r = none ∧ ∃ o, fails o = true)) := by
  have hd := (h.cached i hl).1
  have hmax := h.size_le _ (h.type_ne hl)
  refine sat_bind rfl ?_
  dsimp only
  rw [hd]
  refine sat_ite (fun hc => sat_pure ⟨rfl, .inl ⟨rfl, hc⟩⟩) fun hc => ?_
  obtain ⟨hoff, -⟩ := not_or.mp hc
  have hn : (if (s.dinode (s.itable i).inum).size < off + n then (s.dinode (s.itable i).inum).size - off else n) =
      min n ((s.dinode (s.itable i).inum).size - off) := by
    split <;> omega
  rw [hn]
  refine (sat_readLoop h hl (Nat.le_refl _) (by omega) (fun o h1 h2 => ?_) []).mono ?_
  · refine h.mapped _ _ (h.type_ne hl) (Nat.lt_of_le_of_lt (Nat.div_mul_le_self o bsize) (by omega))
  · rintro r s' ⟨rfl, hr⟩
    exact ⟨rfl, .inr (hr.imp_left fun hr => ⟨hr, by omega, by omega⟩)⟩

/-! ## Writing -/

/-- `writei` has written the bytes `src` at `off`, up to `off'`. -/
structure Fs.Stored (i : Fin ninode) (fails : Nat → Option Nat) (off : Nat) (src : List Byte) (s : Fs)
    (off' : Nat) (s' : Fs) : Prop where
  wf : Wf s'
  frame : Frame i s s'
  inode : ∃ addrs, s'.dinode (s.itable i).inum =
    { s.dinode (s.itable i).inum with addrs := addrs, size := max (s.dinode (s.itable i).inum).size off' }
  le : off ≤ off'
  le_add : off' ≤ off + src.length
  aligned : off' = off ∨ off' = off + src.length ∨ off' % bsize = 0
  stopped : off' < off + src.length →
    fails off' ≠ none ∨ (s.dinode (s.itable i).inum).blockAt s.data (off' / bsize) = 0
  reached : ∀ o, off ≤ o → o < off' → o = off ∨ o % bsize = 0 → fails o = none
  written : ∀ o, off ≤ o → o < off' →
    (s'.dinode (s.itable i).inum).byteAt s'.data o = src.getD (o - off) 0
  torn : ∀ k o, fails off' = some k → (s'.dinode (s.itable i).inum).blockAt s'.data (off' / bsize) ≠ 0 →
    off' ≤ o → o < off' + k → o < off + src.length → o / bsize = off' / bsize →
    (s'.dinode (s.itable i).inum).byteAt s'.data o = src.getD (o - off) 0
  byte : ∀ o, ¬ (off ≤ o ∧ (o < off' ∨ ∃ k, fails off' = some k ∧ o < off' + k)) →
    (s'.dinode (s.itable i).inum).byteAt s'.data o = (s.dinode (s.itable i).inum).byteAt s.data o
  logs : Logs (fun c => IsBitmap c ∨ c = iblock (s.itable i).inum ∨
    (s'.dinode (s.itable i).inum).Touches s'.data off src.length c) s s'

/-- The end of `writei`, after its loop. -/
theorem Fs.Wrote.stored {fails : Nat → Option Nat} {off off' : Nat} {src : List Byte} (h : Wf s)
    (hl : s.Locked i) (hw : Wrote i fails off src s off' s') (hoff : off ≤ (s.dinode (s.itable i).inum).size)
    (hmax : off + src.length ≤ maxFile * bsize) {d : Dinode}
    (hd : d = { (s'.itable i).d with size := max (s'.itable i).d.size off' }) :
    Stored i fails off src s off' (s'.put i d) := by
  obtain ⟨s'', hs''⟩ : ∃ s'', s'' = s'.put i d := ⟨_, rfl⟩
  have hbm : s''.bitmap = s'.bitmap := by rw [hs'']; rfl
  have hdt : s''.data = s'.data := by rw [hs'']; rfl
  have hdn : s''.dinode = update s'.dinode (s'.itable i).inum d := by rw [hs'']; rfl
  have hit : s''.itable = update s'.itable i { s'.itable i with d := d } := by rw [hs'']; rfl
  have hlg : s''.logged = insert (iblock (s'.itable i).inum) s'.logged := by rw [hs'']; rfl
  rw [← hs'']
  have hcd := (h.cached i hl).1
  have hin := hw.only.inum
  have heff := h.eff_eq hl
  rw [hin] at hdn hlg
  have hself : s''.dinode (s.itable i).inum = d := by rw [hdn, update_self]
  have hother : ∀ m, m ≠ (s.itable i).inum → s''.dinode m = s'.eff i m ∧ s'.eff i m = s.dinode m :=
    fun m hm => by
      rw [hdn, update_of_ne hm, eff, hin, update_of_ne hm, hw.only.dinode]
      exact ⟨rfl, rfl⟩
  have hnew : s'.eff i (s.itable i).inum = (s'.itable i).d := by rw [← hin, eff_self]
  have haddrs : d.addrs = (s'.itable i).d.addrs ∧ d.type = (s'.itable i).d.type := by
    rw [hd]
    exact ⟨rfl, rfl⟩
  have hblockAt : d.blockAt s''.data = (s'.itable i).d.blockAt s'.data := by
    funext bn
    rw [hdt, Dinode.blockAt, Dinode.blockAt, haddrs.1]
  have hbyteAt : ∀ o, d.byteAt s''.data o = (s'.itable i).d.byteAt s'.data o := fun o => by
    rw [Dinode.byteAt, Dinode.byteAt, hblockAt, hdt]
  have htd : (s.dinode (s.itable i).inum).type ≠ .free := h.type_ne hl
  have hsame : ∃ addrs, d = { s.dinode (s.itable i).inum with
      addrs := addrs, size := max (s.dinode (s.itable i).inum).size off' } := by
    obtain ⟨addrs, ha⟩ := hw.same
    exact ⟨addrs, by rw [hd, ha, hcd]⟩
  have hsize : d.size = max (s.dinode (s.itable i).inum).size off' := by
    obtain ⟨addrs, ha⟩ := hsame
    rw [ha]
  have hkeep : ∀ bn, (s.dinode (s.itable i).inum).blockAt s.data bn ≠ 0 → d.blockAt s''.data bn ≠ 0 := by
    intro bn hb
    have := hw.block (s.itable i).inum bn (by rwa [heff]) (by rwa [heff])
    rw [hnew, heff] at this
    rwa [hblockAt, this]
  have hle := hw.le_add
  have hf : Frame i s s'' := by
    refine ⟨fun m hm => (hother m hm).1.trans (hother m hm).2, ?_, fun m o hm htm => ?_⟩
    · obtain ⟨d', hd'⟩ := hw.only.itable
      rw [hself, hit, hd', update_self, update_idem]
    · rw [(hother m hm).1, hdt, hw.byte m o (by rwa [heff]) fun hc => hm hc.1, heff]
  refine ⟨h.of_frame hl hf ?_ (fun m bn hm htm hb => ?_) ?_ ?_ fun bn hb => ?_, hf, ?_, hw.le, hle, hw.aligned,
    fun hlt => (hw.stopped hlt).imp_right fun hb => ?_, hw.reached, fun o h1 h2 => ?_,
    fun k o hk h0 h1 h2 h3 hdiv => ?_, fun o hno => ?_, fun c hc => ?_⟩
  · rw [hbm]
    have hup : s''.dinode = update (s'.eff i) (s.itable i).inum d := by
      rw [hdn, eff, hin, update_idem]
    rw [hup, hdt]
    rw [hdt] at hblockAt
    exact hw.owned.congr fun x => congrFun (owner_update (by rw [haddrs.2, hnew]) (by rw [haddrs.1, hnew])
      fun bn => by rw [hblockAt, hnew]) x
  · rw [(hother m hm).1, hdt, hw.block m bn (by rwa [heff]) (by rwa [heff]), heff]
    exact hb
  · rw [hself, haddrs.2]
    exact hw.type_ne (h.cached i hl).2
  · rw [hself, hsize]
    have := h.size_le _ htd
    omega
  · rw [hself] at hb ⊢
    rw [hsize] at hb
    by_cases hbs : bn * bsize < (s.dinode (s.itable i).inum).size
    · exact hkeep bn (h.mapped _ bn htd hbs)
    · have := hw.mapped (bn * bsize) (by omega) (by omega)
      rwa [Nat.mul_div_cancel _ (by decide), ← hblockAt] at this
  · rw [hself]
    exact hsame
  · by_contra hne
    rw [← hblockAt] at hb
    exact hkeep _ hne hb
  · rw [hself, hbyteAt, hw.written o h1 h2]
  · rw [hself, hblockAt] at h0
    rw [hself, hbyteAt, hw.torn k o hk h0 h1 h2 h3 hdiv]
  · rw [hself, hbyteAt, ← hnew, hw.byte _ o (by rwa [heff]) fun hc => hno hc.2, heff]
  · rw [hlg, Finset.mem_insert] at hc
    rcases hc with rfl | hc
    · exact .inr (.inr (.inl rfl))
    · refine (hw.logs c hc).imp_right (Or.imp_right fun ht => .inr ?_)
      rw [hself, Dinode.Touches, hblockAt, haddrs.1]
      exact ht

/-- `writei`. -/
theorem sat_writei (h : Wf s) (hl : s.Locked i) {fails : Nat → Option Nat} {off : Nat} {src : List Byte} :
    Sat A (writei i fails off src) s fun r s' =>
      (r = none ∧ s' = s ∧
        ((s.dinode (s.itable i).inum).size < off ∨ maxFile * bsize < off + src.length)) ∨
      ∃ off', r = some (off' - off) ∧ off ≤ (s.dinode (s.itable i).inum).size ∧
        Stored i fails off src s off' s' := by
  have hd := (h.cached i hl).1
  refine sat_bind rfl ?_
  dsimp only
  rw [hd]
  refine sat_ite (fun hc => sat_pure (.inl ⟨rfl, rfl, hc.imp_right fun hc => ?_⟩)) fun hc => ?_
  · simp only [maxFile, ndirect, nindirect, bsize]; omega
  refine sat_ite (fun hc => sat_pure (.inl ⟨rfl, rfl, .inr hc⟩)) fun hmax => ?_
  obtain ⟨hoff, -⟩ := not_or.mp hc
  refine (sat_writeLoop (h.eff_eq hl ▸ h.owned) (h.cached i hl).2 (Nat.le_refl _) (by omega)).bind ?_
  intro off' s₁ hw
  refine sat_put (sat_pure (.inr ⟨off', rfl, by omega, hw.stored h hl (by omega) (by omega) ?_⟩))
  split
  · next hlt => rw [Nat.max_eq_right (Nat.le_of_lt hlt)]
  · next hge => rw [Nat.max_eq_left (by omega)]

/-! ## Fields -/

theorem Fs.Frame.put (d : Dinode) : Frame i s (s.put i d) := by
  refine ⟨fun m hm => update_of_ne hm _ _, ?_, fun m o hm _ => ?_⟩
  · simp only [Fs.put, update_self]
  · simp only [Fs.put, update_of_ne hm]

theorem Fs.put_dinode (d : Dinode) : (s.put i d).dinode (s.itable i).inum = d := update_self ..

/-- Fields other than the type, the size and the blocks are changed. -/
theorem Fs.Wf.put (h : Wf s) (hl : s.Locked i) {d : Dinode} (ht : d.type = (s.itable i).d.type)
    (hs : d.size = (s.itable i).d.size) (ha : d.addrs = (s.itable i).d.addrs) : Wf (s.put i d) := by
  obtain ⟨hd, hfree⟩ := h.cached i hl
  rw [hd] at ht hs ha hfree
  have hblock : d.blockAt s.data = (s.dinode (s.itable i).inum).blockAt s.data := by
    funext bn
    rw [Dinode.blockAt, Dinode.blockAt, ha]
  refine h.of_frame hl (.put d) ?_ (fun m bn hm _ hb => ?_) ?_ ?_ fun bn hb => ?_
  · exact h.owned.congr fun x => congrFun (owner_update ht (congrFun ha _) (congrFun hblock)) x
  · rw [(Frame.put d).others m hm]
    exact hb
  · rwa [put_dinode, ht]
  · rw [put_dinode, hs]
    exact h.size_le _ hfree
  · rw [put_dinode] at hb ⊢
    rw [hs] at hb
    exact (congrFun hblock bn) ▸ h.mapped _ bn hfree hb

/-! ## Truncation -/

variable {f : Nat × Place → Nat}

/-- `bfree` of an allocated block that no inode refers to. -/
theorem sat_bfree {b : Nat} {loose : List Nat}
    (h : Owners.Exact dataStart Superblock.size f s.bitmap (b :: loose)) :
    Sat A (bfree b) s fun _ s' => Owners.Exact dataStart Superblock.size f s'.bitmap loose ∧
      Logs IsBitmap s s' ∧ s'.data = s.data ∧ s'.dinode = s.dinode ∧ s'.itable = s.itable := by
  have hb := h.alloc b (by simp)
  refine sat_bind rfl ?_
  dsimp only
  rw [hb.2.2, Bool.not_true, if_neg (by simp)]
  refine sat_bind rfl (sat_of_eq rfl ⟨h.free, fun c hc => ?_, rfl, rfl, rfl⟩)
  rcases Finset.mem_insert.mp hc with rfl | hc
  · exact .inr ⟨b, hb.2.1, rfl⟩
  · exact .inl hc

/-- The first loop of `itrunc`. -/
theorem sat_truncDirect {ns rest : List Nat} (hns : ns.Nodup)
    (h : Owners.Exact dataStart Superblock.size f s.bitmap
      ((ns.map (s.itable i).d.addrs).filter (· ≠ 0) ++ rest)) :
    Sat A (truncDirect i ns) s fun _ s' => Owners.Exact dataStart Superblock.size f s'.bitmap rest ∧
      Logs IsBitmap s s' ∧ s'.data = s.data ∧ Only i s s' ∧ (s'.itable i).d = { (s.itable i).d with
        addrs := fun k => if k ∈ ns then 0 else (s.itable i).d.addrs k } := by
  induction ns generalizing s with
  | nil => exact sat_pure ⟨h, .refl, rfl, .refl, by simp⟩
  | cons n ns ih =>
    obtain ⟨hn, hns⟩ := List.nodup_cons.mp hns
    refine sat_bind rfl ?_
    dsimp only
    by_cases h0 : (s.itable i).d.addrs n = 0
    · rw [if_neg (by simpa using h0)]
      rw [List.map_cons, List.filter_cons_of_neg (by simpa using h0)] at h
      have hfun : (fun k => if k ∈ n :: ns then 0 else (s.itable i).d.addrs k) =
          fun k => if k ∈ ns then 0 else (s.itable i).d.addrs k := by
        funext k
        by_cases hk : k = n
        · simp [hk, h0]
        · simp [hk]
      rw [hfun]
      exact ih hns h
    · rw [if_pos h0]
      rw [List.map_cons, List.filter_cons_of_pos (by simpa using h0)] at h
      refine (sat_bfree h).bind ?_
      rintro - s₁ ⟨ho₁, hl₁, hd₁, hdn₁, hit₁⟩
      refine sat_bind rfl ?_
      have hmap : ns.map (update (s.itable i).d.addrs n 0) = ns.map (s.itable i).d.addrs :=
        List.map_congr_left fun k hk => by rw [update_of_ne]; rintro rfl; exact hn hk
      have hfun : (fun k => if k ∈ n :: ns then 0 else (s.itable i).d.addrs k) =
          fun k => if k ∈ ns then 0 else update (s.itable i).d.addrs n 0 k := by
        funext k
        by_cases hk : k = n
        · simp [hk]
        · simp [hk]
      rw [hfun]
      refine (ih hns ?_).mono ?_
      · simp only [update_self, hit₁, hmap]
        exact ho₁
      · rintro - s' ⟨ho, hl, hd, hon, hi⟩
        refine ⟨ho, fun c hc => (hl c hc).elim (hl₁ c) .inr, hd.trans hd₁, ?_, ?_⟩
        · refine Only.trans ?_ hon
          exact ⟨hdn₁, { (s.itable i).d with addrs := update (s.itable i).d.addrs n 0 }, by
            simp only [hit₁]⟩
        · rw [hi]
          simp only [update_self, hit₁]

/-- The second loop of `itrunc`. -/
theorem sat_truncEntries {a : BlockData} {js rest : List Nat}
    (h : Owners.Exact dataStart Superblock.size f s.bitmap ((js.map a.word).filter (· ≠ 0) ++ rest)) :
    Sat A (truncEntries a js) s fun _ s' => Owners.Exact dataStart Superblock.size f s'.bitmap rest ∧
      Logs IsBitmap s s' ∧ s'.data = s.data ∧ s'.dinode = s.dinode ∧ s'.itable = s.itable := by
  induction js generalizing s with
  | nil => exact sat_pure ⟨h, .refl, rfl, rfl, rfl⟩
  | cons j js ih =>
    refine sat_ite (fun h0 => ?_) fun h0 => ?_
    · rw [List.map_cons, List.filter_cons_of_pos (by simpa using h0)] at h
      refine (sat_bfree h).bind ?_
      rintro - s₁ ⟨ho₁, hl₁, hd₁, hdn₁, hit₁⟩
      refine (ih ho₁).mono ?_
      rintro - s' ⟨ho, hl, hd, hdn, hit⟩
      exact ⟨ho, hl₁.trans hl, hd.trans hd₁, hdn.trans hdn₁, hit.trans hit₁⟩
    · rw [List.map_cons, List.filter_cons_of_neg (by simpa using h0)] at h
      exact ih h

/-- All places of inode `n`, in the order in which `itrunc` frees their blocks. -/
def places (n : Nat) : List (Nat × Place) :=
  (List.finRange maxFile).map (fun bn => (n, .block bn)) ++ [(n, .indirect)]

section
omit [Superblock]

theorem mem_places {n : Nat} {x : Nat × Place} : x ∈ places n ↔ x.1 = n := by
  obtain ⟨m, p⟩ := x
  simp only [places, List.mem_append, List.mem_map, List.mem_finRange, true_and, List.mem_singleton,
    Prod.mk.injEq]
  constructor
  · rintro (⟨bn, rfl, -⟩ | ⟨rfl, -⟩) <;> rfl
  · rintro rfl
    cases p with
    | indirect => exact .inr ⟨rfl, rfl⟩
    | block bn => exact .inl ⟨bn, rfl, rfl⟩

theorem nodup_places (n : Nat) : (places n).Nodup := by
  refine List.Nodup.append ?_ (List.nodup_singleton _) ?_
  · exact (List.nodup_finRange _).map fun a b hab => by simpa using hab
  · intro x hx hx'
    rw [List.mem_singleton] at hx'
    obtain ⟨bn, -, hbn⟩ := List.mem_map.mp hx
    rw [hx'] at hbn
    cases hbn

/-- The blocks of an allocated inode. -/
theorem map_places {D : Nat → Dinode} {data : Disk} {n : Nat} (ht : (D n).type ≠ .free) :
    (places n).map (owner D data) = (List.range ndirect).map (D n).addrs ++
      (List.range nindirect).map (fun j => (D n).blockAt data (ndirect + j)) ++ [(D n).addrs ndirect] := by
  have hfin : (List.finRange maxFile).map (fun bn : Fin maxFile => (D n).blockAt data bn) =
      (List.range maxFile).map ((D n).blockAt data) := by
    rw [← List.map_coe_finRange_eq_range, List.map_map, Function.comp_def]
  rw [places, List.map_append, List.map_map, List.map_singleton, owner_of_alloc ht]
  congr 1
  have : owner D data ∘ (fun bn => (n, Place.block bn)) = fun bn : Fin maxFile => (D n).blockAt data bn :=
    funext fun bn => owner_of_alloc ht _
  have hdirect : (List.range ndirect).map ((D n).blockAt data) = (List.range ndirect).map (D n).addrs :=
    List.map_congr_left fun k hk => Dinode.blockAt_of_lt (List.mem_range.mp hk)
  rw [this, hfin, maxFile, List.range_add, List.map_append, List.map_map, hdirect, Function.comp_def]

end

/-- The references of all inodes but `n`. -/
def vacated (D : Nat → Dinode) (data : Disk) (n : Nat) (x : Nat × Place) : Nat :=
  if x.1 = n then 0 else owner D data x

omit [Superblock] in
theorem owner_eq_vacated {D D' : Nat → Dinode} {data : Disk} {n : Nat} (ho : ∀ m, m ≠ n → D' m = D m)
    (hn : (D' n).type = .free ∨ ∀ p, (D' n).ptr data p = 0) (x : Nat × Place) :
    owner D' data x = vacated D data n x := by
  obtain ⟨m, p⟩ := x
  by_cases hm : m = n
  · subst hm
    rw [vacated, if_pos rfl, owner]
    split
    · rfl
    · next ht => exact hn.resolve_left ht p
  · rw [vacated, if_neg hm, owner, owner, ho m hm]

/-- Before the inode is written, `itrunc` has freed its blocks. -/
structure Fs.Emptied (i : Fin ninode) (s s' : Fs) : Prop where
  only : Only i s s'
  data : s'.data = s.data
  owned : Owners.Exact dataStart Superblock.size (vacated s.dinode s.data (s.itable i).inum) s'.bitmap []
  inode : ∃ addrs, (s'.itable i).d = { (s.itable i).d with addrs := addrs } ∧ ∀ k, k ≤ ndirect → addrs k = 0
  logs : Logs IsBitmap s s'

/-- `itrunc` has emptied the inode. -/
structure Fs.Truncated (i : Fin ninode) (s s' : Fs) : Prop where
  wf : Wf s'
  frame : Frame i s s'
  inode : ∃ addrs, s'.dinode (s.itable i).inum = { s.dinode (s.itable i).inum with addrs := addrs, size := 0 }
  ptr : ∀ p, (s'.dinode (s.itable i).inum).ptr s'.data p = 0
  logs : Logs (fun c => IsBitmap c ∨ c = iblock (s.itable i).inum) s s'

/-- The end of `itrunc`. -/
theorem Fs.Emptied.truncated (h : Wf s) (hl : s.Locked i) (he : Emptied i s s') {d : Dinode}
    (hd : d = { (s'.itable i).d with size := 0 }) : Truncated i s (s'.put i d) := by
  have hin := he.only.inum
  obtain ⟨addrs, hsd, h0⟩ := he.inode
  rw [(h.cached i hl).1] at hsd
  have hself : (s'.put i d).dinode (s.itable i).inum = d := by rw [← hin, put_dinode]
  have hdata : (s'.put i d).data = s.data := he.data
  have hd' : d = { s.dinode (s.itable i).inum with addrs := addrs, size := 0 } := by rw [hd, hsd]
  have hptr : ∀ p, d.ptr s.data p = 0 := Dinode.ptr_eq_zero fun k hk => by rw [hd']; exact h0 k hk
  have hothers : ∀ m, m ≠ (s.itable i).inum → (s'.put i d).dinode m = s.dinode m := fun m hm => by
    rw [(Frame.put d).others m (by rwa [hin]), he.only.dinode]
  have hf : Frame i s (s'.put i d) := by
    refine ⟨hothers, ?_, fun m o hm _ => by rw [hothers m hm, hdata]⟩
    obtain ⟨d₁, hd₁⟩ := he.only.itable
    rw [hself]
    simp only [Fs.put, hd₁, update_self, update_idem]
  refine ⟨h.of_frame hl hf ?_ (fun m bn hm _ hb => ?_) ?_ ?_ fun bn hb => ?_, hf, ⟨addrs, by rw [hself, hd']⟩,
    ?_, fun c hc => ?_⟩
  · rw [hdata]
    exact he.owned.congr (owner_eq_vacated hothers (.inr (by rwa [hself])))
  · rwa [hothers m hm, hdata]
  · rw [hself, hd']
    exact h.type_ne hl
  · rw [hself, hd']
    exact Nat.zero_le _
  · rw [hself, hd'] at hb
    exact absurd hb (Nat.not_lt_zero _)
  · rwa [hself, hdata]
  · rcases Finset.mem_insert.mp hc with rfl | hc
    · exact .inr (.inr (by rw [hin]))
    · exact (he.logs c hc).imp_right .inl

/-- `itrunc` frees all blocks of the inode. -/
theorem sat_itrunc (h : Wf s) (hl : s.Locked i) :
    Sat A (itrunc i) s fun _ s' => Truncated i s s' := by
  obtain ⟨hcd, hfree⟩ := h.cached i hl
  have ht := h.type_ne hl
  have hend : ∀ s', Emptied i s s' → Sat A (do
      modifyInode i fun d => { d with size := 0 }
      iupdate i) s' fun _ s'' => Truncated i s s'' := fun s' he => sat_put_last (he.truncated h hl rfl)
  -- all places of the inode give up their blocks first; what follows frees them one by one
  have hloose : Owners.Exact dataStart Superblock.size (vacated s.dinode s.data (s.itable i).inum) s.bitmap _ :=
    h.owned.detach (nodup_places (s.itable i).inum) fun x => by simp only [mem_places]; rfl
  rw [map_places ht, List.filter_append, List.filter_append, List.append_assoc, List.append_assoc, ← hcd] at hloose
  refine (sat_truncDirect (List.nodup_range) hloose).bind ?_
  rintro - s₁ ⟨ho₁, hl₁, hd₁, hon₁, hi₁⟩
  have hdirect : ∀ k, (s₁.itable i).d.addrs k = if k < ndirect then 0 else (s.itable i).d.addrs k := by
    rw [hi₁]
    simp only [List.mem_range, implies_true]
  have hind : (s₁.itable i).d.addrs ndirect = (s.itable i).d.addrs ndirect :=
    (hdirect ndirect).trans (if_neg (Nat.lt_irrefl _))
  refine sat_bind rfl ?_
  dsimp only
  rw [hind]
  refine sat_ite (fun h0 => sat_bind rfl ?_) fun h0 => ?_
  · have hwords : (List.range nindirect).map (fun j => (s.itable i).d.blockAt s.data (ndirect + j)) =
        (List.range nindirect).map (s₁.data ((s.itable i).d.addrs ndirect)).word :=
      List.map_congr_left fun j hj => by
        have := List.mem_range.mp hj
        rw [Dinode.blockAt_of_le (Nat.le_add_right _ _) (by simp only [maxFile]; omega) h0,
          Nat.add_sub_cancel_left, hd₁]
    rw [hwords] at ho₁
    refine (sat_truncEntries ho₁).bind ?_
    rintro - s₂ ⟨ho₂, hl₂, hd₂, hdn₂, hit₂⟩
    rw [List.filter_cons_of_pos (by simpa using h0)] at ho₂
    refine (sat_bfree ho₂).bind ?_
    rintro - s₃ ⟨ho₃, hl₃, hd₃, hdn₃, hit₃⟩
    have hit : s₃.itable = s₁.itable := hit₃.trans hit₂
    refine sat_bind rfl (hend _ ⟨?_, hd₃.trans (hd₂.trans hd₁), ho₃,
      ⟨update (s₁.itable i).d.addrs ndirect 0, ?_, fun k hk => ?_⟩, ?_⟩)
    · refine hon₁.trans ⟨hdn₃.trans hdn₂,
        { (s₁.itable i).d with addrs := update (s₁.itable i).d.addrs ndirect 0 }, ?_⟩
      simp only [hit]
    · simp only [update_self, hit]
      rw [hi₁]
    · by_cases hk' : k = ndirect
      · rw [hk', update_self]
      · rw [update_of_ne hk', hdirect, if_pos (by omega)]
    · exact fun c hc => ((hl₁.trans hl₂).trans hl₃) c hc
  · have hi0 : (s.itable i).d.addrs ndirect = 0 := not_not.mp h0
    refine hend _ ⟨hon₁, hd₁, ?_, ⟨_, hi₁, fun k hk => ?_⟩, hl₁⟩
    · have hnone : ((List.range nindirect).map fun j => (s.itable i).d.blockAt s.data (ndirect + j)).filter
          (· ≠ 0) = [] := List.filter_eq_nil_iff.mpr fun b hb => by
        obtain ⟨j, -, rfl⟩ := List.mem_map.mp hb
        rw [Dinode.blockAt_of_no_indirect (Nat.le_add_right _ _) hi0]
        simp
      rw [hnone, hi0, List.filter_cons_of_neg (by simp)] at ho₁
      exact ho₁
    · simp only [List.mem_range]
      split
      · rfl
      · rwa [show k = ndirect by omega]

end

end MiniOS
