import MiniOS.Fs.Inode

/-!
# MiniOS.Fs.Itable

References to inodes: `iget`, `idup`, `ilock`, `iput` and `ialloc`.
-/

namespace MiniOS

open Checked
open Function (update update_self update_of_ne update_idem update_eq_self)

namespace Fs

/-- Entry `i` has `r` references. -/
def setRef (s : Fs) (i : Fin ninode) (r : Nat) : Fs :=
  { s with itable := update s.itable i { s.itable i with ref := r } }

/-- Entry `i` is taken for inode `n`. -/
def take (s : Fs) (i : Fin ninode) (n : Nat) : Fs :=
  { s with itable := update s.itable i { s.itable i with inum := n, ref := 1, valid := false } }

/-- Entry `i` has been read from disk. -/
def load (s : Fs) (i : Fin ninode) : Fs :=
  let ip := { s.itable i with d := s.dinode (s.itable i).inum, valid := true }
  { s with itable := update s.itable i ip }

/-- The lock of entry `i` is held, or not. -/
def setLock (s : Fs) (i : Fin ninode) (b : Bool) : Fs :=
  { s with locked := update s.locked i b }

/-- `iget` of inode `n` gave entry `i`. -/
inductive Got (n : Nat) (s : Fs) (i : Fin ninode) : Fs → Prop
  | again (hr : 0 < (s.itable i).ref) (hn : (s.itable i).inum = n) :
      Got n s i (s.setRef i ((s.itable i).ref + 1))
  | new (hr : (s.itable i).ref = 0) (hn : ∀ j, 0 < (s.itable j).ref → (s.itable j).inum ≠ n) :
      Got n s i (s.take i n)

/-- The last reference to an inode without links is gone: the inode is freed. -/
structure Freed [Superblock] (i : Fin ninode) (s s' : Fs) : Prop where
  others : ∀ m, m ≠ (s.itable i).inum → s'.dinode m = s.dinode m
  free : (s'.dinode (s.itable i).inum).type = .free
  byte : ∀ m o, m ≠ (s.itable i).inum → (s.dinode m).type ≠ .free →
    (s'.dinode m).byteAt s'.data o = (s.dinode m).byteAt s.data o
  itable : ∃ d, s'.itable = update s.itable i { s.itable i with d := d, ref := 0, valid := false }
  logs : Logs (fun c => IsBitmap c ∨ c = iblock (s.itable i).inum) s s'

section
variable [Superblock] {A : Panic → Prop} {i : Fin ninode} {s s' : Fs} {n : Nat}

/-! ## The table stays well-formed -/

/-- Only the inode table has changed, at entry `i`. -/
theorem Wf.entry (h : Wf s) {ip : Inode}
    (hc : 0 < ip.ref → ip.valid = true → ip.d = s.dinode ip.inum ∧ ip.d.type ≠ .free)
    (hd : 0 < ip.ref → ∀ j, j ≠ i → 0 < (s.itable j).ref → (s.itable j).inum ≠ ip.inum) :
    Wf { s with itable := update s.itable i ip } := by
  refine ⟨h.owned, h.size_le, h.mapped, fun j hj => ?_, fun j k hj hk he => ?_⟩
  · by_cases hji : j = i
    · subst hji
      obtain ⟨hr, hv⟩ := hj
      simp only [update_self] at hr hv ⊢
      exact hc hr hv
    · obtain ⟨hr, hv⟩ := hj
      simp only [update_of_ne hji] at hr hv ⊢
      exact h.cached j ⟨hr, hv⟩
  · by_cases hji : j = i <;> by_cases hki : k = i
    · rw [hji, hki]
    · subst hji
      simp only [update_self, update_of_ne hki] at hj hk he
      exact absurd he.symm (hd hj k hki hk)
    · subst hki
      simp only [update_self, update_of_ne hji] at hj hk he
      exact absurd he (hd hk j hji hj)
    · simp only [update_of_ne hji, update_of_ne hki] at hj hk he
      exact h.distinct j k hj hk he

theorem Wf.setRef (h : Wf s) (hr : 0 < (s.itable i).ref) (r : Nat) : Wf (s.setRef i r) :=
  h.entry (fun _ hv => h.cached i ⟨hr, hv⟩) fun _ j hj hjr e => hj (h.distinct j i hjr hr e)

theorem Wf.take (h : Wf s) (hn : ∀ j, 0 < (s.itable j).ref → (s.itable j).inum ≠ n) : Wf (s.take i n) :=
  h.entry (fun _ hv => by cases hv) fun _ j _ hjr => hn j hjr

theorem Wf.load (h : Wf s) (hr : 0 < (s.itable i).ref) (ht : (s.dinode (s.itable i).inum).type ≠ .free) :
    Wf (s.load i) :=
  h.entry (fun _ _ => ⟨rfl, ht⟩) fun _ j hj hjr e => hj (h.distinct j i hjr hr e)

theorem Wf.setLock (h : Wf s) (b : Bool) : Wf (s.setLock i b) :=
  ⟨h.owned, h.size_le, h.mapped, fun j hj => h.cached j ⟨hj.ref, hj.valid⟩, h.distinct⟩

theorem Got.wf {s' : Fs} (h : Wf s) (hg : Got n s i s') : Wf s' := by
  cases hg with
  | again hr _ => exact h.setRef hr _
  | new _ hn => exact h.take hn

/-! ## Specifications -/

section
omit [Superblock]

/-- `iget` panics only if every entry is in use. -/
theorem sat_iget_or_full (hA : (∀ j, 0 < (s.itable j).ref) → A .igetNoInodes) :
    Sat A (iget n) s fun i s' => Got n s i s' := by
  refine sat_bind rfl ?_
  split
  · next i hi =>
      have := List.find?_some hi
      simp only [decide_eq_true_eq] at this
      exact sat_bind rfl (sat_pure (.again this.1 this.2))
  · next hnone =>
      have hn : ∀ j, 0 < (s.itable j).ref → (s.itable j).inum ≠ n := fun j hj he => by
        have := List.find?_eq_none.mp hnone j (List.mem_finRange j)
        simp only [decide_eq_true_eq] at this
        exact this ⟨hj, he⟩
      split
      · next i hi =>
          have := List.find?_some hi
          simp only [decide_eq_true_eq] at this
          exact sat_bind rfl (sat_pure (.new this hn))
      · next hfull =>
          refine sat_throw (hA fun j => ?_)
          have := List.find?_eq_none.mp hfull j (List.mem_finRange j)
          simp only [decide_eq_true_eq] at this
          omega

theorem sat_iget (hA : A .igetNoInodes) : Sat A (iget n) s fun i s' => Got n s i s' :=
  sat_iget_or_full fun _ => hA

theorem idup_eq : idup i s = .ok (i, s.setRef i ((s.itable i).ref + 1)) := rfl

theorem sat_acquiresleep (hA : s.locked i = true → A .deadlock) :
    Sat A (acquiresleep i) s fun _ s' => s' = s.setLock i true ∧ s.locked i = false := by
  refine sat_bind rfl (sat_ite (fun hl => sat_throw_bind (hA hl)) fun hl => sat_of_eq rfl ⟨rfl, ?_⟩)
  simpa using hl

theorem releasesleep_eq : releasesleep i s = .ok ((), s.setLock i false) := rfl

/-- `iunlock` releases a lock that is held. -/
theorem sat_iunlock (hA : A .iunlock) :
    Sat A (iunlock i) s fun _ s' => s' = s.setLock i false ∧ s.locked i = true := by
  refine sat_bind rfl (sat_ite (fun _ => sat_throw_bind hA) fun hl => sat_of_eq rfl ⟨rfl, ?_⟩)
  simpa using (not_or.mp hl).1

end

/-- `ilock` reads the inode unless the table has it already. -/
theorem sat_ilock_free (h : Wf s) (hr : 0 < (s.itable i).ref) (hD : s.locked i = true → A .deadlock)
    (hA : (s.dinode (s.itable i).inum).type = .free → A .ilockNoType) :
    Sat A (ilock i) s fun _ s' => s' = (s.load i).setLock i true ∧
      (s.dinode (s.itable i).inum).type ≠ .free ∧ s.locked i = false := by
  refine sat_bind rfl ?_
  dsimp only
  rw [if_neg (by omega)]
  refine (sat_acquiresleep hD).bind ?_
  rintro - _ ⟨rfl, hl⟩
  refine sat_ite (fun _ => sat_bind rfl ?_) fun hv => sat_pure ⟨?_, ?_, hl⟩
  · exact sat_ite (fun ht => sat_throw (hA ht)) fun ht => sat_pure ⟨rfl, ht, hl⟩
  · have hv : (s.itable i).valid = true := by simpa using hv
    have := (h.cached i ⟨hr, hv⟩).1
    rw [load, ← this, ← hv, update_eq_self]
  · have hv : (s.itable i).valid = true := by simpa using hv
    exact h.type_ne ⟨hr, hv⟩

theorem sat_ilock (h : Wf s) (hr : 0 < (s.itable i).ref) (hD : s.locked i = true → A .deadlock)
    (hA : (s.dinode (s.itable i).inum).type = .free → A .ilockNoType) :
    Sat A (ilock i) s fun _ s' =>
      s' = (s.load i).setLock i true ∧ (s.dinode (s.itable i).inum).type ≠ .free :=
  (sat_ilock_free h hr hD hA).mono fun _ _ hs => ⟨hs.1, hs.2.1⟩

/-- The end of `iput` when it frees the inode. -/
theorem Truncated.freed (hl : s.Locked i) (ht : Truncated i s s') {s'' : Fs} {d : Dinode}
    (hd : d.type = .free) (hdata : s''.data = s'.data) (hbitmap : s''.bitmap = s'.bitmap)
    (hdinode : s''.dinode = update s'.dinode (s'.itable i).inum d)
    (hitable : s''.itable = update s'.itable i { s'.itable i with d := d, ref := 0, valid := false })
    (hlogged : s''.logged = insert (iblock (s'.itable i).inum) s'.logged) : Wf s'' ∧ Freed i s s'' := by
  rw [ht.frame.inum] at hdinode hlogged
  have hl' := ht.frame.locked.mpr hl
  have hself : s''.dinode (s.itable i).inum = d := by rw [hdinode, update_self]
  have hother : ∀ m, m ≠ (s.itable i).inum → s''.dinode m = s'.dinode m := fun m hm => by
    rw [hdinode, update_of_ne hm]
  have halloc : ∀ m, (s''.dinode m).type ≠ .free → m ≠ (s.itable i).inum := fun m htm hm => by
    rw [hm, hself] at htm
    exact htm hd
  have hentry : ∀ j, 0 < (s''.itable j).ref → j ≠ i ∧ s''.itable j = s'.itable j := fun j hj => by
    have hji : j ≠ i := by
      rintro rfl
      rw [hitable, update_self] at hj
      exact absurd hj (Nat.lt_irrefl 0)
    exact ⟨hji, by rw [hitable, update_of_ne hji]⟩
  refine ⟨⟨?_, fun m htm => ?_, fun m bn htm hb => ?_, fun j hj => ?_, fun j k hj hk he => ?_⟩,
    fun m hm => ?_, by rw [hself, hd], fun m o hm htm => ?_, ⟨d, ?_⟩, fun c hc => ?_⟩
  · -- neither the emptied inode nor the freed one refers to a block
    rw [hdata, hbitmap]
    refine ht.wf.owned.congr fun x => ?_
    rw [owner_eq_vacated hother (.inl (by rw [hself, hd])), owner_eq_vacated (fun _ _ => rfl) (.inr ht.ptr)]
  · have hm := hother m (halloc m htm)
    rw [hm] at htm ⊢
    exact ht.wf.size_le m htm
  · have hm := hother m (halloc m htm)
    rw [hm] at htm hb ⊢
    rw [hdata]
    exact ht.wf.mapped m bn htm hb
  · obtain ⟨hji, hej⟩ := hentry j hj.ref
    obtain ⟨hr, hv⟩ := hj
    rw [hej] at hr hv ⊢
    have hne : (s'.itable j).inum ≠ (s.itable i).inum := fun e =>
      hji (ht.wf.distinct j i hr hl'.ref (e.trans ht.frame.inum.symm))
    rw [hother _ hne]
    exact ht.wf.cached j ⟨hr, hv⟩
  · have hej := (hentry j hj).2
    have hek := (hentry k hk).2
    rw [hej] at hj he
    rw [hek] at hk he
    exact ht.wf.distinct j k hj hk he
  · rw [hother m hm, ht.frame.others m hm]
  · rw [hother m hm, hdata, ht.frame.byte m o hm htm]
  · rw [hitable, ht.frame.itable, update_self, update_idem]
  · rw [hlogged, Finset.mem_insert] at hc
    rcases hc with rfl | hc
    · exact .inr (.inr rfl)
    · exact ht.logs c hc

theorem Freed.of_setLock {b : Bool} (h : Freed i (s.setLock i b) s') : Freed i s s' :=
  ⟨h.others, h.free, h.byte, h.itable, h.logs⟩

/-- `iput` drops a reference, and frees the inode with the last one to it if it has no links. -/
theorem sat_iput (h : Wf s) (hr : 0 < (s.itable i).ref) (hD : s.locked i = true → A .deadlock) :
    Sat A (iput i) s fun _ s' => Wf s' ∧
      (((s.itable i).ref = 1 ∧ (s.itable i).valid = true ∧ (s.dinode (s.itable i).inum).nlink = 0 ∧
          Freed i s s') ∨
        (¬ ((s.itable i).ref = 1 ∧ (s.itable i).valid = true ∧ (s.dinode (s.itable i).inum).nlink = 0) ∧
          s' = s.setRef i ((s.itable i).ref - 1))) := by
  refine sat_bind rfl ?_
  dsimp only
  refine sat_ite (fun hc => ?_) fun hc => ?_
  · have hnl := hc.2.2
    rw [(h.cached i ⟨hr, hc.2.1⟩).1] at hnl
    have hl : (s.setLock i true).Locked i := ⟨hr, hc.2.1⟩
    refine (sat_acquiresleep hD).bind ?_
    rintro - _ ⟨rfl, -⟩
    refine (sat_itrunc (h.setLock true) hl).bind fun _ s₁ ht => sat_put ?_
    refine sat_bind rfl (sat_bind rfl (sat_bind rfl (sat_bind rfl (sat_of_eq rfl ?_))))
    have href : (s₁.itable i).ref = 1 := by
      rw [ht.frame.itable, update_self]
      exact hc.1
    refine And.imp_right (fun (hf : Freed i (s.setLock i true) _) => .inl ⟨hc.1, hc.2.1, hnl, hf.of_setLock⟩) ?_
    refine ht.freed hl rfl rfl rfl rfl ?_ rfl
    simp only [Fs.put, update_self, update_idem, href]
  · refine sat_bind rfl (sat_of_eq rfl ⟨h.setRef hr _, .inr ⟨?_, rfl⟩⟩)
    rintro ⟨h1, h2, h3⟩
    refine hc ⟨h1, h2, ?_⟩
    rwa [(h.cached i ⟨hr, h2⟩).1]

omit [Superblock] in
theorem iunlock_eq (hl : s.locked i = true) (hr : 0 < (s.itable i).ref) :
    iunlock i s = .ok ((), s.setLock i false) := by
  have hc : ¬ (s.locked i = false ∨ (s.itable i).ref < 1) := by simp [hl]; omega
  show (if _ then _ else _ : F Unit) s = _
  rw [if_neg hc]
  rfl

/-- A reference is dropped that is not the last one to an inode without links. -/
theorem iput_eq (hc : ¬ ((s.itable i).ref = 1 ∧ (s.itable i).valid = true ∧ (s.itable i).d.nlink = 0)) :
    iput i s = .ok ((), s.setRef i ((s.itable i).ref - 1)) := by
  show (if _ then _ else _ : F Unit) s = _
  rw [if_neg hc]
  rfl

/-! ## New inodes -/

omit [Superblock] in
theorem findFreeInode_eq_some {dinode : Nat → Dinode} {k m : Nat} (h : findFreeInode dinode k m = some n) :
    (dinode n).type = .free ∧ m ≤ n ∧ n < m + k := by
  induction k generalizing m with
  | zero => cases h
  | succ k ih =>
    unfold findFreeInode at h
    split at h
    · next hm =>
        cases h
        exact ⟨hm, Nat.le_refl _, by omega⟩
    · have := ih h
      exact ⟨this.1, by omega, by omega⟩

/-- Inode `n` is marked as allocated on disk. -/
def alloc (s : Fs) (n : Nat) (type : IType) : Fs := { s with
  dinode := update s.dinode n ⟨type, 0, 0, 0, 0, fun _ => 0⟩
  logged := insert (iblock n) s.logged }

theorem Wf.alloc (h : Wf s) (hn : (s.dinode n).type = .free) (t : IType) : Wf (s.alloc n t) := by
  have hself : (s.alloc n t).dinode n = ⟨t, 0, 0, 0, 0, fun _ => 0⟩ := update_self ..
  have hother : ∀ m, m ≠ n → (s.alloc n t).dinode m = s.dinode m := fun m hm => update_of_ne hm _ _
  refine ⟨?_, fun m htm => ?_, fun m bn htm hb => ?_, fun j hj => ?_, h.distinct⟩
  · refine h.owned.congr fun x => ?_
    have hptr : ∀ p, ((s.alloc n t).dinode n).ptr s.data p = 0 := by
      rw [hself]
      exact Dinode.ptr_eq_zero fun _ _ => rfl
    exact (owner_eq_vacated hother (.inr hptr) x).trans (owner_eq_vacated (fun _ _ => rfl) (.inl hn) x).symm
  · by_cases hm : m = n
    · rw [hm, hself]
      exact Nat.zero_le _
    · rw [hother m hm] at htm ⊢
      exact h.size_le m htm
  · by_cases hm : m = n
    · rw [hm, hself] at hb
      exact absurd hb (Nat.not_lt_zero _)
    · rw [hother m hm] at htm hb ⊢
      exact h.mapped m bn htm hb
  · have hj' : s.Locked j := ⟨hj.ref, hj.valid⟩
    have hne : (s.itable j).inum ≠ n := fun e => h.type_ne hj' (e ▸ hn)
    refine ⟨(h.cached j hj').1.trans (hother _ hne).symm, (h.cached j hj').2⟩

/-- `ialloc`. -/
theorem sat_ialloc (hA : A .igetNoInodes) {t : IType} :
    Sat A (ialloc t) s fun r s' => (r = none ∧ s' = s) ∨
      ∃ i n, r = some i ∧ (s.dinode n).type = .free ∧ 1 ≤ n ∧ n < Superblock.ninodes ∧
        Got n (s.alloc n t) i s' := by
  refine sat_bind rfl ?_
  split
  · next n hn =>
      obtain ⟨hfree, h1, h2⟩ := findFreeInode_eq_some hn
      refine sat_bind rfl (sat_bind rfl ((sat_iget hA).bind fun i s' hg => ?_))
      exact sat_pure (.inr ⟨i, n, rfl, hfree, h1, by omega, hg⟩)
  · exact sat_pure (.inl ⟨rfl, rfl⟩)

end

end Fs

end MiniOS
