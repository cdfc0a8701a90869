import MiniOS.Dir.Entries
import MiniOS.Dir.Names
import MiniOS.Fs.Held
import MiniOS.Fs.Image
import MiniOS.Fs.Room
import MiniOS.Lib.Runs
import MiniOS.Lib.SlotMap

/-!
# MiniOS.Dir.Map

A directory is a finite map from names to inode numbers, on which `dirlookup`,
`dirlink` and `sys_unlink` are lookup, insertion and removal.  The slots of the
directory hold the map (`SlotMap.Represents`); what the calls do is given by
what they do to the slots.
-/

namespace MiniOS

open Checked Runs SlotMap
open Function (update update_self update_of_ne update_eq_self)

namespace Fs

/-- The contents of inode `n`, as a directory, are the same in both states. -/
structure SameDir (n : Nat) (s s' : Fs) : Prop where
  type : (s'.dinode n).type = (s.dinode n).type
  size : (s'.dinode n).size = (s.dinode n).size
  byte : ∀ o, (s'.dinode n).byteAt s'.data o = (s.dinode n).byteAt s.data o

namespace SameDir

variable {n : Nat} {s s' s'' : Fs}

theorem trans (h : SameDir n s s') (h' : SameDir n s' s'') : SameDir n s s'' :=
  ⟨h'.type.trans h.type, h'.size.trans h.size, fun o => (h'.byte o).trans (h.byte o)⟩

theorem of_eq (hd : s'.dinode = s.dinode) (hb : s'.data = s.data) : SameDir n s s' :=
  ⟨by rw [hd], by rw [hd], fun o => by rw [hd, hb]⟩

theorem slot (h : SameDir n s s') : s'.slot n = s.slot n := by
  funext k
  have hentry : s'.entry n k = s.entry n k := by
    unfold entry Dinode.bytes
    simp only [h.byte]
  rw [Fs.slot, Fs.slot, h.type, h.size, hentry]

end SameDir

section
variable [Superblock] {A : Panic → Prop} {dp i : Fin ninode} {s s' : Fs} {k : Nat}

/-! ## Writing an entry -/

variable {off n : Nat} {src : List Byte}

theorem Stored.type_eq {fails : Nat → Option Nat} {off' : Nat}
    (h : Stored dp fails off src s off' s') :
    (s'.dinode (s.itable dp).inum).type = (s.dinode (s.itable dp).inum).type := by
  obtain ⟨addrs, ha⟩ := h.inode
  rw [ha]

theorem Stored.nlink_eq {fails : Nat → Option Nat} {off' : Nat}
    (h : Stored dp fails off src s off' s') :
    (s'.dinode (s.itable dp).inum).nlink = (s.dinode (s.itable dp).inum).nlink := by
  obtain ⟨addrs, hd⟩ := h.inode
  rw [hd]

theorem Stored.size_dinode {fails : Nat → Option Nat} {off' : Nat}
    (h : Stored dp fails off src s off' s') :
    (s'.dinode (s.itable dp).inum).size = max (s.dinode (s.itable dp).inum).size off' := by
  obtain ⟨addrs, ha⟩ := h.inode
  rw [ha]

/-- Nothing was written. -/
theorem Stored.sameDir (h : Stored dp (fun _ => none) off src s off s')
    (hoff : off ≤ (s.dinode (s.itable dp).inum).size) : SameDir (s.itable dp).inum s s' := by
  refine ⟨h.type_eq, by rw [h.size_dinode, Nat.max_eq_left hoff], fun o => h.byte o ?_⟩
  rintro ⟨hlo, hlt | ⟨k, hk, -⟩⟩
  · omega
  · cases hk

/-- The 16 bytes `bs` are now the entry in slot `k`. -/
theorem Stored.slot {bs : List Byte} (hbs : bs.length = sizeofDirent)
    (h : Stored dp (fun _ => none) (sizeofDirent * k) bs s (sizeofDirent * k + sizeofDirent) s')
    (ht : (s.dinode (s.itable dp).inum).type = .dir)
    (hdvd : sizeofDirent ∣ (s.dinode (s.itable dp).inum).size)
    (hk : sizeofDirent * k ≤ (s.dinode (s.itable dp).inum).size) :
    s'.slot (s.itable dp).inum = update (s.slot (s.itable dp).inum) k (Dirent.decode bs).live := by
  have hsize := h.size_dinode
  funext j
  by_cases hj : j = k
  · subst hj
    have hentry : s'.entry (s.itable dp).inum j = .decode bs := by
      refine congrArg Dirent.decode (List.ext_getElem ?_ fun o h1 h2 => ?_)
      · rw [Dinode.bytes, List.length_map, List.length_range, hbs]
      · simp only [Dinode.bytes, List.length_map, List.length_range] at h1
        simp only [Dinode.bytes, List.getElem_map, List.getElem_range]
        rw [h.written _ (by omega) (by omega), Nat.add_sub_cancel_left, List.getD_eq_getElem _ _ h2]
    rw [update_self, Fs.slot, if_pos ⟨h.type_eq.trans ht, by omega⟩, hentry]
  · rw [update_of_ne hj]
    have hentry : s'.entry (s.itable dp).inum j = s.entry (s.itable dp).inum j := by
      refine congrArg Dirent.decode (List.map_congr_left fun o ho => h.byte _ ?_)
      have ho := List.mem_range.mp ho
      rintro ⟨hlo, hlt | ⟨_, hk', -⟩⟩
      · simp only [sizeofDirent] at *; omega
      · cases hk'
    have hfit : sizeofDirent * j + sizeofDirent ≤ (s'.dinode (s.itable dp).inum).size ↔
        sizeofDirent * j + sizeofDirent ≤ (s.dinode (s.itable dp).inum).size := by
      rw [hsize]
      simp only [sizeofDirent] at *; omega
    rw [Fs.slot, Fs.slot, h.type_eq, hentry]
    simp only [hfit]

/-- The directory can get one more slot. -/
def CanGrow (s : Fs) (n : Nat) : Prop :=
  (s.dinode n).size + sizeofDirent ≤ maxFile * bsize ∧
    (s.dinode n).blocksNeeded s.data ((s.dinode n).size / bsize) ≤ s.freeBlocks

instance {s : Fs} {n : Nat} : Decidable (s.CanGrow n) := inferInstanceAs (Decidable (_ ∧ _))

/-- The directory has an empty slot, or can get one. -/
def HasRoom (s : Fs) (n : Nat) : Prop :=
  (∃ k, sizeofDirent * k < (s.dinode n).size ∧ s.slot n k = none) ∨ s.CanGrow n

/-- `writei` of an entry to slot `k`, which may be the one after the last. -/
theorem sat_writeEntry (h : Wf s) (hl : s.Locked dp) (ht : (s.dinode (s.itable dp).inum).type = .dir)
    (hdvd : sizeofDirent ∣ (s.dinode (s.itable dp).inum).size)
    (hk : sizeofDirent * k ≤ (s.dinode (s.itable dp).inum).size) {bs : List Byte}
    (hbs : bs.length = sizeofDirent) :
    Sat A (writei dp noFailW (sizeofDirent * k) bs) s fun r s' => Wf s' ∧ Frame dp s s' ∧ s'.locked = s.locked ∧
      sizeofDirent ∣ (s'.dinode (s.itable dp).inum).size ∧
      (s'.dinode (s.itable dp).inum).type = .dir ∧
      (s'.dinode (s.itable dp).inum).nlink = (s.dinode (s.itable dp).inum).nlink ∧
      if sizeofDirent * k < (s.dinode (s.itable dp).inum).size ∨ s.CanGrow (s.itable dp).inum then
        r = some sizeofDirent ∧ s'.slot (s.itable dp).inum =
          update (s.slot (s.itable dp).inum) k (Dirent.decode bs).live
      else r ≠ some sizeofDirent ∧ SameDir (s.itable dp).inum s s' := by
  have hsize := h.size_le _ (h.type_ne hl)
  have hfit : sizeofDirent * k % bsize + bs.length ≤ bsize := by
    rw [hbs]
    simp only [sizeofDirent, bsize]
    omega
  have hroom : (sizeofDirent * k < (s.dinode (s.itable dp).inum).size ∨ s.CanGrow (s.itable dp).inum) ↔
      sizeofDirent * k + bs.length ≤ maxFile * bsize ∧
        (s.dinode (s.itable dp).inum).blocksNeeded s.data (sizeofDirent * k / bsize) ≤ s.freeBlocks := by
    rw [hbs]
    rcases Nat.lt_or_eq_of_le hk with hlt | heq
    · have hmapped := h.mapped _ (sizeofDirent * k / bsize) (h.type_ne hl)
        (Nat.lt_of_le_of_lt (Nat.div_mul_le_self _ _) hlt)
      have hneed : (s.dinode (s.itable dp).inum).blocksNeeded s.data (sizeofDirent * k / bsize) = 0 :=
        if_pos hmapped
      rw [hneed]
      refine ⟨fun _ => ⟨?_, Nat.zero_le _⟩, fun _ => .inl hlt⟩
      simp only [sizeofDirent] at *; omega
    · rw [heq]
      exact ⟨fun hc => hc.resolve_left (Nat.lt_irrefl _), .inr⟩
  have hne : bs ≠ [] := List.ne_nil_of_length_pos (by rw [hbs]; decide)
  refine ((sat_and (sat_writei h hl) (sat_writei_room h hl hne hk hfit)).and_always (within_writei s)).mono ?_
  rintro r s' ⟨⟨hw, hr⟩, hsame⟩
  rw [← hroom, hbs] at hr
  rcases hw with ⟨rfl, rfl, -⟩ | ⟨off', rfl, -, hst⟩
  · refine ⟨h, ?_, rfl, hdvd, ht, rfl, ?_⟩
    · exact ⟨fun _ _ => rfl, by rw [← (h.cached dp hl).1, update_eq_self], fun _ _ _ _ => rfl⟩
    · rw [if_neg fun hc => nomatch hr.mpr hc]
      exact ⟨nofun, .of_eq rfl rfl⟩
  · refine ⟨hst.wf, hst.frame, hsame.locked, ?_, hst.type_eq.trans ht, hst.nlink_eq, ?_⟩
    all_goals
      -- an entry does not cross the end of a block
      have hend : off' = sizeofDirent * k ∨ off' = sizeofDirent * k + sizeofDirent := by
        have hle := hst.le
        have hle' := hst.le_add
        have hal := hst.aligned
        rw [hbs] at hle' hal
        simp only [sizeofDirent, bsize] at *; omega
    · rw [hst.size_dinode]
      rcases hend with rfl | rfl
      · rwa [Nat.max_eq_left hk]
      · simp only [sizeofDirent] at *; omega
    · rcases hend with rfl | rfl
      · rw [Nat.sub_self] at hr ⊢
        rw [if_neg fun hc => nomatch hr.mpr hc]
        exact ⟨nofun, hst.sameDir hk⟩
      · rw [Nat.add_sub_cancel_left] at hr ⊢
        rw [if_pos (hr.mp rfl)]
        exact ⟨rfl, hst.slot hbs ht hdvd hk⟩

/-! ## References -/

section
omit [Superblock]

theorem Got.setLock (h : Got n s i s') (j : Fin ninode) (b : Bool) :
    Got n (s.setLock j b) i (s'.setLock j b) := by
  cases h with
  | again hr hn => exact .again (s := s.setLock j b) hr hn
  | new hr hn => exact .new (s := s.setLock j b) hr hn

/-- `iget` changes one entry of the inode table. -/
theorem Got.frame (h : Got n s i s') : s'.dinode = s.dinode ∧ s'.data = s.data ∧
    s'.locked = s.locked ∧ 0 < (s'.itable i).ref ∧ ∀ j, j ≠ i → s'.itable j = s.itable j := by
  cases h with
  | again hr hn =>
    refine ⟨rfl, rfl, rfl, ?_, fun j hj => update_of_ne hj _ _⟩
    simp only [setRef, update_self]
    omega
  | new hr hn =>
    refine ⟨rfl, rfl, rfl, ?_, fun j hj => update_of_ne hj _ _⟩
    simp only [take, update_self]
    decide

end

/-- Nothing on the disk has changed, no lock, and no entry that is in use. -/
structure Undisturbed (s s' : Fs) : Prop where
  wf : Wf s'
  dinode : s'.dinode = s.dinode
  data : s'.data = s.data
  locked : s'.locked = s.locked
  entry : ∀ j, 0 < (s.itable j).ref → s'.itable j = s.itable j

/-- `iput` of what `iget` gave never frees an inode. -/
theorem Got.sat_iput (h : Wf s) (hg : Got n s i s') :
    Sat A (iput i) s' fun _ s'' => Undisturbed s s'' := by
  have hw := hg.wf h
  cases hg with
  | again hr hn =>
    refine sat_of_eq (iput_eq fun hc => ?_) ⟨hw.setRef ?_ _, rfl, rfl, rfl, fun j hj => ?_⟩
    · simp only [setRef, update_self] at hc
      omega
    · simp only [setRef, update_self]
      omega
    · by_cases hji : j = i
      · subst hji
        simp only [setRef, update_self, Nat.add_sub_cancel]
      · simp only [setRef, update_of_ne hji]
  | new hr hn =>
    refine sat_of_eq (iput_eq fun hc => ?_) ⟨hw.setRef ?_ _, rfl, rfl, rfl, fun j hj => ?_⟩
    · simp only [take, update_self, Bool.false_eq_true, false_and, and_false] at hc
    · simp only [take, update_self]
      decide
    · have hji : j ≠ i := by
        rintro rfl
        omega
      simp only [setRef, take, update_of_ne hji]

theorem Wf.load_eq (h : Wf s) (hl : s.Locked i) : s.load i = s := by
  rw [Fs.load, ← (h.cached i hl).1, ← hl.valid]
  simp only [update_eq_self]

/-! ## The map -/

/-- The inode in entry `dp` is in use in both states, with the same contents. -/
structure Stays (dp : Fin ninode) (s s' : Fs) : Prop where
  wf : Wf s'
  held : s'.Locked dp
  inum : (s'.itable dp).inum = (s.itable dp).inum
  same : SameDir (s.itable dp).inum s s'

theorem Stays.trans {s'' : Fs} (h : Stays dp s s') (h' : Stays dp s' s'') : Stays dp s s'' :=
  ⟨h'.wf, h'.held, h'.inum.trans h.inum, h.same.trans (h.inum ▸ h'.same)⟩

/-- The entry in the inode table is kept. -/
theorem Stays.of_entry (hl : s.Locked dp) (hw : Wf s') (he : s'.itable dp = s.itable dp)
    (hs : SameDir (s.itable dp).inum s s') : Stays dp s s' :=
  ⟨hw, ⟨by rw [he]; exact hl.ref, by rw [he]; exact hl.valid⟩, by rw [he], hs⟩

theorem Undisturbed.stays (hu : Undisturbed s s') (hl : s.Locked dp) : Stays dp s s' :=
  .of_entry hl hu.wf (hu.entry dp hl.ref) (.of_eq hu.dinode hu.data)

/-- The directory in entry `dp` of the inode table holds the map `M`. -/
structure Directory (dp : Fin ninode) (s : Fs) (M : Name → Option Nat) : Prop where
  wf : Wf s
  held : s.Locked dp
  type : (s.dinode (s.itable dp).inum).type = .dir
  dvd : sizeofDirent ∣ (s.dinode (s.itable dp).inum).size
  map : Represents (s.slot (s.itable dp).inum) M

namespace Directory

variable {M : Name → Option Nat}

theorem stays (h : Directory dp s M) (hs : Stays dp s s') : Directory dp s' M := by
  refine ⟨hs.wf, hs.held, ?_, ?_, ?_⟩
  · rw [hs.inum, hs.same.type, h.type]
  · rw [hs.inum, hs.same.size]
    exact h.dvd
  · rw [hs.inum, hs.same.slot]
    exact h.map

/-- `dirlookup` finds the slot of the name. -/
theorem sat_dirlookup (h : Directory dp s M) (name : Name)
    (hfull : (∀ j, 0 < (s.itable j).ref) → A .igetNoInodes) :
    Sat A (Fs.dirlookup dp name) s fun r s' =>
      match r with
      | none => M name = none ∧ s' = s
      | some (i, off) => ∃ k m, s.slot (s.itable dp).inum k = some (name, m) ∧ off = sizeofDirent * k ∧
          Got m s i s' := by
  refine (Fs.sat_dirlookup h.wf h.held h.type hfull fun hc => absurd h.dvd hc).mono fun r s' hr => ?_
  cases hlk : s.lookup (s.itable dp).inum name with
  | none =>
    rw [hlk] at hr
    obtain ⟨rfl, rfl⟩ := hr
    refine ⟨?_, rfl⟩
    cases hM : M name with
    | none => rfl
    | some m =>
      obtain ⟨k, hk⟩ := (h.map.iff name m).mp hM
      exact absurd hk (lookup_eq_none hlk)
  | some r' =>
    obtain ⟨k, m⟩ := r'
    rw [hlk] at hr
    obtain ⟨i, rfl, hg⟩ := hr
    exact ⟨k, m, lookup_eq_some hlk, rfl, hg⟩

/-- The entry in slot `k` is replaced. -/
theorem sat_write {k : Nat} (h : Directory dp s M)
    (hk : sizeofDirent * k ≤ (s.dinode (s.itable dp).inum).size) {bs : List Byte}
    (hbs : bs.length = sizeofDirent) :
    Sat A (writei dp noFailW (sizeofDirent * k) bs) s fun r s' => Wf s' ∧ Frame dp s s' ∧ s'.locked = s.locked ∧
      if sizeofDirent * k < (s.dinode (s.itable dp).inum).size ∨ s.CanGrow (s.itable dp).inum then
        r = some sizeofDirent ∧ s'.slot (s.itable dp).inum =
          update (s.slot (s.itable dp).inum) k (Dirent.decode bs).live ∧
        ∀ M', Represents (s'.slot (s.itable dp).inum) M' → Directory dp s' M'
      else r ≠ some sizeofDirent ∧ Stays dp s s' := by
  refine (sat_writeEntry h.wf h.held h.type h.dvd hk hbs).mono ?_
  rintro r s' ⟨hw, hf, hlock, hdvd, ht, -, hr⟩
  have hheld := hf.locked.mpr h.held
  refine ⟨hw, hf, hlock, ?_⟩
  split at hr
  · next hroom =>
      rw [if_pos hroom]
      refine ⟨hr.1, hr.2, fun M' hM' => ?_⟩
      rw [← hf.inum] at hdvd ht hM'
      exact ⟨hw, hheld, ht, hdvd, hM'⟩
  · next hroom =>
      rw [if_neg hroom]
      exact ⟨hr.1, hw, hheld, hf.inum, hr.2⟩

/-- `dirlink` puts the name in an empty slot, or fails and changes nothing of the directory. -/
theorem sat_dirlink (h : Directory dp s M) (e : PathElem) {inum : Nat} (h0 : 0 < inum) (hlt : inum < 2 ^ 16)
    (hfull : (∀ j, 0 < (s.itable j).ref) → A .igetNoInodes) :
    Sat A (Fs.dirlink dp e.name inum) s fun r s' =>
      (s'.itable dp).inum = (s.itable dp).inum ∧ s'.locked = s.locked ∧
      (r = false ↔ M e.name ≠ none ∨ ¬ s.HasRoom (s.itable dp).inum) ∧ (r = false → Stays dp s s') ∧
      SameOthers e.name (s.slot (s.itable dp).inum) (s'.slot (s.itable dp).inum) ∧
      Directory dp s' (if r = true then update M e.name (some inum) else M) := by
  refine (h.sat_dirlookup e.name hfull).bind fun r s₁ hr => ?_
  cases r with
  | some r =>
    obtain ⟨i, off⟩ := r
    obtain ⟨k, m, hslot, -, hg⟩ := hr
    refine (hg.sat_iput h.wf).bind fun _ s₂ hu => sat_pure ?_
    have hs := hu.stays h.held
    refine ⟨hs.inum, hu.locked, ?_, fun _ => hs, ?_, h.stays hs⟩
    · rw [h.map.of_slot hslot]
      simp
    · rw [hs.same.slot]
      exact fun _ _ _ _ => Iff.rfl
  | none =>
    obtain ⟨hM, rfl⟩ := hr
    refine sat_bind rfl ?_
    rw [(h.wf.cached dp h.held).1]
    have hloop := sat_emptyLoop (A := A) (k := 0) h.wf h.held h.type (fun hc => absurd h.dvd hc)
      (Nat.zero_le _) (Nat.lt_succ_of_le (Nat.sub_le _ 0))
    rw [Nat.mul_zero] at hloop
    refine hloop.bind ?_
    rintro _ s₂ ⟨rfl, k, rfl, hk, hempty, hbefore⟩
    -- there is an empty slot exactly if the loop stopped before the end
    have hroom : s₂.HasRoom (s₂.itable dp).inum ↔
        sizeofDirent * k < (s₂.dinode (s₂.itable dp).inum).size ∨ s₂.CanGrow (s₂.itable dp).inum := by
      refine or_congr_left ⟨fun ⟨l, hl, hnone⟩ => ?_, fun hlt => ⟨k, hlt, hempty⟩⟩
      by_contra hge
      refine hbefore l (Nat.zero_le _) ?_ hnone
      simp only [sizeofDirent] at *; omega
    refine (h.sat_write hk (Dirent.length_encode ⟨inum, e.name⟩)).bind ?_
    rintro r s₃ ⟨hw, hf, hlock, hr⟩
    refine sat_pure ?_
    rw [hroom]
    split at hr
    · next hc =>
        obtain ⟨rfl, hslot, hdir⟩ := hr
        rw [e.decode_encode hlt, Dirent.live, if_neg (by simp only; omega)] at hslot
        have hmap := h.map.insert (v := inum) hM hempty
        rw [← hslot] at hmap
        refine ⟨hf.inum, hlock, by simp [hM, hc], by simp, ?_, by simpa using hdir _ hmap⟩
        rw [hslot]
        exact sameOthers_insert hempty
    · next hc =>
        obtain ⟨hr, hs⟩ := hr
        refine ⟨hf.inum, hlock, by simp [hr, hc], fun _ => hs, ?_, by simpa [hr] using h.stays hs⟩
        rw [hs.same.slot]
        exact fun _ _ _ _ => Iff.rfl

/-! ## Removal -/

/-- `iunlockput(dp)` where others have a reference too. -/
theorem sat_iunlockput (h : Directory dp s M) (hl : s.locked dp = true) (hr : 1 < (s.itable dp).ref) :
    Sat A (iunlockput dp) s fun _ s' => Stays dp s s' ∧
      s' = (s.setLock dp false).setRef dp ((s.itable dp).ref - 1) := by
  refine sat_bind (iunlock_eq hl h.held.ref) (sat_of_eq (iput_eq fun hc => ?_) ⟨?_, rfl⟩)
  · have : (s.itable dp).ref = 1 := hc.1
    omega
  · have hentry : ∀ r, (((s.setLock dp false).setRef dp r).itable dp) = { s.itable dp with ref := r } :=
      fun r => update_self ..
    have hpos : 0 < (s.itable dp).ref - 1 := by omega
    refine ⟨(h.wf.setLock (i := dp) false).setRef h.held.ref ((s.itable dp).ref - 1), ⟨?_, ?_⟩, ?_, .of_eq rfl rfl⟩
    · rwa [hentry]
    · rw [hentry]
      exact h.held.valid
    · rw [hentry]

/-- A call on another inode. -/
theorem frame_other (h : Directory dp s M) (hi : s.Locked i) (hne : i ≠ dp) (hw : Wf s') (hf : Frame i s s') :
    Stays dp s s' := by
  have hn : (s.itable dp).inum ≠ (s.itable i).inum := fun e =>
    hne (h.wf.distinct i dp hi.ref h.held.ref e.symm)
  have hd := hf.others _ hn
  refine .of_entry h.held hw (by rw [hf.itable, update_of_ne hne.symm]) ⟨by rw [hd], by rw [hd], fun o => ?_⟩
  exact hf.byte _ o hn (by rw [h.type]; decide)

/-- The last reference to another inode is dropped. -/
theorem freed_other (h : Directory dp s M) (hi : 0 < (s.itable i).ref) (hne : i ≠ dp) (hw : Wf s')
    (hf : Freed i s s') : Stays dp s s' := by
  have hn : (s.itable dp).inum ≠ (s.itable i).inum := fun e => hne (h.wf.distinct i dp hi h.held.ref e.symm)
  have hd := hf.others _ hn
  obtain ⟨d, ht⟩ := hf.itable
  refine .of_entry h.held hw (by rw [ht, update_of_ne hne.symm]) ⟨by rw [hd], by rw [hd], fun o => ?_⟩
  exact hf.byte _ o hn (by rw [h.type]; decide)

/-- The link count of the directory is written. -/
theorem put_nlink (h : Directory dp s M) (nlink : Int) :
    Stays dp s (s.put dp { (s.itable dp).d with nlink := nlink }) := by
  have hd : (s.put dp { (s.itable dp).d with nlink := nlink }).dinode (s.itable dp).inum =
      { s.dinode (s.itable dp).inum with nlink := nlink } := by
    rw [put_dinode, (h.wf.cached dp h.held).1]
  have hf := Frame.put (s := s) (i := dp) { (s.itable dp).d with nlink := nlink }
  exact ⟨h.wf.put h.held rfl rfl rfl, hf.locked.mpr h.held, hf.inum,
    ⟨by rw [hd], by rw [hd], fun o => by rw [hd]; rfl⟩⟩

/-- `iunlockput` of an inode that has links. -/
theorem sat_iunlockput_linked (hr : 0 < (s.itable i).ref) (hl : s.locked i = true)
    (hn : (s.itable i).d.nlink ≠ 0) :
    Sat A (iunlockput i) s fun _ s' => s' = (s.setLock i false).setRef i ((s.itable i).ref - 1) :=
  sat_bind (iunlock_eq hl hr) (sat_of_eq (iput_eq fun hc => hn hc.2.2) rfl)

/-- `iunlockput` of another inode. -/
theorem sat_iunlockput_other (h : Directory dp s M) (hi : s.Locked i) (hne : i ≠ dp) (hl : s.locked i = true)
    (hD : A .deadlock) : Sat A (iunlockput i) s fun _ s' => Stays dp s s' := by
  refine sat_bind (iunlock_eq hl hi.ref) ?_
  have hs : Stays dp s (s.setLock i false) := .of_entry h.held (h.wf.setLock false) rfl (.of_eq rfl rfl)
  refine (sat_iput hs.wf hi.ref fun _ => hD).mono ?_
  rintro - s' ⟨hw, ⟨-, -, -, hf⟩ | ⟨-, rfl⟩⟩
  · exact hs.trans ((h.stays hs).freed_other hi.ref hne hw hf)
  · exact hs.trans (.of_entry hs.held hw (update_of_ne hne.symm _ _) (.of_eq rfl rfl))

/-- The end of `sys_unlink`, after the entry is cleared. -/
theorem sat_unlink_end (h : Directory dp s M) (hi : s.Locked i) (hne : i ≠ dp) (hl : s.locked dp = true)
    (hli : s.locked i = true) (hr : 1 < (s.itable dp).ref) (hD : A .deadlock) :
    Sat A (do
      iunlockput dp
      modifyInode i fun d => { d with nlink := toShort (d.nlink - 1) }
      iupdate i
      iunlockput i) s fun _ s' => Stays dp s s' := by
  refine (h.sat_iunlockput hl hr).bind ?_
  rintro - s₁ ⟨hs₁, he⟩
  have hi₁ : s₁.itable i = s.itable i := by rw [he]; exact update_of_ne hne _ _
  have hli₁ : s₁.locked i = true := by rw [he]; exact (update_of_ne hne _ _).trans hli
  have hlock₁ : s₁.Locked i := ⟨by rw [hi₁]; exact hi.ref, by rw [hi₁]; exact hi.valid⟩
  have h₁ := h.stays hs₁
  refine sat_put ?_
  have hf := Frame.put (s := s₁) (i := i) { (s₁.itable i).d with nlink := toShort ((s₁.itable i).d.nlink - 1) }
  have hs₂ : Stays dp s₁ (s₁.put i { (s₁.itable i).d with nlink := toShort ((s₁.itable i).d.nlink - 1) }) :=
    h₁.frame_other hlock₁ hne (h₁.wf.put hlock₁ rfl rfl rfl) hf
  refine ((h₁.stays hs₂).sat_iunlockput_other (hf.locked.mpr hlock₁) hne hli₁ hD).mono fun _ s' hs₃ => ?_
  exact (hs₁.trans hs₂).trans hs₃

/-- `sys_unlink` clears the slot. -/
theorem sat_unlinkEntry {k m : Nat} {name : Name} (h : Directory dp s M) (hi : s.Locked i) (hne : i ≠ dp)
    (hl : s.locked dp = true) (hli : s.locked i = true) (hr : 1 < (s.itable dp).ref) (hD : A .deadlock)
    (hk : s.slot (s.itable dp).inum k = some (name, m)) :
    Sat A (unlinkEntry dp i (sizeofDirent * k)) s fun _ s' => (s'.itable dp).inum = (s.itable dp).inum ∧
      s'.slot (s.itable dp).inum = update (s.slot (s.itable dp).inum) k none ∧
      Directory dp s' (update M name none) := by
  have hlt : sizeofDirent * k < (s.dinode (s.itable dp).inum).size := by
    have := slot_lt hk
    simp only [sizeofDirent] at *; omega
  refine (h.sat_write (Nat.le_of_lt hlt) List.length_replicate).bind ?_
  rintro r s₁ ⟨hw, hf, hlock, hs⟩
  rw [if_pos (.inl hlt)] at hs
  obtain ⟨rfl, hslot, hdir⟩ := hs
  have hnone : (Dirent.decode (List.replicate sizeofDirent 0)).live = none := by decide
  rw [hnone] at hslot
  have hmap := h.map.erase hk
  rw [← hslot] at hmap
  have h₁ := hdir _ hmap
  rw [if_neg (by simp)]
  have hi₁ : s₁.itable i = s.itable i := by rw [hf.itable, update_of_ne hne]
  have hr₁ : (s₁.itable dp).ref = (s.itable dp).ref := by rw [hf.itable, update_self]
  have hlock₁ := hf.locked.mpr hi
  rw [← hlock] at hl hli
  -- what is left keeps the directory as it is now
  have hfin : ∀ s₂, Stays dp s₁ s₂ → s₂.itable i = s₁.itable i → s₂.locked = s₁.locked →
      (s₂.itable dp).ref = (s₁.itable dp).ref → Sat A (do
        iunlockput dp
        modifyInode i fun d => { d with nlink := toShort (d.nlink - 1) }
        iupdate i
        iunlockput i) s₂ fun _ s' => (s'.itable dp).inum = (s.itable dp).inum ∧
          s'.slot (s.itable dp).inum = update (s.slot (s.itable dp).inum) k none ∧
          Directory dp s' (update M name none) := by
    intro s₂ hs₂ hi₂ hlk₂ hr₂
    refine ((h₁.stays hs₂).sat_unlink_end (i := i) ⟨by rw [hi₂]; exact hlock₁.ref, by rw [hi₂]; exact hlock₁.valid⟩
      hne (by rwa [hlk₂]) (by rwa [hlk₂]) (by omega) hD).mono fun _ s' hs₃ => ?_
    have hs := hs₂.trans hs₃
    refine ⟨hs.inum.trans hf.inum, ?_, h₁.stays hs⟩
    rw [← hf.inum, hs.same.slot, hf.inum, hslot]
  refine sat_bind rfl (sat_ite (fun _ => sat_put (hfin _ (h₁.put_nlink _) ?_ rfl ?_)) fun _ => ?_)
  · exact update_of_ne hne _ _
  · simp only [Fs.put, update_self]
  · exact hfin s₁ ⟨hw, h₁.held, rfl, .of_eq rfl rfl⟩ rfl rfl rfl

/-- `sys_unlink` removes the name, or fails and changes nothing of the directory. -/
theorem sat_unlinkIn (h : Directory dp s M) (name : Name) (hu : s.locked dp = false) (hr : 1 < (s.itable dp).ref)
    (hA : ∀ e, e = .igetNoInodes ∨ e = .deadlock ∨ e = .ilockNoType ∨ e = .unlinkNlink ∨ e = .isdiremptyReadi →
      A e) :
    Sat A (unlinkIn dp name) s fun r s' => (s'.itable dp).inum = (s.itable dp).inum ∧
      (r = false → Stays dp s s') ∧ (r = true → M name ≠ none) ∧
      SameOthers name (s.slot (s.itable dp).inum) (s'.slot (s.itable dp).inum) ∧
      Directory dp s' (if r = true then update M name none else M) := by
  have hD : A .deadlock := hA _ (.inr (.inl rfl))
  -- a way out that changes nothing
  have hout : ∀ s', Stays dp s s' → (s'.itable dp).inum = (s.itable dp).inum ∧
      (false = false → Stays dp s s') ∧ (false = true → M name ≠ none) ∧
      SameOthers name (s.slot (s.itable dp).inum) (s'.slot (s.itable dp).inum) ∧
      Directory dp s' (if false = true then update M name none else M) := fun s' hs =>
    ⟨hs.inum, fun _ => hs, by simp, by rw [hs.same.slot]; exact fun _ _ _ _ => Iff.rfl, h.stays hs⟩
  refine (sat_ilock h.wf h.held.ref (fun _ => hD) fun ht => absurd ht (h.wf.type_ne h.held)).bind ?_
  rintro - s₁ ⟨rfl, -⟩
  rw [h.wf.load_eq h.held]
  have hs₁ : Stays dp s (s.setLock dp true) := .of_entry h.held (h.wf.setLock true) rfl (.of_eq rfl rfl)
  have h₁ := h.stays hs₁
  have hl₁ : (s.setLock dp true).locked dp = true := update_self ..
  refine sat_ite (fun _ => ?_) fun _ => ?_
  · refine (h₁.sat_iunlockput hl₁ hr).bind ?_
    rintro - s₂ ⟨hs₂, -⟩
    exact sat_pure (hout _ (hs₁.trans hs₂))
  refine (h₁.sat_dirlookup name fun _ => hA _ (.inl rfl)).bind fun r s₂ hr₂ => ?_
  cases r with
  | none =>
    obtain ⟨-, rfl⟩ := hr₂
    refine (h₁.sat_iunlockput hl₁ hr).bind ?_
    rintro - s₂ ⟨hs₂, -⟩
    exact sat_pure (hout _ (hs₁.trans hs₂))
  | some x =>
    obtain ⟨i, off⟩ := x
    obtain ⟨k, m, hk, rfl, hg⟩ := hr₂
    obtain ⟨hd₂, hb₂, hlk₂, hpos, hothers⟩ := hg.frame
    have hw₂ := hg.wf h₁.wf
    refine (sat_ilock_free hw₂ hpos (fun _ => hD) fun _ => hA _ (by simp)).bind ?_
    rintro - s₃ ⟨rfl, ht, hfree⟩
    -- the directory is locked, so the entry names another inode
    have hne : i ≠ dp := by
      rintro rfl
      rw [hlk₂, hl₁] at hfree
      cases hfree
    have hentry : s₂.itable dp = s.itable dp := hothers dp hne.symm
    generalize hs : (s₂.load i).setLock i true = s₃
    have he₃ : s₃.itable dp = s.itable dp := by
      rw [← hs]
      exact (update_of_ne hne.symm _ _).trans hentry
    have hi₃ : s₃.Locked i := by
      rw [← hs]
      constructor <;> simp only [Fs.setLock, Fs.load, update_self]
      exact hpos
    have hl₃ : s₃.locked dp = true ∧ s₃.locked i = true := by
      rw [← hs]
      refine ⟨(update_of_ne hne.symm _ _).trans ?_, update_self ..⟩
      exact (congrFun hlk₂ dp).trans hl₁
    have hs₃ : Stays dp s s₃ := by
      refine .of_entry h.held ?_ he₃ (.of_eq ?_ ?_)
      · rw [← hs]
        exact (hw₂.load hpos ht).setLock true
      · rw [← hs]
        exact hd₂
      · rw [← hs]
        exact hb₂
    have h₃ := h.stays hs₃
    have hr₃ : 1 < (s₃.itable dp).ref := by rwa [he₃]
    have hk₃ : s₃.slot (s₃.itable dp).inum k = some (name, m) := by
      rw [hs₃.inum, hs₃.same.slot]
      exact hk
    have hend : Sat A (do unlinkEntry dp i (sizeofDirent * k); return true) s₃ fun r s' =>
        (s'.itable dp).inum = (s.itable dp).inum ∧ (r = false → Stays dp s s') ∧ (r = true → M name ≠ none) ∧
        SameOthers name (s.slot (s.itable dp).inum) (s'.slot (s.itable dp).inum) ∧
        Directory dp s' (if r = true then update M name none else M) := by
      refine (h₃.sat_unlinkEntry hi₃ hne hl₃.1 hl₃.2 hr₃ hD hk₃).bind ?_
      rintro - s' ⟨hn, hslot, hdir⟩
      rw [hs₃.inum] at hn hslot
      refine sat_pure ⟨hn, by simp, fun _ => ?_, ?_, hdir⟩
      · rw [h.map.of_slot hk]
        exact Option.some_ne_none _
      · rw [hslot, hs₃.same.slot]
        exact sameOthers_erase hk
    refine sat_bind rfl (sat_ite (fun _ => sat_throw_bind (hA _ (by simp))) fun hnl => sat_bind rfl ?_)
    refine sat_ite (fun hdir => ?_) fun _ => hend
    rw [(h₃.wf.cached i hi₃).1] at hdir
    refine (sat_isdirempty h₃.wf hi₃ hdir fun _ => hA _ (by simp)).bind ?_
    rintro r s₄ ⟨rfl, -⟩
    refine sat_ite (fun _ => ?_) fun _ => hend
    refine (sat_iunlockput_linked hi₃.ref hl₃.2 (by omega)).bind ?_
    rintro - s₅ rfl
    have hs₅ : Stays dp s₄ ((s₄.setLock i false).setRef i ((s₄.itable i).ref - 1)) :=
      .of_entry h₃.held ((h₃.wf.setLock false).setRef hi₃.ref _) (update_of_ne hne.symm _ _)
        (.of_eq rfl rfl)
    refine ((h₃.stays hs₅).sat_iunlockput ?_ ?_).bind ?_
    · exact (update_of_ne hne.symm _ _).trans hl₃.1
    · simp only [setRef, update_of_ne hne.symm]
      exact hr₃
    · rintro - s₆ ⟨hs₆, -⟩
      exact sat_pure (hout _ ((hs₃.trans hs₅).trans hs₆))

end Directory

/-! ## Sequences of calls -/

/-- A number that a directory entry can hold for an inode. -/
structure Inum where
  val : Nat
  pos : 0 < val
  lt : val < 2 ^ 16

/-- A call on a directory. -/
inductive DirOp
  | dirlink (name : PathElem) (inum : Inum)
  | dirlookup (name : PathElem)
  | unlink (name : PathElem)

inductive Outcome
  | failed
  | done
  | found (inum : Nat)
deriving DecidableEq

/-- The name that a call is about. -/
def DirOp.name : DirOp → Name
  | .dirlink e _ | .dirlookup e | .unlink e => e.name

/-- A call by a process that has a reference to the directory. -/
def DirOp.perform (dp : Fin ninode) : DirOp → F Outcome
  | .dirlink e inum => do
      ilock dp
      let ok ← Fs.dirlink dp e.name inum.val
      iunlock dp
      return if ok then .done else .failed
  | .dirlookup e => do
      ilock dp
      match ← Fs.dirlookup dp e.name with
      | none =>
        iunlock dp
        return .failed
      | some (ip, _) =>
        let inum := (← getInode ip).inum
        iunlock dp
        iput ip
        return .found inum
  | .unlink e => do
      let dp ← idup dp
      return if ← unlinkIn dp e.name then .done else .failed

/-- What is linked after a call with the given outcome, when `M` was linked before. -/
def DirOp.effect (M : Name → Option Nat) : DirOp → Outcome → Name → Option Nat
  | .dirlink e inum, .done => update M e.name (some inum.val)
  | .unlink e, .done => update M e.name none
  | _, _ => M

/-- What stops the kernel in a call: the inode table is full, or in `sys_unlink` the inode with the
name is not one that can be unlinked. -/
def DirOp.Stops (s : Fs) : DirOp → Panic → Prop
  | .dirlink _ _, e | .dirlookup _, e => e = .igetNoInodes ∧ ∀ j, 0 < (s.itable j).ref
  | .unlink _, e =>
    e = .igetNoInodes ∨ e = .deadlock ∨ e = .ilockNoType ∨ e = .unlinkNlink ∨ e = .isdiremptyReadi

/-- A call on a directory does what it does on a map. -/
structure DirOp.Meets (dp : Fin ninode) (M : Name → Option Nat) (s : Fs) (op : DirOp) (r : Outcome) (s' : Fs) :
    Prop where
  others : SameOthers op.name (s.slot (s.itable dp).inum) (s'.slot (s.itable dp).inum)
  failed : r = .failed → SameDir (s.itable dp).inum s s'
  lookup : ∀ e, op = .dirlookup e → r = (M e.name).elim .failed .found ∧ SameDir (s.itable dp).inum s s'
  link : ∀ e inum, op = .dirlink e inum →
    (r = .failed ↔ M e.name ≠ none ∨ ¬ s.HasRoom (s.itable dp).inum) ∧ (r = .failed ∨ r = .done)
  unlink : ∀ e, op = .unlink e → r = .failed ∨ r = .done ∧ M e.name ≠ none

omit [Superblock] in
/-- Locks can be listed. -/
theorem Wf.held [Superblock] (h : Wf s) :
    Held (fun i => (s.itable i).ref) [] ((List.finRange ninode).filter fun i => s.locked i) s :=
  ⟨fun _ => rfl, fun i => by simp, (List.nodup_finRange _).filter _, h.distinct⟩

namespace Directory

variable {M : Name → Option Nat}

/-- `ilock(dp)`. -/
theorem sat_ilock_bind {α : Type} {f : F α} {Q : α → Fs → Prop} (h : Directory dp s M)
    (hu : s.locked dp = false)
    (hf : Stays dp s (s.setLock dp true) → Sat A f (s.setLock dp true) Q) :
    Sat A (do ilock dp; f) s Q := by
  refine (sat_ilock h.wf h.held.ref (fun hc => ?_) fun ht => absurd ht (h.wf.type_ne h.held)).bind ?_
  · rw [hu] at hc
    cases hc
  · rintro - _ ⟨rfl, -⟩
    rw [h.wf.load_eq h.held]
    exact hf (.of_entry h.held (h.wf.setLock true) rfl (.of_eq rfl rfl))

theorem unlock (h : Directory dp s M) : Stays dp s (s.setLock dp false) :=
  .of_entry h.held (h.wf.setLock false) rfl (.of_eq rfl rfl)

/-- `dirlink` with the directory locked for the call. -/
theorem sat_performLink (h : Directory dp s M) (hu : s.locked dp = false) (e : PathElem) (inum : Inum) :
    Sat ((DirOp.dirlink e inum).Stops s) ((DirOp.dirlink e inum).perform dp) s fun r s' =>
      (Directory dp s' ((DirOp.dirlink e inum).effect M r) ∧ s'.locked dp = false ∧
        (s'.itable dp).inum = (s.itable dp).inum) ∧ (DirOp.dirlink e inum).Meets dp M s r s' := by
  refine h.sat_ilock_bind hu fun hs₁ => ?_
  refine ((h.stays hs₁).sat_dirlink e inum.pos inum.lt fun hfull => ⟨rfl, hfull⟩).bind ?_
  rintro r s₂ ⟨hn, hlk, hr, hfail, hothers, hdir⟩
  have hl₂ : s₂.locked dp = true := by
    rw [hlk]
    exact update_self ..
  refine sat_bind (iunlock_eq hl₂ hdir.held.ref) (sat_pure ?_)
  have hs₃ := hdir.unlock
  refine ⟨⟨?_, update_self .., hn⟩, ?_, fun hf => ?_, nofun, ?_, nofun⟩
  · cases r
    · exact hdir.stays hs₃
    · exact hdir.stays hs₃
  · exact hothers
  · cases r with
    | false => exact (hs₁.trans ((hfail rfl).trans hs₃)).same
    | true => cases hf
  · rintro e' inum' ⟨⟩
    cases r with
    | false => exact ⟨⟨fun _ => hr.mp rfl, fun _ => rfl⟩, .inl rfl⟩
    | true => exact ⟨⟨nofun, fun hc => absurd (hr.mpr hc) (by simp)⟩, .inr rfl⟩

/-- `dirlookup` with the directory locked for the call. -/
theorem sat_performLookup (h : Directory dp s M) (hu : s.locked dp = false) (e : PathElem) :
    Sat ((DirOp.dirlookup e).Stops s) ((DirOp.dirlookup e).perform dp) s fun r s' =>
      (Directory dp s' ((DirOp.dirlookup e).effect M r) ∧ s'.locked dp = false ∧
        (s'.itable dp).inum = (s.itable dp).inum) ∧ (DirOp.dirlookup e).Meets dp M s r s' := by
  have hmeets : ∀ r s', r = (M e.name).elim .failed .found → Stays dp s s' →
      (DirOp.dirlookup e).Meets dp M s r s' := fun r s' hr hs =>
    ⟨by rw [hs.same.slot]; exact fun _ _ _ _ => Iff.rfl, fun _ => hs.same,
      fun e' he => by cases he; exact ⟨hr, hs.same⟩, by simp, by simp⟩
  refine h.sat_ilock_bind hu fun hs₁ => ?_
  have h₁ := h.stays hs₁
  refine (h₁.sat_dirlookup e.name fun hfull => ⟨rfl, hfull⟩).bind fun r s₂ hr => ?_
  cases r with
  | none =>
    obtain ⟨hM, rfl⟩ := hr
    refine sat_bind (iunlock_eq (update_self ..) h₁.held.ref) (sat_pure ?_)
    have hs := hs₁.trans h₁.unlock
    exact ⟨⟨h.stays hs, update_self .., hs.inum⟩, hmeets _ _ (by rw [hM]; rfl) hs⟩
  | some x =>
    obtain ⟨i, off⟩ := x
    obtain ⟨k, m, hk, -, hg⟩ := hr
    refine sat_bind rfl ?_
    have hl₂ : s₂.locked dp = true := by
      rw [hg.frame.2.2.1]
      exact update_self ..
    have hr₂ : 0 < (s₂.itable dp).ref := by
      by_cases hi : dp = i
      · rw [hi]
        exact hg.frame.2.2.2.1
      · rw [hg.frame.2.2.2.2 dp hi]
        exact h₁.held.ref
    have hinum : (s₂.itable i).inum = m := by
      cases hg with
      | again _ hn =>
        simp only [setRef, update_self]
        exact hn
      | new _ _ => simp only [take, update_self]
    refine sat_bind (iunlock_eq hl₂ hr₂) ?_
    refine ((hg.setLock dp false).sat_iput (h₁.wf.setLock false)).bind fun _ s₃ hu₃ => sat_pure ?_
    have hs := (hs₁.trans h₁.unlock).trans (hu₃.stays h₁.unlock.held)
    refine ⟨⟨h.stays hs, ?_, hs.inum⟩, hmeets _ _ ?_ hs⟩
    · rw [hu₃.locked]
      exact update_self ..
    · rw [h.map.of_slot hk, hinum]
      rfl

/-- `sys_unlink`, with a reference of its own. -/
theorem sat_performUnlink (h : Directory dp s M) (hu : s.locked dp = false) (e : PathElem) :
    Sat ((DirOp.unlink e).Stops s) ((DirOp.unlink e).perform dp) s fun r s' =>
      (Directory dp s' ((DirOp.unlink e).effect M r) ∧ s'.locked dp = false ∧
        (s'.itable dp).inum = (s.itable dp).inum) ∧ (DirOp.unlink e).Meets dp M s r s' := by
  have hpos := h.held.ref
  have hentry : (s.setRef dp ((s.itable dp).ref + 1)).itable dp = { s.itable dp with ref := (s.itable dp).ref + 1 } :=
    update_self ..
  have hs₁ : Stays dp s (s.setRef dp ((s.itable dp).ref + 1)) := by
    refine ⟨h.wf.setRef hpos _, ⟨?_, ?_⟩, by rw [hentry], .of_eq rfl rfl⟩
    · rw [hentry]
      exact Nat.succ_pos _
    · rw [hentry]
      exact h.held.valid
  have hheld : Held (fun i => (s.itable i).ref) [dp] ((List.finRange ninode).filter fun i => s.locked i)
      (s.setRef dp ((s.itable dp).ref + 1)) :=
    ((held_idup h.wf.held (Nat.lt_of_lt_of_le hpos (Nat.le_add_right _ _))).of_run idup_eq).2
  refine sat_bind idup_eq ?_
  refine (((h.stays hs₁).sat_unlinkIn e.name hu (by rw [hentry]; exact Nat.succ_lt_succ hpos)
    fun _ he => he).and_always (held_unlinkIn hheld)).bind ?_
  rintro r s₂ ⟨⟨hn, hfail, hdone, hothers, hdir⟩, hh⟩
  have hul : s₂.locked dp = false := by
    rw [Bool.eq_false_iff]
    intro hc
    have := (hh.locked dp).mp hc
    simp [hu] at this
  refine sat_pure ⟨⟨?_, hul, hn.trans hs₁.inum⟩, ?_, fun hf => ?_, by simp, by simp, ?_⟩
  · cases r
    · exact hdir
    · exact hdir
  · rw [hs₁.inum] at hothers
    exact hothers
  · cases r with
    | false => exact (hs₁.trans (hfail rfl)).same
    | true => cases hf
  · rintro e' ⟨⟩
    cases r with
    | false => exact .inl rfl
    | true => exact .inr ⟨rfl, hdone rfl⟩

/-- Every call does what it does on the map, or stops the kernel. -/
theorem sat_perform (h : Directory dp s M) (hu : s.locked dp = false) (op : DirOp) :
    Sat (op.Stops s) (op.perform dp) s fun r s' => (Directory dp s' (op.effect M r) ∧ s'.locked dp = false ∧
      (s'.itable dp).inum = (s.itable dp).inum) ∧ op.Meets dp M s r s' := by
  cases op with
  | dirlink e inum => exact h.sat_performLink hu e inum
  | dirlookup e => exact h.sat_performLookup hu e
  | unlink e => exact h.sat_performUnlink hu e

end Directory

/-- The file system after a call, and what is linked in the directory then by what the calls returned. -/
def dirStep (dp : Fin ninode) (x : Fs × (Name → Option Nat)) (op : DirOp) : Option (Fs × (Name → Option Nat)) :=
  match op.perform dp x.1 with
  | .ok (r, s') => some (s', op.effect x.2 r)
  | .error _ => none

omit [Superblock] in
/-- The inode number under a name. -/
def names (s : Fs) (n : Nat) (name : Name) : Option Nat := (s.lookup n name).map Prod.snd

/-- Live entries have different names. -/
def DistinctNames (s : Fs) (n : Nat) : Prop :=
  ∀ j k name m m', s.slot n j = some (name, m) → s.slot n k = some (name, m') → j = k

omit [Superblock] in
theorem DistinctNames.represents (h : s.DistinctNames n) : Represents (s.slot n) (s.names n) := by
  refine ⟨h, fun name m => ?_⟩
  unfold names
  constructor
  · intro hm
    obtain ⟨⟨k, m⟩, hlk, rfl⟩ := Option.map_eq_some_iff.mp hm
    exact ⟨k, lookup_eq_some hlk⟩
  · rintro ⟨k, hk⟩
    cases hlk : s.lookup n name with
    | none => exact absurd hk (lookup_eq_none hlk)
    | some r =>
      obtain ⟨j, m'⟩ := r
      have hj := lookup_eq_some hlk
      obtain rfl := h j k name m' m hj hk
      rw [hj] at hk
      cases hk
      rfl

/-- A directory inode that a process has a reference to and that nobody has locked. -/
structure IsDirectory (dp : Fin ninode) (s : Fs) : Prop where
  wf : Wf s
  held : s.Locked dp
  unlocked : s.locked dp = false
  type : (s.dinode (s.itable dp).inum).type = .dir
  dvd : sizeofDirent ∣ (s.dinode (s.itable dp).inum).size

/-- A directory is a finite map.  After every sequence of calls its live entries have different names
and are those that the calls have linked and not unlinked since; and the next call finds, links or
unlinks the name as in a map, and leaves all other names alone. -/
theorem directory_is_map {s₀ : Fs} {M : Name → Option Nat} {ops : List DirOp} (h₀ : s₀.IsDirectory dp)
    (hd : s₀.DistinctNames (s₀.itable dp).inum)
    (hrun : run (dirStep dp) (s₀, s₀.names (s₀.itable dp).inum) ops = some (s, M)) :
    (s.itable dp).inum = (s₀.itable dp).inum ∧ s.DistinctNames (s.itable dp).inum ∧
    (∀ name m, M name = some m ↔ ∃ k, s.slot (s.itable dp).inum k = some (name, m)) ∧
    ∀ op : DirOp, Sat (op.Stops s) (op.perform dp) s (op.Meets dp M s) := by
  have hinv : Directory dp s M ∧ s.locked dp = false ∧ (s.itable dp).inum = (s₀.itable dp).inum := by
    refine invariant_of_step (P := fun x : Fs × (Name → Option Nat) => Directory dp x.1 x.2 ∧
      x.1.locked dp = false ∧ (x.1.itable dp).inum = (s₀.itable dp).inum) ?_ ?_ hrun
    · rintro ⟨s₁, M₁⟩ op ⟨s₂, M₂⟩ ⟨h₁, hu₁, hn₁⟩ hs
      unfold dirStep at hs
      split at hs
      · next r s' hp =>
          cases hs
          obtain ⟨⟨hdir, hu, hn⟩, -⟩ := (h₁.sat_perform hu₁ op).of_run hp
          exact ⟨hdir, hu, hn.trans hn₁⟩
      · cases hs
    · exact ⟨⟨h₀.wf, h₀.held, h₀.type, h₀.dvd, hd.represents⟩, h₀.unlocked, rfl⟩
  obtain ⟨h, hu, hn⟩ := hinv
  exact ⟨hn, h.map.distinct, h.map.iff, fun op => (h.sat_perform hu op).mono fun _ _ hr => hr.2⟩

end

/-! ## The root directory -/

/-- The image of `mkfs`, with the root directory in entry 0 of the inode table. -/
def rootLoaded : Fs := { mkfsImage with
  itable := update mkfsImage.itable 0 ⟨rootIno, 1, true, rootDinode⟩ }

theorem isDirectory_rootLoaded : @IsDirectory mkfsSuperblock 0 rootLoaded := by
  let _ := mkfsSuperblock
  refine ⟨?_, ⟨by decide, rfl⟩, rfl, by decide, by decide⟩
  refine wf_mkfsImage.entry (fun _ _ => ⟨rfl, by decide⟩) fun _ j _ hj => ?_
  exact absurd hj (Nat.lt_irrefl 0)

/-- The root directory has the entries `.` and `..`. -/
theorem distinctNames_rootLoaded : rootLoaded.DistinctNames 1 := by
  have hempty : ∀ k, k < 64 → 2 ≤ k → rootLoaded.slot 1 k = none := by decide +kernel
  have hlt : ∀ {k e}, rootLoaded.slot 1 k = some e → k < 2 := fun {k e} hk => by
    by_contra hge
    rw [hempty k (slot_lt hk) (by omega)] at hk
    cases hk
  have h0 : rootLoaded.slot 1 0 = some (dot, 1) := by decide +kernel
  have h1 : rootLoaded.slot 1 1 = some (dotdot, 1) := by decide +kernel
  intro j k name m m' hj hk
  have := hlt hj
  have := hlt hk
  obtain rfl | rfl : j = 0 ∨ j = 1 := by omega
  all_goals obtain rfl | rfl : k = 0 ∨ k = 1 := by omega
  · rfl
  · rw [h0] at hj
    rw [h1] at hk
    cases hj
    cases hk
  · rw [h1] at hj
    rw [h0] at hk
    cases hj
    cases hk
  · rfl

/-- A path element of the given number of bytes. -/
def longElem (n : Nat) : PathElem := ⟨List.replicate n 65, fun h => by cases List.eq_of_mem_replicate h⟩

/-- A name of 15 bytes is found under its first 14. -/
theorem directory_is_map_fifteen :
    let _ := mkfsSuperblock
    ∃ s M, run (dirStep 0) (rootLoaded, rootLoaded.names 1) [.dirlink (longElem 15) ⟨5, by decide, by decide⟩] =
        some (s, M) ∧ s.DistinctNames (s.itable 0).inum ∧
      Sat (DirOp.Stops s (.dirlookup (longElem 14))) (DirOp.perform 0 (.dirlookup (longElem 14))) s
        fun r _ => r = .found 5 := by
  let _ := mkfsSuperblock
  have hlinked : (run (dirStep 0) (rootLoaded, rootLoaded.names 1)
      [.dirlink (longElem 15) ⟨5, by decide, by decide⟩]).map (fun x => x.2 (longElem 14).name) = some (some 5) := by
    decide +kernel
  obtain ⟨⟨s, M⟩, hrun, hM⟩ := Option.map_eq_some_iff.mp hlinked
  obtain ⟨-, hdist, -, hnext⟩ := directory_is_map isDirectory_rootLoaded distinctNames_rootLoaded hrun
  have hM : M (longElem 14).name = some 5 := hM
  refine ⟨s, M, hrun, hdist, (hnext (.dirlookup (longElem 14))).mono fun r _ hr => ?_⟩
  rw [(hr.lookup _ rfl).1, hM]
  rfl

end Fs

end MiniOS
