import MiniOS.Dir.Map

/-!
# MiniOS.Dir.Path

Path resolution.  `Fs.components` are the elements of a path as one would
define them, and `Fs.walk` follows them through the directories on the disk.
`skipelem` gives the components one after the other, and `namex`, which locks
and releases one inode table entry after another, ends where `walk` ends.
-/

namespace MiniOS

open Checked

namespace Fs

/-! ## Components -/

variable {path : List Byte}

/-- The inode reached from `n` by looking up the names one after the other. -/
def walk (s : Fs) (n : Nat) : List Name → Option Nat
  | [] => some n
  | name :: names =>
    if (s.dinode n).type = .dir then (s.lookup n name).bind fun r => s.walk r.2 names else none

/-- The directory reached by all names but the last one, and that name. -/
def walkParent (s : Fs) (n : Nat) (names : List Name) : Option (Nat × Name) :=
  names.getLast?.bind fun last => (s.walk n names.dropLast).bind fun m =>
    if (s.dinode m).type = .dir then some (m, last) else none

/-- Inode `n` can be locked and released: it is in use, and it has a link or someone has a reference to it. -/
structure Sound (s : Fs) (n : Nat) : Prop where
  type : (s.dinode n).type ≠ .free
  dvd : (s.dinode n).type = .dir → sizeofDirent ∣ (s.dinode n).size
  kept : (s.dinode n).nlink ≠ 0 ∨ ∃ j, 0 < (s.itable j).ref ∧ (s.itable j).inum = n

/-- What `namex` returns: the end of the walk, or its parent and the last name. -/
def target (s : Fs) (parent : Bool) (n : Nat) (names : List Name) : Option (Nat × Name) :=
  if parent then s.walkParent n names else (s.walk n names).map (·, [])

/-- In `t` there is one more reference, to entry `i`; the disk, the locks and the entries in use are as in `s`. -/
structure Walking [Superblock] (s : Fs) (i : Fin ninode) (t : Fs) : Prop where
  wf : Wf t
  dinode : t.dinode = s.dinode
  data : t.data = s.data
  locked : t.locked = s.locked
  ref : ∀ j, (t.itable j).ref = (s.itable j).ref + if j = i then 1 else 0
  inum : ∀ j, 0 < (s.itable j).ref → (t.itable j).inum = (s.itable j).inum

/-- The same without the reference. -/
structure Walked [Superblock] (s t : Fs) : Prop where
  wf : Wf t
  dinode : t.dinode = s.dinode
  data : t.data = s.data
  locked : t.locked = s.locked
  ref : ∀ j, (t.itable j).ref = (s.itable j).ref
  inum : ∀ j, 0 < (s.itable j).ref → (t.itable j).inum = (s.itable j).inum

section
variable {s t : Fs} {i : Fin ninode}

variable {n : Nat}

theorem Got.ref_eq (h : Got n s i t) (j : Fin ninode) :
    (t.itable j).ref = (s.itable j).ref + if j = i then 1 else 0 := by
  by_cases hj : j = i
  · subst hj
    cases h with
    | again hr hn => simp [setRef]
    | new hr hn => simp [take, hr]
  · rw [if_neg hj, h.frame.2.2.2.2 j hj, Nat.add_zero]

theorem Got.inum_same (h : Got n s i t) {j : Fin ninode} (hj : 0 < (s.itable j).ref) :
    (t.itable j).inum = (s.itable j).inum := by
  by_cases hji : j = i
  · subst hji
    cases h with
    | again hr hn => simp [setRef]
    | new hr hn => omega
  · rw [h.frame.2.2.2.2 j hji]

/-- What is looked up depends on the disk only. -/
theorem lookup_congr (hd : t.dinode = s.dinode) (hb : t.data = s.data) : t.lookup = s.lookup := by
  funext n name
  have hslot : t.slot n = s.slot n := (SameDir.of_eq hd hb).slot
  have hhit : t.hit n name = s.hit n name := by
    funext k
    rw [hit, hslot, hit]
  rw [lookup, hd, hhit, lookup]

/-- No entry in use has to be read from disk again. -/
def KeepsValid (s t : Fs) : Prop :=
  ∀ j, 0 < (s.itable j).ref → (s.itable j).valid = true → (t.itable j).valid = true

theorem setRef_valid {r : Nat} {j : Fin ninode} : ((t.setRef i r).itable j).valid = (t.itable j).valid := by
  by_cases hj : j = i
  · subst hj
    simp [setRef]
  · simp [setRef, hj]

theorem load_valid {j : Fin ninode} (h : (t.itable j).valid = true) : ((t.load i).itable j).valid = true := by
  by_cases hj : j = i
  · subst hj
    simp [load]
  · simpa [load, hj] using h

variable [Superblock]

theorem Walking.pos (h : Walking s i t) : 0 < (t.itable i).ref := by
  rw [h.ref, if_pos rfl]
  omega

/-- The entry of the walk is locked. -/
theorem Walking.lock (h : Walking s i t) (hf : (t.dinode (t.itable i).inum).type ≠ .free) :
    Walking (s.setLock i true) i ((t.load i).setLock i true) := by
  refine ⟨(h.wf.load h.pos hf).setLock true, h.dinode, h.data, ?_, fun j => ?_, fun j hj => ?_⟩
  · simp only [setLock, load, h.locked]
  · refine Eq.trans ?_ (h.ref j)
    by_cases hj : j = i
    · subst hj
      simp [setLock, load]
    · simp [setLock, load, hj]
  · refine Eq.trans ?_ (h.inum j hj)
    by_cases hji : j = i
    · subst hji
      simp [setLock, load]
    · simp [setLock, load, hji]

/-- The entry of the walk is released. -/
theorem Walking.unlock (h : Walking (s.setLock i true) i t) (hl : s.locked i = false) :
    Walking s i (t.setLock i false) := by
  refine ⟨h.wf.setLock false, h.dinode, h.data, ?_, h.ref, h.inum⟩
  have := h.locked
  simp only [setLock] at this ⊢
  rw [this, Function.update_idem, ← hl, Function.update_eq_self]

/-- The reference is given up. -/
theorem Walking.drop (h : Walking s i t) : Walked s (t.setRef i ((t.itable i).ref - 1)) := by
  refine ⟨h.wf.setRef h.pos _, h.dinode, h.data, h.locked, fun j => ?_, fun j hj => ?_⟩
  · have := h.ref j
    by_cases hj : j = i
    · subst hj
      rw [if_pos rfl] at this
      simp only [setRef, Function.update_self, this]
      rfl
    · simpa [setRef, hj] using this
  · refine Eq.trans ?_ (h.inum j hj)
    by_cases hji : j = i
    · subst hji
      simp [setRef]
    · simp [setRef, hji]

/-- The reference to a sound inode that is given up is not the last one to an inode without links. -/
theorem Walking.kept (h : Walking s i t) (hn : (t.itable i).inum = n) (hs : s.Sound n) :
    (t.itable i).ref = 1 → (t.dinode n).nlink ≠ 0 := by
  intro hr
  rw [h.dinode]
  refine hs.kept.resolve_right ?_
  rintro ⟨j, hj, hjn⟩
  have hji : j = i := h.wf.distinct j i (by rw [h.ref]; omega) h.pos (by rw [h.inum j hj, hjn, hn])
  subst hji
  rw [h.ref, if_pos rfl] at hr
  omega

theorem iunlockput_eq (h : Wf t) (hl : t.locked i = true) (hr : 0 < (t.itable i).ref)
    (hk : (t.itable i).ref = 1 → (t.dinode (t.itable i).inum).nlink ≠ 0) :
    iunlockput i t = .ok ((), (t.setLock i false).setRef i ((t.itable i).ref - 1)) := by
  have hput : iput i (t.setLock i false) =
      .ok ((), (t.setLock i false).setRef i ((t.itable i).ref - 1)) := by
    refine iput_eq ?_
    rintro ⟨hone, hvalid, hnlink⟩
    have hcached := (h.cached i ⟨hr, hvalid⟩).1
    refine hk hone ?_
    rw [← hcached]
    exact hnlink
  have hbind : iunlockput i t = (iunlock i >>= fun _ => iput i) t := rfl
  rw [hbind]
  change (iunlock i t).bind _ = _
  rw [iunlock_eq hl hr]
  exact hput

/-- The walk goes on at the entry that `dirlookup` got. -/
theorem Walking.step {u : Fs} {next : Fin ninode} (h : Walking (s.setLock i true) i t)
    (hl : s.locked i = false) (hg : Got n t next u) :
    Walking s next ((u.setLock i false).setRef i ((u.itable i).ref - 1)) := by
  have hpos : 0 < (u.itable i).ref := by
    rw [hg.ref_eq]
    have := h.pos
    omega
  have href : ∀ j, (u.itable j).ref =
      (s.itable j).ref + (if j = i then 1 else 0) + if j = next then 1 else 0 := fun j => by
    rw [hg.ref_eq, h.ref]
    rfl
  have hinum : ∀ j, 0 < (s.itable j).ref → (u.itable j).inum = (s.itable j).inum := fun j hj => by
    rw [hg.inum_same (by rw [h.ref]; exact Nat.lt_of_lt_of_le hj (Nat.le_add_right _ _)), h.inum j hj]
    rfl
  obtain ⟨hd, hb, hlock, -, -⟩ := hg.frame
  refine ⟨((hg.wf h.wf).setLock false).setRef hpos _, hd.trans h.dinode, hb.trans h.data, ?_, fun j => ?_,
    fun j hj => ?_⟩
  · have := h.locked
    simp only [setRef, setLock] at this ⊢
    rw [hlock, this, Function.update_idem, ← hl, Function.update_eq_self]
  · by_cases hj : j = i
    · subst hj
      have := href j
      rw [if_pos rfl] at this
      simp only [setRef, setLock, Function.update_self, this]
      omega
    · simpa [setRef, setLock, hj] using href j
  · refine Eq.trans ?_ (hinum j hj)
    by_cases hji : j = i
    · subst hji
      simp [setRef, setLock]
    · simp [setRef, setLock, hji]

variable {A : Panic → Prop}

/-- The walk has locked entry `i`, of inode `n`. -/
structure Standing (s : Fs) (i : Fin ninode) (n : Nat) (u : Fs) : Prop where
  walking : Walking (s.setLock i true) i u
  inum : (u.itable i).inum = n
  valid : (u.itable i).valid = true
  keeps : s.KeepsValid u

namespace Standing

variable {n : Nat} {u : Fs} (h : Standing s i n u)
include h

theorem held : u.Locked i := ⟨h.walking.pos, h.valid⟩

theorem locked : u.locked i = true := by
  rw [h.walking.locked]
  exact Function.update_self ..

theorem kept (hs : s.Sound n) : (u.itable i).ref = 1 → (u.dinode (u.itable i).inum).nlink ≠ 0 := by
  rw [h.inum]
  exact h.walking.kept h.inum ⟨hs.type, hs.dvd, hs.kept⟩

/-- `namex` gives up. -/
theorem sat_iunlockput (hl : s.locked i = false) (hs : s.Sound n) :
    Sat A (iunlockput i) u fun _ t => Walked s t ∧ s.KeepsValid t := by
  rw [Sat, iunlockput_eq h.walking.wf h.locked h.walking.pos (h.kept hs)]
  exact ⟨(h.walking.unlock hl).drop, fun j hj hv => setRef_valid.trans (h.keeps j hj hv)⟩

/-- `namex` stops one level early. -/
theorem sat_iunlock (hl : s.locked i = false) :
    Sat A (iunlock i) u fun _ t => Walking s i t ∧ (t.itable i).inum = n ∧ s.KeepsValid t := by
  rw [Sat, iunlock_eq h.locked h.walking.pos]
  exact ⟨h.walking.unlock hl, h.inum, h.keeps⟩

/-- `dirlookup` in `namex`. -/
theorem sat_dirlookup (hs : s.Sound n) (hd : (s.dinode n).type = .dir)
    (hfull : (∃ i, ∀ j, j ≠ i → 0 < (s.itable j).ref) → A .igetNoInodes) (name : Name) :
    Sat A (dirlookup i name) u fun r v =>
      match s.lookup n name with
      | none => r = none ∧ v = u
      | some (k, m) => ∃ next, r = some (next, sizeofDirent * k) ∧ Got m u next v := by
  have hdu : u.dinode (u.itable i).inum = s.dinode n := by
    rw [h.inum, h.walking.dinode]
    rfl
  have hlook : u.lookup (u.itable i).inum name = s.lookup n name := by
    rw [h.inum, lookup_congr h.walking.dinode h.walking.data]
    rfl
  have hfull' : (∀ j, 0 < (u.itable j).ref) → A .igetNoInodes := fun hall => hfull ⟨i, fun j hj => by
    have := hall j
    rwa [h.walking.ref, if_neg hj] at this⟩
  rw [← hlook]
  refine Fs.sat_dirlookup h.walking.wf h.held (by rw [hdu, hd]) hfull' fun hc => absurd ?_ hc
  rw [hdu]
  exact hs.dvd hd

end Standing

/-- `ilock` in `namex`. -/
theorem Walking.sat_ilock (h : Walking s i t) (hn : (t.itable i).inum = n) (hl : s.locked i = false)
    (hv : s.KeepsValid t) (hA : (s.dinode n).type = .free → A .ilockNoType) :
    Sat A (ilock i) t fun _ u => Standing s i n u ∧ (s.dinode n).type ≠ .free := by
  have hdt : t.dinode (t.itable i).inum = s.dinode n := by rw [h.dinode, hn]
  have hlt : t.locked i ≠ true := by rw [h.locked, hl]; exact nofun
  refine (Fs.sat_ilock h.wf h.pos (fun hc => absurd hc hlt) fun hf => hA (by rwa [← hdt])).mono ?_
  rintro - u ⟨rfl, htype⟩
  refine ⟨⟨h.lock htype, ?_, ?_, fun j hj hj' => load_valid (hv j hj hj')⟩, by rwa [← hdt]⟩
  · rw [← hn]
    simp [setLock, load]
  · simp [setLock, load]

/-- `iput` of what `iget` or `idup` gave does not free the inode. -/
theorem Got.iput_eq (h : Got n s i t) :
    iput i t = .ok ((), t.setRef i ((t.itable i).ref - 1)) := by
  refine Fs.iput_eq ?_
  rintro ⟨hone, hvalid, -⟩
  cases h with
  | again hr hn =>
    simp only [setRef, Function.update_self] at hone
    omega
  | new hr hn => simp [take] at hvalid

variable {cwd : Fin ninode} {path : List Byte}

end

end Fs

end MiniOS
