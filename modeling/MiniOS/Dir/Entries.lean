import MiniOS.Dir
import MiniOS.Fs.Itable

/-!
# MiniOS.Dir.Entries

The entries of directories on disk, and the loops of `kernel/fs.c` and
`kernel/sysfile.c` over them.  `Fs.slot s n k` is slot `k` of the directory `n`:
the name and the inode number in it, if it is in use.
-/

namespace MiniOS

open Checked

/-- What an entry says; nothing if its inode number is 0. -/
def Dirent.live (de : Dirent) : Option (Name × Nat) := if de.inum = 0 then none else some (de.name, de.inum)

namespace Fs

/-- Entry `k` in the contents of inode `n`. -/
def entry (s : Fs) (n k : Nat) : Dirent :=
  .decode ((s.dinode n).bytes s.data (sizeofDirent * k) sizeofDirent)

/-- Slot `k` of the directory `n`. -/
def slot (s : Fs) (n k : Nat) : Option (Name × Nat) :=
  if (s.dinode n).type = .dir ∧ sizeofDirent * k + sizeofDirent ≤ (s.dinode n).size then (s.entry n k).live
  else none

/-- Slot `k` if it has the name, with its inode number. -/
def hit (s : Fs) (n : Nat) (name : Name) (k : Nat) : Option (Nat × Nat) :=
  (s.slot n k).bind fun e => if e.1 = name then some (k, e.2) else none

/-- The first slot of a directory that has the name, with its inode number. -/
def lookup (s : Fs) (n : Nat) (name : Name) : Option (Nat × Nat) :=
  (List.range ((s.dinode n).size / sizeofDirent)).findSome? (s.hit n name)

variable {s s' : Fs} {n k m : Nat} {name : Name}

theorem hit_eq_some {r : Nat × Nat} (h : s.hit n name k = some r) :
    r.1 = k ∧ s.slot n k = some (name, r.2) := by
  obtain ⟨e, he, hr⟩ := Option.bind_eq_some_iff.mp h
  split at hr
  · next hn =>
      cases hr
      exact ⟨rfl, by rw [he, ← hn]⟩
  · cases hr

theorem hit_of_slot (h : s.slot n k = some (name, m)) : s.hit n name k = some (k, m) := by
  rw [hit, h]
  exact if_pos rfl

theorem slot_lt {e : Name × Nat} (h : s.slot n k = some e) : k < (s.dinode n).size / sizeofDirent := by
  unfold slot at h
  split at h
  · next hc => simp only [sizeofDirent] at *; omega
  · cases h

theorem slot_eq_none (h : (s.dinode n).size < sizeofDirent * k + sizeofDirent) : s.slot n k = none :=
  if_neg fun hc => absurd hc.2 (by omega)

theorem lookup_eq_some (h : s.lookup n name = some (k, m)) : s.slot n k = some (name, m) := by
  obtain ⟨j, -, hj⟩ := List.exists_of_findSome?_eq_some h
  obtain ⟨rfl, hs⟩ := hit_eq_some hj
  exact hs

theorem lookup_eq_none (h : s.lookup n name = none) : s.slot n k ≠ some (name, m) := fun hs => by
  have := List.findSome?_eq_none_iff.mp h k (List.mem_range.mpr (slot_lt hs))
  rw [hit_of_slot hs] at this
  cases this

section
variable [Superblock] {A : Panic → Prop} {i dp : Fin ninode}

/-- A complete entry is read. -/
theorem sat_readDirent (h : Wf s) (hl : s.Locked i) (k : Nat) :
    Sat A (readDirent i (sizeofDirent * k)) s fun r s' => s' = s ∧
      r = if sizeofDirent * k + sizeofDirent ≤ (s.dinode (s.itable i).inum).size then
        some (s.entry (s.itable i).inum k) else none := by
  have hmax := h.size_le _ (h.type_ne hl)
  refine (sat_readi h hl).bind ?_
  rintro r s' ⟨rfl, ⟨rfl, hc⟩ | ⟨rfl, hc⟩ | ⟨rfl, o, ho⟩⟩
  · refine sat_pure ⟨rfl, ?_⟩
    rw [if_neg (by simp), if_neg]
    simp only [sizeofDirent, maxFile, ndirect, nindirect, bsize] at *; omega
  · refine sat_pure ⟨rfl, ?_⟩
    rw [Dinode.bytes, List.length_map, List.length_range]
    by_cases hfit : sizeofDirent * k + sizeofDirent ≤ (s'.dinode (s'.itable i).inum).size
    · rw [if_pos hfit, if_pos (by omega), Nat.min_eq_left (by omega)]
      rfl
    · rw [if_neg hfit, if_neg (by omega)]
  · cases ho

section
variable (h : Wf s) (hl : s.Locked dp) (ht : (s.dinode (s.itable dp).inum).type = .dir)
include h hl ht

/-- A round of the loops over the entries: entry `k` is read, or the directory ends within it. -/
theorem sat_entryRound {e : Panic} (hread : ¬ sizeofDirent ∣ (s.dinode (s.itable dp).inum).size → A e)
    (hlt : ¬ (s.dinode (s.itable dp).inum).size ≤ sizeofDirent * k) {α : Type} {g : Option Dirent → F α}
    {Q : α → Fs → Prop} (hnone : g none = throw e)
    (hg : sizeofDirent * k + sizeofDirent ≤ (s.dinode (s.itable dp).inum).size →
      s.slot (s.itable dp).inum k = (s.entry (s.itable dp).inum k).live →
      Sat A (g (some (s.entry (s.itable dp).inum k))) s Q) :
    Sat A (readDirent dp (sizeofDirent * k) >>= g) s Q := by
  refine (sat_readDirent h hl k).bind ?_
  rintro r _ ⟨rfl, rfl⟩
  split
  next hfit => exact hg hfit (if_pos ⟨ht, hfit⟩)
  next hfit =>
    rw [hnone]
    exact sat_throw (hread (by simp only [sizeofDirent] at *; omega))

/-- The loop of `dirlookup`. -/
theorem sat_lookupLoop (hA : (∀ j, 0 < (s.itable j).ref) → A .igetNoInodes)
    (hread : ¬ sizeofDirent ∣ (s.dinode (s.itable dp).inum).size → A .dirlookupRead) {fuel : Nat}
    (hfuel : (s.dinode (s.itable dp).inum).size / sizeofDirent - k < fuel) :
    Sat A (lookupLoop dp name fuel (sizeofDirent * k)) s fun r s' =>
      match (List.range' k ((s.dinode (s.itable dp).inum).size / sizeofDirent - k)).findSome?
        (s.hit (s.itable dp).inum name) with
      | none => r = none ∧ s' = s
      | some (j, m) => ∃ i, r = some (i, sizeofDirent * j) ∧ Got m s i s' := by
  induction fuel generalizing k with
  | zero => omega
  | succ fuel ih =>
    have hd := (h.cached dp hl).1
    refine sat_bind rfl ?_
    rw [hd]
    refine sat_ite (fun hend => ?_) fun hlt => sat_entryRound h hl ht hread hlt rfl fun hfit hslot => ?_
    · have h0 : (s.dinode (s.itable dp).inum).size / sizeofDirent - k = 0 := by
        simp only [sizeofDirent] at *; omega
      rw [h0]
      exact sat_pure ⟨rfl, rfl⟩
    · have hsucc : (s.dinode (s.itable dp).inum).size / sizeofDirent - k =
          (s.dinode (s.itable dp).inum).size / sizeofDirent - (k + 1) + 1 := by
        simp only [sizeofDirent] at *; omega
      rw [hsucc, List.range'_succ, List.findSome?_cons]
      refine sat_ite (fun hc => ?_) fun hc => ?_
      · rw [hit_of_slot (by rw [hslot, Dirent.live, if_neg hc.1, hc.2])]
        exact (sat_iget_or_full hA).bind fun i s' hg => sat_pure ⟨i, rfl, hg⟩
      · have hhit : s.hit (s.itable dp).inum name k = none := by
          rw [hit, hslot, Dirent.live]
          split
          · rfl
          · next h0 => exact if_neg fun hn => hc ⟨h0, hn⟩
        rw [hhit]
        exact ih (k := k + 1) (by omega)

/-- `dirlookup` finds the first slot with the name. -/
theorem sat_dirlookup (hA : (∀ j, 0 < (s.itable j).ref) → A .igetNoInodes)
    (hread : ¬ sizeofDirent ∣ (s.dinode (s.itable dp).inum).size → A .dirlookupRead) :
    Sat A (dirlookup dp name) s fun r s' =>
      match s.lookup (s.itable dp).inum name with
      | none => r = none ∧ s' = s
      | some (j, m) => ∃ i, r = some (i, sizeofDirent * j) ∧ Got m s i s' := by
  have hd := (h.cached dp hl).1
  refine sat_bind rfl ?_
  dsimp only
  rw [hd, if_neg (by simp [ht])]
  have hloop : Sat A (lookupLoop dp name ((s.dinode (s.itable dp).inum).size / sizeofDirent + 1)
      (sizeofDirent * 0)) s _ := sat_lookupLoop h hl ht hA hread (Nat.lt_succ_of_le (Nat.sub_le _ _))
  rwa [Nat.mul_zero, Nat.sub_zero, ← List.range_eq_range'] at hloop

/-- The loop of `dirlink`: the first slot that is not in use, or the end of the directory. -/
theorem sat_emptyLoop
    (hread : ¬ sizeofDirent ∣ (s.dinode (s.itable dp).inum).size → A .dirlinkRead) {fuel : Nat}
    (hk : sizeofDirent * k ≤ (s.dinode (s.itable dp).inum).size)
    (hfuel : (s.dinode (s.itable dp).inum).size / sizeofDirent - k < fuel) :
    Sat A (emptyLoop dp fuel (sizeofDirent * k)) s fun r s' => s' = s ∧ ∃ j, r = sizeofDirent * j ∧
      r ≤ (s.dinode (s.itable dp).inum).size ∧ s.slot (s.itable dp).inum j = none ∧
      ∀ l, k ≤ l → l < j → s.slot (s.itable dp).inum l ≠ none := by
  induction fuel generalizing k with
  | zero => omega
  | succ fuel ih =>
    have hd := (h.cached dp hl).1
    refine sat_bind rfl ?_
    rw [hd]
    refine sat_ite (fun hend => sat_pure ⟨rfl, k, rfl, hk, slot_eq_none ?_, fun l h1 h2 => by omega⟩)
      fun hlt => sat_entryRound h hl ht hread hlt rfl fun hfit hslot => ?_
    · simp only [sizeofDirent] at *; omega
    · refine sat_ite (fun h0 => sat_pure ⟨rfl, k, rfl, hk, ?_, fun l h1 h2 => by omega⟩) fun h0 => ?_
      · rw [hslot, Dirent.live, if_pos h0]
      · refine (ih (k := k + 1) hfit (by simp only [sizeofDirent] at *; omega)).mono ?_
        rintro r s₂ ⟨rfl, j, hr, hle, hj, hbefore⟩
        refine ⟨rfl, j, hr, hle, hj, fun l h1 h2 => ?_⟩
        rcases Nat.eq_or_lt_of_le h1 with rfl | h1
        · rw [hslot, Dirent.live, if_neg h0]
          exact Option.some_ne_none _
        · exact hbefore l h1 h2

/-- The loop of `isdirempty`. -/
theorem sat_isdiremptyLoop
    (hread : ¬ sizeofDirent ∣ (s.dinode (s.itable dp).inum).size → A .isdiremptyReadi) {fuel : Nat}
    (hfuel : (s.dinode (s.itable dp).inum).size / sizeofDirent - k < fuel) :
    Sat A (isdiremptyLoop dp fuel (sizeofDirent * k)) s fun r s' => s' = s ∧
      (r = true ↔ ∀ j, k ≤ j → s.slot (s.itable dp).inum j = none) := by
  induction fuel generalizing k with
  | zero => omega
  | succ fuel ih =>
    have hd := (h.cached dp hl).1
    refine sat_bind rfl ?_
    rw [hd]
    refine sat_ite (fun hend => sat_pure ⟨rfl, fun _ j hj => slot_eq_none ?_, fun _ => rfl⟩)
      fun hlt => sat_entryRound h hl ht hread hlt rfl fun hfit hslot => ?_
    · simp only [sizeofDirent] at *; omega
    · refine sat_ite (fun h0 => sat_pure ⟨rfl, ?_⟩) fun h0 => ?_
      · simp only [Bool.false_eq_true, false_iff]
        intro hall
        have := hall k (Nat.le_refl _)
        rw [hslot, Dirent.live, if_neg h0] at this
        cases this
      · refine (ih (k := k + 1) (by simp only [sizeofDirent] at *; omega)).mono ?_
        rintro r s₂ ⟨rfl, hr⟩
        refine ⟨rfl, hr.trans ⟨fun hall j hj => ?_, fun hall j hj => hall j (by omega)⟩⟩
        rcases Nat.eq_or_lt_of_le hj with rfl | hj
        · rw [hslot, Dirent.live, if_pos (not_not.mp h0)]
        · exact hall j hj

/-- `isdirempty`. -/
theorem sat_isdirempty (hread : ¬ sizeofDirent ∣ (s.dinode (s.itable dp).inum).size → A .isdiremptyReadi) :
    Sat A (isdirempty dp) s fun r s' => s' = s ∧
      (r = true ↔ ∀ j, 2 ≤ j → s.slot (s.itable dp).inum j = none) := by
  refine sat_bind rfl ?_
  rw [(h.cached dp hl).1]
  exact sat_isdiremptyLoop (k := 2) h hl ht hread (Nat.lt_succ_of_le (Nat.sub_le _ _))

end

end

end Fs

end MiniOS
