import MiniOS.File.Spec
import MiniOS.Fs.Itable
import MiniOS.SysFile

/-!
# MiniOS.Fs.Held

References and locks of the inode table within one call.  The references that
files and current directories have are given by `H`; the call under way has
the references `held` and the locks `locks` on top of them.  Each function of
`fs.c` and each system call on paths says what it adds and what it takes away
(`sat_namex`, `sat_create` and so on), on every one of its ways out.  None of
this depends on what is on the disk.
-/

namespace MiniOS

open Checked
open Function (update update_self update_of_ne)

namespace Fs

/-- Every reference and every lock has an owner, and no inode has two entries. -/
structure Held (H : Fin ninode → Nat) (held locks : List (Fin ninode)) (s : Fs) : Prop where
  ref : ∀ i, (s.itable i).ref = H i + held.count i
  locked : ∀ i, s.locked i = true ↔ i ∈ locks
  nodup : locks.Nodup
  distinct : ∀ i j, 0 < (s.itable i).ref → 0 < (s.itable j).ref → (s.itable i).inum = (s.itable j).inum → i = j

/-- No reference, no lock and no inode number has changed. -/
structure SameRefs (s s' : Fs) : Prop where
  ref : ∀ i, (s'.itable i).ref = (s.itable i).ref
  inum : ∀ i, (s'.itable i).inum = (s.itable i).inum
  locked : s'.locked = s.locked

instance : Std.Refl SameRefs := ⟨fun _ => ⟨fun _ => rfl, fun _ => rfl, rfl⟩⟩

instance : IsTrans Fs SameRefs := ⟨fun _ _ _ h h' =>
  ⟨fun i => (h'.ref i).trans (h.ref i), fun i => (h'.inum i).trans (h.inum i), h'.locked.trans h.locked⟩⟩

/-! ## What keeps references and locks -/

/-- The entry `i` has changed, but neither its inode nor its references. -/
theorem SameRefs.update {s : Fs} {i : Fin ninode} {ip : Inode} (hr : ip.ref = (s.itable i).ref)
    (hn : ip.inum = (s.itable i).inum) :
    SameRefs s { s with itable := update s.itable i ip } := by
  refine ⟨fun j => ?_, fun j => ?_, rfl⟩ <;>
  · by_cases hj : j = i
    · subst hj
      simp only [update_self, hr, hn]
    · simp only [update_of_ne hj]

section
variable {i : Fin ninode} {b : Nat}

theorem within_getInode : Within SameRefs (getInode i) := within_get_bind fun _ => within_pure

theorem within_modifyInode {f : Dinode → Dinode} : Within SameRefs (modifyInode i f) :=
  fun _ => sat_of_eq rfl (.update rfl rfl)

theorem within_logWrite : Within SameRefs (logWrite b) := within_modify fun _ => ⟨fun _ => rfl, fun _ => rfl, rfl⟩

theorem within_setData {x : BlockData} : Within SameRefs (setData b x) :=
  within_modify fun _ => ⟨fun _ => rfl, fun _ => rfl, rfl⟩

theorem within_iupdate [Superblock] : Within SameRefs (iupdate i) :=
  within_getInode.bind fun _ => (within_modify fun _ => ⟨fun _ => rfl, fun _ => rfl, rfl⟩).bind fun _ =>
    within_logWrite

theorem within_beginOp : Within SameRefs beginOp := within_modify fun _ => ⟨fun _ => rfl, fun _ => rfl, rfl⟩

variable [Superblock]

theorem within_balloc : Within SameRefs balloc := by
  refine within_get_bind fun s => ?_
  split
  · refine (within_modify fun _ => ⟨fun _ => rfl, fun _ => rfl, rfl⟩).bind fun _ => within_logWrite.bind fun _ => ?_
    exact (within_setData.bind fun _ => within_logWrite).bind fun _ => within_pure
  · exact within_pure

theorem within_bfree : Within SameRefs (bfree b) := by
  refine within_get_bind fun s => (within_throw.bind fun _ => ?_).ite ?_
  all_goals
    exact (within_modify fun _ => ⟨fun _ => rfl, fun _ => rfl, rfl⟩).bind fun _ => within_logWrite

theorem within_bmapAddr {n : Nat} : Within SameRefs (bmapAddr i n) := by
  refine within_getInode.bind fun _ => (within_balloc.bind fun addr => ?_).ite within_pure
  exact (within_modifyInode.bind fun _ => within_pure).ite within_pure

theorem within_bmapEntry {ind bn : Nat} : Within SameRefs (bmapEntry ind bn) := by
  refine within_get_bind fun _ => (within_balloc.bind fun addr => ?_).ite within_pure
  refine Within.ite (within_get_bind fun _ => within_setData.bind fun _ => ?_) within_pure
  exact within_logWrite.bind fun _ => within_pure

theorem within_bmap {bn : Nat} : Within SameRefs (bmap i bn) := by
  refine within_bmapAddr.ite (Within.ite (within_bmapAddr.bind fun ind => ?_) within_throw)
  exact within_pure.ite within_bmapEntry

theorem within_truncDirect {ns : List Nat} : Within SameRefs (truncDirect i ns) := by
  induction ns with
  | nil => exact within_pure
  | cons n ns ih =>
    refine within_getInode.bind fun _ => Within.ite (within_bfree.bind fun _ => ?_) ih
    exact within_modifyInode.bind fun _ => ih

theorem within_truncEntries {a : BlockData} {js : List Nat} : Within SameRefs (truncEntries a js) := by
  induction js with
  | nil => exact within_pure
  | cons j js ih => exact (within_bfree.bind fun _ => ih).ite ih

theorem within_itrunc : Within SameRefs (itrunc i) := by
  refine within_truncDirect.bind fun _ => within_getInode.bind fun _ => ?_
  have hend : Within SameRefs (do modifyInode i fun d => { d with size := 0 }; iupdate i) :=
    within_modifyInode.bind fun _ => within_iupdate
  refine Within.ite (within_get_bind fun _ => within_truncEntries.bind fun _ => ?_) hend
  exact within_bfree.bind fun _ => within_modifyInode.bind fun _ => hend

variable {off : Nat}

theorem within_readLoop {fails : Nat → Bool} {fuel n : Nat} {acc : List Byte} :
    Within SameRefs (readLoop i fails fuel off n acc) := by
  induction fuel generalizing off n acc with
  | zero => exact within_pure
  | succ fuel ih =>
    refine within_pure.ite (within_bmap.bind fun _ => within_pure.ite (within_get_bind fun _ => ?_))
    exact within_pure.ite ih

theorem within_readi {fails : Nat → Bool} {n : Nat} : Within SameRefs (readi i fails off n) :=
  within_getInode.bind fun _ => within_pure.ite within_readLoop

theorem within_writeLoop {fails : Nat → Option Nat} {fuel : Nat} {src : List Byte} :
    Within SameRefs (writeLoop i fails fuel off src) := by
  induction fuel generalizing off src with
  | zero => exact within_pure
  | succ fuel ih =>
    refine within_pure.ite (within_bmap.bind fun _ => within_pure.ite (within_get_bind fun _ => ?_))
    dsimp only
    split
    · exact within_setData.bind fun _ => within_pure
    · exact within_setData.bind fun _ => within_logWrite.bind fun _ => ih

theorem within_writei {fails : Nat → Option Nat} {src : List Byte} :
    Within SameRefs (writei i fails off src) := by
  refine within_getInode.bind fun _ => within_pure.ite (within_pure.ite (within_writeLoop.bind fun _ => ?_))
  exact within_modifyInode.bind fun _ => within_iupdate.bind fun _ => within_pure

theorem within_readDirent : Within SameRefs (readDirent i off) := by
  refine within_readi.bind fun r => ?_
  cases r <;> exact within_pure

theorem within_emptyLoop {fuel : Nat} : Within SameRefs (emptyLoop i fuel off) := by
  induction fuel generalizing off with
  | zero => exact within_pure
  | succ fuel ih =>
    refine within_getInode.bind fun _ => within_pure.ite (within_readDirent.bind fun de => ?_)
    cases de with
    | none => exact within_throw
    | some de => exact within_pure.ite ih

theorem within_isdirempty : Within SameRefs (isdirempty i) := by
  have hloop : ∀ fuel off, Within SameRefs (isdiremptyLoop i fuel off) := by
    intro fuel
    induction fuel with
    | zero => exact fun _ => within_pure
    | succ fuel ih =>
      refine fun off => within_getInode.bind fun _ => within_pure.ite (within_readDirent.bind fun de => ?_)
      cases de with
      | none => exact within_throw
      | some de => exact within_pure.ite (ih _)
  exact within_getInode.bind fun _ => hloop _ _

end

/-! ## References and locks -/

section
variable {H : Fin ninode → Nat} {held locks : List (Fin ninode)} {i : Fin ninode} {s s' : Fs} {n : Nat}
  {α β : Type}

section
variable (h : Held H held locks s)
include h

theorem Held.same (hs : SameRefs s s') : Held H held locks s' where
  ref j := (hs.ref j).trans (h.ref j)
  locked j := by rw [hs.locked]; exact h.locked j
  nodup := h.nodup
  distinct j k hj hk he := h.distinct j k (hs.ref j ▸ hj) (hs.ref k ▸ hk) (by rwa [← hs.inum j, ← hs.inum k])

/-- A step that leaves references and locks alone. -/
theorem Held.sat {f : F α} (hf : Within SameRefs f) :
    Sat anyPanic f s fun _ s' => Held H held locks s' :=
  (hf s).mono fun _ _ hs => h.same hs

/-- The same as a first step. -/
theorem Held.step {f : F α} {g : α → F β} {Q : β → Fs → Prop}
    (hf : Within SameRefs f) (hg : ∀ a s', Held H held locks s' → Sat anyPanic (g a) s' Q) :
    Sat anyPanic (f >>= g) s Q :=
  (h.sat hf).bind hg

/-- References change hands. -/
theorem Held.recount {H' : Fin ninode → Nat} {held' : List (Fin ninode)}
    (hc : ∀ j, H' j + held'.count j = H j + held.count j) : Held H' held' locks s :=
  ⟨fun j => by rw [h.ref, hc], h.locked, h.nodup, h.distinct⟩

theorem Held.perm {held' : List (Fin ninode)} (hp : held.Perm held') :
    Held H held' locks s := h.recount fun j => by rw [hp.count_eq]

theorem Held.perm_locks {locks' : List (Fin ninode)} (hp : locks.Perm locks') :
    Held H held locks' s :=
  ⟨h.ref, fun j => by rw [h.locked, hp.mem_iff], hp.nodup_iff.mp h.nodup, h.distinct⟩

theorem Held.pos (hi : 0 < H i + held.count i) : 0 < (s.itable i).ref := by
  rw [h.ref]
  exact hi

/-- Entry `i` has one more reference, of the call. -/
theorem Held.gain {ip : Inode} (hr : ip.ref = (s.itable i).ref + 1)
    (hd : ∀ j, j ≠ i → 0 < (s.itable j).ref → (s.itable j).inum ≠ ip.inum) :
    Held H (i :: held) locks { s with itable := update s.itable i ip } := by
  refine ⟨fun j => ?_, h.locked, h.nodup, fun j k hj hk he => ?_⟩
  · by_cases hj : j = i
    · subst hj
      simp only [update_self, List.count_cons_self, hr, h.ref]
      omega
    · simp only [update_of_ne hj, List.count_cons_of_ne (Ne.symm hj), h.ref]
  · by_cases hji : j = i <;> by_cases hki : k = i
    · rw [hji, hki]
    · subst hji
      simp only [update_self, update_of_ne hki] at hk he
      exact absurd he.symm (hd k hki hk)
    · subst hki
      simp only [update_self, update_of_ne hji] at hj he
      exact absurd he (hd j hji hj)
    · simp only [update_of_ne hji, update_of_ne hki] at hj hk he
      exact h.distinct j k hj hk he

end

/-- The call gives up a reference. -/
theorem Held.lose (h : Held H (i :: held) locks s) : Held H held locks (s.setRef i ((s.itable i).ref - 1)) := by
  have hle : ∀ j, ((s.setRef i ((s.itable i).ref - 1)).itable j).ref ≤ (s.itable j).ref ∧
      ((s.setRef i ((s.itable i).ref - 1)).itable j).inum = (s.itable j).inum := fun j => by
    by_cases hj : j = i
    · subst hj
      simp only [setRef, update_self, Nat.sub_le, and_self]
    · simp only [setRef, update_of_ne hj, le_refl, and_self]
  refine ⟨fun j => ?_, h.locked, h.nodup, fun j k hj hk he => ?_⟩
  · have := h.ref j
    by_cases hj : j = i
    · subst hj
      simp only [setRef, update_self, List.count_cons_self] at this ⊢
      omega
    · simpa only [setRef, update_of_ne hj, List.count_cons_of_ne (Ne.symm hj)] using this
  · rw [(hle j).2, (hle k).2] at he
    exact h.distinct j k (hj.trans_le (hle j).1) (hk.trans_le (hle k).1) he

theorem Held.lock (h : Held H held locks s) (hi : s.locked i = false) :
    Held H held (i :: locks) (s.setLock i true) := by
  have hn : i ∉ locks := fun hm => by simp [(h.locked i).mpr hm] at hi
  refine ⟨h.ref, fun j => ?_, List.nodup_cons.mpr ⟨hn, h.nodup⟩, h.distinct⟩
  by_cases hj : j = i
  · simp only [setLock, hj, update_self, List.mem_cons, true_or]
  · simp only [setLock, update_of_ne hj, List.mem_cons, hj, false_or, h.locked]

theorem Held.unlock (h : Held H held (i :: locks) s) : Held H held locks (s.setLock i false) := by
  obtain ⟨hn, hnd⟩ := List.nodup_cons.mp h.nodup
  refine ⟨h.ref, fun j => ?_, hnd, h.distinct⟩
  by_cases hj : j = i
  · simp only [setLock, hj, update_self, Bool.false_eq_true, false_iff]
    exact hn
  · simp only [setLock, update_of_ne hj, h.locked, List.mem_cons, hj, false_or]

section
variable (h : Held H held locks s)
include h

theorem Held.got (hg : Got n s i s') : Held H (i :: held) locks s' := by
  cases hg with
  | again hr hn => exact h.gain rfl fun j hj hjr he => hj (h.distinct j i hjr hr he)
  | new hr hn => exact h.gain (by simp only [hr]) fun j _ hjr => hn j hjr

theorem held_iget :
    Sat anyPanic (iget n) s fun i s' => Held H (i :: held) locks s' :=
  (sat_iget trivial).mono fun _ _ hg => h.got hg

theorem held_idup (hi : 0 < H i + held.count i) :
    Sat anyPanic (idup i) s fun j s' => j = i ∧ Held H (i :: held) locks s' :=
  sat_of_eq idup_eq ⟨rfl, h.gain rfl fun j hj hjr he => hj (h.distinct j i hjr (h.pos hi) he)⟩

theorem held_ilock :
    Sat anyPanic (ilock i) s fun _ s' => Held H held (i :: locks) s' := by
  refine sat_bind rfl (sat_ite (fun _ => sat_throw_bind trivial) fun _ => ?_)
  refine (sat_acquiresleep fun _ => trivial).bind ?_
  rintro - _ ⟨rfl, hl⟩
  have h₁ := h.lock hl
  refine sat_ite (fun _ => sat_bind rfl ?_) fun _ => sat_pure h₁
  exact sat_ite (fun _ => sat_throw trivial) fun _ => sat_pure (h₁.same (.update rfl rfl))

end

theorem held_iunlock (h : Held H held (i :: locks) s) :
    Sat anyPanic (iunlock i) s fun _ s' => Held H held locks s' := by
  refine (sat_iunlock trivial).mono ?_
  rintro - _ ⟨rfl, -⟩
  exact h.unlock

variable [Superblock]

theorem held_ialloc {t : IType} (h : Held H held locks s) :
    Sat anyPanic (ialloc t) s fun r s' => Held H (r.toList ++ held) locks s' := by
  refine (sat_ialloc trivial).mono ?_
  rintro _ s' (⟨rfl, rfl⟩ | ⟨i, n, rfl, -, -, -, hg⟩)
  · exact h
  · have h₁ : Held H held locks (s.alloc n t) := h.same ⟨fun _ => rfl, fun _ => rfl, rfl⟩
    exact h₁.got hg

/-- `iput` takes and releases the lock when it frees the inode. -/
theorem held_iput (h : Held H (i :: held) locks s) :
    Sat anyPanic (iput i) s fun _ s' => Held H held locks s' := by
  refine h.step within_getInode fun ip s₁ h₁ => ?_
  have hlast : ∀ s : Fs, Held H (i :: held) locks s →
      Sat anyPanic (do let ip ← getInode i; setInode i { ip with ref := ip.ref - 1 }) s
        fun _ s' => Held H held locks s' := fun s h => sat_of_eq rfl h.lose
  refine sat_ite (fun _ => ?_) fun _ => hlast s₁ h₁
  refine (sat_acquiresleep fun _ => trivial).bind ?_
  rintro - _ ⟨rfl, hl⟩
  refine (h₁.lock hl).step within_itrunc fun _ s₂ h₂ => h₂.step within_modifyInode fun _ s₃ h₃ => ?_
  refine h₃.step within_iupdate fun _ s₄ h₄ => sat_bind rfl (sat_bind rfl (sat_bind releasesleep_eq ?_))
  refine hlast _ (Held.unlock (h₄.same ?_))
  exact .update rfl rfl

theorem held_iunlockput (h : Held H (i :: held) (i :: locks) s) :
    Sat anyPanic (iunlockput i) s fun _ s' => Held H held locks s' :=
  (held_iunlock h).bind fun _ _ h' => held_iput h'

/-! ## Directories and paths -/

variable {name : Name} {ip cwd dp : Fin ninode} {path : List Byte}

/-- `dirlookup` returns a new reference. -/
theorem held_dirlookup (h : Held H held locks s) :
    Sat anyPanic (dirlookup i name) s fun r s' => Held H ((r.map (·.1)).toList ++ held) locks s' := by
  have hloop : ∀ fuel off s, Held H held locks s → Sat anyPanic (lookupLoop i name fuel off) s
      fun r s' => Held H ((r.map (·.1)).toList ++ held) locks s' := by
    intro fuel
    induction fuel with
    | zero => exact fun off s h => sat_pure h
    | succ fuel ih =>
      refine fun off s h => h.step within_getInode fun _ s₁ h₁ => sat_ite (fun _ => sat_pure h₁) fun _ => ?_
      refine h₁.step within_readDirent fun de s₂ h₂ => ?_
      cases de with
      | none => exact sat_throw trivial
      | some de => exact sat_ite (fun _ => (held_iget h₂).bind fun _ _ h₃ => sat_pure h₃) fun _ => ih _ _ h₂
  refine h.step within_getInode fun _ s₁ h₁ => sat_ite (fun _ => sat_throw_bind trivial) fun _ => ?_
  exact hloop _ _ s₁ h₁

theorem held_dirlink (h : Held H held locks s) :
    Sat anyPanic (dirlink i name n) s fun _ s' => Held H held locks s' := by
  refine (held_dirlookup h).bind ?_
  rintro (_ | ⟨ip, off⟩) s₁ h₁
  · refine Held.step h₁ within_getInode fun _ s₂ h₂ => h₂.step within_emptyLoop fun _ s₃ h₃ => ?_
    exact h₃.step within_writei fun _ s₄ h₄ => sat_pure h₄
  · exact (held_iput h₁).bind fun _ _ h₂ => sat_pure h₂

/-- The reference to `ip` is given up, or passed on to the next inode. -/
theorem held_namexLoop {parent : Bool} {elems : List Name}
    (h : Held H (ip :: held) locks s) :
    Sat anyPanic (namexLoop parent ip elems) s
      fun r s' => Held H ((r.map (·.1)).toList ++ held) locks s' := by
  induction elems generalizing ip s with
  | nil => exact sat_ite (fun _ => (held_iput h).bind fun _ _ h₁ => sat_pure h₁) fun _ => sat_pure h
  | cons name elems ih =>
    have hbad : ∀ s, Held H (ip :: held) (ip :: locks) s →
        Sat anyPanic (do iunlockput ip; return (none : Option (Fin ninode × Name))) s
          fun r s' => Held H ((r.map (·.1)).toList ++ held) locks s' := fun s h =>
      (held_iunlockput h).bind fun _ _ h₁ => sat_pure h₁
    refine (held_ilock h).bind fun _ s₁ h₁ => h₁.step within_getInode fun _ s₂ h₂ => ?_
    refine sat_ite (fun _ => hbad s₂ h₂) fun _ => ?_
    refine sat_ite (fun _ => (held_iunlock h₂).bind fun _ _ h₃ => sat_pure h₃) fun _ => ?_
    refine (held_dirlookup h₂).bind ?_
    rintro (_ | ⟨next, off⟩) s₃ h₃
    · exact hbad s₃ h₃
    · exact (held_iunlockput (h₃.perm (List.Perm.swap ..))).bind fun _ _ h₄ => ih h₄

/-- `namex` returns a reference, if it returns an inode. -/
theorem held_namex {parent : Bool} (h : Held H held locks s)
    (hc : 0 < H cwd + held.count cwd) :
    Sat anyPanic (namex cwd path parent) s
      fun r s' => Held H ((r.map (·.1)).toList ++ held) locks s' := by
  refine sat_ite (fun _ => (held_iget h).bind fun ip s₁ h₁ => held_namexLoop h₁) fun _ => ?_
  refine (held_idup h hc).bind ?_
  rintro _ s₁ ⟨rfl, h₁⟩
  exact held_namexLoop h₁

theorem held_namei (h : Held H held locks s)
    (hc : 0 < H cwd + held.count cwd) :
    Sat anyPanic (namei cwd path) s fun r s' => Held H (r.toList ++ held) locks s' :=
  (held_namex h hc).bind fun _ _ h₁ => sat_pure h₁

/-! ## System calls -/

theorem held_createFail (h : Held H (ip :: dp :: held) (ip :: dp :: locks) s) :
    Sat anyPanic (createFail dp ip) s fun r s' => Held H (r.toList ++ held) (r.toList ++ locks) s' := by
  refine h.step within_modifyInode fun _ s₁ h₁ => h₁.step within_iupdate fun _ s₂ h₂ => ?_
  refine (held_iunlockput h₂).bind fun _ s₃ h₃ => (held_iunlockput h₃).bind fun _ s₄ h₄ => ?_
  exact sat_pure h₄

theorem held_createLink {type : IType} {major minor : Int}
    (h : Held H (ip :: dp :: held) (dp :: locks) s) :
    Sat anyPanic (createLink dp ip name type major minor) s
      fun r s' => Held H (r.toList ++ held) (r.toList ++ locks) s' := by
  refine (held_ilock h).bind fun _ s₁ h₁ => h₁.step within_modifyInode fun _ s₂ h₂ => ?_
  refine h₂.step within_iupdate fun _ s₃ h₃ => h₃.step within_getInode fun ind s₄ h₄ => ?_
  -- the parent is let go of last
  have hend : ∀ s, Held H (ip :: dp :: held) (ip :: dp :: locks) s →
      Sat anyPanic (do iunlockput dp; return some ip) s
        fun r s' => Held H (r.toList ++ held) (r.toList ++ locks) s' := fun s h =>
    (held_iunlockput ((h.perm (.swap ..)).perm_locks (.swap ..))).bind fun _ _ h₁ => sat_pure h₁
  have hparent : ∀ s, Held H (ip :: dp :: held) (ip :: dp :: locks) s →
      Sat anyPanic (do
        if !(← dirlink dp name ind.inum) then return ← createFail dp ip
        if type = .dir then
          modifyInode dp fun d => { d with nlink := toShort (d.nlink + 1) }
          iupdate dp
        iunlockput dp
        return some ip) s fun r s' => Held H (r.toList ++ held) (r.toList ++ locks) s' := fun s h => by
    refine (held_dirlink h).bind fun ok s₁ h₁ => ?_
    refine sat_ite (fun _ => held_createFail h₁) fun _ => ?_
    refine sat_ite (fun _ => h₁.step within_modifyInode fun _ s₂ h₂ => ?_) fun _ => hend _ h₁
    exact h₂.step within_iupdate fun _ s₃ h₃ => hend s₃ h₃
  refine sat_ite (fun _ => ?_) fun _ => hparent s₄ h₄
  refine (held_dirlink h₄).bind fun ok s₅ h₅ => ?_
  refine sat_ite (fun _ => held_createFail h₅) fun _ => ?_
  refine h₅.step within_getInode fun _ s₆ h₆ => (held_dirlink h₆).bind fun ok s₇ h₇ => ?_
  exact sat_ite (fun _ => held_createFail h₇) fun _ => hparent s₇ h₇

/-- `create` returns a reference and the lock. -/
theorem held_create {type : IType} {major minor : Int}
    (h : Held H held locks s) (hc : 0 < H cwd + held.count cwd) :
    Sat anyPanic (create cwd path type major minor) s
      fun r s' => Held H (r.toList ++ held) (r.toList ++ locks) s' := by
  refine (held_namex h hc).bind ?_
  rintro (_ | ⟨dp, name⟩) s₁ h₁
  · exact sat_pure h₁
  refine (held_ilock h₁).bind fun _ s₂ h₂ => (held_dirlookup h₂).bind ?_
  rintro (_ | ⟨ip, off⟩) s₃ h₃
  · refine (held_ialloc h₃).bind ?_
    rintro (_ | ip) s₄ h₄
    · exact (held_iunlockput h₄).bind fun _ _ h₅ => sat_pure h₅
    · exact held_createLink h₄
  · refine (held_iunlockput (h₃.perm (.swap ..))).bind fun _ s₄ h₄ => (held_ilock h₄).bind fun _ s₅ h₅ => ?_
    refine h₅.step within_getInode fun _ s₆ h₆ => sat_ite (fun _ => sat_pure h₆) fun _ => ?_
    exact (held_iunlockput h₆).bind fun _ _ h₇ => sat_pure h₇

theorem held_linkBad (h : Held H (ip :: held) locks s) :
    Sat anyPanic (linkBad ip) s fun _ s' => Held H held locks s' := by
  refine (held_ilock h).bind fun _ s₁ h₁ => h₁.step within_modifyInode fun _ s₂ h₂ => ?_
  refine h₂.step within_iupdate fun _ s₃ h₃ => (held_iunlockput h₃).bind fun _ s₄ h₄ => ?_
  exact sat_pure h₄

theorem held_link {old new : List Byte} (h : Held H held locks s)
    (hc : 0 < H cwd + held.count cwd) :
    Sat anyPanic (link cwd old new) s fun _ s' => Held H held locks s' := by
  refine (held_namei h hc).bind ?_
  rintro (_ | ip) s₁ h₁
  · exact sat_pure h₁
  refine (held_ilock h₁).bind fun _ s₂ h₂ => h₂.step within_getInode fun _ s₃ h₃ => ?_
  refine sat_ite (fun _ => (held_iunlockput h₃).bind fun _ _ h₄ => sat_pure h₄) fun _ => ?_
  refine h₃.step within_modifyInode fun _ s₄ h₄ => h₄.step within_iupdate fun _ s₅ h₅ => ?_
  refine (held_iunlock h₅).bind fun _ s₆ h₆ => (held_namex h₆ ?_).bind ?_
  · show 0 < H cwd + (ip :: held).count cwd
    have := List.count_le_count_cons (a := cwd) (b := ip) (l := held)
    omega
  rintro (_ | ⟨dp, name⟩) s₇ h₇
  · exact held_linkBad h₇
  refine (held_ilock h₇).bind fun _ s₈ h₈ => h₈.step within_getInode fun _ s₉ h₉ => ?_
  refine (held_dirlink h₉).bind fun ok t h₁₀ => ?_
  refine sat_ite (fun _ => ?_) fun _ => (held_iunlockput h₁₀).bind fun _ _ h₁₁ => held_linkBad h₁₁
  refine (held_iunlockput h₁₀).bind fun _ _ h₁₁ => (held_iput h₁₁).bind fun _ _ h₁₂ => ?_
  exact sat_pure h₁₂

theorem held_unlinkEntry {off : Nat}
    (h : Held H (ip :: dp :: held) (ip :: dp :: locks) s) :
    Sat anyPanic (unlinkEntry dp ip off) s fun _ s' => Held H held locks s' := by
  have hend : ∀ s, Held H (ip :: dp :: held) (ip :: dp :: locks) s →
      Sat anyPanic (do
        iunlockput dp
        modifyInode ip fun d => { d with nlink := toShort (d.nlink - 1) }
        iupdate ip
        iunlockput ip) s fun _ s' => Held H held locks s' := fun s h => by
    refine (held_iunlockput ((h.perm (.swap ..)).perm_locks (.swap ..))).bind fun _ s₁ h₁ => ?_
    refine h₁.step within_modifyInode fun _ s₂ h₂ => h₂.step within_iupdate fun _ s₃ h₃ => ?_
    exact held_iunlockput h₃
  refine h.step within_writei fun _ s₁ h₁ => sat_ite (fun _ => sat_throw_bind trivial) fun _ => ?_
  refine h₁.step within_getInode fun _ s₂ h₂ => sat_ite (fun _ => ?_) fun _ => hend s₂ h₂
  exact h₂.step within_modifyInode fun _ s₃ h₃ => h₃.step within_iupdate fun _ s₄ h₄ => hend s₄ h₄

theorem held_unlinkIn (h : Held H (dp :: held) locks s) :
    Sat anyPanic (unlinkIn dp name) s fun _ s' => Held H held locks s' := by
  have hbad : ∀ s, Held H (dp :: held) (dp :: locks) s →
      Sat anyPanic (do iunlockput dp; return false) s fun _ s' => Held H held locks s' :=
    fun s h => (held_iunlockput h).bind fun _ _ h' => sat_pure h'
  refine (held_ilock h).bind fun _ s₂ h₂ => sat_ite (fun _ => hbad s₂ h₂) fun _ => ?_
  refine (held_dirlookup h₂).bind ?_
  rintro (_ | ⟨ip, off⟩) s₃ h₃
  · exact hbad s₃ h₃
  refine (held_ilock h₃).bind fun _ s₄ h₄ => h₄.step within_getInode fun _ s₅ h₅ => ?_
  refine sat_ite (fun _ => sat_throw_bind trivial) fun _ => h₅.step within_getInode fun _ s₆ h₆ => ?_
  have hgo : ∀ s, Held H (ip :: dp :: held) (ip :: dp :: locks) s →
      Sat anyPanic (do unlinkEntry dp ip off; return true) s fun _ s' => Held H held locks s' :=
    fun s h => (held_unlinkEntry h).bind fun _ _ h' => sat_pure h'
  refine sat_ite (fun _ => h₆.step within_isdirempty fun ok s₇ h₇ => ?_) fun _ => hgo s₆ h₆
  exact sat_ite (fun _ => (held_iunlockput h₇).bind fun _ s₈ h₈ => hbad s₈ h₈) fun _ => hgo s₇ h₇

theorem held_unlink (h : Held H held locks s)
    (hc : 0 < H cwd + held.count cwd) :
    Sat anyPanic (unlink cwd path) s fun _ s' => Held H held locks s' := by
  refine (held_namex h hc).bind ?_
  rintro (_ | ⟨dp, name⟩) s₁ h₁
  · exact sat_pure h₁
  · exact held_unlinkIn h₁

theorem held_mknod {type : IType} {major minor : Int}
    (h : Held H held locks s) (hc : 0 < H cwd + held.count cwd) :
    Sat anyPanic (mknod cwd path type major minor) s fun _ s' => Held H held locks s' := by
  refine (held_create h hc).bind ?_
  rintro (_ | ip) s₁ h₁
  · exact sat_pure h₁
  · exact (held_iunlockput h₁).bind fun _ _ h₂ => sat_pure h₂

/-- `sys_chdir` exchanges the reference to the current directory for one to the new one. -/
theorem held_chdir (h : Held H (cwd :: held) locks s) :
    Sat anyPanic (chdir cwd path) s fun r s' => Held H (r.getD cwd :: held) locks s' := by
  refine (held_namei h (by rw [List.count_cons_self]; omega)).bind ?_
  rintro (_ | ip) s₁ h₁
  · exact sat_pure h₁
  refine (held_ilock h₁).bind fun _ s₂ h₂ => h₂.step within_getInode fun _ s₃ h₃ => ?_
  refine sat_ite (fun _ => (held_iunlockput h₃).bind fun _ _ h₄ => sat_pure h₄) fun _ => ?_
  refine (held_iunlock h₃).bind fun _ s₄ h₄ => (held_iput (h₄.perm (.swap ..))).bind fun _ s₅ h₅ => ?_
  exact sat_pure h₅

theorem held_openInode {omode : Nat} (h : Held H held locks s)
    (hc : 0 < H cwd + held.count cwd) :
    Sat anyPanic (openInode cwd path omode) s
      fun r s' => Held H (r.toList ++ held) (r.toList ++ locks) s' := by
  refine sat_ite (fun _ => held_create h hc) fun _ => (held_namei h hc).bind ?_
  rintro (_ | ip) s₁ h₁
  · exact sat_pure h₁
  refine (held_ilock h₁).bind fun _ s₂ h₂ => h₂.step within_getInode fun _ s₃ h₃ => ?_
  refine sat_ite (fun _ => (held_iunlockput h₃).bind fun _ _ h₄ => sat_pure h₄) fun _ => ?_
  exact sat_pure h₃

theorem within_readExact {off : Nat} : Within SameRefs (readExact i off n) := by
  refine within_readi.bind fun r => ?_
  cases r <;> exact within_pure

theorem within_readSegment {offset sz left k : Nat} : Within SameRefs (readSegment i offset sz left k) := by
  induction left generalizing k with
  | zero => exact within_pure
  | succ left ih =>
    refine within_readExact.bind fun r => ?_
    cases r with
    | none => exact within_pure
    | some _ => exact ih

theorem within_readProgram {mem : Nat → Bool} {left off : Nat} :
    Within SameRefs (readProgram i mem left off) := by
  induction left generalizing off with
  | zero => exact within_pure
  | succ left ih =>
    refine within_readExact.bind fun r => ?_
    split
    · exact within_pure
    · refine ih.ite (within_pure.ite ?_)
      exact within_readSegment.bind fun _ => ih.ite within_pure

theorem within_readImage {pagetable : Bool} {mem : Nat → Bool} :
    Within SameRefs (readImage i pagetable mem) := by
  refine within_readExact.bind fun r => ?_
  split
  · exact within_pure
  · exact within_readProgram.ite within_pure

/-- `kexec` keeps no reference to the program. -/
theorem held_execFile {pagetable : Bool} {mem : Nat → Bool}
    (h : Held H held locks s) (hc : 0 < H cwd + held.count cwd) :
    Sat anyPanic (execFile cwd path pagetable mem) s fun _ s' => Held H held locks s' := by
  refine (held_namei h hc).bind ?_
  rintro (_ | ip) s₁ h₁
  · exact sat_pure h₁
  refine (held_ilock h₁).bind fun _ s₂ h₂ => h₂.step within_readImage fun r s₃ h₃ => ?_
  exact (held_iunlockput h₃).bind fun _ _ h₄ => sat_pure h₄

end

end Fs

end MiniOS
