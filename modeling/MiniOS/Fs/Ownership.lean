import MiniOS.Fs.Itable
import MiniOS.Fs.Image
import MiniOS.Lib.Runs

/-!
# MiniOS.Fs.Ownership

Sequences of complete calls of `kernel/fs.c`.  A well-formed file system stays
well-formed: every block of the data area in use has exactly one reference,
and files have no holes.
-/

namespace MiniOS

open Checked Runs

namespace Fs

/-- A call of `fs.c`.  The calls on an entry of the inode table need a
reference to it, and those on the contents also its lock. -/
inductive Op
  | ialloc (type : IType)
  | iget (inum : Nat)
  | idup (i : Fin ninode)
  | ilock (i : Fin ninode)
  | iunlock (i : Fin ninode)
  | writei (i : Fin ninode) (fails : Nat → Option Nat) (off : Nat) (src : List Byte)
  | readi (i : Fin ninode) (fails : Nat → Bool) (off n : Nat)
  | itrunc (i : Fin ninode)
  /-- fields are assigned before `iupdate` -/
  | iupdate (i : Fin ninode) (major minor nlink : Int)
  | iput (i : Fin ninode)

variable [Superblock]

def Op.perform : Op → F Unit
  | .ialloc type => do let _ ← Fs.ialloc type
  | .iget inum => do let _ ← Fs.iget inum
  | .idup i => do let _ ← Fs.idup i
  | .ilock i => Fs.ilock i
  | .iunlock i => Fs.iunlock i
  | .writei i fails off src => do let _ ← Fs.writei i fails off src
  | .readi i fails off n => do let _ ← Fs.readi i fails off n
  | .itrunc i => Fs.itrunc i
  | .iupdate i major minor nlink => do
      modifyInode i fun d => { d with major := major, minor := minor, nlink := nlink }
      Fs.iupdate i
  | .iput i => Fs.iput i

/-- The caller has the reference, and the lock. -/
def Op.Allowed (s : Fs) : Op → Prop
  | .ialloc _ | .iget _ => True
  | .idup i | .ilock i | .iunlock i | .iput i => 0 < (s.itable i).ref
  | .writei i _ _ _ | .readi i _ _ _ | .itrunc i | .iupdate i _ _ _ => s.Locked i

/-- The state after a call, unless the kernel panics in it. -/
def step (s : Fs) (op : Op) : Option Fs :=
  match op.perform s with
  | .ok (_, s') => some s'
  | .error _ => none

variable {s : Fs}

/-- A call keeps the file system well-formed, and frees no block that is free. -/
theorem sat_perform (h : Wf s) (op : Op) (ha : op.Allowed s) :
    Sat (fun e => e ≠ .freeingFreeBlock) op.perform s fun _ s' => Wf s' := by
  cases op with
  | ialloc t =>
    refine (sat_ialloc (by simp)).bind fun r s' hs => sat_pure ?_
    rcases hs with ⟨-, rfl⟩ | ⟨i, n, -, hfree, -, -, hg⟩
    · exact h
    · exact hg.wf (h.alloc hfree t)
  | iget n => exact (sat_iget (by simp)).bind fun i s' hg => sat_pure (hg.wf h)
  | idup i => exact sat_bind idup_eq (sat_pure (h.setRef ha _))
  | ilock i =>
    refine (sat_ilock h ha (fun _ => by simp) fun _ => by simp).mono ?_
    rintro - s' ⟨rfl, ht⟩
    exact (h.load ha ht).setLock true
  | iunlock i =>
    refine (sat_iunlock (by simp)).mono ?_
    rintro - s' ⟨rfl, -⟩
    exact h.setLock false
  | writei i fails off src =>
    refine (sat_writei h ha).bind fun r s' hs => sat_pure ?_
    rcases hs with ⟨-, rfl, -⟩ | ⟨off', -, -, hst⟩
    · exact h
    · exact hst.wf
  | readi i fails off n =>
    refine (sat_readi h ha).bind fun r s' hs => sat_pure ?_
    rw [hs.1]
    exact h
  | itrunc i => exact (sat_itrunc h ha).mono fun _ _ ht => ht.wf
  | iupdate i major minor nlink => exact sat_put_last (h.put ha rfl rfl rfl)
  | iput i => exact (sat_iput h ha fun _ => by simp).mono fun _ _ hs => hs.1

theorem wf_run {s₀ : Fs} {ops : List Op} (h : Wf s₀) (ha : Along step (fun s op => op.Allowed s) s₀ ops)
    (hrun : run step s₀ ops = some s) : Wf s := by
  refine invariant (fun s op s' hw hok hs => ?_) h ha hrun
  unfold step at hs
  split at hs
  · next hp =>
      cases hs
      exact (sat_perform hw op hok).of_run hp
  · cases hs

/-- After every sequence of calls of `fs.c` on a well-formed file system: a block of the data area
in use has exactly one reference, a block that an allocated inode refers to is in use and in the
data area, files have no holes, and no call panics in `bfree`. -/
theorem block_ownership {s₀ : Fs} {ops : List Op} (h₀ : Wf s₀)
    (ha : Along step (fun s op => op.Allowed s) s₀ ops) (hrun : run step s₀ ops = some s) :
    (∀ b, dataStart ≤ b → b < Superblock.size → s.bitmap b = true →
      ∃! x : Nat × Place, (s.dinode x.1).type ≠ .free ∧ (s.dinode x.1).ptr s.data x.2 = b) ∧
    (∀ n p, (s.dinode n).type ≠ .free → (s.dinode n).ptr s.data p ≠ 0 →
      dataStart ≤ (s.dinode n).ptr s.data p ∧ (s.dinode n).ptr s.data p < Superblock.size ∧
        s.bitmap ((s.dinode n).ptr s.data p) = true) ∧
    (∀ n bn, (s.dinode n).type ≠ .free → bn < ((s.dinode n).size + (bsize - 1)) / bsize →
      (s.dinode n).blockAt s.data bn ≠ 0) ∧
    ∀ op : Op, op.Allowed s → op.perform s ≠ .error .freeingFreeBlock := by
  have h := wf_run h₀ ha hrun
  refine ⟨fun b hlo hhi hb => ?_, fun n p ht h0 => ?_, fun n bn ht hbn => h.mapped n bn ht ?_,
    fun op hop hp => (sat_perform h op hop).of_error hp rfl⟩
  · have hpos := h.owned.pos
    have howner : ∀ x, owner s.dinode s.data x = b ↔
        (s.dinode x.1).type ≠ .free ∧ (s.dinode x.1).ptr s.data x.2 = b := fun x => by
      unfold owner
      split
      · next hf => exact ⟨fun e => by omega, fun e => absurd hf e.1⟩
      · next hf => exact ⟨fun e => ⟨hf, e⟩, And.right⟩
    simp only [← howner]
    exact (h.owned.used_iff hlo hhi).mp hb
  · have := h.owned.named (n, p) (by rwa [owner_of_alloc ht])
    rw [owner_of_alloc ht] at this
    exact ⟨this.1, this.2.1, this.2.2.1⟩
  · simp only [bsize] at *; omega

end Fs

/-- A new file of two bytes has its block to itself. -/
theorem block_ownership_new_file :
    ∃ s, run (@Fs.step mkfsSuperblock) mkfsImage
        [.ialloc .file, .ilock 0, .writei 0 (fun _ => none) 0 [7, 8]] = some s ∧
      ∃! x : Nat × Place, (s.dinode x.1).type ≠ .free ∧ (s.dinode x.1).ptr s.data x.2 = 50 := by
  have hend : ((run (@Fs.step mkfsSuperblock) mkfsImage
      [.ialloc .file, .ilock 0, .writei 0 (fun _ => none) 0 [7, 8]]).map fun s => s.bitmap 50) = some true := by
    decide +kernel
  have href : ((@Fs.step mkfsSuperblock mkfsImage (.ialloc .file)).map fun s => (s.itable 0).ref) = some 1 := by
    decide +kernel
  have hlock : ((run (@Fs.step mkfsSuperblock) mkfsImage [.ialloc .file, .ilock 0]).map
      fun s => ((s.itable 0).ref, (s.itable 0).valid)) = some (1, true) := by decide +kernel
  obtain ⟨s, hrun, hb⟩ := Option.map_eq_some_iff.mp hend
  have hallowed : Along (@Fs.step mkfsSuperblock) (fun s op => op.Allowed s) mkfsImage
      [.ialloc .file, .ilock 0, .writei 0 (fun _ => none) 0 [7, 8]] := by
    refine ⟨trivial, fun s₁ h₁ => ⟨?_, fun s₂ h₂ => ⟨?_, fun _ _ => trivial⟩⟩⟩
    · rw [h₁] at href
      simp only [Option.map_some, Option.some.injEq] at href
      exact Nat.lt_of_lt_of_eq Nat.one_pos href.symm
    · rw [run_cons_of_step h₁, run_cons_of_step h₂] at hlock
      simp only [run_nil, Option.map_some, Option.some.injEq, Prod.mk.injEq] at hlock
      exact ⟨Nat.lt_of_lt_of_eq Nat.one_pos hlock.1.symm, hlock.2⟩
  exact ⟨s, hrun, (@Fs.block_ownership mkfsSuperblock _ _ _ wf_mkfsImage hallowed hrun).1 50 (by decide)
    (by decide) hb⟩

end MiniOS
