import MiniOS.File

/-!
# MiniOS.File.Spec

Calls of `fs.c` and `kalloc.c` from `file.c`, and what `filealloc` does.
-/

namespace MiniOS

open Checked

/-- Any panic may stop the call. -/
abbrev anyPanic : Panic → Prop := fun _ => True

variable {α : Type} {s : FileSys}

theorem sat_liftF {A : Panic → Prop} {f : F α} {Q : α → FileSys → Prop}
    (h : Sat A f s.fs fun a fs => Q a { s with fs := fs }) : Sat A (liftF f) s Q := by
  unfold Sat liftF at *
  cases hf : f s.fs with
  | ok r => rw [hf] at h; exact h
  | error e => rw [hf] at h; exact h

/-- Nothing is known of the call. -/
theorem sat_liftF_bind {β : Type} {f : F α} {g : α → M β} {Q : β → FileSys → Prop}
    (h : ∀ a fs, Sat anyPanic (g a) { s with fs := fs } Q) : Sat anyPanic (liftF f >>= g) s Q := by
  refine Sat.bind (P := fun _ s' => ∃ fs, s' = { s with fs := fs }) (sat_liftF ?_) ?_
  · unfold Sat
    cases f s.fs with
    | ok r => exact ⟨r.2, rfl⟩
    | error e => trivial
  · rintro a _ ⟨fs, rfl⟩
    exact h a fs

theorem liftMem_eq {f : K α} {a : α} {kmem : Kmem}
    (h : f s.kmem = some (a, kmem)) : liftMem f s = .ok (a, { s with kmem := kmem }) := by
  rw [liftMem, h]

theorem sat_liftMem {f : K α} {Q : α → FileSys → Prop}
    (h : ∀ a kmem, f s.kmem = some (a, kmem) → Q a { s with kmem := kmem }) :
    Sat anyPanic (liftMem f) s Q := by
  unfold Sat liftMem
  cases hf : f s.kmem with
  | none => trivial
  | some r => exact h r.1 r.2 hf

theorem sat_liftMem_bind {β : Type} {f : K α} {g : α → M β} {Q : β → FileSys → Prop}
    (h : ∀ a kmem, f s.kmem = some (a, kmem) → Sat anyPanic (g a) { s with kmem := kmem } Q) :
    Sat anyPanic (liftMem f >>= g) s Q := by
  refine Sat.bind (P := fun a s' => ∃ kmem, f s.kmem = some (a, kmem) ∧ s' = { s with kmem := kmem })
    (sat_liftMem fun a kmem hf => ⟨kmem, hf, rfl⟩) ?_
  rintro a _ ⟨kmem, hf, rfl⟩
  exact h a kmem hf

/-- `filealloc` takes a file without references. -/
theorem sat_filealloc {A : Panic → Prop} :
    Sat A filealloc s fun r s' =>
      match r with
      | some f => (s.ftable f).ref = 0 ∧
          s' = { s with ftable := Function.update s.ftable f { s.ftable f with ref := 1 } }
      | none => s' = s ∧ ∀ f, (s.ftable f).ref ≠ 0 := by
  refine sat_bind rfl ?_
  split
  · next f hf => exact sat_bind rfl (sat_pure ⟨by simpa using List.find?_some hf, rfl⟩)
  · next hnone =>
      exact sat_pure ⟨rfl, fun f => by
        simpa using List.find?_eq_none.mp hnone f (List.mem_finRange f)⟩

/-- One process, with the root directory, and the given memory. -/
def oneProcess (kmem : Kmem) : FileSys where
  fs := ⟨fun _ => true, fun _ => .free, fun _ => zeroBlock, fun _ => ⟨1, 1, false, .free⟩, ∅, fun _ => false⟩
  kmem := kmem
  ftable _ := File.zero
  mftable _ := Memfile.zero
  pipes _ := ⟨false, false⟩
  ofile _ _ := none
  cwd p := if p = 0 then some 0 else none
  sections := []

end MiniOS
