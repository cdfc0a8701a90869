import MiniOS.Kernel.Edits
import MiniOS.Lib.Slots

/-!
# MiniOS.Kernel.Inv

The invariant of the kernel between operations.  The page tables in use are
those of the process table, and the pages that the kernel holds are the
trapframes and its buffers; every live process has an `Image`: a page table
with nothing but its pages below `sz` and the two mappings of the kernel.

`Sys.Inv.update` rebuilds the invariant after an operation from the edits it
made and the one entry of the process table it changed.
-/

namespace MiniOS

open Total

def Table.pagetables (t : Table) : Fin nproc → Nat := fun p => (t p).pagetable

def Table.trapframes (t : Table) : Fin nproc → Nat := fun p => (t p).trapframe

@[simp] theorem Table.pagetables_update (t : Table) (p : Fin nproc) (proc : Proc) :
    Table.pagetables (Function.update t p proc) = Function.update t.pagetables p proc.pagetable :=
  Function.comp_update Proc.pagetable t p proc

@[simp] theorem Table.trapframes_update (t : Table) (p : Fin nproc) (proc : Proc) :
    Table.trapframes (Function.update t p proc) = Function.update t.trapframes p proc.trapframe :=
  Function.comp_update Proc.trapframe t p proc

/-- The page tables of all processes. -/
def Sys.roots (s : Sys) : Finset Nat := Slots.named s.procs.pagetables

/-- The pages that the kernel holds besides page tables. -/
def Sys.held (s : Sys) : Finset Nat := Slots.named s.procs.trapframes ∪ s.kbufs

/-- What the processes see. -/
def Sys.view (s : Sys) : View := MiniOS.view s.kmem s.roots

theorem Sys.mem_roots {s : Sys} {r : Nat} : r ∈ s.roots ↔ r ≠ 0 ∧ ∃ p, (s.procs p).pagetable = r :=
  Slots.mem_named

section
variable [KernelImage]

/-- The memory of a live process. -/
structure Image (V : View) (proc : Proc) : Prop where
  root : proc.pagetable ≠ 0
  frame : proc.trapframe ≠ 0
  size : proc.sz ≤ trapframeVa
  above : ∀ v, pgRoundUp proc.sz / pgSize ≤ v → v < userVpn → V.pte proc.pagetable v = 0
  trapframe : V.pte proc.pagetable userVpn = trapframePte proc.trapframe
  trampoline : V.pte proc.pagetable (userVpn + 1) = trampolinePte

/-- An entry of the process table is empty, or has an image. -/
def Entry (V : View) (proc : Proc) : Prop :=
  if proc.state = .unused then proc.pagetable = 0 ∧ proc.trapframe = 0 ∧ proc.sz = 0
  else Image V proc

/-- The invariant of the kernel. -/
structure Sys.Inv (s : Sys) : Prop where
  ok : Ok s.kmem s.roots s.held
  tables : Slots.Distinct s.procs.pagetables
  frames : Slots.Distinct s.procs.trapframes
  kbufs : ∀ p, (s.procs p).trapframe ∉ s.kbufs
  excl : s.view.Excl
  entry : ∀ p, Entry s.view (s.procs p)

variable {V : View} {proc : Proc} {es : List Edit}

theorem Entry.image (h : Entry V proc) (hl : proc.state ≠ .unused) :
    Image V proc := by rwa [Entry, if_neg hl] at h

theorem Entry.idle (h : Entry V proc) (hu : proc.state = .unused) :
    proc.pagetable = 0 ∧ proc.trapframe = 0 ∧ proc.sz = 0 := by rwa [Entry, if_pos hu] at h

theorem Entry.of_unused (hu : proc.state = .unused) (hr : proc.pagetable = 0)
    (hf : proc.trapframe = 0) (hsz : proc.sz = 0) : Entry V proc := by
  rw [Entry, if_pos hu]
  exact ⟨hr, hf, hsz⟩

theorem Entry.of_image (hl : proc.state ≠ .unused) (h : Image V proc) :
    Entry V proc := by rwa [Entry, if_neg hl]

/-- The image depends on the entries from `sz` on. -/
theorem Entry.congr {V' : View} (h : Entry V proc)
    (hpte : proc.pagetable ≠ 0 → ∀ v, pgRoundUp proc.sz / pgSize ≤ v →
      V'.pte proc.pagetable v = V.pte proc.pagetable v) : Entry V' proc := by
  unfold Entry at h ⊢
  split
  next hu => rwa [if_pos hu] at h
  next hu =>
    rw [if_neg hu] at h
    have hle : pgRoundUp proc.sz / pgSize ≤ userVpn := by
      have := h.size
      rw [trapframeVa_eq] at this
      simp only [pgRoundUp, pgSize, userVpn] at *; omega
    exact {
      root := h.root
      frame := h.frame
      size := h.size
      above := fun v hlo hhi => by rw [hpte h.root v hlo, h.above v hlo hhi]
      trapframe := by rw [hpte h.root _ hle, h.trapframe]
      trampoline := by rw [hpte h.root _ (by omega), h.trampoline] }

variable {s s' : Sys} {p : Fin nproc} {ρ : Nat}

theorem Sys.Inv.live (h : s.Inv) (hl : (s.procs p).state ≠ .unused) : Image s.view (s.procs p) :=
  (h.entry p).image hl

theorem Image.mem_roots (h : Image s.view (s.procs p)) : (s.procs p).pagetable ∈ s.roots :=
  Sys.mem_roots.mpr ⟨h.root, p, rfl⟩

theorem Image.mem_held (h : Image s.view (s.procs p)) : (s.procs p).trapframe ∈ s.held :=
  Finset.mem_union_left _ (Slots.mem_named.mpr ⟨h.frame, p, rfl⟩)

theorem Sys.Inv.ne_zero_of_held (h : s.Inv) {q : Nat} (hq : q ∈ s.held) : q ≠ 0 := by
  have := (h.ok.managed hq).2.1
  have := KernelImage.kernBase_le
  have := le_pgRoundUp kernelEnd
  simp only [kernBase] at *; omega

/-- The entries above user memory are not for user code. -/
theorem Image.no_user (h : Image s.view (s.procs p)) (v : Nat) (hv : userVpn ≤ v) :
    has (s.view.pte (s.procs p).pagetable v) pteU = false := by
  by_cases h0 : v = userVpn
  · rw [h0, h.trapframe]; simp [trapframePte]
  · by_cases h1 : v = userVpn + 1
    · rw [h1, h.trampoline]; simp [trampolinePte]
    · rw [Sys.view, view_pte_high (by simp only [maxVpn, userVpn] at *; omega)]; simp

theorem Image.pages_le (h : Image s.view (s.procs p)) : pgRoundUp (s.procs p).sz / pgSize ≤ userVpn := by
  have := h.size
  rw [trapframeVa_eq] at this
  simp only [pgRoundUp, pgSize, userVpn] at *; omega

section
variable {proc : Proc} (hprocs : s'.procs = Function.update s.procs p proc)
include hprocs

section
omit [KernelImage]

theorem Sys.roots_same (ht : proc.pagetable = (s.procs p).pagetable) : s'.roots = s.roots := by
  rw [Sys.roots, hprocs, Table.pagetables_update, ht]
  exact congrArg _ (Function.update_eq_self p _)

theorem Sys.roots_fill (h0 : (s.procs p).pagetable = 0) (ht : proc.pagetable ≠ 0) :
    s'.roots = insert proc.pagetable s.roots := by
  rw [Sys.roots, hprocs, Table.pagetables_update]
  exact Slots.named_fill h0 ht

end

theorem Sys.Inv.roots_clear (h : s.Inv) (ht : proc.pagetable = 0) :
    s'.roots = s.roots.erase (s.procs p).pagetable := by
  rw [Sys.roots, hprocs, Table.pagetables_update, ht]
  exact Slots.named_clear h.tables

theorem Sys.Inv.roots_replace (h : s.Inv) (ht : proc.pagetable ≠ 0) :
    s'.roots = insert proc.pagetable (s.roots.erase (s.procs p).pagetable) := by
  rw [Sys.roots, hprocs, Table.pagetables_update]
  exact Slots.named_replace h.tables ht

variable (hkbufs : s'.kbufs = s.kbufs)
include hkbufs

section
omit [KernelImage]

theorem Sys.held_same (ht : proc.trapframe = (s.procs p).trapframe) : s'.held = s.held := by
  rw [Sys.held, hprocs, hkbufs, Table.trapframes_update, ht]
  exact congrArg (Slots.named · ∪ s.kbufs) (Function.update_eq_self p _)

theorem Sys.held_fill (h0 : (s.procs p).trapframe = 0) (ht : proc.trapframe ≠ 0) :
    s'.held = insert proc.trapframe s.held := by
  rw [Sys.held, hprocs, hkbufs, Table.trapframes_update,
    Slots.named_fill (f := s.procs.trapframes) h0 ht, Finset.insert_union]
  rfl

end

theorem Sys.Inv.held_clear (h : s.Inv) (ht : proc.trapframe = 0) :
    s'.held = s.held.erase (s.procs p).trapframe := by
  rw [Sys.held, hprocs, hkbufs, Table.trapframes_update, ht, Slots.named_clear h.frames, Sys.held,
    Finset.erase_union_distrib, Finset.erase_eq_of_notMem (h.kbufs p)]
  rfl

end

/-- An operation that makes the edits `es` and keeps the invariant, and page
tables other than `ρ` on their pages. -/
structure Sys.Moves (ρ : Nat) (s : Sys) (es : List Edit) (s' : Sys) : Prop where
  inv : s'.Inv
  edits : Edits s.view es s'.view
  keeps : Keeps ρ s.kmem.mem s.roots s'.kmem.mem s'.roots

theorem Sys.Inv.refl (h : s.Inv) : s.Moves ρ [] s := ⟨h, Edits.nil _, Keeps.refl ρ _ _⟩

theorem Sys.Moves.trans {s'' : Sys} {es' : List Edit} (h : s.Moves ρ es s') (h' : s'.Moves ρ es' s'') :
    s.Moves ρ (es ++ es') s'' := ⟨h'.inv, h.edits.append h'.edits, h.keeps.trans h'.keeps⟩

/-- A page table that did not exist before is no exception. -/
theorem Sys.Moves.of_new {r : Nat} (h : s.Moves r es s') (hr : r ∉ s.roots) :
    s.Moves ρ es s' :=
  ⟨h.inv, h.edits, fun r' hr' _ => h.keeps r' hr' (by rintro rfl; exact hr hr')⟩

/-- The invariant after an operation that changes at most the entry of `p`.
Its edits concern pages of `p`, or pages below the size of another process. -/
theorem Sys.Inv.update (h : s.Inv)
    (hprocs : s'.procs = Function.update s.procs p proc) (hkbufs : s'.kbufs = s.kbufs)
    (hok : Ok s'.kmem s'.roots s'.held) (hedits : Edits s.view es s'.view)
    (hkeeps : Keeps ρ s.kmem.mem s.roots s'.kmem.mem s'.roots)
    (htable : proc.pagetable = (s.procs p).pagetable ∨ proc.pagetable ∉ s.roots)
    (hframe : proc.trapframe = (s.procs p).trapframe ∨ proc.trapframe ∉ s.held)
    (hentry : Entry s'.view proc)
    (hplace : ∀ e ∈ es, ∀ p' ≠ p, (s.procs p').pagetable ≠ 0 →
      e.place.1 = (s.procs p').pagetable → e.place.2 < pgRoundUp (s.procs p').sz / pgSize) :
    s.Moves ρ es s' := by
  refine ⟨⟨hok, ?_, ?_, fun p' => ?_, hedits.excl h.excl, fun p' => ?_⟩, hedits, hkeeps⟩
  · rw [hprocs, Table.pagetables_update]
    rcases htable with ht | ht
    · have : Function.update s.procs.pagetables p proc.pagetable = s.procs.pagetables := by
        rw [ht]; exact Function.update_eq_self p _
      rw [this]
      exact h.tables
    · exact h.tables.replace ht
  · rw [hprocs, Table.trapframes_update]
    rcases hframe with ht | ht
    · have : Function.update s.procs.trapframes p proc.trapframe = s.procs.trapframes := by
        rw [ht]; exact Function.update_eq_self p _
      rw [this]
      exact h.frames
    · exact h.frames.replace fun hm => ht (Finset.mem_union_left _ hm)
  · rw [hkbufs, hprocs]
    by_cases hp : p' = p
    · subst hp
      rw [Function.update_self]
      rcases hframe with ht | ht
      · rw [ht]; exact h.kbufs p'
      · exact fun hm => ht (Finset.mem_union_right _ hm)
    · rw [Function.update_of_ne hp]; exact h.kbufs p'
  · rw [hprocs]
    by_cases hp : p' = p
    · subst hp; rwa [Function.update_self]
    · rw [Function.update_of_ne hp]
      refine (h.entry p').congr fun h0 v hv => hedits.pte_of_ne fun e he hc => ?_
      have := hplace e he p' hp h0 (by rw [hc])
      rw [hc] at this
      omega

/-- The invariant after an operation on the memory of `p`, on pages below its size. -/
theorem Sys.Inv.updateMem (h : s.Inv) {k' : Kmem}
    (hd : Does ρ s.kmem s.roots s.held es k' s.roots s.held)
    (hplace : ∀ e ∈ es, ∃ p, e.place.1 = (s.procs p).pagetable ∧ e.place.1 ≠ 0 ∧
      e.place.2 < pgRoundUp (s.procs p).sz / pgSize) : s.Moves ρ es { s with kmem := k' } := by
  refine ⟨⟨hd.ok, h.tables, h.frames, h.kbufs, hd.edits.excl h.excl, fun p => ?_⟩, hd.edits, hd.keeps⟩
  refine (h.entry p).congr fun h0 v hv => hd.edits.pte_of_ne fun e he hc => ?_
  obtain ⟨p', h1, h2, h3⟩ := hplace e he
  rw [hc] at h1 h2 h3
  obtain rfl := h.tables p p' h1 h2
  omega

/-- The invariant does not depend on the scheduling of processes. -/
theorem Sys.Inv.congr (h : s.Inv) (hkmem : s'.kmem = s.kmem) (hkbufs : s'.kbufs = s.kbufs)
    (hprocs : ∀ p, (s'.procs p).pagetable = (s.procs p).pagetable ∧
      (s'.procs p).trapframe = (s.procs p).trapframe ∧ (s'.procs p).sz = (s.procs p).sz ∧
      ((s'.procs p).state = .unused ↔ (s.procs p).state = .unused)) : s.Moves ρ [] s' := by
  have htables : s'.procs.pagetables = s.procs.pagetables := funext fun p => (hprocs p).1
  have hframes : s'.procs.trapframes = s.procs.trapframes := funext fun p => (hprocs p).2.1
  have hroots : s'.roots = s.roots := by rw [Sys.roots, htables]; rfl
  have hheld : s'.held = s.held := by rw [Sys.held, hframes, hkbufs]; rfl
  have hview : s'.view = s.view := by rw [Sys.view, hkmem, hroots]; rfl
  refine ⟨?_, by rw [hview]; exact Edits.nil _, by rw [hkmem, hroots]; exact Keeps.refl ρ _ _⟩
  exact {
    ok := by rw [hkmem, hroots, hheld]; exact h.ok
    tables := by rw [htables]; exact h.tables
    frames := by rw [hframes]; exact h.frames
    kbufs := fun p => by rw [hkbufs, (hprocs p).2.1]; exact h.kbufs p
    excl := by rw [hview]; exact h.excl
    entry := fun p => by
      obtain ⟨h1, h2, h3, h4⟩ := hprocs p
      have := h.entry p
      rw [hview]
      unfold Entry at this ⊢
      by_cases hu : (s.procs p).state = .unused
      · rw [if_pos hu] at this
        rw [if_pos (h4.mpr hu), h1, h2, h3]
        exact this
      · rw [if_neg hu] at this
        rw [if_neg fun hc => hu (h4.mp hc)]
        constructor <;> simp only [h1, h2, h3]
        exacts [this.root, this.frame, this.size, this.above, this.trapframe, this.trampoline] }

end

/-- A step of memory management in kernel code. -/
theorem Returns.bindK {α β : Type} {f : K α} {g : α → S β} {s : Sys} {P : α → Kmem → Prop}
    {Q : β → Sys → Prop} (hf : Returns f s.kmem P)
    (hg : ∀ a k', P a k' → Returns (g a) { s with kmem := k' } Q) : Returns (liftK f >>= g) s Q := by
  obtain ⟨a, k', hr, hp⟩ := hf
  exact returns_bind (a := a) (t := { s with kmem := k' }) (by rw [liftK, hr]; rfl) (hg a k' hp)

end MiniOS
