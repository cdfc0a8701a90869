import MiniOS.Memfile.Pages
import MiniOS.File.Spec
import MiniOS.Lib.Runs

/-!
# MiniOS.Memfile.Machine

In-memory files as a machine: creation, `filedup`, `fileclose`, deletion,
reads, writes and the garbage collector in any order, each made by a holder of
a reference, while other users of the allocator take and free pages of their
own.  `MemInv` links the two reference counts, the deletion mark and the pages.
-/

namespace MiniOS

open Checked
open Function (update update_self update_of_ne update_eq_self)

/-- No panic. -/
abbrev noPanic : Panic → Prop := fun _ => False

section
variable [KernelImage] [Superblock]

/-- The creation of an in-memory file as in `sys_memcreate`.  The caller holds
the file itself in place of a descriptor. -/
def createMem : M (Option (Fin nfile)) := do
  match ← filealloc with
  | none => return none
  | some f =>
    match ← memfileCreate with
    | none =>
      fileclose f
      return none
    | some mf =>
      setFile f { ← getFile f with type := .mem, memf := some mf, readable := true, writable := true }
      return some f

/-- The files, and the pages that other users of the allocator hold. -/
structure MemSys where
  sys : FileSys
  others : Finset Nat

inductive MemEvent
  | create
  | dup (f : Fin nfile)
  | close (f : Fin nfile)
  | delete (f : Fin nfile)
  | read (f : Fin nfile) (n : Int) (ok : Bool)
  | write (f : Fin nfile) (n : Int) (src : List Byte) (ok : Bool)
  | collect
  /-- another user of the allocator takes a page -/
  | kalloc
  /-- another user of the allocator frees a page of its own -/
  | kfree (pa : Nat)

/-- `f` is the in-memory file `m`, and someone has a reference to it. -/
def FileSys.OpenMem (s : FileSys) (f : Fin nfile) (m : Fin nmemfile) : Prop :=
  0 < (s.ftable f).ref ∧ (s.ftable f).type = .mem ∧ (s.ftable f).memf = some m

/-- The slot of an open in-memory file. -/
def FileSys.slotOf (s : FileSys) (f : Fin nfile) : Option (Fin nmemfile) :=
  if 0 < (s.ftable f).ref ∧ (s.ftable f).type = .mem then (s.ftable f).memf else none

/-- The state after a call, unless the kernel panics in it. -/
def MemSys.exec {α : Type} (t : MemSys) (f : M α) : Option MemSys :=
  match f t.sys with
  | .ok (_, s) => some { t with sys := s }
  | .error _ => none

/-- One event.  A call on a file needs a reference to it. -/
def memStep (t : MemSys) : MemEvent → Option MemSys
  | .create => t.exec createMem
  | .dup f => (t.sys.slotOf f).bind fun _ => t.exec (filedup f)
  | .close f => (t.sys.slotOf f).bind fun _ => t.exec (fileclose f)
  | .delete f => (t.sys.slotOf f).bind fun m => t.exec (memfileDelete m)
  | .read f n ok => (t.sys.slotOf f).bind fun m => t.exec (memread f m n ok)
  | .write f n src ok => (t.sys.slotOf f).bind fun m => t.exec (memwrite f m n src ok)
  | .collect => t.exec garbageCollect
  | .kalloc => (MiniOS.kalloc t.sys.kmem).map fun (pa, k) =>
    ⟨{ t.sys with kmem := k }, if pa = 0 then t.others else insert pa t.others⟩
  | .kfree pa =>
    if pa ∈ t.others ∧ getref t.sys.kmem pa = 1 then
      (MiniOS.kfree t.sys.kmem pa).map fun k => ⟨{ t.sys with kmem := k }, t.others.erase pa⟩
    else none

end

/-! ## The invariant -/

/-- The page of each slot. -/
def FileSys.pageOf (s : FileSys) (m : Fin nmemfile) : Nat := (s.mftable m).data

/-- Files and slots: an in-memory file has a slot of its own, with one reference and a page. -/
structure FileSys.MemFiles (s : FileSys) : Prop where
  free : ∀ f, (s.ftable f).ref = 0 → (s.ftable f).type = .none
  bound : ∀ f, (s.ftable f).type = .mem →
    ∃ m, (s.ftable f).memf = some m ∧ (s.mftable m).refCount = 1 ∧ (s.mftable m).data ≠ 0
  inj : ∀ f g m, s.OpenMem f m → s.OpenMem g m → f = g

namespace FileSys

variable {s s' : FileSys} {f : Fin nfile} {m : Fin nmemfile}

theorem slotOf_eq_some_iff : s.slotOf f = some m ↔ s.OpenMem f m := by
  unfold slotOf OpenMem
  split
  · next h => simp [h]
  · next h => simp only [reduceCtorEq, false_iff, ← and_assoc]; exact fun hc => h hc.1

theorem MemFiles.ref_pos (h : s.MemFiles) (ht : (s.ftable f).type = .mem) : 0 < (s.ftable f).ref := by
  by_contra h0
  have := h.free f (by omega)
  rw [ht] at this
  cases this

theorem MemFiles.slot (h : s.MemFiles) (ho : s.OpenMem f m) :
    (s.mftable m).refCount = 1 ∧ (s.mftable m).data ≠ 0 := by
  obtain ⟨m', hm', hs⟩ := h.bound f ho.2.1
  rw [ho.2.2] at hm'
  cases hm'
  exact hs

/-- Nothing is opened, and what stays open keeps its slot. -/
theorem MemFiles.of_open (h : s.MemFiles)
    (hfree : ∀ f, (s'.ftable f).ref = 0 → (s'.ftable f).type = .none)
    (hsub : ∀ f, (s'.ftable f).type = .mem →
      (s.ftable f).type = .mem ∧ (s'.ftable f).memf = (s.ftable f).memf)
    (hslot : ∀ f m, s.OpenMem f m → (s'.ftable f).type = .mem →
      (s'.mftable m).refCount = 1 ∧ (s'.mftable m).data ≠ 0) : s'.MemFiles := by
  have hopen : ∀ f m, s'.OpenMem f m → s.OpenMem f m := fun f m ho => by
    obtain ⟨ht, hm⟩ := hsub f ho.2.1
    exact ⟨h.ref_pos ht, ht, hm ▸ ho.2.2⟩
  refine ⟨hfree, fun f ht => ?_, fun f g m hf hg => h.inj f g m (hopen f m hf) (hopen g m hg)⟩
  obtain ⟨ht₀, hm₀⟩ := hsub f ht
  obtain ⟨m, hm, -⟩ := h.bound f ht₀
  exact ⟨m, hm₀.trans hm, hslot f m ⟨h.ref_pos ht₀, ht₀, hm⟩ ht⟩

variable {file : File} {mf : Memfile}

section
variable (h : s.MemFiles)
include h

/-- The other fields of an open file change. -/
theorem MemFiles.setFile (hr : file.ref ≠ 0)
    (ht : file.type = (s.ftable f).type) (hm : file.memf = (s.ftable f).memf) :
    MemFiles { s with ftable := update s.ftable f file } := by
  refine h.of_open (fun g hg => ?_) (fun g hg => ?_) fun g m ho _ => h.slot ho
  · by_cases hgf : g = f
    · subst hgf
      simp only [update_self] at hg
      exact absurd hg hr
    · simp only [update_of_ne hgf] at hg ⊢
      exact h.free g hg
  · by_cases hgf : g = f
    · subst hgf
      simp only [update_self] at hg ⊢
      exact ⟨ht ▸ hg, hm⟩
    · simp only [update_of_ne hgf] at hg ⊢
      exact ⟨hg, trivial⟩

/-- A file without a type gives its reference back. -/
theorem MemFiles.giveBack (ht : file.type = .none) :
    MemFiles { s with ftable := update s.ftable f file } := by
  refine h.of_open (fun g hg => ?_) (fun g hg => ?_) fun g m ho _ => h.slot ho
  · by_cases hgf : g = f
    · simp only [hgf, update_self, ht]
    · simp only [update_of_ne hgf] at hg ⊢
      exact h.free g hg
  · by_cases hgf : g = f
    · simp only [hgf, update_self, ht, reduceCtorEq] at hg
    · simp only [update_of_ne hgf] at hg ⊢
      exact ⟨hg, trivial⟩

/-- A slot that is not in use changes. -/
theorem MemFiles.setSlot (hm : (s.mftable m).refCount ≠ 1) (mf : Memfile) :
    MemFiles { s with mftable := update s.mftable m mf } := by
  refine h.of_open h.free (fun f hf => ⟨hf, rfl⟩) fun f m' ho _ => ?_
  have hne : m' ≠ m := by
    rintro rfl
    exact hm (h.slot ho).1
  simp only [update_of_ne hne]
  exact h.slot ho

/-- A slot keeps its count and its page. -/
theorem MemFiles.touchSlot (hr : mf.refCount = (s.mftable m).refCount) (hd : mf.data = (s.mftable m).data) :
    MemFiles { s with mftable := update s.mftable m mf } := by
  refine h.of_open h.free (fun f hf => ⟨hf, rfl⟩) fun f m' ho _ => ?_
  by_cases hne : m' = m
  · subst hne
    simp only [update_self, hr, hd]
    exact h.slot ho
  · simp only [update_of_ne hne]
    exact h.slot ho

theorem MemFiles.congr (hf : s'.ftable = s.ftable) (hm : s'.mftable = s.mftable) :
    s'.MemFiles := by
  refine h.of_open (by rw [hf]; exact h.free) (fun f ht => ?_) fun f m ho _ => ?_
  · rw [hf] at ht ⊢
    exact ⟨ht, rfl⟩
  · rw [hm]
    exact h.slot ho

/-- The last close: the file has no type any more and the slot no reference. -/
theorem MemFiles.lastClose (ho : s.OpenMem f m)
    (ht : file.type = .none) :
    MemFiles { s with
      ftable := update s.ftable f file, mftable := update s.mftable m mf } := by
  have htype : ∀ g, (update s.ftable f file g).type = .mem →
      g ≠ f ∧ (s.ftable g).type = .mem := by
    intro g hg
    by_cases hgf : g = f
    · rw [hgf, update_self, ht] at hg
      cases hg
    · rw [update_of_ne hgf] at hg
      exact ⟨hgf, hg⟩
  refine h.of_open (fun g hg => ?_) (fun g hg => ?_) fun g m' hg hgt => ?_
  · by_cases hgf : g = f
    · simp only [hgf, update_self, ht]
    · simp only [update_of_ne hgf] at hg ⊢
      exact h.free g hg
  · obtain ⟨hgf, hgt⟩ := htype g hg
    simp only [update_of_ne hgf]
    exact ⟨hgt, trivial⟩
  · have hne : m' ≠ m := by
      rintro rfl
      exact (htype g hgt).1 (h.inj g f m' hg ho)
    simp only [update_of_ne hne]
    exact h.slot hg

/-- A file that is not open yet is bound to a slot that no file has. -/
theorem MemFiles.bind (hm : (s.mftable m).refCount = 1 ∧ (s.mftable m).data ≠ 0) (hno : ∀ g, ¬ s.OpenMem g m)
    (hr : file.ref ≠ 0) (hmemf : file.memf = some m) :
    MemFiles { s with ftable := update s.ftable f file } := by
  have hopen : ∀ g m', OpenMem { s with ftable := update s.ftable f file } g m' →
      (g = f ∧ m' = m) ∨ (g ≠ f ∧ s.OpenMem g m') := by
    intro g m' ho
    by_cases hgf : g = f
    · have := ho.2.2
      simp only [hgf, update_self, hmemf, Option.some.injEq] at this
      exact .inl ⟨hgf, this.symm⟩
    · simp only [OpenMem, update_of_ne hgf] at ho
      exact .inr ⟨hgf, ho⟩
  refine ⟨fun g hg => ?_, fun g hg => ?_, fun g₁ g₂ m' h₁ h₂ => ?_⟩
  · by_cases hgf : g = f
    · simp only [hgf, update_self] at hg
      exact absurd hg hr
    · simp only [update_of_ne hgf] at hg ⊢
      exact h.free g hg
  · by_cases hgf : g = f
    · simp only [hgf, update_self]
      exact ⟨m, hmemf, hm⟩
    · simp only [update_of_ne hgf] at hg ⊢
      exact h.bound g hg
  · rcases hopen g₁ m' h₁ with ⟨e₁, hm₁⟩ | ⟨-, o₁⟩ <;> rcases hopen g₂ m' h₂ with ⟨e₂, hm₂⟩ | ⟨-, o₂⟩
    · rw [e₁, e₂]
    · exact absurd (hm₁ ▸ o₂) (hno g₂)
    · exact absurd (hm₂ ▸ o₁) (hno g₁)
    · exact h.inj g₁ g₂ m' o₁ o₂

end

theorem pageOf_setSlot (s : FileSys) (m : Fin nmemfile) (mf : Memfile) :
    pageOf { s with mftable := update s.mftable m mf } = update s.pageOf m mf.data := by
  funext m'
  by_cases h : m' = m
  · subst h
    simp only [pageOf, update_self]
  · simp only [pageOf, update_of_ne h]

/-- A slot that keeps its page. -/
theorem pageOf_touchSlot (hd : mf.data = (s.mftable m).data) :
    pageOf { s with mftable := update s.mftable m mf } = s.pageOf := by
  rw [pageOf_setSlot, hd]
  exact update_eq_self m s.pageOf

/-- `f` is an open in-memory file that has been deleted. -/
def Marked (s : FileSys) (f : Fin nfile) : Prop :=
  ∃ m, s.OpenMem f m ∧ (s.mftable m).isMarkedDeleted = true

/-- A deleted file stays so when a file changes, unless it is its own last close. -/
theorem Marked.setFile {g : Fin nfile} (h : s.Marked g)
    (hf : g = f → 0 < file.ref ∧ file.type = (s.ftable f).type ∧ file.memf = (s.ftable f).memf) :
    Marked { s with ftable := update s.ftable f file } g := by
  obtain ⟨m', ⟨hr, ht, hm⟩, hmark⟩ := h
  refine ⟨m', ?_, hmark⟩
  by_cases hgf : g = f
  · obtain ⟨hr', ht', hm'⟩ := hf hgf
    subst hgf
    simp only [OpenMem, update_self, ht', hm']
    exact ⟨hr', ht, hm⟩
  · simp only [OpenMem, update_of_ne hgf]
    exact ⟨hr, ht, hm⟩

theorem Marked.setSlot {g : Fin nfile} (h : s.Marked g)
    (hm : s.OpenMem g m → (s.mftable m).isMarkedDeleted = true → mf.isMarkedDeleted = true) :
    Marked { s with mftable := update s.mftable m mf } g := by
  obtain ⟨m', ho, hmark⟩ := h
  refine ⟨m', ho, ?_⟩
  by_cases hne : m' = m
  · subst hne
    simp only [update_self]
    exact hm ho hmark
  · simp only [update_of_ne hne]
    exact hmark

end FileSys

section
variable [KernelImage]

/-- The invariant of the machine. -/
structure MemInv (s : FileSys) (others : Finset Nat) : Prop where
  files : s.MemFiles
  pages : Pages s.kmem s.pageOf others

/-- Every allocated page has a holder. -/
def MemSys.NoLeak (t : MemSys) : Prop := MiniOS.NoLeak t.sys.kmem t.sys.pageOf t.others

/-- What a call that moves no page keeps. -/
structure MemKept (s : FileSys) (others : Finset Nat) (s' : FileSys) : Prop where
  inv : MemInv s' others
  refs : s'.kmem.refCount = s.kmem.refCount
  page : s'.pageOf = s.pageOf

theorem MemInv.congr {s s' : FileSys} {others : Finset Nat} (h : MemInv s others) (hf : s'.MemFiles)
    (hk : s'.kmem = s.kmem) (hp : s'.pageOf = s.pageOf) : MemKept s others s' :=
  ⟨⟨hf, by rw [hk, hp]; exact h.pages⟩, by rw [hk], hp⟩

/-! ## The calls -/

variable {s : FileSys} {others : Finset Nat} {f : Fin nfile} {m : Fin nmemfile}

theorem memKept_filedup (h : MemInv s others) (ho : s.OpenMem f m) :
    Sat noPanic (filedup f) s fun _ s' => MemKept s others s' ∧ ∀ g, s.Marked g → s'.Marked g := by
  have hpos := ho.1
  refine sat_bind rfl ?_
  dsimp only
  rw [if_neg (by omega)]
  refine sat_bind rfl (sat_pure ⟨h.congr (h.files.setFile (Nat.succ_ne_zero _) rfl rfl) rfl rfl, ?_⟩)
  exact fun g hg => hg.setFile fun _ => ⟨Nat.succ_pos _, rfl, rfl⟩

theorem memKept_memfileDelete (h : MemInv s others) (ho : s.OpenMem f m) :
    Sat noPanic (memfileDelete m) s fun r s' => MemKept s others s' ∧ r = true ∧ s'.Marked f ∧
      ∀ g, s.Marked g → s'.Marked g := by
  have hslot := h.files.slot ho
  refine sat_bind rfl ?_
  rw [if_neg (by omega)]
  refine sat_bind rfl (sat_pure ⟨h.congr (h.files.touchSlot rfl rfl) rfl (FileSys.pageOf_touchSlot rfl),
    rfl, ⟨m, ho, ?_⟩, ?_⟩)
  · simp only [update_self]
  · exact fun g hg => hg.setSlot fun _ _ => rfl

/-- `f->off` is set. -/
theorem MemKept.setOff {s' : FileSys} (h : MemKept s others s') (hr : (s'.ftable f).ref ≠ 0) (off : Nat) :
    MemKept s others { s' with ftable := update s'.ftable f { s'.ftable f with off := off } } :=
  ⟨⟨h.inv.files.setFile hr rfl rfl, h.inv.pages⟩, h.refs, h.page⟩

/-- A slot keeps its count and its page. -/
theorem MemKept.touchSlot {s' : FileSys} {mf : Memfile} (h : MemKept s others s')
    (hr : mf.refCount = (s'.mftable m).refCount) (hd : mf.data = (s'.mftable m).data) :
    MemKept s others { s' with mftable := update s'.mftable m mf } := by
  refine ⟨⟨h.inv.files.touchSlot hr hd, ?_⟩, h.refs, (FileSys.pageOf_touchSlot hd).trans h.page⟩
  rw [FileSys.pageOf_touchSlot hd]
  exact h.inv.pages

theorem memKept_memread (h : MemInv s others) (ho : s.OpenMem f m) (n : Int) (ok : Bool) :
    Sat noPanic (memread f m n ok) s fun r s' => MemKept s others s' ∧
      (∀ g, s.Marked g → s'.Marked g) ∧ ((s.mftable m).isMarkedDeleted = true → r = none) := by
  have hself : MemKept s others s := h.congr h.files rfl rfl
  refine sat_bind rfl (sat_bind rfl ?_)
  refine sat_ite (fun _ => sat_pure ⟨hself, fun _ hg => hg, fun _ => rfl⟩) fun hc => ?_
  have hmark : ¬ (s.mftable m).isMarkedDeleted = true := fun e => hc (.inr e)
  refine sat_bind rfl (sat_bind rfl ?_)
  have hkept := hself.setOff (f := f) ho.1.ne' 0
  have hmarked : ∀ g, s.Marked g → FileSys.Marked { s with
      ftable := update s.ftable f { s.ftable f with off := 0 } } g :=
    fun g hg => hg.setFile fun _ => ⟨ho.1, rfl, rfl⟩
  dsimp only
  refine sat_ite (fun _ => sat_pure ⟨hkept, hmarked, fun e => absurd e hmark⟩) fun _ => ?_
  refine sat_ite (fun _ => ?_) fun _ => sat_pure ⟨hkept, hmarked, fun e => absurd e hmark⟩
  refine sat_ite (fun _ => sat_pure ⟨hkept, hmarked, fun e => absurd e hmark⟩) fun _ => ?_
  refine sat_bind rfl (sat_bind rfl (sat_bind rfl (sat_pure ?_)))
  refine ⟨hkept.setOff (f := f) ?_ _, fun g hg => (hmarked g hg).setFile fun _ => ?_,
    fun e => absurd e hmark⟩
  · simp only [update_self]
    exact ho.1.ne'
  · simp only [update_self]
    exact ⟨ho.1, trivial, trivial⟩

/-- A store into the page of a slot. -/
theorem MemInv.store (h : MemInv s others) (hd : (s.mftable m).data ≠ 0) (page : Page) :
    MemKept s others { s with
      kmem := { s.kmem with mem := update s.kmem.mem (s.mftable m).data page } } := by
  obtain ⟨hman, href⟩ := h.pages.slot m hd
  have hpos : 0 < getref s.kmem (s.pageOf m) := by omega
  have hpages := (h.pages.congr (h.pages.alloc.store page hman hpos) rfl).1
  exact ⟨⟨h.files.congr rfl rfl, hpages⟩, rfl, rfl⟩

theorem memKept_memwrite (h : MemInv s others) (ho : s.OpenMem f m) (n : Int) (src : List Byte)
    (ok : Bool) :
    Sat noPanic (memwrite f m n src ok) s fun r s' => MemKept s others s' ∧
      (∀ g, s.Marked g → s'.Marked g) ∧ ((s.mftable m).isMarkedDeleted = true → r = -1) := by
  have hself : MemKept s others s := h.congr h.files rfl rfl
  have hdata := (h.files.slot ho).2
  refine sat_bind rfl (sat_bind rfl ?_)
  refine sat_ite (fun _ => sat_pure ⟨hself, fun _ hg => hg, fun _ => rfl⟩) fun hc => ?_
  have hmark : ¬ (s.mftable m).isMarkedDeleted = true := fun e => hc (.inr e)
  dsimp only
  -- the slot has its page already
  rw [if_neg hdata]
  refine sat_bind rfl (sat_bind rfl ?_)
  dsimp only
  refine sat_ite (fun _ => ?_) fun _ => sat_pure ⟨hself, fun _ hg => hg, fun e => absurd e hmark⟩
  refine sat_bind (liftMem_eq rfl) ?_
  have hstore := h.store hdata
  refine sat_ite (fun _ => sat_pure ⟨hstore _, fun _ hg => hg, fun e => absurd e hmark⟩) fun _ => ?_
  refine sat_bind rfl (sat_bind rfl (sat_bind rfl (sat_pure ?_)))
  have hoff := fun page off => (hstore page).setOff (f := f) ho.1.ne' off
  refine ⟨(hoff _ _).touchSlot rfl rfl, fun g hg => ?_, fun e => absurd e hmark⟩
  refine FileSys.Marked.setSlot (FileSys.Marked.setFile (f := f) hg fun _ => ⟨ho.1, rfl, rfl⟩) ?_
  exact fun _ hm => hm

/-! ## Creation -/

/-- The slot that `memfile_create` takes: the first without references or mark. -/
def FileSys.freeSlot (s : FileSys) : Option (Fin nmemfile) :=
  (List.finRange nmemfile).find? fun m =>
    (s.mftable m).refCount = 0 ∧ (s.mftable m).isMarkedDeleted = false

/-- What `memfile_create` does to the machine. -/
structure SlotTaken (s : FileSys) (others : Finset Nat) (r : Option (Fin nmemfile)) (s' : FileSys) :
    Prop where
  inv : MemInv s' others
  ftable : s'.ftable = s.ftable
  leak : NoLeak s'.kmem s'.pageOf others ↔
    NoLeak s.kmem s.pageOf others ∧ ∀ m, s.freeSlot = some m → (s.mftable m).data = 0
  marked : ∀ g, s.Marked g → s'.Marked g
  slot : ∀ m, r = some m → (s'.mftable m).refCount = 1 ∧ (s'.mftable m).data ≠ 0 ∧ ∀ g, ¬ s.OpenMem g m

theorem slotTaken_memfileCreate (h : MemInv s others) :
    Sat noPanic memfileCreate s (SlotTaken s others) := by
  refine sat_bind rfl ?_
  split
  · next hnone =>
      have hfree : s.freeSlot = none := hnone
      refine sat_pure ⟨h, rfl, ?_, fun _ hg => hg, fun m hm => by cases hm⟩
      simp [hfree]
  · next m hm =>
      have hfree : s.freeSlot = some m := hm
      have hzero : (s.mftable m).refCount = 0 ∧ (s.mftable m).isMarkedDeleted = false := by
        simpa using List.find?_some hm
      have hone : (s.mftable m).refCount ≠ 1 := by omega
      have hno : ∀ g, ¬ s.OpenMem g m := fun g ho => hone (h.files.slot ho).1
      have hmarked : ∀ mf g, s.Marked g →
          FileSys.Marked { s with mftable := update s.mftable m mf } g :=
        fun mf g hg => hg.setSlot fun ho => absurd ho (hno g)
      have hcond : (∀ m', s.freeSlot = some m' → (s.mftable m').data = 0) ↔ s.pageOf m = 0 := by
        simp [hfree, FileSys.pageOf]
      rcases h.pages.alloc.kalloc with hk | ⟨pa, k', hk, hinv, hman, href, hrc⟩
      · refine sat_bind (liftMem_eq hk) ?_
        rw [if_pos rfl]
        have hpages := h.pages.drop m
        rw [← FileSys.pageOf_setSlot s m ⟨0, 0, 0, false⟩] at hpages
        refine sat_bind rfl (sat_pure ⟨⟨h.files.setSlot hone _, hpages.1⟩, rfl, ?_, hmarked _, ?_⟩)
        · rw [hcond]
          exact hpages.2
        · exact fun m hm => by cases hm
      · refine sat_bind (liftMem_eq hk) ?_
        rw [if_neg (managed_ne_zero hman)]
        have hpages := h.pages.take (m := m) hinv hman href hrc
        rw [← FileSys.pageOf_setSlot s m ⟨1, 0, pa, false⟩] at hpages
        refine sat_bind rfl (sat_pure ⟨⟨(h.files.setSlot hone _).congr rfl rfl, hpages.1⟩, rfl, ?_,
          hmarked _, ?_⟩)
        · rw [hcond]
          exact hpages.2
        · rintro m' he
          cases he
          simp only [update_self]
          exact ⟨trivial, managed_ne_zero hman, hno⟩

variable [Superblock]

theorem memKept_fileclose (h : MemInv s others) (ho : s.OpenMem f m) :
    Sat noPanic (fileclose f) s fun _ s' => MemKept s others s' ∧
      ∀ g, (g = f → 1 < (s.ftable f).ref) → s.Marked g → s'.Marked g := by
  have hpos := ho.1
  refine sat_bind rfl ?_
  dsimp only
  rw [if_neg (by omega)]
  refine sat_ite (fun hmore => ?_) fun hlast => ?_
  · refine ⟨h.congr (h.files.setFile ?_ rfl rfl) rfl rfl, ?_⟩
    · exact hmore.ne'
    · exact fun g _ hg => hg.setFile fun _ => ⟨hmore, rfl, rfl⟩
  · refine sat_bind rfl ?_
    unfold releaseFile
    rw [ho.2.1]
    dsimp only
    rw [ho.2.2]
    refine sat_bind rfl ⟨h.congr (h.files.lastClose ho rfl) rfl (FileSys.pageOf_touchSlot rfl), ?_⟩
    intro g hgf hg
    have hne : g ≠ f := fun e => hlast (Nat.sub_pos_of_lt (hgf e))
    refine FileSys.Marked.setSlot (hg.setFile fun e => absurd e hne) ?_
    exact fun _ hmark => hmark

/-- What a creation does to the machine. -/
structure Created (s : FileSys) (others : Finset Nat) (s' : FileSys) : Prop where
  inv : MemInv s' others
  leak : NoLeak s'.kmem s'.pageOf others ↔ NoLeak s.kmem s.pageOf others ∧
    ((∃ f, (s.ftable f).ref = 0) → ∀ m, s.freeSlot = some m → (s.mftable m).data = 0)
  marked : ∀ g, s.Marked g → s'.Marked g

theorem created_createMem (h : MemInv s others) :
    Sat noPanic createMem s fun _ s' => Created s others s' := by
  refine sat_filealloc.bind ?_
  rintro (_ | f) s₁ hs₁
  · obtain ⟨rfl, hno⟩ := hs₁
    exact sat_pure ⟨h, by simp [hno], fun _ hg => hg⟩
  obtain ⟨hf, rfl⟩ := hs₁
  have hnone : (s.ftable f).type = .none := h.files.free f hf
  have hne : ∀ g, s.Marked g → g ≠ f := fun g hg e => by
    obtain ⟨m, ho, -⟩ := hg
    rw [e, FileSys.OpenMem, hnone] at ho
    cases ho.2.1
  have h₁ : MemInv { s with ftable := update s.ftable f { s.ftable f with ref := 1 } } others :=
    ⟨h.files.setFile Nat.one_ne_zero rfl rfl, h.pages⟩
  refine (slotTaken_memfileCreate h₁).bind ?_
  rintro (_ | m) s₂ h₂
  all_goals
    have hf₂ : s₂.ftable f = { s.ftable f with ref := 1 } := by
      simp only [h₂.ftable, update_self]
    have hmark₂ : ∀ g, s.Marked g → s₂.Marked g := fun g hg =>
      h₂.marked g (hg.setFile fun e => absurd e (hne g hg))
    have hleak := h₂.leak
    have hcond : ((∃ f, (s.ftable f).ref = 0) → ∀ m, s.freeSlot = some m → (s.mftable m).data = 0) ↔
        ∀ m, s.freeSlot = some m → (s.mftable m).data = 0 := ⟨fun hc => hc ⟨f, hf⟩, fun hc _ => hc⟩
  · -- no slot or no page: the file is given back
    refine Sat.bind (P := fun _ s' => Created s others s') (sat_bind rfl ?_) fun _ _ hc => sat_pure hc
    dsimp only
    rw [hf₂, if_neg (by simp), if_neg (by simp)]
    refine sat_bind rfl ?_
    unfold releaseFile
    rw [hnone]
    refine sat_pure ⟨⟨h₂.inv.files.giveBack rfl, h₂.inv.pages⟩, ?_, ?_⟩
    · rw [hcond]
      exact hleak
    · exact fun g hg => (hmark₂ g hg).setFile fun e => absurd e (hne g hg)
  · obtain ⟨hone, hdata, hno⟩ := h₂.slot m rfl
    refine sat_bind rfl (sat_bind rfl (sat_pure ⟨⟨?_, h₂.inv.pages⟩, ?_, ?_⟩))
    · refine h₂.inv.files.bind ⟨hone, hdata⟩ (fun g ho => hno g ?_) ?_ rfl
      · simpa only [FileSys.OpenMem, h₂.ftable] using ho
      · rw [hf₂]
        exact Nat.one_ne_zero
    · rw [hcond]
      exact hleak
    · exact fun g hg => (hmark₂ g hg).setFile fun e => absurd e (hne g hg)

/-! ## The garbage collector -/

omit [Superblock]

/-- The machine part way through `garbage_collect` from `s`. -/
structure Collected (s : FileSys) (others : Finset Nat) (t : FileSys) : Prop where
  inv : MemInv t others
  ftable : t.ftable = s.ftable
  kept : ∀ m, (s.mftable m).refCount ≠ 0 → t.mftable m = s.mftable m
  refs : ∀ pa, Managed pa → (∀ m, s.pageOf m ≠ pa) → getref t.kmem pa = getref s.kmem pa
  page : ∀ m, t.pageOf m = 0 ∨ t.pageOf m = s.pageOf m
  leak : NoLeak t.kmem t.pageOf others ↔ NoLeak s.kmem s.pageOf others

/-- A slot without references is cleared. -/
theorem Collected.clear {t t' : FileSys} (h : Collected s others t) (hc : (t.mftable m).refCount = 0)
    (hf : t'.ftable = t.ftable) (hm : t'.mftable = update t.mftable m .zero)
    (hpages : Pages t'.kmem (update t.pageOf m 0) others)
    (hrefs : ∀ pa, Managed pa → t.pageOf m ≠ pa → getref t'.kmem pa = getref t.kmem pa)
    (hleak : NoLeak t'.kmem (update t.pageOf m 0) others ↔ NoLeak t.kmem t.pageOf others) :
    Collected s others t' := by
  have hpage : t'.pageOf = update t.pageOf m 0 := by
    have hslot : t'.pageOf = FileSys.pageOf { t with mftable := update t.mftable m .zero } :=
      funext fun m' => by rw [FileSys.pageOf, hm, FileSys.pageOf]
    exact hslot.trans (FileSys.pageOf_setSlot t m .zero)
  refine ⟨⟨?_, ?_⟩, hf.trans h.ftable, fun m' hm' => ?_, fun pa hpa hno => ?_, fun m' => ?_, ?_⟩
  · exact (h.inv.files.setSlot (by omega : (t.mftable m).refCount ≠ 1) .zero).congr hf hm
  · rw [hpage]
    exact hpages
  · have hne : m' ≠ m := by
      rintro rfl
      exact hm' (h.kept m' hm' ▸ hc)
    rw [hm, update_of_ne hne, h.kept m' hm']
  · refine (hrefs pa hpa ?_).trans (h.refs pa hpa hno)
    rcases h.page m with h0 | hs
    · rw [h0]
      exact (managed_ne_zero hpa).symm
    · rw [hs]
      exact hno m
  · rw [hpage]
    by_cases hne : m' = m
    · exact .inl (by rw [hne, update_self])
    · rw [update_of_ne hne]
      exact h.page m'
  · rw [hpage, hleak, h.leak]

theorem collected_collect {t : FileSys} (h : Collected s others t) (m : Fin nmemfile) :
    Sat noPanic (collect m) t fun _ => Collected s others := by
  refine sat_bind rfl (sat_ite (fun hc => ?_) fun _ => sat_pure h)
  dsimp only
  refine sat_ite (fun hd => ?_) fun hd => ?_
  · obtain ⟨hman, href⟩ := h.inv.pages.slot m hd
    obtain ⟨k', hk', hinv, hrc⟩ := h.inv.pages.alloc.kfree hman href
    obtain ⟨hpages, hleak⟩ := h.inv.pages.release hd hinv hrc
    have hkf : kfreeK (t.mftable m).data t.kmem = some ((), k') :=
      congrArg (Option.map fun k => ((), k)) hk'
    refine sat_bind (liftMem_eq hkf) (h.clear hc.2 rfl rfl hpages (fun pa hpa hne => ?_) hleak)
    exact (getref_update hrc hman hpa).trans (if_neg hne.symm)
  · have hz : update t.pageOf m 0 = t.pageOf := by
      rw [← show t.pageOf m = 0 from not_not.mp hd, update_eq_self]
    refine h.clear hc.2 rfl rfl ?_ (fun _ _ _ => rfl) ?_
    · rw [hz]
      exact h.inv.pages
    · rw [hz]

theorem collected_garbageCollect (h : MemInv s others) :
    Sat noPanic garbageCollect s fun _ => Collected s others :=
  sat_forM (fun m _ _ ht => collected_collect ht m)
    ⟨h, rfl, fun _ _ => rfl, fun _ _ _ => rfl, fun _ => .inr rfl, Iff.rfl⟩

end

end MiniOS
