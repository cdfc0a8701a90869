import MiniOS.Memfile.Machine

/-!
# MiniOS.Memfile.Run

What holds along every run of the machine of in-memory files: the garbage
collector never touches a file in use (`memfiles_safe`), and no page is lost
exactly as long as `memfile_create` never takes a slot that still has one
(`noLeak_iff_clean`).
-/

namespace MiniOS

open Checked Runs

section
variable [KernelImage] [Superblock]

/-- No in-memory file exists; `others` has every page that is allocated. -/
structure MemSys.Start (t : MemSys) : Prop where
  files : ∀ f, (t.sys.ftable f).type ≠ .mem
  free : ∀ f, (t.sys.ftable f).ref = 0 → (t.sys.ftable f).type = .none
  slots : ∀ m, t.sys.mftable m = Memfile.zero
  alloc : AllocInv t.sys.kmem
  others : ∀ pa, pa ∈ t.others ↔ Managed pa ∧ 0 < getref t.sys.kmem pa

variable {t t' : MemSys} {e : MemEvent}

section
omit [Superblock]

theorem MemSys.Start.inv (h : t.Start) : MemInv t.sys t.others := by
  have hpage : ∀ m, t.sys.pageOf m = 0 := fun m => by rw [FileSys.pageOf, h.slots m]; rfl
  refine ⟨⟨h.free, fun f hf => absurd hf (h.files f), fun f g m hf => absurd hf.2.1 (h.files f)⟩,
    ⟨h.alloc, fun m hm => absurd (hpage m) hm, fun m m' hm => absurd (hpage m) hm, fun pa hpa => ?_⟩⟩
  obtain ⟨hm, hr⟩ := (h.others pa).mp hpa
  exact ⟨hm, hr, fun m he => managed_ne_zero hm (he ▸ hpage m)⟩

end

/-- A creation that gets a struct file takes a slot without a page. -/
def MemEvent.Clean (t : MemSys) : MemEvent → Prop
  | .create => (∃ f, (t.sys.ftable f).ref = 0) →
      ∀ m, t.sys.freeSlot = some m → (t.sys.mftable m).data = 0
  | _ => True

/-- What one event does to the machine. -/
structure Stepped (t : MemSys) (e : MemEvent) (t' : MemSys) : Prop where
  inv : MemInv t'.sys t'.others
  leak : t'.NoLeak ↔ t.NoLeak ∧ e.Clean t
  marked : ∀ f, (e = .close f → 1 < (t.sys.ftable f).ref) → t.sys.Marked f → t'.sys.Marked f

omit [KernelImage] [Superblock] in
theorem exec_of_sat {α : Type} {g : M α} {Q : α → FileSys → Prop} (h : Sat noPanic g t.sys Q) :
    ∃ a s', t.exec g = some { t with sys := s' } ∧ g t.sys = .ok (a, s') ∧ Q a s' := by
  unfold MemSys.exec
  cases hg : g t.sys with
  | ok r => exact ⟨r.1, r.2, rfl, rfl, h.of_run hg⟩
  | error err => exact (h.of_error hg).elim

omit [Superblock] in
/-- The step of a call that moves no page. -/
theorem MemKept.stepped {s' : FileSys} (h : MemKept t.sys t.others s') (hc : e.Clean t)
    (hm : ∀ f, (e = .close f → 1 < (t.sys.ftable f).ref) → t.sys.Marked f → s'.Marked f) :
    Stepped t e { t with sys := s' } := by
  refine ⟨h.inv, ?_, hm⟩
  have hg : ∀ pa, getref s'.kmem pa = getref t.sys.kmem pa := fun pa => by rw [getref, h.refs, getref]
  simp only [MemSys.NoLeak, NoLeak, hg, h.page, hc, and_true]

/-- Whether the event may happen: a call on a file needs a reference to it,
and other users free only their own pages. -/
def MemEvent.Enabled (t : MemSys) : MemEvent → Prop
  | .dup f | .close f | .delete f | .read f .. | .write f .. => ∃ m, t.sys.OpenMem f m
  | .kfree pa => pa ∈ t.others ∧ getref t.sys.kmem pa = 1
  | _ => True

/-- An event that may happen does not panic. -/
theorem stepped_memStep (h : MemInv t.sys t.others) (he : e.Enabled t) :
    ∃ t', memStep t e = some t' ∧ Stepped t e t' := by
  have hcall : ∀ {f : Fin nfile} {m : Fin nmemfile} {α : Type} {g : Fin nmemfile → M α}
      {Q : α → FileSys → Prop}, t.sys.OpenMem f m → Sat noPanic (g m) t.sys Q →
      (∀ a s', Q a s' → Stepped t e { t with sys := s' }) →
      ∃ t', ((t.sys.slotOf f).bind fun m => t.exec (g m)) = some t' ∧ Stepped t e t' := by
    intro f m α g Q ho hsat hQ
    obtain ⟨a, s', hs', -, hq⟩ := exec_of_sat hsat
    exact ⟨_, by rw [FileSys.slotOf_eq_some_iff.mpr ho]; exact hs', hQ a s' hq⟩
  cases e with
  | create =>
    obtain ⟨a, s', hs', -, hq⟩ := exec_of_sat (created_createMem h)
    exact ⟨_, hs', hq.inv, hq.leak, fun f _ => hq.marked f⟩
  | dup f =>
    obtain ⟨m, ho⟩ := he
    exact hcall ho (memKept_filedup h ho) fun _ _ hq => hq.1.stepped trivial fun f _ => hq.2 f
  | close f =>
    obtain ⟨m, ho⟩ := he
    refine hcall ho (memKept_fileclose h ho) fun _ _ hq => hq.1.stepped trivial fun g hg => ?_
    exact hq.2 g fun e => by rw [e] at hg; exact hg rfl
  | delete f =>
    obtain ⟨m, ho⟩ := he
    exact hcall ho (memKept_memfileDelete h ho) fun _ _ hq =>
      hq.1.stepped trivial fun f _ => hq.2.2.2 f
  | read f n ok =>
    obtain ⟨m, ho⟩ := he
    exact hcall ho (memKept_memread h ho n ok) fun _ _ hq =>
      hq.1.stepped trivial fun f _ => hq.2.1 f
  | write f n src ok =>
    obtain ⟨m, ho⟩ := he
    exact hcall ho (memKept_memwrite h ho n src ok) fun _ _ hq =>
      hq.1.stepped trivial fun f _ => hq.2.1 f
  | collect =>
    obtain ⟨a, s', hs', -, hq⟩ := exec_of_sat (collected_garbageCollect h)
    refine ⟨_, hs', hq.inv, hq.leak.trans (and_iff_left trivial).symm, fun f _ hf => ?_⟩
    obtain ⟨m, ho, hm⟩ := hf
    have hone := (h.files.slot ho).1
    refine ⟨m, ?_, ?_⟩
    · simpa only [FileSys.OpenMem, hq.ftable] using ho
    · rw [hq.kept m (by omega), hm]
  | kalloc =>
    rcases h.pages.alloc.kalloc with hk | ⟨pa, k', hk, hinv, hman, href, hrc⟩
    · refine ⟨t, ?_, h, (and_iff_left trivial).symm, fun f _ hf => hf⟩
      simp only [memStep, hk, Option.map_some, if_pos]
    · have hpages := h.pages.otherTake hinv hman href hrc
      refine ⟨⟨{ t.sys with kmem := k' }, insert pa t.others⟩, ?_,
        ⟨h.files.congr rfl rfl, hpages.1⟩, hpages.2.trans (and_iff_left trivial).symm, fun f _ hf => hf⟩
      simp only [memStep, hk, Option.map_some, if_neg (managed_ne_zero hman)]
  | kfree pa =>
    obtain ⟨k', hk, hinv, hrc⟩ := h.pages.alloc.kfree (h.pages.other pa he.1).1 he.2
    have hpages := h.pages.otherFree he.1 hinv hrc
    refine ⟨⟨{ t.sys with kmem := k' }, t.others.erase pa⟩, ?_,
      ⟨h.files.congr rfl rfl, hpages.1⟩, hpages.2.trans (and_iff_left trivial).symm, fun f _ hf => hf⟩
    have he' : pa ∈ t.others ∧ getref t.sys.kmem pa = 1 := he
    simp only [memStep, if_pos he', hk, Option.map_some]

/-- Only enabled events happen. -/
theorem enabled_of_memStep (h : memStep t e = some t') : e.Enabled t := by
  have hcall : ∀ {f : Fin nfile} {g : Fin nmemfile → Option MemSys},
      (t.sys.slotOf f).bind g = some t' → ∃ m, t.sys.OpenMem f m := fun hb => by
    obtain ⟨m, hm, -⟩ := Option.bind_eq_some_iff.mp hb
    exact ⟨m, FileSys.slotOf_eq_some_iff.mp hm⟩
  cases e with
  | create => trivial
  | dup f => exact hcall h
  | close f => exact hcall h
  | delete f => exact hcall h
  | read f n ok => exact hcall h
  | write f n src ok => exact hcall h
  | collect => trivial
  | kalloc => trivial
  | kfree pa =>
    by_contra hc
    have hc' : ¬ (pa ∈ t.others ∧ getref t.sys.kmem pa = 1) := hc
    simp only [memStep, if_neg hc', reduceCtorEq] at h

theorem stepped_of_memStep (h : MemInv t.sys t.others) (hs : memStep t e = some t') :
    Stepped t e t' := by
  obtain ⟨t₁, ht₁, hst⟩ := stepped_memStep h (enabled_of_memStep hs)
  rw [hs] at ht₁
  cases ht₁
  exact hst

theorem memInv_run {t₀ : MemSys} {es : List MemEvent} (h : MemInv t₀.sys t₀.others)
    (hrun : run memStep t₀ es = some t) : MemInv t.sys t.others :=
  invariant_of_step (P := fun t => MemInv t.sys t.others)
    (fun _ _ _ hi hs => (stepped_of_memStep hi hs).inv) h hrun

/-- A deleted file stays deleted while it is open. -/
theorem marked_run {t₀ : MemSys} {es : List MemEvent} {f : Fin nfile} (h : MemInv t₀.sys t₀.others)
    (hm : t₀.sys.Marked f)
    (hopen : Along memStep (fun t e => e = .close f → 1 < (t.sys.ftable f).ref) t₀ es)
    (hrun : run memStep t₀ es = some t) : MemInv t.sys t.others ∧ t.sys.Marked f :=
  invariant (P := fun t => MemInv t.sys t.others ∧ t.sys.Marked f)
    (fun _ _ _ hi hok hs =>
      ⟨(stepped_of_memStep hi.1 hs).inv, (stepped_of_memStep hi.1 hs).marked f hok hi.2⟩)
    ⟨h, hm⟩ hopen hrun

omit [Superblock] in
/-- Reads and writes of a deleted file return -1. -/
theorem FileSys.Marked.fails {s : FileSys} {others : Finset Nat} {f : Fin nfile} (hm : s.Marked f)
    (h : MemInv s others) : ∃ m, s.OpenMem f m ∧ ∀ n src ok,
      (∃ s', memread f m n ok s = .ok (none, s')) ∧ ∃ s', memwrite f m n src ok s = .ok (-1, s') := by
  obtain ⟨m, ho, hmark⟩ := hm
  refine ⟨m, ho, fun n src ok => ⟨?_, ?_⟩⟩
  · obtain ⟨a, s', -, hr, hq⟩ := exec_of_sat (t := ⟨s, others⟩) (memKept_memread h ho n ok)
    rw [hq.2.2 hmark] at hr
    exact ⟨s', hr⟩
  · obtain ⟨a, s', -, hr, hq⟩ := exec_of_sat (t := ⟨s, others⟩) (memKept_memwrite h ho n src ok)
    rw [hq.2.2 hmark] at hr
    exact ⟨s', hr⟩

/-- A page that the collector frees belonged to a slot that no open file has. -/
theorem freed_by_collect (h : MemInv t.sys t.others) :
    ∃ t', memStep t .collect = some t' ∧ ∀ pa, Managed pa → 0 < getref t.sys.kmem pa →
      getref t'.sys.kmem pa = 0 →
        ∃ m, (t.sys.mftable m).data = pa ∧ ∀ f, ¬ t.sys.OpenMem f m := by
  obtain ⟨a, s', hs', -, hq⟩ := exec_of_sat (collected_garbageCollect h)
  refine ⟨_, hs', fun pa hpa href hfree => ?_⟩
  by_contra hno
  by_cases hslot : ∃ m, t.sys.pageOf m = pa
  · obtain ⟨m, hm⟩ := hslot
    obtain ⟨f, ho⟩ : ∃ f, t.sys.OpenMem f m := by
      by_contra hc
      exact hno ⟨m, hm, not_exists.mp hc⟩
    -- the slot is untouched, so the page is still allocated
    have hone := (h.files.slot ho).1
    have hsame : s'.pageOf m = pa := by rw [FileSys.pageOf, hq.kept m (by omega)]; exact hm
    have := (hq.inv.pages.slot m (hsame ▸ managed_ne_zero hpa)).2
    rw [hsame] at this
    exact absurd (this.symm.trans hfree) Nat.one_ne_zero
  · have := hq.refs pa hpa (not_exists.mp hslot)
    exact absurd (this.symm.trans hfree) (by omega)

/-- In-memory files in every reachable state: each open one has its own slot with its own allocated
page, the collector frees no page of theirs, and a deleted one can no longer be read or written. -/
theorem memfiles_safe {t₀ : MemSys} {es : List MemEvent} (h₀ : t₀.Start)
    (hrun : run memStep t₀ es = some t) :
    (∀ f, 0 < (t.sys.ftable f).ref → (t.sys.ftable f).type = .mem →
      ∃ m, (t.sys.ftable f).memf = some m ∧ (t.sys.mftable m).refCount = 1 ∧
        (t.sys.mftable m).data ≠ 0 ∧ getref t.sys.kmem (t.sys.mftable m).data = 1 ∧
        (t.sys.mftable m).data ∉ t.others ∧
        ∀ m', (t.sys.mftable m').data = (t.sys.mftable m).data → m' = m) ∧
    (∀ f g m, t.sys.OpenMem f m → t.sys.OpenMem g m → f = g) ∧
    (∃ t', memStep t .collect = some t' ∧ ∀ pa, Managed pa → 0 < getref t.sys.kmem pa →
      getref t'.sys.kmem pa = 0 →
        ∃ m, (t.sys.mftable m).data = pa ∧ ∀ f, ¬ t.sys.OpenMem f m) ∧
    ∀ f m s₁ es' t₂, t.sys.OpenMem f m → memfileDelete m t.sys = .ok (true, s₁) →
      run memStep ⟨s₁, t.others⟩ es' = some t₂ →
      Along memStep (fun t e => e = .close f → 1 < (t.sys.ftable f).ref) ⟨s₁, t.others⟩ es' →
      ∃ m', t₂.sys.OpenMem f m' ∧ ∀ n src ok,
        (∃ s', memread f m' n ok t₂.sys = .ok (none, s')) ∧
        ∃ s', memwrite f m' n src ok t₂.sys = .ok (-1, s') := by
  have h := memInv_run h₀.inv hrun
  refine ⟨fun f hpos ht => ?_, h.files.inj, freed_by_collect h, ?_⟩
  · obtain ⟨m, hm, hone, hdata⟩ := h.files.bound f ht
    refine ⟨m, hm, hone, hdata, (h.pages.slot m hdata).2, fun ho => ?_, fun m' he => ?_⟩
    · exact (h.pages.other _ ho).2.2 m rfl
    · exact (h.pages.distinct m m' hdata he.symm).symm
  · intro f m s₁ es' t₂ ho hdel hrun' hopen
    obtain ⟨hkept, -, hmark, -⟩ := (memKept_memfileDelete h ho).of_run hdel
    obtain ⟨h₂, hm₂⟩ := marked_run hkept.inv hmark hopen hrun'
    exact hm₂.fails h₂

end

/-! ## A first file -/

/-- Memory as `kinit` leaves it: one free block of all pages after the kernel. -/
def allFree : Kmem where
  mem a i := if a = 0x80300000 ∧ i = 1 then 0x7d00 else 0
  refCount x := if 0x80300 ≤ x ∧ x < 0x88000 then 0 else 1
  reverseMap _ := noRmap
  freelist := 0x80300000
  useLock := true

theorem allocInv_allFree : @AllocInv sampleImage allFree := by
  refine allocInv_of_block (b := ⟨0x80300, 0x7d00⟩) (by decide) (by decide) (by decide) ⟨rfl, rfl, rfl⟩ fun x => ?_
  simp only [Extents.Block.Has, Extents.Block.fin, allFree]
  split
  next h => simp [h]
  next h => simp [h]

/-- The sample kernel with no file open and all its memory free. -/
def noMemfiles : MemSys := ⟨oneProcess allFree, ∅⟩

theorem noMemfiles_start : @MemSys.Start sampleImage noMemfiles := by
  let _ := sampleImage
  refine ⟨fun f => nofun, fun f _ => rfl, fun m => rfl, allocInv_allFree, fun pa => ?_⟩
  refine ⟨fun hpa => absurd hpa (Finset.notMem_empty pa), fun ⟨hm, hr⟩ => ?_⟩
  have hend : pgRoundUp sampleImage.kernelEnd = 0x80300000 := by decide
  have hfree : 0x80300 ≤ pa2idx pa ∧ pa2idx pa < 0x88000 := by
    rw [Managed, hend] at hm
    simp only [pa2idx, pgSize, physTop, kernBase] at *; omega
  have : getref noMemfiles.sys.kmem pa = 0 := if_pos hfree
  omega

/-- A file with two references that is deleted and closed once is still in use. -/
theorem memfiles_safe_closed_once :
    ∃ t, run (@memStep sampleImage mkfsSuperblock) noMemfiles [.create, .dup 0, .delete 0, .close 0] =
        some t ∧ t.sys.OpenMem 0 0 ∧ getref t.sys.kmem (t.sys.mftable 0).data = 1 := by
  have hrun : ((run (@memStep sampleImage mkfsSuperblock) noMemfiles
      [.create, .dup 0, .delete 0, .close 0]).map fun t => t.sys.slotOf 0) = some (some 0) := by
    decide +kernel
  obtain ⟨t, ht, hslot⟩ := Option.map_eq_some_iff.mp hrun
  have ho := FileSys.slotOf_eq_some_iff.mp hslot
  obtain ⟨m, hm, -, -, href, -⟩ :=
    (@memfiles_safe sampleImage mkfsSuperblock _ _ _ noMemfiles_start ht).1 0 ho.1 ho.2.1
  rw [ho.2.2] at hm
  cases hm
  exact ⟨t, ht, ho, href⟩

end MiniOS
