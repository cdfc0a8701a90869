import MiniOS.Machine.Inv

/-!
# MiniOS.Machine.Rmap

The reverse map in reachable states: what a copy-on-write fault leaves in it.

`record_rmap` only fills an empty entry; an entry that names another page table
becomes `-1`, and one that is `-1` stays so.  A page that is promoted in place
was shared before, so its entry has been spoiled when the second sharer was
recorded, and nothing ever repairs it.
-/

namespace MiniOS

/-- Recording gives the exact entry if it was empty or exact before. -/
theorem recordEntry_eq_iff {e : Rmap} {r va : Nat} (hr : r < sharedRmap) :
    View.recordEntry e r va = ⟨r, va⟩ ↔ e.pagetable = 0 ∨ e = ⟨r, va⟩ := by
  obtain ⟨pt, a⟩ := e
  simp only [View.recordEntry]
  split
  next h0 => simp [h0]
  next h0 =>
    split
    next hne =>
      simp only [Rmap.mk.injEq]
      omega
    next heq => simp_all

section
variable [KernelImage] {s : Sys} {p : Fin nproc} {va : Nat}

/-- The page at `va` is marked copy-on-write. -/
def CowPage (s : Sys) (p : Fin nproc) (va : Nat) : Prop :=
  has (s.view.pte (s.procs p).pagetable (va / pgSize)) pteV ∧
  has (s.view.pte (s.procs p).pagetable (va / pgSize)) pteCow ∧
  has (s.view.pte (s.procs p).pagetable (va / pgSize)) pteW = false

instance (s : Sys) (p : Fin nproc) (va : Nat) : Decidable (CowPage s p va) :=
  inferInstanceAs (Decidable (_ ∧ _ ∧ _))

/-- The page is still shared, or its entry in the reverse map is empty or exact. -/
def RmapReady (s : Sys) (p : Fin nproc) (va : Nat) : Prop :=
  let pa := pte2pa (s.view.pte (s.procs p).pagetable (va / pgSize))
  1 < getref s.kmem pa ∨ (s.kmem.reverseMap (rmapIdx pa)).pagetable = 0 ∨
    s.kmem.reverseMap (rmapIdx pa) = ⟨(s.procs p).pagetable, pgRoundDown va⟩

/-- The count of a mapped page tells whether the entry is its only one. -/
theorem Ok.sole_iff_getref {k : Kmem} {roots held : Finset Nat} (h : Ok k roots held) {r v q : Nat}
    (hu : (view k roots).Uses r v q) : (view k roots).Sole r v q ↔ ¬ 1 < getref k q := by
  obtain ⟨bs, kind, h⟩ := h
  obtain ⟨hkind, -, href⟩ := h.ref_user hu
  have hpos := h.pos q hkind
  rw [h.sole_iff hu, getref, href]
  omega

/-- After a copy-on-write fault the page is writable, and its entry in the reverse map is exact if and only if
the page was copied, or had an empty or exact entry before. -/
theorem cow_fault_rmap_iff (h : Reachable s) (hl : (s.procs p).state ≠ .unused) (hcow : CowPage s p va)
    {pa : Nat} {k' : Kmem} (hf : vmfault (s.procs p).sz (s.procs p).pagetable va s.kmem = some (pa, k'))
    (hpa : pa ≠ 0) :
    pte2pa ((view k' s.roots).pte (s.procs p).pagetable (va / pgSize)) = pa ∧
    has ((view k' s.roots).pte (s.procs p).pagetable (va / pgSize)) pteW ∧
    has ((view k' s.roots).pte (s.procs p).pagetable (va / pgSize)) pteCow = false ∧
    (k'.reverseMap (rmapIdx pa) = ⟨(s.procs p).pagetable, pgRoundDown va⟩ ↔ RmapReady s p va) := by
  have him := h.inv.live hl
  obtain ⟨hV, hC, hW⟩ := hcow
  have hspec := (h.inv.ok.vmfault va him.mem_roots him.size).of_run hf
  obtain ⟨h0, -⟩ | ⟨-, -, e, he, hd, hret, -⟩ := hspec
  · exact absurd h0 hpa
  have hleg := (Edits.cons_iff.mp hd.edits).1
  have hview := hd.view_one
  have hrmap : k'.reverseMap = ((view s.kmem s.roots).edit e).rmap := congrArg View.rmap hview
  have hman := h.inv.ok.root_managed him.mem_roots
  cases he with
  | lazy pa' =>
    have h0 := hleg.2.1
    rw [← Sys.view] at h0
    rw [h0] at hV
    exact absurd hV (by simp)
  | copy pa' =>
    obtain ⟨hv, -, -, -, hshared, hpa', hfresh, -⟩ := hleg
    have hpte : (view k' s.roots).pte (s.procs p).pagetable (va / pgSize) = copiedPte pa' := by
      rw [hview, View.edit_pte_some rfl, if_pos ⟨rfl, rfl⟩]
    have hpage := pte2pa_copiedPte (managed_lt hpa') hpa'.1
    rw [hpte, hpage] at hret
    subst hret
    rw [hpte]
    refine ⟨hpage, by simp [copiedPte], by simp [copiedPte], iff_of_true ?_ (Or.inl ?_)⟩
    · simp [hrmap, View.edit, View.record, hfresh.2, View.recordEntry, noRmap, pgRoundDown]
    · by_contra hone
      exact hshared ((h.inv.ok.sole_iff_getref ⟨hv, hV, rfl⟩).mpr hone)
  | promote =>
    obtain ⟨hv, -, -, -, hsole, -⟩ := hleg
    have hpte : (view k' s.roots).pte (s.procs p).pagetable (va / pgSize) =
        promotedPte (s.view.pte (s.procs p).pagetable (va / pgSize)) := by
      rw [hview, View.edit_pte_some rfl, if_pos ⟨rfl, rfl⟩]
      rfl
    rw [hpte, pte2pa_promotedPte] at hret
    have hentry : k'.reverseMap (rmapIdx pa) = View.recordEntry (s.kmem.reverseMap (rmapIdx pa))
        (s.procs p).pagetable (va / pgSize * pgSize) := by
      rw [hrmap, hret]
      exact Function.update_self ..
    have hone : ¬ 1 < getref s.kmem pa := by
      rw [hret]
      exact (h.inv.ok.sole_iff_getref ⟨hv, hV, rfl⟩).mp hsole
    rw [hpte, pte2pa_promotedPte]
    refine ⟨hret.symm, by simp [promotedPte], by simp [promotedPte], ?_⟩
    have hlt : (s.procs p).pagetable < sharedRmap := by
      have := hman.2.2
      simp only [physTop, kernBase, sharedRmap] at *
      omega
    rw [hentry, RmapReady, ← hret]
    simp only [hone, false_or]
    exact recordEntry_eq_iff hlt

end

/-- A child writes to the page that it shares with its parent and gets a copy; the page is promoted when the
parent writes to it, and its entry in the reverse map stays `-1`. -/
theorem cow_fault_spoiled_rmap :
    ∃ s pa k', tinyRun [.userinit, .sbrk 0 4096 true, .fork 0, .store 1 0 7] = some s ∧ @Reachable tinyImage s ∧
      (s.procs 0).state = .runnable ∧ CowPage s 0 0 ∧
      @vmfault tinyImage (s.procs 0).sz (s.procs 0).pagetable 0 s.kmem = some (pa, k') ∧ pa ≠ 0 ∧
      k'.reverseMap (rmapIdx pa) ≠ ⟨(s.procs 0).pagetable, pgRoundDown 0⟩ := by
  let _ := tinyImage
  have hrun : ((tinyRun [.userinit, .sbrk 0 4096 true, .fork 0, .store 1 0 7]).bind fun s =>
      (vmfault (s.procs 0).sz (s.procs 0).pagetable 0 s.kmem).map fun r =>
        (decide (CowPage s 0 0), (s.procs 0).state, decide (r.1 ≠ 0),
          decide (r.2.reverseMap (rmapIdx r.1) ≠ ⟨(s.procs 0).pagetable, pgRoundDown 0⟩))) =
      some (true, .runnable, true, true) := by decide +kernel
  obtain ⟨s, hs, hfault⟩ := Option.bind_eq_some_iff.mp hrun
  obtain ⟨⟨pa, k'⟩, hf, heq⟩ := Option.map_eq_some_iff.mp hfault
  simp only [Prod.mk.injEq, decide_eq_true_eq] at heq
  obtain ⟨hcow, hstate, hpa, hentry⟩ := heq
  exact ⟨s, pa, k', hs, reachable_tinyRun hs, hstate, hcow, hf, hpa, hentry⟩

/-- The child's fault, which copies the page. -/
theorem cow_fault_rmap_iff_child :
    ∃ s pa k', tinyRun [.userinit, .sbrk 0 4096 true, .fork 0] = some s ∧ CowPage s 1 0 ∧
      @vmfault tinyImage (s.procs 1).sz (s.procs 1).pagetable 0 s.kmem = some (pa, k') ∧ pa ≠ 0 ∧
      k'.reverseMap (rmapIdx pa) = ⟨(s.procs 1).pagetable, 0⟩ := by
  let _ := tinyImage
  have hrun : ((tinyRun [.userinit, .sbrk 0 4096 true, .fork 0]).bind fun s =>
      (vmfault (s.procs 1).sz (s.procs 1).pagetable 0 s.kmem).map fun r =>
        (decide (CowPage s 1 0), (s.procs 1).state, decide (r.1 ≠ 0),
          decide (1 < getref s.kmem (pte2pa (s.view.pte (s.procs 1).pagetable 0))))) =
      some (true, .runnable, true, true) := by decide +kernel
  obtain ⟨s, hs, hfault⟩ := Option.bind_eq_some_iff.mp hrun
  obtain ⟨⟨pa, k'⟩, hf, heq⟩ := Option.map_eq_some_iff.mp hfault
  simp only [Prod.mk.injEq, decide_eq_true_eq] at heq
  obtain ⟨hcow, hstate, hpa, href⟩ := heq
  have hexact := cow_fault_rmap_iff (reachable_tinyRun hs) (by rw [hstate]; decide) hcow hf hpa
  exact ⟨s, pa, k', hs, hcow, hf, hpa, hexact.2.2.2.mpr (Or.inl href)⟩

end MiniOS
