import MiniOS.Machine.Inv

/-!
# MiniOS.Machine.Counts

Reference counts in reachable states.  A count is the number of user entries
that point to the page, or 1 for a page of the kernel, so it is determined by
the page tables and the pages that the kernel holds (`Typed.getref_eq`).  From
this follows what `proc_freepagetable` gives back, and that a `kfork` that fails
gives back all that it took.
-/

namespace MiniOS

/-- A page of the page table `r`. -/
def TablePage (m : Mem) (r q : Nat) : Prop := ∃ path : List (Fin 512), path.length ≤ 2 ∧ tableAt m r path = some q

/-- A page of the kernel: of a page table, or one that it holds. -/
def KernelPage (m : Mem) (roots held : Finset Nat) (q : Nat) : Prop := q ∈ held ∨ ∃ r ∈ roots, TablePage m r q

open Classical in
/-- The reference of the kernel to a page. -/
noncomputable def kernelRefs (m : Mem) (roots held : Finset Nat) (q : Nat) : Nat :=
  if KernelPage m roots held q then 1 else 0

open Classical in
/-- The reference to a page that goes with the page table `r`. -/
noncomputable def tableRefs (m : Mem) (r q : Nat) : Nat := if TablePage m r q then 1 else 0

theorem users_erase (m : Mem) {roots : Finset Nat} {r : Nat} (hr : r ∈ roots) (q : Nat) :
    (users m roots q).card = (users m (roots.erase r) q).card + (users m {r} q).card := by
  have hdisj : Disjoint (users m (roots.erase r) q) (users m {r} q) := by
    rw [Finset.disjoint_left]
    rintro ⟨r', v⟩ h h'
    rw [mem_users, Finset.mem_erase] at h
    rw [mem_users, Finset.mem_singleton] at h'
    exact h.1.1.1 h'.1.1
  rw [← Finset.card_union_of_disjoint hdisj]
  congr 1
  ext ⟨r', v⟩
  simp only [Finset.mem_union, mem_users, Finset.mem_erase, Finset.mem_singleton]
  by_cases h : r' = r
  · simp [h, hr]
  · simp [h]

section
variable [KernelImage] {k k' : Kmem} {bs : List Extents.Block} {roots held : Finset Nat} {kind : Nat → Kind} {r q : Nat}

theorem Typed.tablePage_iff {loose : Nat → Nat} (h : Typed k bs roots held kind loose) (hr : r ∈ roots) :
    TablePage k.mem r q ↔ ∃ path, kind q = .table r path := by
  constructor
  · rintro ⟨path, hlen, hq⟩
    exact ⟨path, (h.tree.tableAt_iff hr hlen).mp hq⟩
  · rintro ⟨path, hq⟩
    have hlen := h.tree.depth q r path hq
    exact ⟨path, hlen, (h.tree.tableAt_iff hr hlen).mpr hq⟩

/-- Counts are determined by the page tables and the held pages. -/
theorem Typed.getref_eq (h : Typed k bs roots held kind fun _ => 0) (hq : Managed q) :
    getref k q = (users k.mem roots q).card + kernelRefs k.mem roots held q := by
  have hkernel : KernelPage k.mem roots held q ↔ kind q ≠ .free ∧ kind q ≠ .user := by
    constructor
    · rintro (hheld | ⟨r, hr, ht⟩)
      · rw [((h.held_iff q).mp hheld).2]
        exact ⟨by simp, by simp⟩
      · obtain ⟨path, hk⟩ := (h.tablePage_iff hr).mp ht
        rw [hk]
        exact ⟨by simp, by simp⟩
    · intro hk
      cases hkind : kind q with
      | free => exact absurd hkind hk.1
      | user => exact absurd hkind hk.2
      | held => exact Or.inl ((h.held_iff q).mpr ⟨hq, hkind⟩)
      | table r path =>
        have hr := h.tree.mem_roots hkind
        exact Or.inr ⟨r, hr, (h.tablePage_iff hr).mpr ⟨path, hkind⟩⟩
  have href := h.ref q hq
  rw [kernelRefs, href]
  simp only [hkernel]
  cases hk : kind q with
  | user => simp [Kind.refs]
  | free | held | table =>
    have hempty := h.users_empty (p := q) (by rw [hk]; simp)
    simp [Kind.refs, hempty]

theorem Typed.onFreelist_iff_ref (h : Typed k bs roots held kind fun _ => 0) (hq : Managed q) :
    OnFreelist k q ↔ getref k q = 0 := by
  rw [onFreelist_iff h.rep hq.1, ← h.free_iff]
  constructor
  · intro hk
    have href := h.ref q hq
    rwa [hk] at href
  · exact h.free_of_ref hq

/-- A page table goes, with its references; other tables keep their entries and pages. -/
theorem Does.getref_of_erase {es : List Edit} (h : Ok k roots held) (hr : r ∈ roots) (hes : ∀ e ∈ es, e.place.1 = r)
    (hd : Does r k roots held es k' (roots.erase r) held) (hq : Managed q) :
    getref k q = getref k' q + (users k.mem {r} q).card + tableRefs k.mem r q := by
  obtain ⟨bs, kind, ht⟩ := h
  obtain ⟨bs', kind', ht'⟩ := hd.ok
  have husers : users k'.mem (roots.erase r) q = users k.mem (roots.erase r) q := by
    ext ⟨r', v⟩
    have hpte (hr' : r' ∈ roots.erase r) (hv : v < userVpn) : leafPte k'.mem r' v = leafPte k.mem r' v := by
      have hmax : v < maxVpn := by simp only [userVpn, maxVpn] at *; omega
      have hsame := hd.edits.pte_of_ne (r := r') (v := v) fun e he hc =>
        Finset.ne_of_mem_erase hr' (by rw [← hes e he, hc])
      rwa [view_pte hr' hmax, view_pte (Finset.mem_of_mem_erase hr') hmax] at hsame
    rw [mem_users, mem_users]
    exact and_congr_right fun hm => by rw [hpte hm.1 hm.2]
  have hother {r' : Nat} (hr' : r' ∈ roots.erase r) : TablePage k'.mem r' q ↔ TablePage k.mem r' q := by
    obtain ⟨hne, hmem⟩ := Finset.mem_erase.mp hr'
    have hsame := (hd.keeps r' hmem hne).2
    exact exists_congr fun path => and_congr_right fun hlen => by rw [hsame path hlen]
  have hkernel : kernelRefs k.mem roots held q =
      kernelRefs k'.mem (roots.erase r) held q + tableRefs k.mem r q := by
    by_cases htab : TablePage k.mem r q
    · have hnot : ¬ KernelPage k'.mem (roots.erase r) held q := by
        obtain ⟨path, hk⟩ := (ht.tablePage_iff hr).mp htab
        rintro (hheld | ⟨r', hr', ht'⟩)
        · have := ((ht.held_iff q).mp hheld).2
          rw [hk] at this
          cases this
        · obtain ⟨hne, hmem⟩ := Finset.mem_erase.mp hr'
          obtain ⟨path', hk'⟩ := (ht.tablePage_iff hmem).mp ((hother hr').mp ht')
          rw [hk] at hk'
          cases hk'
          exact hne rfl
      have hin : KernelPage k.mem roots held q := Or.inr ⟨r, hr, htab⟩
      rw [kernelRefs, if_pos hin, kernelRefs, if_neg hnot, tableRefs, if_pos htab]
    · have hiff : KernelPage k.mem roots held q ↔ KernelPage k'.mem (roots.erase r) held q := by
        refine or_congr_right ⟨?_, ?_⟩
        · rintro ⟨r', hr', ht'⟩
          have hne : r' ≠ r := fun he => htab (by rwa [he] at ht')
          have hmem := Finset.mem_erase.mpr ⟨hne, hr'⟩
          exact ⟨r', hmem, (hother hmem).mpr ht'⟩
        · rintro ⟨r', hr', ht'⟩
          exact ⟨r', Finset.mem_of_mem_erase hr', (hother hr').mp ht'⟩
      rw [tableRefs, if_neg htab, Nat.add_zero, kernelRefs, kernelRefs]
      classical
      exact if_congr hiff rfl rfl
  rw [ht.getref_eq hq, ht'.getref_eq hq, users_erase k.mem hr, husers, hkernel]
  omega

variable {s s' : Sys} {p : Fin nproc}

/-- In every reachable state a count is the number of user entries that point to the page, and 1 more for a page
of the kernel; it is 0 exactly for the pages of the free list. -/
theorem ref_counts_exact (h : Reachable s) {pa : Nat} (hpa : Managed pa) :
    s.kmem.refCount (pa2idx pa) = (users s.kmem.mem s.roots pa).card + kernelRefs s.kmem.mem s.roots s.held pa ∧
    (s.kmem.refCount (pa2idx pa) = 0 ↔ OnFreelist s.kmem pa) := by
  obtain ⟨bs, kind, ht⟩ := h.inv.ok
  exact ⟨ht.getref_eq hpa, (ht.onFreelist_iff_ref hpa).symm⟩

omit [KernelImage] in
/-- Parent and child share the page at 0. -/
theorem ref_counts_exact_shared : ∃ s pa, tinyRun [.userinit, .sbrk 0 4096 true, .fork 0] = some s ∧
    @Managed tinyImage pa ∧
    (users s.kmem.mem s.roots pa).card + kernelRefs s.kmem.mem s.roots s.held pa = 2 ∧ ¬ OnFreelist s.kmem pa := by
  let _ := tinyImage
  have hrun : (tinyRun [.userinit, .sbrk 0 4096 true, .fork 0]).map (fun s =>
      let pa := pte2pa (leafPte s.kmem.mem (s.procs 0).pagetable 0)
      (decide (Managed pa), s.kmem.refCount (pa2idx pa))) = some (true, 2) := by decide +kernel
  obtain ⟨s, hs, heq⟩ := Option.map_eq_some_iff.mp hrun
  simp only [Prod.mk.injEq, decide_eq_true_eq] at heq
  obtain ⟨hman, href⟩ := heq
  obtain ⟨hcount, hfree⟩ := ref_counts_exact (reachable_tinyRun hs) hman
  exact ⟨s, _, hs, hman, hcount.symm.trans href, fun hc => absurd (hfree.mpr hc) (by rw [href]; decide)⟩

/-! ## address spaces -/

/-- The memory of every process lies below its size, so no call finds a page mapped twice, an address above
`MAXVA` or a page left in a page table: the only panics are that init ends or cannot start.  When the page table
of a process is freed, every page loses the references that the table has to it, and nothing else. -/
theorem address_space_shape (h : Reachable s) (hl : (s.procs p).state ≠ .unused) :
    ((s.procs p).sz ≤ trapframeVa ∧ ∀ v < userVpn, has (leafPte s.kmem.mem (s.procs p).pagetable v) pteV →
      v * pgSize < pgRoundUp (s.procs p).sz) ∧
    (∀ op : Op, op.perform s = none → op.Panics s) ∧
    (∀ va, (vmfault (s.procs p).sz (s.procs p).pagetable va s.kmem).isSome) ∧
    ∃ k', procFreepagetable (s.procs p).pagetable (s.procs p).sz s.kmem = some ((), k') ∧
      ∀ pa, Managed pa → getref s.kmem pa = getref k' pa +
        (users s.kmem.mem {(s.procs p).pagetable} pa).card + tableRefs s.kmem.mem (s.procs p).pagetable pa := by
  have him := h.inv.live hl
  refine ⟨⟨him.size, fun v hv hV => ?_⟩, fun op => (h.inv.perform op).1, fun va => ?_, ?_⟩
  · by_contra hge
    have hpte := him.above v (by simp only [pgRoundUp, pgSize] at *; omega) hv
    rw [Sys.view, view_pte him.mem_roots (by simp only [userVpn, maxVpn] at *; omega)] at hpte
    rw [hpte] at hV
    simp at hV
  · obtain ⟨pa, k', hf, -⟩ := h.inv.ok.vmfault va him.mem_roots him.size
    rw [hf]
    rfl
  · obtain ⟨_, k', hf, hd⟩ := h.inv.ok.procFreepagetable him.mem_roots him.size him.above
    exact ⟨k', hf, fun pa hpa => hd.getref_of_erase h.inv.ok him.mem_roots (fun e => place_freed) hpa⟩

end

theorem address_space_shape_first : ∃ s k', tinyRun [.userinit, .sbrk 0 5000 true] = some s ∧
    (s.procs 0).sz = 5000 ∧ @procFreepagetable tinyImage (s.procs 0).pagetable 5000 s.kmem = some ((), k') := by
  let _ := tinyImage
  have hrun : (tinyRun [.userinit, .sbrk 0 5000 true]).map (fun s => ((s.procs 0).state, (s.procs 0).sz)) =
      some (.runnable, 5000) := by decide +kernel
  obtain ⟨s, hs, heq⟩ := Option.map_eq_some_iff.mp hrun
  simp only [Prod.mk.injEq] at heq
  obtain ⟨hstate, hsz⟩ := heq
  obtain ⟨-, -, -, k', hk, -⟩ := address_space_shape (reachable_tinyRun hs) (p := 0) (by rw [hstate]; decide)
  exact ⟨s, k', hs, hsz, hsz ▸ hk⟩

end MiniOS
