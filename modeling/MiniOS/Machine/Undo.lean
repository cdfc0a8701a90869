import MiniOS.Machine.Counts
import MiniOS.InodeRefs

/-!
# MiniOS.Machine.Undo

Calls that fail.  All that is left of a `kfork` or a `kexec` that failed are
edits of a page table that is gone, and pages that stay write-protected; these
are aside from what processes see, and counts do not depend on them
(`Sys.Inv.restored`).
-/

namespace MiniOS

section
variable [KernelImage] {V V' : View} {r r' v : Nat}

omit [KernelImage] in
theorem View.uses_aside {e : Edit} (he : e.Aside r) (hr : r' ≠ r) (q : Nat) :
    (V.edit e).Uses r' v q ↔ V.Uses r' v q := by
  rw [View.Uses, View.Uses]
  rcases he with hplace | ⟨r₁, v₁, rfl⟩
  · rw [View.edit_pte_of_ne fun hc => hr (by rw [← hplace, hc])]
  · rw [View.edit_pte_some rfl]
    split
    next he => rw [he.1, he.2, Hits, Hits, (has_cowedPte _).2.1, pte2pa_cowedPte]
    next => rfl

section
variable {es : List Edit} (h : Edits V es V') (hes : ∀ e ∈ es, e.Aside r) (hr : r' ≠ r)
include h hes hr

/-- Edits aside of a page table leave its uses and its bytes alone. -/
theorem Edits.uses_aside (q : Nat) : V'.Uses r' v q ↔ V.Uses r' v q := by
  induction es generalizing V with
  | nil => rw [Edits.nil_iff.mp h]
  | cons e es ih =>
    have h := (Edits.cons_iff.mp h).2
    exact (ih h fun e' he' => hes e' (List.mem_cons_of_mem _ he')).trans
      (View.uses_aside (hes e List.mem_cons_self) hr q)

theorem Edits.sees_aside (hc : V.Clean) (hv : v < userVpn) : V'.sees r' v = V.sees r' v := by
  refine h.sees_eq hv hc fun e he W => ?_
  rcases hes e he with hplace | ⟨r₁, v₁, rfl⟩
  · exact Edit.sees_of_ne (fun hp => hr (by rw [← hplace, hp])) W
  · rfl

end

/-! ## what is restored -/

variable {s s' : Sys} {p : Fin nproc}

/-- Free pages, counts and what processes see are as before. -/
structure Sys.Restored (s s' : Sys) : Prop where
  free : ∀ pa, Managed pa → (OnFreelist s'.kmem pa ↔ OnFreelist s.kmem pa)
  refCount : s'.kmem.refCount = s.kmem.refCount
  bytes : ∀ p, (s.procs p).state ≠ .unused → s'.procs p = s.procs p ∧
    ∀ va < (s.procs p).sz, s'.view.byte (s.procs p).pagetable va = s.view.byte (s.procs p).pagetable va

theorem Image.page_lt (h : Image s.view (s.procs p)) {va : Nat} (hva : va < (s.procs p).sz) : va / pgSize < userVpn := by
  have := h.size
  rw [trapframeVa_eq] at this
  simp only [pgSize, userVpn] at *; omega

/-- Counts do not depend on edits aside of the page tables. -/
theorem Sys.Inv.refCount_eq (h : s.Inv) {es : List Edit} (hm : s.Moves 0 es s') (hr : r ∉ s.roots)
    (hes : ∀ e ∈ es, e.Aside r) (hroots : s'.roots = s.roots) (hheld : s'.held = s.held) :
    s'.kmem.refCount = s.kmem.refCount := by
  obtain ⟨bs, kind, ht⟩ := h.ok
  obtain ⟨bs', kind', ht'⟩ := hm.inv.ok
  rw [hroots, hheld] at ht'
  have husers (q : Nat) : users s'.kmem.mem s.roots q = users s.kmem.mem s.roots q := by
    ext ⟨r', v⟩
    by_cases hr' : r' ∈ s.roots
    · have hne : r' ≠ r := fun he => hr (he ▸ hr')
      have hiff := hm.edits.uses_aside hes hne (v := v) q
      rwa [Sys.view, Sys.view, hroots, uses_view, uses_view] at hiff
    · simp [mem_users, hr']
  have hkernel (q : Nat) : KernelPage s'.kmem.mem s.roots s.held q ↔ KernelPage s.kmem.mem s.roots s.held q := by
    refine or_congr_right (exists_congr fun r' => and_congr_right fun hr' => ?_)
    have hsame := (hm.keeps r' hr' (Sys.mem_roots.mp hr').1).2
    exact exists_congr fun path => and_congr_right fun hlen => by rw [hsame path hlen]
  funext x
  by_cases hx : Managed (x * pgSize)
  · have hidx : pa2idx (x * pgSize) = x := by simp only [pa2idx, pgSize]; omega
    have hrefs : kernelRefs s'.kmem.mem s.roots s.held (x * pgSize) = kernelRefs s.kmem.mem s.roots s.held (x * pgSize) := by
      rw [kernelRefs, kernelRefs]
      classical
      exact if_congr (hkernel _) rfl rfl
    have href := ht.getref_eq hx
    have href' := ht'.getref_eq hx
    rw [husers, hrefs, ← href, getref, getref, hidx] at href'
    exact href'
  · rw [ht.out x hx, ht'.out x hx]

theorem Sys.Inv.restored (h : s.Inv) {es : List Edit} (hm : s.Moves 0 es s') (hr : r ∉ s.roots)
    (hes : ∀ e ∈ es, e.Aside r) (hsame : s.SameLive s') : s.Restored s' := by
  have hentry (p : Fin nproc) : (s'.procs p).pagetable = (s.procs p).pagetable ∧
      (s'.procs p).trapframe = (s.procs p).trapframe := by
    by_cases hu : (s.procs p).state = .unused
    · obtain ⟨h1, h2, -⟩ := (h.entry p).idle hu
      obtain ⟨h1', h2', -⟩ := (hm.inv.entry p).idle ((hsame.unused_iff p).mpr hu)
      exact ⟨h1'.trans h1.symm, h2'.trans h2.symm⟩
    · rw [hsame.live p hu]
      exact ⟨rfl, rfl⟩
  have hroots : s'.roots = s.roots := congrArg Slots.named (funext fun p => (hentry p).1)
  have hframes : s'.procs.trapframes = s.procs.trapframes := funext fun p => (hentry p).2
  have hheld : s'.held = s.held := by rw [Sys.held, Sys.held, hframes, hsame.kbufs]
  have href := h.refCount_eq hm hr hes hroots hheld
  refine ⟨fun pa hpa => ?_, href, fun p hl => ⟨hsame.live p hl, fun va hva => ?_⟩⟩
  · obtain ⟨bs, kind, ht⟩ := h.ok
    obtain ⟨bs', kind', ht'⟩ := hm.inv.ok
    rw [ht.onFreelist_iff_ref hpa, ht'.onFreelist_iff_ref hpa, getref, getref, href]
  · have him := h.live hl
    rw [View.byte, View.byte,
      hm.edits.sees_aside hes (fun he => hr (he ▸ him.mem_roots)) (view_clean _ _) (him.page_lt hva)]

/-! ## fork -/

/-- `kfork` by `p` with its files, which it copies once the child has its memory. -/
def kforkFiles (p : Fin nproc) (cwd : Fin ninode) (s : Sys) (f : FileSys) : Option (Option (Fin nproc) × Sys × FileSys) :=
  (kfork p s).bind fun r =>
    match forkFiles p (r.1.getD p) cwd r.1.isSome f with
    | .ok (_, f') => some (r.1, r.2, f')
    | .error _ => none

/-- `kfork` returns, and when it returns -1 the free pages, the counts, what processes see, the files and the states
of all processes are as before. -/
theorem failed_fork_undone (h : Reachable s) (hl : (s.procs p).state ≠ .unused) (cwd : Fin ninode) (f : FileSys) :
    (kfork p s).isSome ∧ ∀ s' f', kforkFiles p cwd s f = some (none, s', f') →
      s.Restored s' ∧ (∀ q, (s'.procs q).state = (s.procs q).state) ∧ f' = f := by
  obtain ⟨res, s₁, hrun, hres⟩ := h.inv.kfork hl
  rw [hrun]
  refine ⟨rfl, fun s' f' hf => ?_⟩
  rw [kforkFiles, hrun, Option.bind_some] at hf
  rcases hres with ⟨rfl, hsame, r, es, hr, hes, hm⟩ | ⟨np, r, tf, pid, rfl, -⟩
  · cases hf
    refine ⟨h.inv.restored hm hr hes hsame, fun q => ?_, rfl⟩
    by_cases hu : (s.procs q).state = .unused
    · rw [hu, (hsame.unused_iff q).mpr hu]
    · rw [hsame.live q hu]
  · split at hf <;> cases hf

end

/-- There is memory for the page table of the child, but not for the pages below it. -/
theorem failed_fork_undone_full : ∃ s s' f, tinyRun [.userinit, .sbrk 0 (13 * 4096) true] = some s ∧
    @kforkFiles tinyImage 0 0 s f = some (none, s', f) ∧ @Sys.Restored tinyImage s s' := by
  let _ := tinyImage
  have hrun : ((tinyRun [.userinit, .sbrk 0 (13 * 4096) true]).bind fun s =>
      (kfork 0 s).map fun r => ((s.procs 0).state, r.1)) = some (.runnable, none) := by decide +kernel
  obtain ⟨s, hs, hfork⟩ := Option.bind_eq_some_iff.mp hrun
  obtain ⟨⟨_, s'⟩, hk, heq⟩ := Option.map_eq_some_iff.mp hfork
  simp only [Prod.mk.injEq] at heq
  obtain ⟨hstate, rfl⟩ := heq
  have hf : kforkFiles 0 0 s (firstProcess s.kmem) = some (none, s', firstProcess s.kmem) := by
    rw [kforkFiles, hk]
    rfl
  have hundone := failed_fork_undone (reachable_tinyRun hs) (by rw [hstate]; decide) 0 (firstProcess s.kmem)
  exact ⟨s, s', _, hs, hf, (hundone.2 s' _ hf).1⟩

end MiniOS
