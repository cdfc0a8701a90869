import MiniOS.Kernel.Inv

/-!
# MiniOS.Kernel.Spec

What the functions of `MiniOS.Kernel` do to a kernel that satisfies the
invariant: the edits they make and the entry of the process table they change.
-/

namespace MiniOS

open Total

/-- The live processes are untouched. -/
structure Sys.SameLive (s s' : Sys) : Prop where
  initproc : s'.initproc = s.initproc
  kbufs : s'.kbufs = s.kbufs
  unused_iff : ∀ p, (s'.procs p).state = .unused ↔ (s.procs p).state = .unused
  live : ∀ p, (s.procs p).state ≠ .unused → s'.procs p = s.procs p

theorem Sys.SameLive.refl (s : Sys) : s.SameLive s := ⟨rfl, rfl, fun _ => Iff.rfl, fun _ _ => rfl⟩

theorem Sys.SameLive.of_unused {s s' : Sys} {p : Fin nproc} {proc : Proc}
    (hinit : s'.initproc = s.initproc) (hkbufs : s'.kbufs = s.kbufs)
    (hs : s'.procs = Function.update s.procs p proc) (hp : (s.procs p).state = .unused)
    (hproc : proc.state = .unused) : s.SameLive s' := by
  refine ⟨hinit, hkbufs, fun p' => ?_, fun p' hl => ?_⟩ <;> rw [hs] <;> by_cases he : p' = p
  · rw [he, Function.update_self, hp, hproc]
  · rw [Function.update_of_ne he]
  · rw [he] at hl; exact absurd hp hl
  · rw [Function.update_of_ne he]

section
variable [KernelImage] {s : Sys} {p : Fin nproc} {ρ : Nat}

omit [KernelImage] in
theorem zero_not_mem_roots : 0 ∉ s.roots := fun h => (Sys.mem_roots.mp h).1 rfl

theorem Sys.Inv.zero_not_mem_held (h : s.Inv) : 0 ∉ s.held := fun hm => h.ne_zero_of_held hm rfl

/-- The process whose page table an edit is about. -/
theorem Sys.Inv.ne_table (h : s.Inv) {p' : Fin nproc} (hp : p' ≠ p)
    (h0 : (s.procs p').pagetable ≠ 0) : (s.procs p).pagetable ≠ (s.procs p').pagetable :=
  fun he => hp (h.tables p' p he.symm h0)

/-! ## freeproc -/

/-- `freeproc` of a live process. -/
theorem Sys.Inv.freeproc (h : s.Inv) (hl : (s.procs p).state ≠ .unused) :
    Returns (freeproc p) s fun _ s' =>
      s.Moves (s.procs p).pagetable (freed (s.procs p).pagetable (s.procs p).sz) s' ∧
      s'.procs = Function.update s.procs p (s.procs p).freed ∧ s'.initproc = s.initproc ∧
      s'.kbufs = s.kbufs := by
  have him := h.live hl
  refine returns_bind (a := s.procs p) (t := s) rfl ?_
  rw [if_pos him.frame, if_pos him.root]
  refine Returns.bindK (h.ok.kfreeK (s.procs p).pagetable him.mem_held) fun _ k₁ ⟨hd₁, _⟩ => ?_
  refine Returns.bindK (hd₁.ok.procFreepagetable him.mem_roots him.size fun v hlo hhi => by
    rw [hd₁.view_eq]; exact him.above v hlo hhi) fun _ k₂ hd₂ => ?_
  have key : ∀ s' : Sys, s'.kmem = k₂ → s'.procs = Function.update s.procs p (s.procs p).freed →
      s'.kbufs = s.kbufs → s.Moves (s.procs p).pagetable (freed (s.procs p).pagetable (s.procs p).sz) s' := by
    intro s' hk hprocs hkbufs
    have hroots := h.roots_clear hprocs rfl
    refine h.update hprocs hkbufs ?_ ?_ ?_ (Or.inr zero_not_mem_roots) (Or.inr h.zero_not_mem_held)
      (Entry.of_unused rfl rfl rfl rfl) fun e he p' hp' h0 hpl => ?_
    · rw [hk, hroots, h.held_clear hprocs hkbufs rfl]; exact hd₂.ok
    · rw [Sys.view, Sys.view, hk, hroots, ← hd₁.view_eq]
      exact hd₂.edits
    · rw [hk, hroots]; exact hd₁.keeps.trans hd₂.keeps
    · exact absurd ((place_freed he).symm.trans hpl) (h.ne_table hp' h0)
  exact ⟨(), _, rfl, key _ rfl rfl rfl, rfl, rfl, rfl⟩

/-! ## allocproc -/

/-- A page table is freed before anything was mapped for its process. -/
theorem Sys.Inv.freeproc_new (h : s.Inv) (hu : (s.procs p).state = .unused) {k₁ : Kmem} (proc : Proc)
    {nextpid : Nat} (hroot : proc.pagetable = 0)
    (hd : Does ρ s.kmem s.roots s.held [] k₁ s.roots
      (if proc.trapframe = 0 then s.held else insert proc.trapframe s.held))
    (hnew : proc.trapframe ∉ s.held) :
    Returns (MiniOS.freeproc p)
      { s with kmem := k₁, procs := Function.update s.procs p proc, nextpid := nextpid } fun _ s' =>
      s.Moves ρ [] s' ∧ s.SameLive s' := by
  have key : ∀ (s' : Sys) (k' : Kmem), Does ρ s.kmem s.roots s.held [] k' s.roots s.held → s'.kmem = k' →
      s'.procs = Function.update s.procs p proc.freed → s'.kbufs = s.kbufs →
      s'.initproc = s.initproc → s.Moves ρ [] s' ∧ s.SameLive s' := by
    intro s' k' hd' hk hprocs hkbufs hinit
    obtain ⟨hr, hf, -⟩ := (h.entry p).idle hu
    have hroots : s'.roots = s.roots := Sys.roots_same hprocs (by rw [hr]; rfl)
    have hheld : s'.held = s.held := Sys.held_same hprocs hkbufs (by rw [hf]; rfl)
    refine ⟨h.update hprocs hkbufs ?_ ?_ ?_ (Or.inr zero_not_mem_roots) (Or.inr h.zero_not_mem_held)
      (Entry.of_unused rfl rfl rfl rfl) (by simp), Sys.SameLive.of_unused hinit hkbufs hprocs hu rfl⟩
    · rw [hk, hroots, hheld]; exact hd'.ok
    · rw [Sys.view, Sys.view, hk, hroots]; exact hd'.edits
    · rw [hk, hroots]; exact hd'.keeps
  refine returns_bind rfl ?_
  simp only [Function.update_self, hroot, ne_eq, not_true_eq_false, if_false]
  by_cases hf : proc.trapframe = 0
  · rw [if_pos hf] at hd
    rw [if_neg fun hc => hc hf]
    exact ⟨(), _, rfl, key _ k₁ hd rfl (Function.update_idem _ _ _) rfl rfl⟩
  · rw [if_neg hf] at hd
    rw [if_pos hf]
    refine Returns.bindK (hd.ok.kfreeK ρ (Finset.mem_insert_self _ _)) fun _ k₂ hput => ?_
    have hd₂ := hput.1
    rw [Finset.erase_insert hnew] at hd₂
    exact ⟨(), _, rfl, key _ k₂ (hd.trans hd₂ fun _ hp _ => Finset.mem_insert_of_mem hp) rfl
      (Function.update_idem _ _ _) rfl rfl⟩

variable (ρ) in
/-- `allocproc`. -/
theorem Sys.Inv.allocproc (h : s.Inv) :
    Returns allocproc s fun res s' =>
      (res = none ∧ s.Moves ρ [] s' ∧ s.SameLive s') ∨
      ∃ np r tf pid, res = some np ∧ (s.procs np).state = .unused ∧ r ∉ s.roots ∧ tf ∉ s.held ∧
        s'.procs = Function.update s.procs np ((s.procs np).allocated pid tf r) ∧
        s'.initproc = s.initproc ∧ s'.kbufs = s.kbufs ∧ s.Moves ρ (kernelMaps r tf) s' := by
  cases hfirst : s.procs.firstUnused with
  | none =>
    exact ⟨none, s, by rw [MiniOS.allocproc, hfirst], Or.inl ⟨rfl, h.refl, Sys.SameLive.refl s⟩⟩
  | some p =>
    have hrun : MiniOS.allocproc s = allocprocAt p s := by rw [MiniOS.allocproc, hfirst]
    have hu := Table.firstUnused_state hfirst
    rw [Returns, hrun]
    change Returns (allocprocAt p) s _
    obtain ⟨hr0, hf0, hsz0⟩ := (h.entry p).idle hu
    refine returns_bind rfl (returns_bind rfl (Returns.bindK h.ok.kallocK ?_))
    rintro tf k₁ (⟨rfl, rfl, -⟩ | ⟨htf, hnew, htf', hd₁, -⟩)
    · refine returns_bind rfl ?_
      rw [if_pos rfl]
      refine (h.freeproc_new hu ((s.procs p).taken s.nextpid 0) hr0 ?_ h.zero_not_mem_held).bind
        fun _ s' hs' => returns_pure (Or.inl ⟨rfl, hs'⟩)
      rw [if_pos (Proc.taken_trapframe _ _ _)]; exact Does.refl h.ok
    · have hd₁ := hd₁ ρ
      refine returns_bind rfl ?_
      rw [if_neg htf]
      refine Returns.bindK (hd₁.ok.procPagetable ρ tf) ?_
      rintro r k₂ (⟨rfl, hd₂⟩ | ⟨hr, hroot, -, hd₂⟩)
      · rw [if_pos rfl]
        have hd := hd₁.trans hd₂ fun _ hp _ => Finset.mem_insert_of_mem hp
        refine (h.freeproc_new hu ((s.procs p).taken s.nextpid tf) hr0 ?_ hnew).bind
          fun _ s' hs' => returns_pure (Or.inl ⟨rfl, hs'⟩)
        rw [Proc.taken_trapframe, if_neg htf]; exact hd
      · rw [if_neg hr]
        have hd := hd₁.trans hd₂ fun _ hp _ => Finset.mem_insert_of_mem hp
        have key : ∀ (s' : Sys) (pid : Nat), s'.kmem = k₂ →
            s'.procs = Function.update s.procs p ((s.procs p).allocated pid tf r) →
            s'.kbufs = s.kbufs → s.Moves ρ (kernelMaps r tf) s' := by
          intro s' pid hk hprocs hkbufs
          have hroots := Sys.roots_fill hprocs hr0 (by simpa using hr)
          have hheld := Sys.held_fill hprocs hkbufs hf0 (by simpa using htf)
          rw [Proc.allocated_pagetable] at hroots
          rw [Proc.allocated_trapframe] at hheld
          have hedits : Edits s.view (kernelMaps r tf) s'.view := by
            rw [Sys.view, Sys.view, hk, hroots, ← hd₁.view_eq]; exact hd₂.edits
          have hpte := hedits.kernelMaps_pte (view_pte_not_root hroot)
          refine h.update hprocs hkbufs ?_ hedits ?_ (Or.inr (by simpa using hroot))
            (Or.inr (by simpa using hnew)) (Entry.of_image (by simp) ?_) fun e he p' _ h0 hpl => ?_
          · rw [hk, hroots, hheld]; exact hd.ok
          · rw [hk, hroots]; exact hd.keeps
          · constructor <;> simp only [Proc.allocated_pagetable, Proc.allocated_trapframe,
              Proc.allocated_sz, hsz0, hpte]
            · exact hr
            · exact htf
            · exact Nat.zero_le _
            · intro v _ hv
              rw [if_neg (by omega), if_neg (by omega)]
            · rw [if_pos trivial]
            · rw [if_neg (by omega), if_pos trivial]
          · rw [(place_kernelMaps he).1] at hpl
            exact absurd (Sys.mem_roots.mpr ⟨hr, p', hpl.symm⟩) hroot
        exact ⟨some p, _, rfl, Or.inr ⟨p, r, tf, s.nextpid, rfl, hu, hroot, hnew,
          Function.update_idem _ _ _, rfl, rfl, key _ s.nextpid rfl (Function.update_idem _ _ _) rfl⟩⟩

/-! ## kfork -/

section copy
variable {np : Fin nproc} (h : s.Inv) (hl : (s.procs p).state ≠ .unused)
  (hn : (s.procs np).state ≠ .unused) (hpn : p ≠ np) (hsz : (s.procs np).sz = 0)
include h hl hpn

theorem Sys.Inv.table_ne : (s.procs p).pagetable ≠ (s.procs np).pagetable := fun he =>
  hpn (h.tables p np he (h.live hl).root)

/-- What `uvmcopy` does to a table concerns a page of its process. -/
theorem Sys.Inv.copy_place {e : Edit}
    (he : (∃ v < pgRoundUp (s.procs p).sz / pgSize, e = .cow (s.procs p).pagetable v) ∨
      e.place.1 = (s.procs np).pagetable) (p' : Fin nproc) (hp' : p' ≠ np)
    (h0 : (s.procs p').pagetable ≠ 0) (hpl : e.place.1 = (s.procs p').pagetable) :
    e.place.2 < pgRoundUp (s.procs p').sz / pgSize := by
  rcases he with ⟨v, hv, rfl⟩ | he
  · obtain rfl := h.tables p' p hpl.symm h0
    exact hv
  · exact absurd (h.tables p' np (hpl.symm.trans he) h0) hp'

include hn hsz

omit hl hpn in
theorem Sys.Inv.new_empty {v : Nat} (hv : v < userVpn) : s.view.pte (s.procs np).pagetable v = 0 :=
  (h.live hn).above v (by rw [hsz]; exact Nat.zero_le v) hv

/-- `uvmcopy` has failed. -/
theorem Sys.Inv.copyFailed {m : Nat} {k' : Kmem} (hm : m < pgRoundUp (s.procs p).sz / pgSize)
    (hd : Does (s.procs np).pagetable s.kmem s.roots s.held
      (copyUndone (s.procs p).pagetable (s.procs np).pagetable m) k' s.roots s.held) :
    s.Moves (s.procs np).pagetable (copyUndone (s.procs p).pagetable (s.procs np).pagetable m)
      { s with kmem := k' } := by
  have hne := h.table_ne hl hpn
  have hedits : Edits s.view _ (MiniOS.view k' s.roots) := hd.edits
  refine h.update (p := np) (Function.update_eq_self np _).symm rfl hd.ok hedits hd.keeps
    (Or.inl rfl) (Or.inl rfl) ((h.entry np).congr fun _ v _ => ?_) fun e he => h.copy_place hl hpn ?_
  · by_cases hv : v < userVpn
    · rw [h.new_empty hn hsz hv]
      exact hedits.copyUndone_pte (view_clean _ _) hne (h.new_empty hn hsz hv)
    · refine hedits.pte_of_ne fun e he hc => ?_
      have := (h.live hl).pages_le
      rcases mem_copyUndone he with ⟨w, hw, rfl⟩ | ⟨-, hw⟩
      · exact hne (congrArg Prod.fst hc)
      · rw [hc] at hw
        simp only at hw; omega
  · rcases mem_copyUndone he with ⟨w, hw, rfl⟩ | ⟨hw, -⟩
    · exact Or.inl ⟨w, by omega, rfl⟩
    · exact Or.inr hw

/-- `uvmcopy` has succeeded, and the child takes over the size of the parent. -/
theorem Sys.Inv.copied {k' : Kmem} {held : Finset Nat} {s' : Sys} (hk : s'.kmem = k')
    (hprocs : s'.procs = Function.update s.procs np ((s.procs np).forked (s.procs p) p))
    (hkbufs : s'.kbufs = s.kbufs)
    (hd : Does (s.procs np).pagetable s.kmem s.roots held
      (copies (s.procs p).pagetable (s.procs np).pagetable 0 (pgRoundUp (s.procs p).sz / pgSize))
      k' s.roots s.held) :
    s.Moves (s.procs np).pagetable
      (copies (s.procs p).pagetable (s.procs np).pagetable 0 (pgRoundUp (s.procs p).sz / pgSize)) s' := by
  have hne := h.table_ne hl hpn
  have hroots : s'.roots = s.roots := Sys.roots_same hprocs rfl
  have hedits : Edits s.view (copies (s.procs p).pagetable (s.procs np).pagetable 0
      (pgRoundUp (s.procs p).sz / pgSize)) s'.view := by
    rw [Sys.view, Sys.view, hk, hroots]; exact hd.edits
  have hhigh : ∀ v, pgRoundUp (s.procs p).sz / pgSize ≤ v →
      s'.view.pte (s.procs np).pagetable v = s.view.pte (s.procs np).pagetable v := fun v hv =>
    hedits.pte_of_ne fun e he hc => by
      obtain ⟨w, -, hw, rfl | rfl⟩ := mem_copies he
      · exact hne (congrArg Prod.fst hc)
      · have := congrArg Prod.snd hc
        simp only [Edit.place] at this; omega
  have hpages := (h.live hl).pages_le
  refine h.update (p := np) hprocs hkbufs ?_ hedits ?_ (Or.inl rfl) (Or.inl rfl)
    (Entry.of_image (by simp) ?_) fun e he => h.copy_place hl hpn ?_
  · rw [hk, hroots, Sys.held_same hprocs hkbufs rfl]; exact hd.ok
  · rw [hk, hroots]; exact hd.keeps
  · constructor <;> simp only [Proc.forked_pagetable, Proc.forked_trapframe, Proc.forked_sz]
    · exact (h.live hn).root
    · exact (h.live hn).frame
    · exact (h.live hl).size
    · exact fun v hlo hhi => (hhigh v hlo).trans (h.new_empty hn hsz hhi)
    · rw [hhigh _ hpages, (h.live hn).trapframe]
    · rw [hhigh _ (Nat.le_succ_of_le hpages), (h.live hn).trampoline]
  · obtain ⟨w, -, hw, rfl | rfl⟩ := mem_copies he
    · exact Or.inl ⟨w, by omega, rfl⟩
    · exact Or.inr rfl

end copy

/-- The child's trapframe page. -/
def childFrame (old new : Page) : Page := Function.update (copyTrapframe old new) tfA0 0

/-- `kfork` of a live process: it fails, and what it has done is undone but
for pages of the parent that stay write-protected; or it makes a child. -/
theorem Sys.Inv.kfork (h : s.Inv) (hl : (s.procs p).state ≠ .unused) :
    Returns (kfork p) s fun res s' =>
      (res = none ∧ s.SameLive s' ∧ ∃ r es, r ∉ s.roots ∧ (∀ e ∈ es, Edit.Aside r e) ∧
        s.Moves 0 es s') ∨
      ∃ np r tf pid, res = some np ∧ (s.procs np).state = .unused ∧ r ∉ s.roots ∧ tf ∉ s.held ∧
        s'.procs = Function.update s.procs np
          (((s.procs np).allocated pid tf r).forked (s.procs p) p) ∧
        s'.initproc = s.initproc ∧ s'.kbufs = s.kbufs ∧
        s.Moves 0 (kernelMaps r tf ++
          copies (s.procs p).pagetable r 0 (pgRoundUp (s.procs p).sz / pgSize)) s' := by
  refine (h.allocproc 0).bind ?_
  rintro res s₁ (⟨rfl, hm, hsame⟩ | ⟨np, r, tf, pid, rfl, hu, hroot, htf, hprocs, hinit, hkbufs, hm⟩)
  · exact returns_pure (Or.inl ⟨rfl, hsame, 0, [], zero_not_mem_roots, nofun, hm⟩)
  have hpn : p ≠ np := by rintro rfl; exact hl hu
  have hp₁ : s₁.procs p = s.procs p := by rw [hprocs, Function.update_of_ne hpn]
  have hnp₁ : s₁.procs np = (s.procs np).allocated pid tf r := by rw [hprocs, Function.update_self]
  have hl₁ : (s₁.procs p).state ≠ .unused := by rw [hp₁]; exact hl
  have hn₁ : (s₁.procs np).state ≠ .unused := by rw [hnp₁]; simp
  have hsz : (s₁.procs np).sz = 0 := by
    rw [hnp₁, Proc.allocated_sz, ((h.entry np).idle hu).2.2]
  have him := hm.inv.live hl₁
  have himn := hm.inv.live hn₁
  refine returns_bind rfl (returns_bind rfl ?_)
  refine Returns.bindK (hm.inv.ok.uvmcopy him.mem_roots himn.mem_roots
    (hm.inv.table_ne hl₁ hpn) him.size fun v hv =>
      hm.inv.new_empty hn₁ hsz (Nat.lt_of_lt_of_le hv him.pages_le)) ?_
  rintro ok k₂ ⟨hok, hfail⟩
  cases ok with
  | true =>
    have hd := hok rfl
    have hd' := hd.writeHeld himn.mem_held
      (childFrame (k₂.mem (s₁.procs p).trapframe) (k₂.mem (s₁.procs np).trapframe))
    have hframe : setWord (Function.update k₂.mem (s₁.procs np).trapframe (copyTrapframe
          (k₂.mem (s₁.procs p).trapframe) (k₂.mem (s₁.procs np).trapframe)))
        (s₁.procs np).trapframe tfA0 0 = Function.update k₂.mem (s₁.procs np).trapframe
          (childFrame (k₂.mem (s₁.procs p).trapframe) (k₂.mem (s₁.procs np).trapframe)) := by
      rw [setWord, Function.update_idem, Function.update_self]; rfl
    rw [← hframe] at hd'
    obtain ⟨s', hs'⟩ : ∃ s' : Sys, s' = { s₁ with
      kmem := { k₂ with
        mem := setWord (Function.update k₂.mem (s₁.procs np).trapframe (copyTrapframe
          (k₂.mem (s₁.procs p).trapframe) (k₂.mem (s₁.procs np).trapframe)))
          (s₁.procs np).trapframe tfA0 0 }
      procs := Function.update s₁.procs np ((s₁.procs np).forked (s₁.procs p) p) } := ⟨_, rfl⟩
    have hprocs' : s'.procs = Function.update s₁.procs np ((s₁.procs np).forked (s₁.procs p) p) := by
      rw [hs']
    have hmv := (hm.of_new zero_not_mem_roots).trans
      (hm.inv.copied hl₁ hn₁ hpn hsz (by rw [hs']) hprocs' (by rw [hs']) hd')
    rw [hp₁, hnp₁, hprocs, Function.update_idem] at hprocs'
    rw [hp₁, hnp₁, Proc.allocated_pagetable] at hmv
    exact ⟨some np, s', by rw [hs']; rfl, Or.inr ⟨np, r, tf, pid, rfl, hu, hroot, htf, hprocs',
      by rw [hs']; exact hinit, by rw [hs']; exact hkbufs, hmv.of_new hroot⟩⟩
  | false =>
    obtain ⟨m, hlt, hd⟩ := hfail rfl
    have hmv := hm.inv.copyFailed hl₁ hn₁ hpn hsz hlt hd
    refine (hmv.inv.freeproc (p := np) hn₁).bind ?_
    rintro _ s₃ ⟨hm₃, hprocs₃, hinit₃, hkbufs₃⟩
    have hmv' := hmv.trans hm₃
    rw [hnp₁, Proc.allocated_pagetable] at hmv'
    refine returns_pure (Or.inl ⟨rfl, ?_, r, _, hroot, fun e he => ?_,
      ((hm.of_new zero_not_mem_roots).trans hmv').of_new hroot⟩)
    · have hprocs₄ : s₃.procs = Function.update s.procs np (s₁.procs np).freed := by
        rw [hprocs₃]
        simp only [hprocs, Function.update_idem]
      exact Sys.SameLive.of_unused (hinit₃.trans hinit) (hkbufs₃.trans hkbufs) hprocs₄ hu rfl
    · rcases List.mem_append.mp he with he | he
      · exact Or.inl (place_kernelMaps he).1
      · rcases List.mem_append.mp he with he | he
        · exact aside_copyUndone he
        · exact Or.inl (place_freed he)

end

end MiniOS
