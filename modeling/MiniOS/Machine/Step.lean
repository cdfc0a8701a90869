import MiniOS.Machine
import MiniOS.Kernel.User
import MiniOS.Exec.Kexec
import MiniOS.Compact.Spec

/-!
# MiniOS.Machine.Step

What an operation can come to.  `Effect s op out es s'` lists, for every
operation and every outcome of it, the edits that the processes see and what
becomes of the process table; `Sys.Inv.perform` says that there is nothing
else, and that an operation panics only when init ends or there is no memory
for the first process.
-/

namespace MiniOS

open Total

theorem live_of_runnable {proc : Proc} (h : proc.state = .runnable) : proc.state ≠ .unused := by
  rw [h]
  decide

section
variable [KernelImage]

/-- The user page `va` of process `p` is faulted in by the edit `e`. -/
def Faults (s : Sys) (p : Fin nproc) (va : Nat) (e : Edit) : Prop :=
  va < (s.procs p).sz ∧ IsFault (s.procs p).pagetable (va / pgSize) e

/-- What operation `op` in the state `s` can come to: its outcome, its edits, and the state it leaves. -/
inductive Effect (s : Sys) : Op → Outcome → List Edit → Sys → Prop
  /-- nothing happens -/
  | idle (op : Op) : Effect s op .quiet [] s
  | userinit (np : Fin nproc) (r tf pid : Nat) (s' : Sys) (hu : (s.procs np).state = .unused)
      (hr : r ∉ s.roots) (htf : tf ∉ s.held)
      (hprocs : s'.procs = Function.update s.procs np
        { (s.procs np).allocated pid tf r with state := .runnable })
      (hinit : s'.initproc = some np) (hkbufs : s'.kbufs = s.kbufs) :
      Effect s .userinit .quiet (kernelMaps r tf) s'
  | forkFailed (p : Fin nproc) (r : Nat) (es : List Edit) (s' : Sys) (hp : (s.procs p).state = .runnable)
      (hsame : s.SameLive s')
      (hr : r ∉ s.roots) (hes : ∀ e ∈ es, e.Aside r) : Effect s (.fork p) (.forked none) es s'
  | forked (p np : Fin nproc) (r tf pid : Nat) (s' : Sys) (hp : (s.procs p).state = .runnable)
      (hu : (s.procs np).state = .unused)
      (hr : r ∉ s.roots) (htf : tf ∉ s.held)
      (hprocs : s'.procs = Function.update s.procs np (((s.procs np).allocated pid tf r).forked (s.procs p) p))
      (hinit : s'.initproc = s.initproc) (hkbufs : s'.kbufs = s.kbufs) :
      Effect s (.fork p) (.forked (some np)) (kernelMaps r tf ++
        copies (s.procs p).pagetable r 0 (pgRoundUp (s.procs p).sz / pgSize)) s'
  | execFailed (p : Fin nproc) (file : List Byte) (argv : List (List Byte)) (r : Nat) (es : List Edit) (s' : Sys)
      (hp : (s.procs p).state = .runnable) (hundone : s.Undone s') (hr : r ∉ s.roots) (hes : ∀ e ∈ es, e.place.1 = r) :
      Effect s (.exec p file argv) (.execed none) es s'
  | execed (p : Fin nproc) (file : List Byte) (argv : List (List Byte)) (r sz sp : Nat) (es : List Edit) (s' : Sys)
      (hp : (s.procs p).state = .runnable) (hexec : s.Executed p file argv r sz sp s')
      (hes : ExecEdits r (s.procs p).trapframe (s.procs p).pagetable (s.procs p).sz es) :
      Effect s (.exec p file argv) (.execed (some argv.length)) es s'
  | sbrk (p : Fin nproc) (n : BitVec 32) (eager : Bool) (old : Option Nat) (sz : Nat) (es : List Edit) (s' : Sys)
      (hp : (s.procs p).state = .runnable) (hsized : s.Resized p sz s') (hes : ∀ e ∈ es, e.Sizing (s.procs p).pagetable) :
      Effect s (.sbrk p n eager) (.grown old) es s'
  | loaded (p : Fin nproc) (va : Nat) (hp : (s.procs p).state = .runnable) :
      Effect s (.load p va) (.accessed (.done (s.view.byte (s.procs p).pagetable va))) [] s
  | stored (p : Fin nproc) (va : Nat) (b : Byte) (s' : Sys) (hp : (s.procs p).state = .runnable)
      (hsame : s' = { s with kmem := s'.kmem }) (hv : va / pgSize < userVpn) :
      Effect s (.store p va b) (.accessed (.done b)) [.write (s.procs p).pagetable (va / pgSize)
        (pageWrite (s.view.sees (s.procs p).pagetable (va / pgSize)) (va % pgSize) [b])] s'
  /-- a load or a store has taken a fault -/
  | faulted (op : Op) (p : Fin nproc) (va : Nat) (e : Edit) (s' : Sys) (hp : (s.procs p).state = .runnable)
      (hop : op = .load p va ∨ ∃ b, op = .store p va b) (hsame : s' = { s with kmem := s'.kmem })
      (he : Faults s p va e) : Effect s op (.accessed .faulted) [e] s'
  /-- a process has ended -/
  | ended (op : Op) (out : Outcome) (p : Fin nproc) (s' : Sys) (hp : (s.procs p).state = .runnable)
      (hop : ((∃ va, op = .load p va) ∨ (∃ va b, op = .store p va b)) ∧ out = .accessed .killed ∨
        (∃ status, op = .exit p status) ∧ out = .quiet)
      (hsame : s.SameImages s') : Effect s op out [] s'
  | copiedIn (p : Fin nproc) (srcva len : Nat) (bs : Option (List Byte)) (es : List Edit) (s' : Sys)
      (hp : (s.procs p).state = .runnable) (hsame : s' = { s with kmem := s'.kmem })
      (hes : ∀ e ∈ es, ∃ v, IsFault (s.procs p).pagetable v e ∧
        userPa (s.view.pte (s.procs p).pagetable v) = 0) :
      Effect s (.copyin p srcva len) (.copiedIn bs) es s'
  | copiedOut (p : Fin nproc) (dstva : Nat) (src : List Byte) (ok : Bool) (n : Nat) (es : List Edit) (s' : Sys)
      (hp : (s.procs p).state = .runnable) (hcopied : s.Copied p dstva src n es s') :
      Effect s (.copyout p dstva src) (.copiedOut ok n) es s'
  /-- `kwait` has found no child -/
  | waitNone (p : Fin nproc) (addr : Nat) (hp : (s.procs p).state = .runnable) :
      Effect s (.wait p addr) (.waited none 0) [] s
  /-- `kwait` could not copy the status out -/
  | waitFailed (p pp : Fin nproc) (addr n : Nat) (es : List Edit) (s' : Sys) (hp : (s.procs p).state = .runnable)
      (hcopied : s.Copied p addr (intBytes (s.procs pp).xstate) n es s') :
      Effect s (.wait p addr) (.waited none n) es s'
  | waited (p pp : Fin nproc) (addr n : Nat) (es : List Edit) (s₁ s' : Sys)
      (hp : (s.procs p).state = .runnable) (hz : (s.procs pp).state = .zombie)
      (hcopied : s.Copied p addr (intBytes (s.procs pp).xstate) n es s₁)
      (hfreed : Edits s₁.view (freed (s.procs pp).pagetable (s.procs pp).sz) s'.view)
      (hprocs : s'.procs = Function.update s.procs pp (s.procs pp).freed)
      (hinit : s'.initproc = s.initproc) (hkbufs : s'.kbufs = s.kbufs) :
      Effect s (.wait p addr) (.waited (some pp) n)
        (es ++ freed (s.procs pp).pagetable (s.procs pp).sz) s'
  /-- the rest of the kernel -/
  | kbuf (op : Op) (s' : Sys) (hop : op = .kbufAlloc ∨ (∃ pa page, op = .kbufWrite pa page) ∨ ∃ pa, op = .kbufFree pa)
      (hprocs : s'.procs = s.procs) (hinit : s'.initproc = s.initproc) : Effect s op .quiet [] s'

/-- When an operation panics: init ends, or there is no memory for it. -/
def Op.Panics (s : Sys) : Op → Prop
  | .userinit => s.initproc = none ∧ ∃ s', allocproc s = some (none, s')
  | .load p _ | .store p _ _ | .exit p _ => s.initproc = some p
  | _ => False

/-- What every operation does, with the invariant. -/
def Performs (s : Sys) (op : Op) (out : Outcome) (s' : Sys) : Prop :=
  ∃ es, s'.Inv ∧ Edits s.view es s'.view ∧ Effect s op out es s'

variable {s : Sys}

/-- An operation that is not allowed changes nothing. -/
theorem Sys.Inv.idle (h : s.Inv) (op : Op) : Performs s op .quiet s := ⟨[], h, Edits.nil _, .idle op⟩

theorem Sys.Inv.byProc (h : s.Inv) {P : Prop} {p : Fin nproc} {op : Op} {f : Proc → S Outcome}
    (hf : (s.procs p).state = .runnable → Unless P (f (s.procs p)) s (Performs s op)) :
    Unless P (byProc p f) s (Performs s op) := by
  by_cases hp : (s.procs p).state = .runnable
  · have heq : MiniOS.byProc p f s = f (s.procs p) s := if_pos hp
    obtain ⟨h1, h2⟩ := hf hp
    exact ⟨fun hn => h1 (heq ▸ hn), fun a s' hs => h2 a s' (heq ▸ hs)⟩
  · exact Returns.unless ⟨.quiet, s, if_neg hp, h.idle op⟩

/-- An access of user code, given what it comes to. -/
theorem performs_access {p : Fin nproc} {op : Op} {va : Nat} {f : S Access}
    {Q : Access → Sys → Prop} (hp : (s.procs p).state = .runnable)
    (hop : op = .load p va ∨ ∃ b, op = .store p va b)
    (hf : Unless (s.initproc = some p) f s fun a s' => Q a s' ∨
      (a = .faulted ∧ ∃ e, va < (s.procs p).sz ∧ IsFault (s.procs p).pagetable (va / pgSize) e ∧
        s' = { s with kmem := s'.kmem } ∧ s.Moves (s.procs p).pagetable [e] s') ∨
      (a = .killed ∧ s.SameImages s' ∧ s.Moves (s.procs p).pagetable [] s'))
    (hdone : ∀ a s', Q a s' → Performs s op (.accessed a) s') :
    Unless (s.initproc = some p) (do return .accessed (← f)) s (Performs s op) := by
  refine hf.bind fun a s' hres => unless_pure ?_
  rcases hres with hq | ⟨rfl, e, hlt, he, hsame, hm⟩ | ⟨rfl, hsame, hm⟩
  · exact hdone a s' hq
  · exact ⟨[e], hm.inv, hm.edits, .faulted op p va e s' hp hop hsame ⟨hlt, he⟩⟩
  · refine ⟨[], hm.inv, hm.edits, .ended op _ p s' hp (Or.inl ⟨?_, rfl⟩) hsame⟩
    rcases hop with rfl | ⟨b, rfl⟩
    · exact Or.inl ⟨va, rfl⟩
    · exact Or.inr ⟨va, b, rfl⟩

/-- The invariant does not depend on what is in the buffers of the kernel. -/
theorem Sys.Inv.performs_kbuf (h : s.Inv) {op : Op} {k' : Kmem} {kbufs : Finset Nat}
    (hop : op = .kbufAlloc ∨ (∃ pa page, op = .kbufWrite pa page) ∨ ∃ pa, op = .kbufFree pa)
    (hok : Ok k' s.roots (Slots.named s.procs.trapframes ∪ kbufs))
    (hview : MiniOS.view k' s.roots = s.view) (hkbufs : ∀ p, (s.procs p).trapframe ∉ kbufs) :
    Performs s op .quiet { s with kmem := k', kbufs := kbufs } := by
  have hv : Sys.view { s with kmem := k', kbufs := kbufs } = s.view := hview
  refine ⟨[], ⟨hok, h.tables, h.frames, hkbufs, ?_, ?_⟩, ?_, .kbuf op _ hop rfl rfl⟩
  · rw [hv]
    exact h.excl
  · rw [hv]
    exact h.entry
  · rw [hv]
    exact Edits.nil _

/-- Every operation returns unless it panics, and does what `Effect` says. -/
theorem Sys.Inv.perform (h : s.Inv) (op : Op) : Unless (op.Panics s) op.perform s (Performs s op) := by
  cases op with
  | userinit =>
    by_cases hinit : s.initproc = none
    · have heq : Op.perform .userinit s = (MiniOS.userinit s).map fun r => (.quiet, r.2) := if_pos hinit
      refine ⟨fun hn => ⟨hinit, h.userinit.1 ?_⟩, fun out s' hs => ?_⟩
      · rwa [heq, Option.map_eq_none_iff] at hn
      · rw [heq, Option.map_eq_some_iff] at hs
        obtain ⟨⟨u, s₁⟩, hs, hpair⟩ := hs
        cases hpair
        obtain ⟨np, r, tf, pid, hu, hr, htf, hprocs, hnp, hkbufs, hm⟩ := h.userinit.2 u s₁ hs
        exact ⟨_, hm.inv, hm.edits, .userinit np r tf pid s₁ hu hr htf hprocs hnp hkbufs⟩
    · exact Returns.unless ⟨.quiet, s, if_neg hinit, h.idle _⟩
  | fork p =>
    rw [Op.perform]
    refine h.byProc fun hp => Returns.unless ?_
    refine (h.kfork (live_of_runnable hp)).bind fun res s' hres => returns_pure ?_
    rcases hres with ⟨rfl, hsame, r, es, hr, hes, hm⟩ | ⟨np, r, tf, pid, rfl, hu, hr, htf, hprocs, hinit, hkbufs, hm⟩
    · exact ⟨es, hm.inv, hm.edits, .forkFailed p r es s' hp hsame hr hes⟩
    · exact ⟨_, hm.inv, hm.edits, .forked p np r tf pid s' hp hu hr htf hprocs hinit hkbufs⟩
  | exec p file argv =>
    rw [Op.perform]
    refine h.byProc fun hp => Returns.unless ?_
    refine (h.kexec (live_of_runnable hp) file argv).bind fun res s' hres => returns_pure ?_
    obtain ⟨-, hnone, hsome⟩ := hres
    cases res with
    | none =>
      have hundone := hnone rfl
      obtain ⟨r, es, hr, hes, hm⟩ := hundone.moves
      exact ⟨es, hm.inv, hm.edits, .execFailed p file argv r es s' hp hundone hr hes⟩
    | some argc =>
      obtain ⟨rfl, r, sz, sp, hexec⟩ := hsome argc rfl
      obtain ⟨es, hes, hm⟩ := hexec.moves
      exact ⟨es, hm.inv, hm.edits, .execed p file argv r sz sp es s' hp hexec hes⟩
  | sbrk p n eager =>
    rw [Op.perform]
    refine h.byProc fun hp => Returns.unless ?_
    refine (h.sysSbrk (live_of_runnable hp) n eager).bind fun old s' hres => returns_pure ?_
    obtain ⟨sz, hsized, -⟩ := hres
    obtain ⟨es, hm, hes⟩ := hsized.moves
    exact ⟨es, hm.inv, hm.edits, .sbrk p n eager old sz es s' hp hsized hes⟩
  | load p va =>
    rw [Op.perform, Op.Panics]
    refine h.byProc fun hp => ?_
    refine performs_access hp (Or.inl rfl) (h.userLoad (live_of_runnable hp) va) ?_
    rintro a s' ⟨rfl, rfl⟩
    exact ⟨[], h, Edits.nil _, .loaded p va hp⟩
  | store p va b =>
    rw [Op.perform, Op.Panics]
    refine h.byProc fun hp => ?_
    refine performs_access hp (Or.inr ⟨b, rfl⟩) (h.userStore (live_of_runnable hp) va b) ?_
    rintro a s' ⟨rfl, hsame, hv, hm⟩
    exact ⟨_, hm.inv, hm.edits, .stored p va b s' hp hsame hv⟩
  | copyin p srcva len =>
    rw [Op.perform]
    refine h.byProc fun hp => Returns.unless ?_
    refine Returns.bindK (h.copyin (live_of_runnable hp) srcva len) ?_
    rintro bs k' ⟨-, es, hm, hes⟩
    exact returns_pure ⟨es, hm.inv, hm.edits, .copiedIn p srcva len bs es _ hp rfl hes⟩
  | copyout p dstva src =>
    rw [Op.perform]
    refine h.byProc fun hp => Returns.unless ?_
    refine Returns.bindK (h.copiedOut (live_of_runnable hp) dstva src) ?_
    rintro ⟨ok, n⟩ k' ⟨es, hc⟩
    exact returns_pure ⟨es, hc.moves.inv, hc.moves.edits, .copiedOut p dstva src ok n es _ hp hc⟩
  | exit p status =>
    rw [Op.perform, Op.Panics]
    refine h.byProc fun hp => ?_
    refine (kexit_spec (live_of_runnable hp) status).bind ?_
    rintro _ s' ⟨hk, -, hsame⟩
    have hm := h.congr (ρ := 0) hk hsame.kbufs hsame.image
    exact unless_pure ⟨[], hm.inv, hm.edits, .ended _ _ p s' hp (Or.inr ⟨⟨status, rfl⟩, rfl⟩) hsame⟩
  | wait p addr =>
    rw [Op.perform]
    refine h.byProc fun hp => Returns.unless ?_
    refine (h.kwait (live_of_runnable hp) addr).bind ?_
    rintro ⟨child, n⟩ s' (⟨hres, rfl⟩ | ⟨pp, s₁, es, hz, -, hc, ⟨rfl, rfl⟩ | ⟨rfl, hm, hprocs, hinit, hkbufs⟩⟩)
    · cases hres
      exact returns_pure ⟨[], h, Edits.nil _, .waitNone p addr hp⟩
    · exact returns_pure ⟨es, hc.moves.inv, hc.moves.edits, .waitFailed p pp addr n es _ hp hc⟩
    · exact returns_pure ⟨_, hm.inv, hc.moves.edits.append hm.edits,
        .waited p pp addr n es s₁ s' hp hz hc hm.edits hprocs hinit hkbufs⟩
  | compact =>
    rw [Op.perform]
    refine Returns.unless (returns_bind (a := ()) (t := s) ?_ (returns_pure (h.idle _)))
    rw [liftK, h.ok.compactMemory]
    rfl
  | kbufAlloc =>
    rw [Op.perform]
    refine Returns.unless (Returns.bindK h.ok.kallocK ?_)
    rintro pa k' (⟨rfl, rfl, -⟩ | ⟨hpa, hnew, -, hd, -⟩)
    · exact returns_pure (h.idle _)
    · rw [if_neg hpa]
      refine ⟨.quiet, _, rfl, h.performs_kbuf (Or.inl rfl) ?_ (hd 0).view_eq fun p hmem => ?_⟩
      · rw [Finset.union_insert]
        exact (hd 0).ok
      · rcases Finset.mem_insert.mp hmem with rfl | hmem
        · exact hnew (Finset.mem_union_left _ (Slots.mem_named.mpr ⟨hpa, p, rfl⟩))
        · exact h.kbufs p hmem
  | kbufWrite pa page =>
    by_cases hpa : pa ∈ s.kbufs
    · have hd := h.ok.writeHeld (ρ := 0) (Finset.mem_union_right _ hpa) page
      refine Returns.unless ⟨.quiet, _, if_pos hpa, ?_⟩
      exact h.performs_kbuf (Or.inr (Or.inl ⟨pa, page, rfl⟩)) hd.ok hd.view_eq h.kbufs
    · exact Returns.unless ⟨.quiet, s, if_neg hpa, h.idle _⟩
  | kbufFree pa =>
    by_cases hpa : pa ∈ s.kbufs
    · obtain ⟨u, k', hk, hd, -⟩ := h.ok.kfreeK 0 (Finset.mem_union_right _ hpa)
      have heq : Op.perform (.kbufFree pa) s = some (.quiet, { s with kmem := k', kbufs := s.kbufs.erase pa }) := by
        refine (if_pos hpa).trans ?_
        rw [liftK, hk]
        rfl
      refine Returns.unless ⟨.quiet, _, heq, ?_⟩
      refine h.performs_kbuf (Or.inr (Or.inr ⟨pa, rfl⟩)) ?_ hd.view_eq fun p hmem =>
        h.kbufs p (Finset.mem_of_mem_erase hmem)
      have hframe : pa ∉ Slots.named s.procs.trapframes := fun hmem => by
        obtain ⟨-, p, rfl⟩ := Slots.mem_named.mp hmem
        exact h.kbufs p hpa
      rw [← Finset.erase_eq_of_notMem hframe, ← Finset.erase_union_distrib]
      exact hd.ok
    · exact Returns.unless ⟨.quiet, s, if_neg hpa, h.idle _⟩

end

end MiniOS
