import MiniOS.Kernel.Memory

/-!
# MiniOS.Kernel.User

What user code and the copies of system calls do to the memory of a process:
loads and stores with the faults they take, `copyin` and `copyout`, and the end
of a process.  No other process sees any of it.
-/

namespace MiniOS

open Total

/-- The images of all processes are as they were, whatever happened to their scheduling. -/
structure Sys.SameImages (s s' : Sys) : Prop where
  kbufs : s'.kbufs = s.kbufs
  initproc : s'.initproc = s.initproc
  image : ∀ p, (s'.procs p).pagetable = (s.procs p).pagetable ∧
    (s'.procs p).trapframe = (s.procs p).trapframe ∧ (s'.procs p).sz = (s.procs p).sz ∧
    ((s'.procs p).state = .unused ↔ (s.procs p).state = .unused)

theorem IsFault.place {r v : Nat} {e : Edit} (h : IsFault r v e) : e.place = (r, v) := by
  cases h <;> rfl

section
variable [KernelImage] {s : Sys} {p : Fin nproc} {k' : Kmem}

/-! ## faults -/

/-- A mapped page lies below the size. -/
theorem Image.below (h : Image s.view (s.procs p)) {v : Nat} (hv : v < userVpn)
    (hV : has (s.view.pte (s.procs p).pagetable v) pteV) : v < pgRoundUp (s.procs p).sz / pgSize := by
  by_contra hlo
  rw [h.above v (by omega) hv] at hV
  exact absurd hV (by simp)

/-- So does a page that is open to user code. -/
theorem Image.mapped (h : Image s.view (s.procs p)) {v : Nat}
    (hpa : userPa (s.view.pte (s.procs p).pagetable v) ≠ 0) :
    v < userVpn ∧ v < pgRoundUp (s.procs p).sz / pgSize := by
  have hVU : (has (s.view.pte (s.procs p).pagetable v) pteV && has (s.view.pte (s.procs p).pagetable v) pteU) = true := by
    by_contra hc
    exact hpa (if_neg hc)
  rw [Bool.and_eq_true] at hVU
  have hv : v < userVpn := by
    by_contra hv
    rw [h.no_user v (by omega)] at hVU
    exact absurd hVU.2 (by simp)
  exact ⟨hv, h.below hv hVU.1⟩

section
variable (h : s.Inv) (hl : (s.procs p).state ≠ .unused)
include h hl

/-- Edits of pages below the size of a process. -/
theorem Sys.Inv.moves_below {es : List Edit}
    (hd : Does (s.procs p).pagetable s.kmem s.roots s.held es k' s.roots s.held)
    (hes : ∀ e ∈ es, e.place.1 = (s.procs p).pagetable ∧ e.place.2 < pgRoundUp (s.procs p).sz / pgSize) :
    s.Moves (s.procs p).pagetable es { s with kmem := k' } :=
  h.updateMem hd fun e he => ⟨p, (hes e he).1, (hes e he).1 ▸ (h.live hl).root, (hes e he).2⟩

end

/-! ## the end of a process -/

section
omit [KernelImage]

theorem Sys.SameImages.trans {s₁ s₂ : Sys} (h : s.SameImages s₁) (h' : s₁.SameImages s₂) : s.SameImages s₂ := by
  refine ⟨h'.kbufs.trans h.kbufs, h'.initproc.trans h.initproc, fun q => ?_⟩
  obtain ⟨h1, h2, h3, h4⟩ := h.image q
  obtain ⟨h1', h2', h3', h4'⟩ := h'.image q
  exact ⟨h1'.trans h1, h2'.trans h2, h3'.trans h3, h4'.trans h4⟩

theorem reparent_image (t : Table) (p : Fin nproc) (initproc : Option (Fin nproc)) (q : Fin nproc) :
    (reparent t p initproc q).pagetable = (t q).pagetable ∧ (reparent t p initproc q).trapframe = (t q).trapframe ∧
    (reparent t p initproc q).sz = (t q).sz ∧ (reparent t p initproc q).state = (t q).state := by
  rw [reparent]
  split <;> exact ⟨rfl, rfl, rfl, rfl⟩

/-- `kexit`, which init must not call. -/
theorem kexit_spec {s : Sys} (hl : (s.procs p).state ≠ .unused) (status : BitVec 32) :
    Unless (s.initproc = some p) (kexit p status) s fun _ s' =>
      s'.kmem = s.kmem ∧ s'.nextpid = s.nextpid ∧ s.SameImages s' := by
  by_cases hinit : s.initproc = some p
  · refine ⟨fun _ => hinit, fun _ _ hk => ?_⟩
    rw [kexit, if_pos hinit] at hk
    cases hk
  · refine Returns.unless ⟨(), _, if_neg hinit, rfl, rfl, rfl, rfl, fun q => ?_⟩
    obtain ⟨h1, h2, h3, h4⟩ := reparent_image s.procs p s.initproc q
    by_cases hq : q = p
    · subst hq
      simp only [Function.update_self]
      exact ⟨h1, h2, h3, iff_of_false (by simp) hl⟩
    · simp only [Function.update_of_ne hq]
      exact ⟨h1, h2, h3, by rw [h4]⟩

theorem killProc_spec {s : Sys} (hl : (s.procs p).state ≠ .unused) :
    Unless (s.initproc = some p) (killProc p) s fun _ s' =>
      s'.kmem = s.kmem ∧ s'.nextpid = s.nextpid ∧ s.SameImages s' := by
  have hset : s.SameImages { s with procs := Function.update s.procs p { s.procs p with killed := true } } := by
    refine ⟨rfl, rfl, fun q => ?_⟩
    by_cases hq : q = p
    · subst hq
      simp
    · simp [hq]
  refine unless_bind (a := s.procs p) (t := s) rfl (unless_bind (a := ()) rfl ?_)
  refine (kexit_spec (by simpa using hl) (-1)).mono id ?_
  rintro _ s' ⟨hk, hpid, hsame⟩
  exact ⟨hk, hpid, hset.trans hsame⟩

end

/-! ## loads and stores -/

section
variable (h : s.Inv) (hl : (s.procs p).state ≠ .unused)
include h hl

/-- A page fault of user code: it is resolved, or the process is killed. -/
theorem Sys.Inv.pageFault (va : Nat) :
    Unless (s.initproc = some p) (pageFault p va) s fun a s' =>
      (a = .faulted ∧ ∃ e, va < (s.procs p).sz ∧ IsFault (s.procs p).pagetable (va / pgSize) e ∧
        s' = { s with kmem := s'.kmem } ∧ s.Moves (s.procs p).pagetable [e] s') ∨
      (a = .killed ∧ s.SameImages s' ∧ s.Moves (s.procs p).pagetable [] s') := by
  have him := h.live hl
  refine unless_bind (a := s.procs p) (t := s) rfl ?_
  obtain ⟨pa, k', hk, hres⟩ := h.ok.vmfault va him.mem_roots him.size
  refine unless_bind (a := pa) (t := { s with kmem := k' }) (by rw [liftK, hk]; rfl) ?_
  rcases hres with ⟨rfl, hd, -⟩ | ⟨hpa, hlt, e, he, hd, -, -⟩
  · rw [if_neg (by simp)]
    have hm : s.Moves (s.procs p).pagetable [] { s with kmem := k' } := h.moves_below hl hd (by simp)
    refine Unless.bind (killProc_spec hl) ?_
    rintro _ s' ⟨hk', -, hsame⟩
    refine unless_pure (Or.inr ⟨rfl, ?_, hm.trans (hm.inv.congr hk' hsame.kbufs hsame.image)⟩)
    exact ⟨hsame.kbufs, hsame.initproc, hsame.image⟩
  · rw [if_pos hpa]
    refine unless_pure (Or.inl ⟨rfl, e, hlt, he, rfl, h.moves_below hl hd fun e' he' => ?_⟩)
    rw [List.mem_singleton.mp he', he.place]
    refine ⟨rfl, (lt_pgRoundUp_iff _ _).mp ?_⟩
    exact Nat.lt_of_le_of_lt (Nat.div_mul_le_self va pgSize) hlt

omit [KernelImage] h hl in
/-- The entry that the hardware finds. -/
theorem hardwarePte_eq {k : Kmem} {roots : Finset Nat} {r : Nat} (hr : r ∈ roots) (va : Nat) :
    ∃ w, hardwarePte r va k = some (w, k) ∧
      (view k roots).pte r (va / pgSize) = if has w pteV then w else 0 := by
  unfold hardwarePte
  by_cases hva : maxVa ≤ va
  · have hvm : ¬ va / pgSize < maxVpn := by simp only [maxVa, maxVpn, pgSize] at *; omega
    exact ⟨0, by rw [if_pos hva]; rfl, by rw [if_neg (by simp)]; exact if_neg fun hc => hvm hc.2⟩
  · have hvm : va / pgSize < maxVpn := by simp only [maxVa, maxVpn, pgSize] at *; omega
    rw [if_neg hva, bind_apply, walk_false (by omega), ← pteSlot_div]
    cases hs : pteSlot k.mem r (va / pgSize * pgSize) with
    | none => exact ⟨0, rfl, by rw [pte_of_no_slot hr hvm hs]; simp⟩
    | some slot => exact ⟨_, rfl, pte_of_slot hr hvm hs⟩

/-- The page of an access that the hardware allows. -/
theorem Sys.Inv.accessed {va : Nat} {w perm : Word}
    (hw : s.view.pte (s.procs p).pagetable (va / pgSize) = if has w pteV then w else 0)
    (hperm : (has w pteV && has w pteU && has w perm) = true) :
    s.view.pte (s.procs p).pagetable (va / pgSize) = w ∧ has w pteV ∧ has w perm ∧ va / pgSize < userVpn ∧
      s.kmem.mem (pte2pa w) = s.view.sees (s.procs p).pagetable (va / pgSize) := by
  have hr := (h.live hl).mem_roots
  simp only [Bool.and_eq_true] at hperm
  obtain ⟨⟨hV, hU⟩, hP⟩ := hperm
  rw [if_pos hV] at hw
  have hv : va / pgSize < userVpn := by
    by_contra hv
    have := (h.live hl).no_user (va / pgSize) (by omega)
    rw [hw, hU] at this
    cases this
  have hleaf : leafPte s.kmem.mem (s.procs p).pagetable (va / pgSize) = w := by
    rw [← view_pte hr (maxVpn_of_user hv)]
    exact hw
  exact ⟨hw, hV, hP, hv, by rw [Sys.view, view_sees hr hv (by rw [hleaf]; exact hV), hleaf]⟩

/-- A load of user code. -/
theorem Sys.Inv.userLoad (va : Nat) :
    Unless (s.initproc = some p) (userLoad p va) s fun a s' =>
      (a = .done (s.view.byte (s.procs p).pagetable va) ∧ s' = s) ∨
      (a = .faulted ∧ ∃ e, va < (s.procs p).sz ∧ IsFault (s.procs p).pagetable (va / pgSize) e ∧
        s' = { s with kmem := s'.kmem } ∧ s.Moves (s.procs p).pagetable [e] s') ∨
      (a = .killed ∧ s.SameImages s' ∧ s.Moves (s.procs p).pagetable [] s') := by
  have hr := (h.live hl).mem_roots
  refine unless_bind (a := s.procs p) (t := s) rfl ?_
  obtain ⟨w, hw, hpte⟩ := hardwarePte_eq (k := s.kmem) hr va
  refine unless_bind (a := w) (t := s) (by rw [liftK, hw]; rfl) ?_
  split
  next hperm =>
    obtain ⟨-, -, -, -, hpage⟩ := h.accessed hl hpte hperm
    refine unless_bind (a := s.kmem.mem (pte2pa w)) (t := s) rfl (unless_pure (Or.inl ⟨?_, rfl⟩))
    rw [hpage]
    rfl
  next => exact (h.pageFault hl va).mono id fun a s' hres => Or.inr hres

/-- A store of user code. -/
theorem Sys.Inv.userStore (va : Nat) (b : Byte) :
    Unless (s.initproc = some p) (userStore p va b) s fun a s' =>
      (a = .done b ∧ s' = { s with kmem := s'.kmem } ∧ va / pgSize < userVpn ∧
        s.Moves (s.procs p).pagetable [.write (s.procs p).pagetable (va / pgSize)
          (pageWrite (s.view.sees (s.procs p).pagetable (va / pgSize)) (va % pgSize) [b])] s') ∨
      (a = .faulted ∧ ∃ e, va < (s.procs p).sz ∧ IsFault (s.procs p).pagetable (va / pgSize) e ∧
        s' = { s with kmem := s'.kmem } ∧ s.Moves (s.procs p).pagetable [e] s') ∨
      (a = .killed ∧ s.SameImages s' ∧ s.Moves (s.procs p).pagetable [] s') := by
  have him := h.live hl
  have hr := him.mem_roots
  refine unless_bind (a := s.procs p) (t := s) rfl ?_
  obtain ⟨w, hw, hpte⟩ := hardwarePte_eq (k := s.kmem) hr va
  refine unless_bind (a := w) (t := s) (by rw [liftK, hw]; rfl) ?_
  split
  next hperm =>
    obtain ⟨rfl, hV, hW, hv, hpage⟩ := h.accessed hl hpte hperm
    obtain ⟨slot, hslot, hword⟩ := slot_of_valid hr (maxVpn_of_user hv) hV
    -- the page is the process's own
    have hsole := h.excl _ _ hv hV hW
    rw [Sys.view, ← hword] at hV hsole
    have hd := h.ok.write (s.procs p).pagetable hr hv hslot hV hsole
      (pageWrite (s.view.sees (s.procs p).pagetable (va / pgSize)) (va % pgSize) [b])
    rw [hword] at hd hV
    have hbelow := him.below hv hV
    have hm := h.moves_below hl hd (by simpa [Edit.place] using hbelow)
    refine unless_bind (a := ()) (t := _) ?_ (unless_pure (Or.inl ⟨rfl, rfl, hv, hm⟩))
    rw [← hpage]
    rfl
  next => exact (h.pageFault hl va).mono id fun a s' hres => Or.inr hres

/-! ## system calls -/

/-- `copyout` to the process. -/
theorem Sys.Inv.copyout (dstva : Nat) (src : List Byte) :
    Returns (copyout (s.procs p).sz (s.procs p).pagetable dstva src) s.kmem fun res k' =>
      CopiedOut s.kmem s.roots s.held (s.procs p).sz (s.procs p).pagetable dstva src res.1 res.2 k' ∧
      ∃ es, s.Moves (s.procs p).pagetable es { s with kmem := k' } ∧ ∀ e ∈ es, ∃ v,
        (IsFault (s.procs p).pagetable v e ∧ userPa (s.view.pte (s.procs p).pagetable v) = 0) ∨
          ∃ page, e = .write (s.procs p).pagetable v page := by
  have him := h.live hl
  refine (h.ok.copyout him.mem_roots him.size h.excl him.no_user).mono ?_
  rintro res k' hc
  obtain ⟨es, hd, hes⟩ := hc.does
  refine ⟨hc, es, h.moves_below hl hd fun e he => ?_, fun e he => ?_⟩
  · obtain ⟨v, -, hlt, hev⟩ := hes e he
    have hplace : e.place = ((s.procs p).pagetable, v) := by
      rcases hev with ⟨hf, -⟩ | ⟨page, rfl⟩
      · exact hf.place
      · rfl
    rw [hplace]
    refine ⟨rfl, ?_⟩
    by_cases h0 : userPa (s.view.pte (s.procs p).pagetable v) = 0
    · exact (lt_pgRoundUp_iff _ _).mp (hlt h0)
    · exact (him.mapped h0).2
  · obtain ⟨v, -, -, hev⟩ := hes e he
    exact ⟨v, hev⟩

/-- `copyin` from the process. -/
theorem Sys.Inv.copyin (srcva len : Nat) :
    Returns (copyin (s.procs p).sz (s.procs p).pagetable srcva len) s.kmem fun res k' =>
      (∀ bs, res = some bs → bs = (List.range len).map fun i => s.view.byte (s.procs p).pagetable (srcva + i)) ∧
      ∃ es, s.Moves (s.procs p).pagetable es { s with kmem := k' } ∧ ∀ e ∈ es, ∃ v,
        IsFault (s.procs p).pagetable v e ∧ userPa (s.view.pte (s.procs p).pagetable v) = 0 := by
  have him := h.live hl
  refine (h.ok.copyin him.mem_roots him.size him.no_user).mono ?_
  rintro res k' ⟨⟨es, hd, hes⟩, hbs⟩
  refine ⟨hbs, es, h.moves_below hl hd fun e he => ?_, fun e he => ?_⟩
  · obtain ⟨v, -, hf, -, hlt⟩ := hes e he
    rw [hf.place]
    exact ⟨rfl, (lt_pgRoundUp_iff _ _).mp hlt⟩
  · obtain ⟨v, -, hf, h0, -⟩ := hes e he
    exact ⟨v, hf, h0⟩

end

/-! ## init, wait -/

/-- What a process writes in its own memory, and the faults it takes: the edits of `copyout`. -/
def CopyEdit (V : View) (r : Nat) (e : Edit) : Prop :=
  ∃ v, (IsFault r v e ∧ userPa (V.pte r v) = 0) ∨ ∃ page, e = .write r v page

/-- `n` bytes of `src` have been copied to `dstva` of the process `p`. -/
structure Sys.Copied (s : Sys) (p : Fin nproc) (dstva : Nat) (src : List Byte) (n : Nat) (es : List Edit)
    (s' : Sys) : Prop where
  same : s' = { s with kmem := s'.kmem }
  moves : s.Moves (s.procs p).pagetable es s'
  edits : ∀ e ∈ es, CopyEdit s.view (s.procs p).pagetable e
  byte : ∀ r a, a / pgSize < userVpn → s'.view.byte r a =
    if r = (s.procs p).pagetable ∧ dstva ≤ a ∧ a < dstva + n then src.getD (a - dstva) 0 else s.view.byte r a

section
variable (h : s.Inv) (hl : (s.procs p).state ≠ .unused)
include h hl

theorem Sys.Inv.copiedOut (dstva : Nat) (src : List Byte) :
    Returns (MiniOS.copyout (s.procs p).sz (s.procs p).pagetable dstva src) s.kmem fun res k' =>
      ∃ es, s.Copied p dstva src res.2 es { s with kmem := k' } := by
  refine (h.copyout hl dstva src).mono ?_
  rintro res k' ⟨hc, es, hm, hes⟩
  exact ⟨es, rfl, hm, hes, hc.byte⟩

/-- Without an address `kwait` copies nothing. -/
theorem Sys.Inv.copiedStatus (addr : Nat) (src : List Byte) :
    Returns (if addr ≠ 0 then MiniOS.copyout (s.procs p).sz (s.procs p).pagetable addr src else pure (true, 0))
      s.kmem fun res k' => ∃ es, s.Copied p addr src res.2 es { s with kmem := k' } := by
  split
  next => exact h.copiedOut hl addr src
  next => exact returns_pure ⟨[], rfl, h.refl, by simp, fun r a _ => by rw [if_neg (by omega)]⟩

/-- `kwait` by process `p`: it copies the status of an exited child, and frees it if that succeeded. -/
theorem Sys.Inv.kwait (addr : Nat) :
    Returns (kwait p addr) s fun res s' => (res = (none, 0) ∧ s' = s) ∨
      ∃ pp s₁ es, (s.procs pp).state = .zombie ∧ zombieChild s.procs p = some pp ∧
        s.Copied p addr (intBytes (s.procs pp).xstate) res.2 es s₁ ∧
        ((res.1 = none ∧ s' = s₁) ∨
          (res.1 = some pp ∧ s₁.Moves (s.procs pp).pagetable (freed (s.procs pp).pagetable (s.procs pp).sz) s' ∧
            s'.procs = Function.update s.procs pp (s.procs pp).freed ∧ s'.initproc = s.initproc ∧
            s'.kbufs = s.kbufs)) := by
  rw [Returns]
  unfold MiniOS.kwait
  cases hz : zombieChild s.procs p with
  | none => exact ⟨_, s, rfl, Or.inl ⟨rfl, rfl⟩⟩
  | some pp =>
    have hpp : (s.procs pp).parent = some p ∧ (s.procs pp).state = .zombie := by
      simpa using List.find?_some hz
    suffices hat : Returns (kwaitAt p pp addr) s _ from hat
    refine returns_bind (a := s.procs p) (t := s) rfl (returns_bind (a := s.procs pp) (t := s) rfl ?_)
    refine Returns.bindK (h.copiedStatus hl addr _) ?_
    rintro ⟨ok, n⟩ k₁ ⟨es, hc⟩
    cases ok with
    | false => exact returns_pure (Or.inr ⟨pp, _, es, hpp.2, rfl, hc, Or.inl ⟨rfl, rfl⟩⟩)
    | true =>
      refine (hc.moves.inv.freeproc (p := pp) (by simp [hpp.2])).bind ?_
      rintro _ s' ⟨hm, hprocs, hinit, hkbufs⟩
      exact returns_pure (Or.inr ⟨pp, _, es, hpp.2, rfl, hc, Or.inr ⟨rfl, hm, hprocs, hinit, hkbufs⟩⟩)

end

/-- `userinit`, which needs memory for the first process. -/
theorem Sys.Inv.userinit (h : s.Inv) :
    Unless (∃ s₁, MiniOS.allocproc s = some (none, s₁)) MiniOS.userinit s fun _ s' => ∃ np r tf pid,
      (s.procs np).state = .unused ∧ r ∉ s.roots ∧ tf ∉ s.held ∧
      s'.procs = Function.update s.procs np { (s.procs np).allocated pid tf r with state := .runnable } ∧
      s'.initproc = some np ∧ s'.kbufs = s.kbufs ∧ s.Moves 0 (kernelMaps r tf) s' := by
  obtain ⟨res, s₁, halloc, hres⟩ := h.allocproc 0
  refine unless_bind halloc ?_
  rcases hres with ⟨rfl, -, -⟩ | ⟨np, r, tf, pid, rfl, hu, hr, htf, hprocs, hinit, hkbufs, hm⟩
  · exact ⟨fun _ => ⟨s₁, halloc⟩, nofun⟩
  · refine unless_bind (a := s₁.procs np) (t := s₁) rfl (unless_bind (a := ()) rfl ?_)
    refine Returns.unless ⟨(), _, rfl, np, r, tf, pid, hu, hr, htf, ?_, rfl, hkbufs, ?_⟩
    · rw [hprocs, Function.update_self, Function.update_idem]
    · have hstate : (s₁.procs np).state ≠ .unused := by rw [hprocs, Function.update_self]; simp [Proc.allocated]
      refine hm.trans (hm.inv.congr rfl rfl fun q => ?_)
      by_cases hq : q = np
      · subst hq
        simp [hstate]
      · simp [hq]

end

end MiniOS
