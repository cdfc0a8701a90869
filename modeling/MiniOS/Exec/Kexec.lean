import MiniOS.Exec.Args

/-!
# MiniOS.Exec.Kexec

`kexec` as a whole: it builds the new image in a page table of its own, and
then exchanges the page tables of the process or frees the new one.
-/

namespace MiniOS

open Total

section
variable [KernelImage] {k : Kmem} {roots held : Finset Nat} {r psz : Nat}

/-- The program can be loaded, and there is memory for its stack. -/
def Loads (k : Kmem) (r : Nat) (file : List Byte) (elf : Elfhdr) : Prop :=
  ∃ sz k₁, loadProgram r file elf.phnum elf.phoff 0 k = some ((true, sz), k₁) ∧ StackRoom k₁ r sz

/-- The program and its stack. -/
theorem Building.buildImage (h : Building k roots held r 0) (hpsz : psz ≤ trapframeVa) (file : List Byte)
    (elf : Elfhdr) (argv : List (List Byte)) :
    Returns (buildImage psz r file elf argv) k fun b k' => Works k roots held r k' ∧
      b.Good argv roots held r k' ∧ (b.isImage ↔ Loads k r file elf ∧ ArgsFit argv) := by
  have hprog : Returns (MiniOS.loadProgram r file elf.phnum elf.phoff 0) k _ := h.loadProgram
  obtain ⟨⟨ok, sz⟩, k₁, hload, hw, hb, hf⟩ := hprog
  have hiff : Loads k r file elf ↔ ok = true ∧ StackRoom k₁ r sz := by
    rw [Loads, hload]
    refine ⟨fun ⟨_, _, he, hroom⟩ => ?_, fun ⟨hok, hroom⟩ => ⟨sz, k₁, by rw [hok], hroom⟩⟩
    cases he
    exact ⟨rfl, hroom⟩
  rw [MiniOS.buildImage, hiff]
  refine returns_bind hload ?_
  cases ok with
  | false =>
    simp only [Bool.not_false, if_true]
    exact returns_pure ⟨hw, hf, by simp [Built.isImage]⟩
  | true =>
    simp only [Bool.not_true, Bool.false_eq_true, if_false]
    refine ((hb rfl).buildStack hpsz argv).mono ?_
    rintro b k' ⟨hw', hgood, himage⟩
    exact ⟨hw.trans hw', hgood, by rw [himage]; simp⟩

/-! ## the new page table -/

/-- A table that `proc_pagetable` has just made. -/
theorem Does.building {tf : Nat} {k' : Kmem} {ρ : Nat} (hx : (view k roots).Excl) (hr : r ∉ roots)
    (hd : Does ρ k roots held (kernelMaps r tf) k' (insert r roots) held) :
    Building k' (insert r roots) held r 0 := by
  have hpte := hd.edits.kernelMaps_pte (view_pte_not_root hr)
  have hempty : ∀ v < userVpn, (view k' (insert r roots)).pte r v = 0 := fun v hv => by
    rw [hpte, if_neg (by omega), if_neg (by omega)]
  refine ⟨hd.ok, Finset.mem_insert_self r roots, hd.edits.excl hx, ⟨fun v hv hV => ?_, fun v hv => ?_,
    fun v _ hv => hempty v hv, fun v hv => ?_⟩, ?_⟩
  · rw [hempty v hv] at hV
    exact absurd hV (by simp)
  · exact absurd hv (by simp [pgRoundUp, pgSize])
  · rw [hpte]
    split
    next => simp [trapframePte]
    next =>
      split
      next => simp [trampolinePte]
      next => simp
  · have := nfree_le k'
    simp only [pgRoundUp, pgSize] at *
    omega

/-! ## kexec -/

variable {s s' : Sys} {p : Fin nproc}

/-- The file can be run, with whatever arguments: it has a header, and there is memory for its image. -/
def Execs (s : Sys) (p : Fin nproc) (file : List Byte) : Prop :=
  ∃ elf r k, readElfhdr file = some elf ∧ procPagetable (s.procs p).trapframe s.kmem = some (r, k) ∧
    r ≠ 0 ∧ Loads k r file elf

/-- Everything that was done concerns a page table that was not there before and is gone. -/
structure Sys.Undone (s s' : Sys) : Prop where
  same : s' = { s with kmem := s'.kmem }
  held : ∀ q ∈ s.held, s'.kmem.mem q = s.kmem.mem q
  moves : ∃ r es, r ∉ s.roots ∧ (∀ e ∈ es, e.place.1 = r) ∧ s.Moves 0 es s'

theorem Sys.Inv.undone (h : s.Inv) {k' : Kmem} {es : List Edit} (hr : r ∉ s.roots)
    (hes : ∀ e ∈ es, e.place.1 = r) (hd : Does 0 s.kmem s.roots s.held es k' s.roots s.held) :
    s.Undone { s with kmem := k' } := by
  refine ⟨rfl, fun q hq => hd.frame q hq hq, r, es, hr, hes, ?_⟩
  have hne : ∀ p', (s.procs p').pagetable ≠ 0 → ∀ e ∈ es, e.place.1 ≠ (s.procs p').pagetable :=
    fun p' h0 e he hc => hr (by rw [← hes e he, hc]; exact Sys.mem_roots.mpr ⟨h0, p', rfl⟩)
  have hprocs : ({ s with kmem := k' } : Sys).procs = Function.update s.procs 0 (s.procs 0) := by simp
  refine h.update hprocs rfl hd.ok hd.edits hd.keeps (Or.inl rfl) (Or.inl rfl) ?_
    fun e he p' _ h0 hpl => absurd hpl (hne p' h0 e he)
  refine (h.entry 0).congr fun h0 v _ => hd.edits.pte_of_ne fun e he hc => ?_
  exact hne 0 h0 e he (by rw [hc])

/-- The trapframe with which the new image starts. -/
def execFrame (frame : Page) (sp entry : Nat) : Page :=
  Function.update (Function.update (Function.update frame tfA1 (BitVec.ofNat 64 sp)) tfEpc
    (BitVec.ofNat 64 entry)) tfSp (BitVec.ofNat 64 sp)

/-- The edits of a `kexec` that succeeds: a page table with the mappings of the kernel is filled, and the old
one is freed. -/
structure ExecEdits (r tf old oldsz : Nat) (es : List Edit) : Prop where
  split : ∃ ws, es = kernelMaps r tf ++ (ws ++ freed old oldsz) ∧
    ∀ e ∈ ws, e.place.1 = r ∧ e.place.2 < userVpn

/-- The process `p` has the image of an executable file. -/
structure Sys.Executed (s : Sys) (p : Fin nproc) (file : List Byte) (argv : List (List Byte))
    (r sz sp : Nat) (s' : Sys) : Prop where
  fresh : r ∉ s.roots
  procs : s'.procs = Function.update s.procs p { s.procs p with pagetable := r, sz := sz }
  initproc : s'.initproc = s.initproc
  nextpid : s'.nextpid = s.nextpid
  kbufs : s'.kbufs = s.kbufs
  laid : Laid s'.view r sz sp argv
  frame : ∃ elf, readElfhdr file = some elf ∧ s'.kmem.mem (s.procs p).trapframe =
    execFrame (s.kmem.mem (s.procs p).trapframe) sp elf.entry
  moves : ∃ es, ExecEdits r (s.procs p).trapframe (s.procs p).pagetable (s.procs p).sz es ∧
    s.Moves (s.procs p).pagetable es s'

omit [KernelImage] in
/-- The three stores to the trapframe. -/
theorem setWord_execFrame (m : Mem) (tf sp entry : Nat) :
    setWord (setWord (setWord m tf tfA1 (BitVec.ofNat 64 sp)) tf tfEpc (BitVec.ofNat 64 entry)) tf tfSp
      (BitVec.ofNat 64 sp) = Function.update m tf (execFrame (m tf) sp entry) := by
  simp [setWord, execFrame]

section commit
variable (h : s.Inv) (hl : (s.procs p).state ≠ .unused) {n : Nat} {page : Page} {k₁ k₂ k₃ : Kmem}
  (hr : r ∉ s.roots) (hst : Stacked k₂ (insert r s.roots) s.held r n)
  (hfree : Does (s.procs p).pagetable
    { k₂ with mem := Function.update k₂.mem (s.procs p).trapframe page } (insert r s.roots) s.held
    (freed (s.procs p).pagetable (s.procs p).sz) k₃ ((insert r s.roots).erase (s.procs p).pagetable) s.held)
include h hl hr hst hfree

omit hr in
/-- The kernel has written the trapframe and freed the old page table. -/
theorem Sys.Inv.commit_edits : Edits (MiniOS.view k₂ (insert r s.roots)) (freed (s.procs p).pagetable (s.procs p).sz)
    (MiniOS.view k₃ ((insert r s.roots).erase (s.procs p).pagetable)) := by
  have hwrite := hst.ok.writeHeld (ρ := 0) (h.live hl).mem_held page
  have hedits := hfree.edits
  rwa [hwrite.view_eq] at hedits

section
omit hst hfree

theorem Sys.Inv.commit_ne : (s.procs p).pagetable ≠ r := fun hc => hr (hc ▸ (h.live hl).mem_roots)

theorem Sys.Inv.commit_roots (hr0 : r ≠ 0) {sz : Nat}
    (hprocs : s'.procs = Function.update s.procs p { s.procs p with pagetable := r, sz := sz }) :
    s'.roots = (insert r s.roots).erase (s.procs p).pagetable := by
  rw [h.roots_replace hprocs hr0, Finset.erase_insert_of_ne (h.commit_ne hl hr).symm]

theorem Sys.Inv.commit_view (hr0 : r ≠ 0) {sz : Nat} (hk : s'.kmem = k₃)
    (hprocs : s'.procs = Function.update s.procs p { s.procs p with pagetable := r, sz := sz }) :
    s'.view = MiniOS.view k₃ ((insert r s.roots).erase (s.procs p).pagetable) := by
  rw [Sys.view, hk, h.commit_roots hl hr hr0 hprocs]

end

/-- The bytes of the new image. -/
theorem Sys.Inv.commit_byte {a : Nat} (ha : a < (n + 2) * pgSize) :
    (MiniOS.view k₃ ((insert r s.roots).erase (s.procs p).pagetable)).byte r a = (MiniOS.view k₂ (insert r s.roots)).byte r a := by
  have hv : a / pgSize < userVpn := by
    have := hst.lt_user
    simp only [pgSize] at *
    omega
  rw [View.byte, View.byte, (h.commit_edits hl hst hfree).sees_of_ne hv (view_clean _ _) fun e he hc => ?_]
  exact h.commit_ne hl hr (by rw [← place_freed he, hc])

/-- The commit of `kexec`: the process has the new table, and the old one is freed. -/
theorem Sys.Inv.commit (hr0 : r ≠ 0)
    (hmap : Does (s.procs p).pagetable s.kmem s.roots s.held (kernelMaps r (s.procs p).trapframe) k₁
      (insert r s.roots) s.held)
    (hwork : Works k₁ (insert r s.roots) s.held r k₂) (hk : s'.kmem = k₃)
    (hprocs : s'.procs = Function.update s.procs p { s.procs p with pagetable := r, sz := (n + 2) * pgSize })
    (hkbufs : s'.kbufs = s.kbufs) :
    ∃ es, ExecEdits r (s.procs p).trapframe (s.procs p).pagetable (s.procs p).sz es ∧
      s.Moves (s.procs p).pagetable es s' := by
  have him := h.live hl
  have hne := h.commit_ne hl hr
  obtain ⟨ws, hw, hws⟩ := hwork
  have hroots := h.commit_roots hl hr hr0 hprocs
  have hheld : s'.held = s.held := Sys.held_same hprocs hkbufs rfl
  have hview := h.commit_view hl hr hr0 hk hprocs
  have hlast := h.commit_edits hl hst hfree
  refine ⟨_, ⟨ws, rfl, hws⟩, h.update hprocs hkbufs ?_ ?_ ?_ (Or.inr hr) (Or.inl rfl) ?_ ?_⟩
  · rw [hk, hroots, hheld]
    exact hfree.ok
  · rw [hview]
    exact hmap.edits.append (hw.edits.append hlast)
  · -- the pages of the other tables
    intro r' hr' hold
    have hnew : r' ≠ r := fun hc => hr (hc ▸ hr')
    obtain ⟨hr₁, hs₁⟩ := hmap.keeps r' hr' hold
    obtain ⟨hr₂, hs₂⟩ := hw.keeps r' hr₁ hnew
    obtain ⟨-, hs₃⟩ := (hw.ok.writeHeld (ρ := r) him.mem_held page).keeps r' hr₂ hnew
    obtain ⟨hr₄, hs₄⟩ := hfree.keeps r' hr₂ hold
    rw [hk, hroots]
    exact ⟨hr₄, hs₁.trans (hs₂.trans (hs₃.trans hs₄))⟩
  · have hpte : ∀ v, s'.view.pte r v = (MiniOS.view k₂ (insert r s.roots)).pte r v := fun v => by
      rw [hview]
      exact hlast.pte_of_ne fun e he hc => hne (by rw [← place_freed he, hc])
    have hkernel : ∀ v, userVpn ≤ v → s'.view.pte r v = (MiniOS.view k₁ (insert r s.roots)).pte r v := fun v hv => by
      rw [hpte, hw.edits.pte_of_ne fun e he hc => ?_]
      have := (hws e he).2
      rw [hc] at this
      omega
    have hmaps := hmap.edits.kernelMaps_pte (view_pte_not_root hr)
    refine Entry.of_image hl ⟨hr0, him.frame, hst.freeable.le, fun v hlo hhi => ?_, ?_, ?_⟩
    · rw [hpte]
      exact hst.freeable.above v hlo hhi
    · rw [hkernel _ (Nat.le_refl _), hmaps, if_pos rfl]
    · rw [hkernel _ (by omega), hmaps, if_neg (by omega), if_pos rfl]
  · intro e he p' hp' h0 hpl
    rcases List.mem_append.mp he with he | he
    · rw [(place_kernelMaps he).1] at hpl
      exact absurd (Sys.mem_roots.mpr ⟨h0, p', rfl⟩) (hpl ▸ hr)
    · rcases List.mem_append.mp he with he | he
      · rw [(hws e he).1] at hpl
        exact absurd (Sys.mem_roots.mpr ⟨h0, p', rfl⟩) (hpl ▸ hr)
      · rw [place_freed he] at hpl
        exact absurd hpl (h.ne_table hp' h0)

end commit

/-- `kexec` by a live process. -/
theorem Sys.Inv.kexec (h : s.Inv) (hl : (s.procs p).state ≠ .unused) (file : List Byte)
    (argv : List (List Byte)) :
    Returns (kexec p file argv) s fun res s' =>
      (res.isSome ↔ Execs s p file ∧ ArgsFit argv) ∧ (res = none → s.Undone s') ∧
      ∀ argc, res = some argc → argc = argv.length ∧ ∃ r sz sp, s.Executed p file argv r sz sp s' := by
  have him := h.live hl
  have hnone : ¬ Execs s p file → Returns (pure none) s fun res s' =>
      (res.isSome ↔ Execs s p file ∧ ArgsFit argv) ∧ (res = none → s.Undone s') ∧
      ∀ argc, res = some argc → argc = argv.length ∧ ∃ r sz sp, s.Executed p file argv r sz sp s' := fun hno =>
    returns_pure ⟨by simp [hno], fun _ => h.undone zero_not_mem_roots (by simp) (Does.refl h.ok), by simp⟩
  refine returns_bind (a := s.procs p) (t := s) rfl ?_
  cases helf : readElfhdr file with
  | none =>
    refine hnone ?_
    rintro ⟨_, _, _, he, -⟩
    rw [helf] at he
    cases he
  | some elf =>
    obtain ⟨r, k₁, hpt, hres⟩ := h.ok.procPagetable 0 (s.procs p).trapframe
    have hexecs : Execs s p file ↔ r ≠ 0 ∧ Loads k₁ r file elf := by
      simp only [Execs, helf, hpt]
      refine ⟨?_, fun hl => ⟨_, _, _, rfl, rfl, hl⟩⟩
      rintro ⟨_, _, _, he, hk, hr0, hloads⟩
      cases he
      cases hk
      exact ⟨hr0, hloads⟩
    rw [hexecs]
    refine returns_bind (a := r) (t := { s with kmem := k₁ }) (by rw [liftK, hpt]; rfl) ?_
    rcases hres with ⟨rfl, hd⟩ | ⟨hr0, hr, -, hd⟩
    · rw [if_pos rfl]
      exact returns_pure ⟨by simp, fun _ => h.undone zero_not_mem_roots (by simp) hd, by simp⟩
    · rw [if_neg hr0]
      refine Returns.bindK ((hd.building h.excl hr).buildImage him.size file elf argv) ?_
      rintro b k₂ ⟨hw, hgood, himage⟩
      have hexec : b.isImage ↔ (r ≠ 0 ∧ Loads k₁ r file elf) ∧ ArgsFit argv := by simp [himage, hr0]
      rw [← hexec]
      have hroot : r ∈ insert r s.roots := Finset.mem_insert_self r s.roots
      cases b with
      | bad sz =>
        obtain ⟨ws, hdw, hws⟩ := hw
        refine Returns.bindK (hdw.ok.procFreepagetable hroot hgood.le hgood.above) ?_
        rintro _ k₃ hd₃
        rw [Finset.erase_insert hr] at hd₃
        have hall := (hd.of_new zero_not_mem_roots).trans (hdw.trans hd₃ fun _ hp _ => hp) fun _ hp _ => hp
        refine returns_pure ⟨by simp [Built.isImage], fun _ => h.undone hr (fun e he => ?_) (hall.of_new hr),
          by simp⟩
        rcases List.mem_append.mp he with he | he
        · exact (place_kernelMaps he).1
        · rcases List.mem_append.mp he with he | he
          · exact (hws e he).1
          · exact place_freed he
      | image sz sp =>
        obtain ⟨hst, hlaid⟩ := hgood
        obtain ⟨n, rfl⟩ := hlaid.top
        rw [(stack_addrs n).2.2.2.2.2] at hst
        have hd' := hd.of_new (ρ := (s.procs p).pagetable) zero_not_mem_roots
        have hwrite := hst.ok.writeHeld (ρ := 0) him.mem_held
          (execFrame (k₂.mem (s.procs p).trapframe) sp elf.entry)
        have hframe : k₂.mem (s.procs p).trapframe = s.kmem.mem (s.procs p).trapframe := by
          obtain ⟨ws, hdw, -⟩ := hw
          rw [hdw.frame _ him.mem_held him.mem_held, hd.frame _ him.mem_held him.mem_held]
        have hold : ∀ v, pgRoundUp (s.procs p).sz / pgSize ≤ v → v < userVpn →
            (MiniOS.view k₂ (insert r s.roots)).pte (s.procs p).pagetable v = 0 := fun v hlo hhi => by
          obtain ⟨ws, hdw, hws⟩ := hw
          have hne := h.commit_ne hl hr
          rw [hdw.edits.pte_of_ne fun e he hc => hne (by rw [← (hws e he).1, hc]),
            hd.edits.pte_of_ne fun e he hc => hne (by rw [← (place_kernelMaps he).1, hc])]
          exact him.above v hlo hhi
        have hfree := hwrite.ok.procFreepagetable (Finset.mem_insert_of_mem him.mem_roots) him.size
          fun v hlo hhi => by rw [hwrite.view_eq]; exact hold v hlo hhi
        rw [← setWord_execFrame] at hfree
        refine returns_bind (a := ()) rfl (returns_bind (a := ()) rfl (returns_bind (a := ()) rfl
          (returns_bind (a := ()) rfl (Returns.bindK hfree ?_))))
        rintro _ k₃ hd₃
        rw [setWord_execFrame] at hd₃
        refine returns_pure ⟨by simp [Built.isImage], by simp, ?_⟩
        rintro argc hargc
        cases hargc
        refine ⟨rfl, r, _, sp, hr, rfl, rfl, rfl, rfl, ?_, ⟨elf, helf, ?_⟩, ?_⟩
        · refine hlaid.congr fun a ha => ?_
          rw [h.commit_view hl hr hr0 rfl rfl]
          exact h.commit_byte hl hr hst hd₃ ha
        · rw [hd₃.frame _ him.mem_held him.mem_held, ← hframe]
          exact Function.update_self ..
        · exact h.commit hl hr hst hd₃ hr0 hd' hw rfl rfl rfl

end

end MiniOS
