import MiniOS.Kernel.Spec

/-!
# MiniOS.Kernel.Memory

What a process does with its own memory: growing and shrinking it, loads and
stores with the faults they take, and the copies of system calls.  No other
process sees any of it.
-/

namespace MiniOS

open Total

theorem pages_le_user {sz : Nat} (h : sz ≤ trapframeVa) : pgRoundUp sz / pgSize ≤ userVpn := by
  rw [trapframeVa_eq] at h
  simp only [pgRoundUp, pgSize, userVpn] at *
  omega

section
variable [KernelImage] {s s' : Sys} {p : Fin nproc}

/-! ## sbrk -/

/-- What growing and shrinking do to a page of the table `r`. -/
inductive Edit.Sizing (r : Nat) : Edit → Prop
  | map (v pa : Nat) (hv : v < userVpn) :
      Edit.Sizing r (.map r v (pa2pte pa ||| (pteR ||| pteU ||| pteW) ||| pteV))
  | unmap (v : Nat) (hv : v < userVpn) : Edit.Sizing r (.unmap r v)

omit [KernelImage] in
theorem Edit.Sizing.place_eq {r : Nat} {e : Edit} (h : e.Sizing r) : e.place.1 = r ∧ e.place.2 < userVpn := by
  cases h <;> exact ⟨rfl, ‹_›⟩

/-- The process `p` has come to the size `sz`: what it saw from there on is
gone, and nothing else has changed. -/
structure Sys.Resized (s : Sys) (p : Fin nproc) (sz : Nat) (s' : Sys) : Prop where
  moves : ∃ es, s.Moves (s.procs p).pagetable es s' ∧ ∀ e ∈ es, e.Sizing (s.procs p).pagetable
  procs : s'.procs = Function.update s.procs p { s.procs p with sz := sz }
  initproc : s'.initproc = s.initproc
  kbufs : s'.kbufs = s.kbufs
  sees : ∀ r v, v < userVpn → s'.view.sees r v =
    if r = (s.procs p).pagetable ∧ pgRoundUp sz / pgSize ≤ v then zeroPage else s.view.sees r v

/-- Nothing is seen from the size of a process on. -/
theorem Image.sees_above (h : Image s.view (s.procs p)) {v : Nat} (hlo : pgRoundUp (s.procs p).sz / pgSize ≤ v)
    (hhi : v < userVpn) : s.view.sees (s.procs p).pagetable v = zeroPage :=
  (view_clean _ _ _ _ (by
    have := h.above v hlo hhi
    rw [Sys.view] at this
    rw [this]; simp)).2

section
variable (h : s.Inv) (hl : (s.procs p).state ≠ .unused) {es : List Edit} {k' : Kmem} {sz : Nat}
  (hk : s'.kmem = k') (hprocs : s'.procs = Function.update s.procs p { s.procs p with sz := sz })
  (hinit : s'.initproc = s.initproc) (hkbufs : s'.kbufs = s.kbufs) (hsz : sz ≤ trapframeVa)
include h hl hk hprocs hinit hkbufs hsz

/-- The size of a process changes with its mappings. -/
theorem Sys.Inv.resized (hd : Does (s.procs p).pagetable s.kmem s.roots s.held es k' s.roots s.held)
    (hkind : ∀ e ∈ es, e.Sizing (s.procs p).pagetable)
    (habove : ∀ v, pgRoundUp sz / pgSize ≤ v → v < userVpn →
      (MiniOS.view k' s.roots).pte (s.procs p).pagetable v = 0)
    (hsees : ∀ r v, v < userVpn → ¬ (r = (s.procs p).pagetable ∧ pgRoundUp sz / pgSize ≤ v) →
      (MiniOS.view k' s.roots).sees r v = s.view.sees r v) : s.Resized p sz s' := by
  have him := h.live hl
  have hplace := fun e he => (hkind e he).place_eq
  have hroots : s'.roots = s.roots := Sys.roots_same hprocs rfl
  have hview : s'.view = MiniOS.view k' s.roots := by rw [Sys.view, hk, hroots]
  have hedits : Edits s.view es s'.view := by rw [hview]; exact hd.edits
  have hhigh : ∀ v, userVpn ≤ v →
      s'.view.pte (s.procs p).pagetable v = s.view.pte (s.procs p).pagetable v := fun v hv =>
    hedits.pte_of_ne fun e he hc => by
      have := (hplace e he).2
      rw [hc] at this
      simp only at this; omega
  refine ⟨⟨es, h.update hprocs hkbufs ?_ hedits ?_ (Or.inl rfl) (Or.inl rfl) (Entry.of_image hl ?_)
    fun e he p' hp' h0 hpl => ?_, hkind⟩, hprocs, hinit, hkbufs, fun r v hv => ?_⟩
  · rw [hk, hroots, Sys.held_same hprocs hkbufs rfl]; exact hd.ok
  · rw [hk, hroots]; exact hd.keeps
  · constructor <;> simp only
    · exact him.root
    · exact him.frame
    · exact hsz
    · rw [hview]; exact habove
    · rw [hhigh _ (Nat.le_refl _), him.trapframe]
    · rw [hhigh _ (Nat.le_succ _), him.trampoline]
  · exact absurd ((hplace e he).1.symm.trans hpl) (h.ne_table hp' h0)
  · rw [hview]
    split
    next hc => rw [hc.1, (view_clean k' s.roots _ v (by rw [habove v hc.2 hv]; simp)).2]
    next hc => exact hsees r v hv hc

/-- The size grows without any mapping. -/
theorem Sys.Inv.resized_lazy (hle : (s.procs p).sz ≤ sz) (hk' : k' = s.kmem) : s.Resized p sz s' := by
  subst hk'
  exact h.resized hl hk hprocs hinit hkbufs hsz (Does.refl h.ok) nofun
    (fun v hlo hhi => (h.live hl).above v ((pages_mono hle).trans hlo) hhi) fun _ _ _ _ => rfl

end

theorem Sys.Inv.resized_same (h : s.Inv) (hl : (s.procs p).state ≠ .unused) :
    s.Resized p (s.procs p).sz s :=
  h.resized_lazy hl rfl (Function.update_eq_self p _).symm rfl rfl (h.live hl).size (Nat.le_refl _) rfl

/-- The mappings of `uvmalloc` that are undone leave nothing. -/
theorem Edits.mapsUndone {V V' : View} {r lo : Nat} {perm : Word} {pas : List Nat}
    (h : Edits V (maps r perm lo pas ++ unmaps r lo pas.length) V') (hc : V.Clean)
    (h0 : ∀ v, lo ≤ v → v < lo + pas.length → V.pte r v = 0) (r' v : Nat) :
    V'.pte r' v = V.pte r' v ∧ (v < userVpn → V'.sees r' v = V.sees r' v) := by
  obtain ⟨V₁, h₁, h₂⟩ := h.split
  have hc₁ := h₁.clean hc
  have hin : r' = r ∧ lo ≤ v ∧ v < lo + pas.length → V.pte r' v = 0 := by
    rintro ⟨rfl, h1, h2⟩; exact h0 v h1 h2
  refine ⟨?_, fun hv => ?_⟩
  · rw [h₂.unmaps_pte, h₁.maps_pte]
    by_cases hr : r' = r ∧ lo ≤ v ∧ v < lo + pas.length
    · rw [if_pos hr, if_pos ⟨hr, by simp⟩, hin hr]
    · rw [if_neg hr, if_neg fun hc => hr hc.1]
  · rw [h₂.unmaps_sees hc₁ r' v hv, h₁.sees_quiet hv hc fun e he => by
      obtain ⟨_, _, -, -, rfl⟩ := mem_maps he; trivial]
    by_cases hr : r' = r ∧ lo ≤ v ∧ v < lo + pas.length
    · rw [if_pos hr, (hc r' v (by rw [hin hr]; simp)).2]
    · rw [if_neg hr]

/-- What `growproc(n)` can come to for a process of size `sz` with the page table `r`: its result, the new
size, and its edits. -/
inductive Growth (r sz : Nat) (n : Int) : Bool → Nat → List Edit → Prop
  /-- the pages it has mapped are unmapped again -/
  | failed (pas : List Nat) (h : pgRoundUp sz / pgSize + pas.length ≤ userVpn) :
      Growth r sz n false sz (maps r (pteR ||| pteU ||| pteW) (pgRoundUp sz / pgSize) pas ++
        unmaps r (pgRoundUp sz / pgSize) pas.length)
  | grown (hn : 0 < n) (hle : sz + n.toNat ≤ trapframeVa) (pas : List Nat)
      (hlen : pas.length = pgRoundUp (sz + n.toNat) / pgSize - pgRoundUp sz / pgSize) :
      Growth r sz n true (sz + n.toNat) (maps r (pteR ||| pteU ||| pteW) (pgRoundUp sz / pgSize) pas)
  | shrunk (newsz : Nat) (hn : n < 0) (hsz : (newsz : Int) = sz + n) :
      Growth r sz n true newsz (unmaps r (pgRoundUp newsz / pgSize)
        (pgRoundUp sz / pgSize - pgRoundUp newsz / pgSize))
  | same (h : n = 0 ∨ sz + n < 0) : Growth r sz n true sz []

section
variable (h : s.Inv) (hl : (s.procs p).state ≠ .unused)
include h hl

/-- `growproc(n)`: the size changes by `n`, or stays where it is when memory or the address space is
exhausted or `n` would bring it below 0. -/
theorem Sys.Inv.growproc_does {n : Int} (hn : -2 ^ 31 ≤ n) :
    Returns (growproc p n) s fun ok s' => ∃ sz es k', Growth (s.procs p).pagetable (s.procs p).sz n ok sz es ∧
      s' = { s with kmem := k', procs := Function.update s.procs p { s.procs p with sz := sz } } ∧
      Does (if 0 < n then (s.procs p).pagetable else 0) s.kmem s.roots s.held es k' s.roots s.held := by
  have him := h.live hl
  have hsz := him.size
  have hsame : s = { s with kmem := s.kmem, procs := Function.update s.procs p { s.procs p with sz := (s.procs p).sz } } := by
    rw [Function.update_eq_self]
  refine returns_bind rfl ?_
  by_cases hpos : 0 < n
  · simp only [if_pos hpos]
    by_cases hbig : trapframeVa < (s.procs p).sz + n.toNat
    · rw [if_pos hbig]
      exact returns_pure ⟨_, _, _, .failed [] him.pages_le, hsame, Does.refl h.ok⟩
    · rw [if_neg hbig]
      have hpages := pages_le_user (Nat.le_of_not_lt hbig)
      have hmono := pages_mono (Nat.le_add_right (s.procs p).sz n.toNat)
      refine Returns.bindK (h.ok.uvmalloc him.mem_roots (by decide) (by decide) (Nat.le_add_right _ _)
        (by omega) fun v hlo hhi => him.above v hlo (by omega)) ?_
      rintro sz k' (⟨rfl, pas, hlen, -, hd⟩ | ⟨rfl, pas, hlen, hd⟩)
      · rw [if_neg (by omega)]
        exact ⟨true, _, rfl, _, _, k', .grown hpos (Nat.le_of_not_lt hbig) pas hlen, rfl, hd⟩
      · rw [if_pos rfl]
        refine returns_pure ⟨_, _, k', .failed pas (by omega), ?_, hd⟩
        rw [Function.update_eq_self]
  · simp only [if_neg hpos]
    by_cases hneg : n < 0
    · rw [if_pos hneg]
      by_cases hwrap : (s.procs p).sz + n < 0
      · -- `sz + n` wraps to a size above the old one
        have hle : (s.procs p).sz ≤ (((s.procs p).sz + n) % 2 ^ 64).toNat := by
          simp only [trapframeVa, trampolineVa, maxVa, pgSize] at hsz; omega
        refine returns_bind (a := (s.procs p).sz) (t := s)
          (by rw [liftK, uvmdealloc, if_pos hle]; rfl) ?_
        exact ⟨true, _, rfl, _, _, _, .same (.inr hwrap), rfl, Does.refl h.ok⟩
      · have hnew : ((((s.procs p).sz + n) % 2 ^ 64).toNat : Int) = (s.procs p).sz + n := by
          simp only [trapframeVa, trampolineVa, maxVa, pgSize] at hsz; omega
        refine Returns.bindK (h.ok.uvmdealloc 0 _ _ him.mem_roots hsz (by omega)) ?_
        rintro sz k' ⟨rfl, hd⟩
        exact ⟨true, _, rfl, _, _, k', .shrunk _ hneg hnew, rfl, hd⟩
    · rw [if_neg hneg]
      exact returns_pure ⟨_, _, _, .same (.inl (by omega)), hsame, Does.refl h.ok⟩

/-- Growing and shrinking concern the pages above the new size. -/
theorem Sys.Inv.grown_resized {n : Int} {ok : Bool} {sz : Nat} {es : List Edit} {k' : Kmem}
    (hg : Growth (s.procs p).pagetable (s.procs p).sz n ok sz es)
    (hd : Does (s.procs p).pagetable s.kmem s.roots s.held es k' s.roots s.held) :
    s.Resized p sz { s with kmem := k', procs := Function.update s.procs p { s.procs p with sz := sz } } := by
  have him := h.live hl
  cases hg with
  | failed pas hlen =>
    have hundo := fun r v => hd.edits.mapsUndone (view_clean _ _)
      (fun v hlo hhi => him.above v hlo (by omega)) r v
    refine h.resized hl rfl rfl rfl rfl him.size hd (fun e he => ?_) (fun v hlo hhi => ?_)
      fun r v hv _ => (hundo r v).2 hv
    · rcases List.mem_append.mp he with he | he
      · obtain ⟨v, pa, -, hv, rfl⟩ := mem_maps he
        exact .map v pa (by omega)
      · obtain ⟨v, -, hv, rfl⟩ := mem_unmaps he
        exact .unmap v (by omega)
    · rw [(hundo _ v).1]
      exact him.above v hlo hhi
  | grown hn hle pas hlen =>
    have hpages := pages_le_user hle
    have hmono := pages_mono (Nat.le_add_right (s.procs p).sz n.toNat)
    refine h.resized hl rfl rfl rfl rfl hle hd (fun e he => ?_) (fun v hlo hhi => ?_) fun r v hv _ => ?_
    · obtain ⟨v, pa, -, hv, rfl⟩ := mem_maps he
      exact .map v pa (by omega)
    · rw [hd.edits.maps_pte, if_neg (by omega)]
      exact him.above v (by omega) hhi
    · refine hd.edits.sees_quiet hv (view_clean _ _) fun e he => ?_
      obtain ⟨_, _, -, -, rfl⟩ := mem_maps he
      trivial
  | shrunk newsz hn hsz =>
    have hpages := him.pages_le
    have hlt : sz < (s.procs p).sz := by omega
    have hmono := pages_mono (Nat.le_of_lt hlt)
    refine h.resized hl rfl rfl rfl rfl (Nat.le_of_lt (Nat.lt_of_lt_of_le hlt him.size)) hd (fun e he => ?_)
      (fun v hlo hhi => ?_) fun r v hv hne => ?_
    · obtain ⟨v, -, hv, rfl⟩ := mem_unmaps he
      exact .unmap v (by omega)
    · by_cases hin : v < pgRoundUp (s.procs p).sz / pgSize
      · exact hd.edits.unmaps_zero (view_clean _ _) hlo (by omega)
      · rw [hd.edits.unmaps_pte, if_neg (by omega)]
        exact him.above v (by omega) hhi
    · rw [hd.edits.unmaps_sees (view_clean _ _) r v hv, if_neg]
      · rfl
      · rintro ⟨rfl, h1, -⟩
        exact hne ⟨rfl, h1⟩
  | same hn =>
    refine h.resized hl rfl rfl rfl rfl him.size hd nofun (fun v hlo hhi => ?_) fun r v _ _ => ?_
    · rw [hd.view_eq]
      exact him.above v hlo hhi
    · rw [hd.view_eq]
      rfl

/-- `growproc(n)`, as the processes see it. -/
theorem Sys.Inv.growproc {n : Int} (hn : -2 ^ 31 ≤ n) :
    Returns (growproc p n) s fun ok s' => ∃ sz, s.Resized p sz s' ∧
      (ok = false → sz = (s.procs p).sz) ∧
      (ok = true → (sz : Int) = (s.procs p).sz + n ∨
        ((s.procs p).sz + n < 0 ∧ sz = (s.procs p).sz)) := by
  refine (h.growproc_does hl hn).mono ?_
  rintro ok s' ⟨sz, es, k', hg, rfl, hd⟩
  refine ⟨sz, h.grown_resized hl hg ?_, fun hok => ?_, fun hok => ?_⟩
  · split at hd
    · exact hd
    · exact hd.of_new zero_not_mem_roots
  · cases hg
    · rfl
    all_goals cases hok
  · cases hg <;> first | omega | cases hok

/-- `sys_sbrk(n)`. -/
theorem Sys.Inv.sysSbrk (n : BitVec 32) (eager : Bool) :
    Returns (sysSbrk p n eager) s fun res s' => ∃ sz, s.Resized p sz s' ∧
      (res = none → sz = (s.procs p).sz) ∧
      (∀ a, res = some a → a = (s.procs p).sz ∧ ((sz : Int) = (s.procs p).sz + n.toInt ∨
        ((s.procs p).sz + n.toInt < 0 ∧ sz = (s.procs p).sz))) := by
  have hn : -2 ^ 31 ≤ n.toInt := by have := BitVec.le_toInt n; simpa using this
  refine returns_bind rfl ?_
  by_cases hc : eager ∨ n.toInt < 0
  · rw [if_pos hc]
    refine (h.growproc hl hn).bind ?_
    rintro ok s' ⟨sz, hr, hfail, hok⟩
    cases ok with
    | true => exact returns_pure ⟨sz, hr, nofun, fun a ha => by cases ha; exact ⟨rfl, hok rfl⟩⟩
    | false => exact returns_pure ⟨sz, hr, fun _ => hfail rfl, nofun⟩
  · have hsz := (h.live hl).size
    have hnn : n.toInt = n.toNat := by
      have := BitVec.toInt_eq_toNat_cond n
      split at this <;> omega
    rw [if_neg hc]
    simp only
    generalize hnew : ((s.procs p).sz + n.toNat) % 2 ^ 64 = newsz
    by_cases hlt : newsz < (s.procs p).sz
    · rw [if_pos hlt]
      exact returns_pure ⟨_, h.resized_same hl, fun _ => rfl, nofun⟩
    · rw [if_neg hlt]
      by_cases hbig : trapframeVa < newsz
      · rw [if_pos hbig]
        exact returns_pure ⟨_, h.resized_same hl, fun _ => rfl, nofun⟩
      · rw [if_neg hbig]
        refine ⟨_, _, rfl, newsz, h.resized_lazy hl rfl rfl rfl rfl (by omega) (by omega) rfl, nofun,
          fun a ha => ?_⟩
        cases ha
        refine ⟨rfl, Or.inl ?_⟩
        have := n.isLt
        simp only [trapframeVa, trampolineVa, maxVa, pgSize] at hsz; omega

end

end

end MiniOS
