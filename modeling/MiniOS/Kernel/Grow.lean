import MiniOS.Machine.Inv
import Mathlib.Order.Interval.Finset.Nat

/-!
# MiniOS.Kernel.Grow

`growproc` is all or nothing: what it leaves of all page tables, of the bytes
behind them and of the reference counts, for every number of free pages.
-/

namespace MiniOS

open Total

section
variable [KernelImage] {k k' : Kmem} {roots held : Finset Nat} {r v q : Nat}

/-! ## Counts of mapped pages -/

/-- The count of a mapped page is the number of entries that map it. -/
theorem Ok.getref_eq (h : Ok k roots held) (hu : (view k roots).Uses r v q) :
    getref k q = (users k.mem roots q).card := by
  obtain ⟨bs, kind, h⟩ := h
  exact (h.ref_user hu).2.2

theorem Ok.getref_same (h : Ok k roots held) (h' : Ok k' roots held) (hu : (view k roots).Uses r v q)
    (hsame : ∀ r v, (view k' roots).Uses r v q ↔ (view k roots).Uses r v q) : getref k' q = getref k q := by
  have husers : users k'.mem roots q = users k.mem roots q := by
    ext ⟨r, v⟩
    rw [← uses_view, ← uses_view, hsame]
  rw [h.getref_eq hu, h'.getref_eq ((hsame r v).mpr hu), husers]

/-- A page that has lost its last entry is free. -/
theorem Ok.getref_unused (h : Ok k roots held) (h' : Ok k' roots held)
    (hpages : ∀ r ∈ roots, SamePages k.mem k'.mem r) (hu : (view k roots).Uses r v q)
    (hno : ∀ r v, ¬ (view k' roots).Uses r v q) : getref k' q = 0 := by
  obtain ⟨bs, kind, h⟩ := h
  obtain ⟨bs', kind', h'⟩ := h'
  obtain ⟨hkind, hman, -⟩ := h.ref_user hu
  have hfree : kind' q = .free := by
    cases hk : kind' q with
    | free => rfl
    | held =>
      have := ((h.held_iff q).mp ((h'.held_iff q).mpr ⟨hman, hk⟩)).2
      rw [hkind] at this
      cases this
    | user =>
      obtain ⟨⟨r, v⟩, hm⟩ := Finset.card_pos.mp (h'.pos q hk)
      exact absurd (uses_view.mpr hm) (hno r v)
    | table r path =>
      have hr := h'.tree.mem_roots hk
      have hlen := h'.tree.depth q r path hk
      rw [← h'.tree.tableAt_iff hr hlen, hpages r hr path hlen, h.tree.tableAt_iff hr hlen, hkind] at hk
      cases hk
  rw [h'.ref q hman, hfree]
  rfl

/-- Who uses a page when the pages `lo, .., lo + n - 1` of a table are unmapped. -/
theorem Edits.unmaps_uses {V V' : View} {lo n : Nat} (h : Edits V (unmaps r lo n) V') (r' v' : Nat) :
    V'.Uses r' v' q ↔ V.Uses r' v' q ∧ ¬ (r' = r ∧ lo ≤ v' ∧ v' < lo + n) := by
  simp only [View.Uses, Hits, h.unmaps_pte]
  split
  next hin => simp [hin.1]
  next hout => exact ⟨fun hu => ⟨hu, fun hc => hout ⟨hc, hu.2.1⟩⟩, fun hu => hu.1⟩

/-- The pages of a range by which a table maps `q`. -/
def mapping (V : View) (r lo n q : Nat) : Finset Nat := (Finset.Ico lo (lo + n)).filter fun v => V.Uses r v q

/-- Each entry that is unmapped gives up its reference. -/
theorem Ok.getref_unmaps (h : Ok k roots held) (h' : Ok k' roots held)
    (hpages : ∀ r ∈ roots, SamePages k.mem k'.mem r) {lo n : Nat}
    (hd : Edits (view k roots) (unmaps r lo n) (view k' roots)) {r' v' : Nat}
    (hu : (view k roots).Uses r' v' q) :
    getref k' q + (mapping (view k roots) r lo n q).card = getref k q := by
  have hsplit : users k.mem roots q = users k'.mem roots q ∪ {r} ×ˢ mapping (view k roots) r lo n q := by
    ext ⟨r₁, v₁⟩
    rw [Finset.mem_union, Finset.mem_product, Finset.mem_singleton, mapping, Finset.mem_filter, Finset.mem_Ico,
      ← uses_view, ← uses_view, hd.unmaps_uses]
    dsimp only
    constructor
    · intro hu₁
      by_cases hin : r₁ = r ∧ lo ≤ v₁ ∧ v₁ < lo + n
      · exact .inr ⟨hin.1, hin.2, hin.1 ▸ hu₁⟩
      · exact .inl ⟨hu₁, hin⟩
    · rintro (⟨hu₁, -⟩ | ⟨rfl, -, hu₁⟩)
      · exact hu₁
      · exact hu₁
  have hdisj : Disjoint (users k'.mem roots q) ({r} ×ˢ mapping (view k roots) r lo n q) := by
    rw [Finset.disjoint_left]
    rintro ⟨r₁, v₁⟩ h₁ h₂
    rw [← uses_view, hd.unmaps_uses] at h₁
    rw [Finset.mem_product, Finset.mem_singleton, mapping, Finset.mem_filter, Finset.mem_Ico] at h₂
    exact h₁.2 ⟨h₂.1, h₂.2.1⟩
  have hleft : getref k' q = (users k'.mem roots q).card := by
    by_cases hex : ∃ r v, (view k' roots).Uses r v q
    · obtain ⟨r₁, v₁, hu₁⟩ := hex
      exact h'.getref_eq hu₁
    · rw [h.getref_unused h' hpages hu fun r v hc => hex ⟨r, v, hc⟩, eq_comm, Finset.card_eq_zero,
        Finset.eq_empty_iff_forall_notMem]
      rintro ⟨r₁, v₁⟩ hm
      exact hex ⟨r₁, v₁, uses_view.mpr hm⟩
  rw [h.getref_eq hu, hleft, hsplit, Finset.card_union_of_disjoint hdisj, Finset.card_product,
    Finset.card_singleton, Nat.one_mul]

end

/-! ## growproc -/

section
variable [KernelImage] {s s' : Sys} {p : Fin nproc} {r lo hi : Nat}

/-- Every leaf entry of every page table is as before, and so are the bytes behind it and the trapframes,
except for the pages `lo, .., hi - 1` of the table `r`. -/
structure Sys.KeptOutside (s : Sys) (r lo hi : Nat) (s' : Sys) : Prop where
  pte : ∀ r' v, ¬ (r' = r ∧ lo ≤ v ∧ v < hi) → s'.view.pte r' v = s.view.pte r' v
  sees : ∀ r' v, v < userVpn → ¬ (r' = r ∧ lo ≤ v ∧ v < hi) → s'.view.sees r' v = s.view.sees r' v
  frames : ∀ q ∈ s.held, s'.kmem.mem q = s.kmem.mem q

/-- The counts of the pages that are mapped are as before. -/
def Sys.SameRefs (s s' : Sys) : Prop :=
  ∀ r v q, s.view.Uses r v q → getref s'.kmem q = getref s.kmem q

/-- A page is mapped for reading and writing, it is zero, and the entry has the only reference to it. -/
structure Sys.NewPage (s : Sys) (r v : Nat) : Prop where
  flags : pteFlags (s.view.pte r v) = pteR ||| pteU ||| pteW ||| pteV
  zero : s.kmem.mem (pte2pa (s.view.pte r v)) = zeroPage
  ref : getref s.kmem (pte2pa (s.view.pte r v)) = 1

/-- A page that is mapped writable, and seen as zero. -/
theorem Sys.Inv.newPage (h : s.Inv) (hr : r ∈ s.roots) {v pa : Nat} (hv : v < userVpn)
    (hpte : s.view.pte r v = pa2pte pa ||| (pteR ||| pteU ||| pteW) ||| pteV)
    (hsees : s.view.sees r v = zeroPage) : s.NewPage r v := by
  have hV : has (s.view.pte r v) pteV := by
    rw [hpte]
    simp
  have hleaf : s.view.pte r v = leafPte s.kmem.mem r v := view_pte hr (maxVpn_of_user hv)
  refine ⟨?_, ?_, ?_⟩
  · rw [hpte, BitVec.or_assoc]
    exact pteFlags_pa2pte_or pa (by decide)
  · rw [Sys.view, view_sees hr hv (by rw [← hleaf]; exact hV), ← hleaf] at hsees
    exact hsees
  · obtain ⟨bs, kind, hok⟩ := h.ok
    exact (hok.sole_iff ⟨hv, hV, rfl⟩).mp (h.excl r v hv hV (by rw [hpte]; simp))

/-- Where a process grows, the pages that others and it itself have mapped keep their counts. -/
theorem Sys.Inv.sameRefs (h : s.Inv) (h' : s'.Inv) (hroots : s'.roots = s.roots) (hheld : s'.held = s.held)
    (hnew : ∀ v, lo ≤ v → v < hi → v < userVpn ∧ s.view.pte r v = 0 ∧ has (s'.view.pte r v) pteV ∧
      has (s'.view.pte r v) pteW) (hkept : s.KeptOutside r lo hi s') : s.SameRefs s' := by
  intro r₁ v₁ q hu
  have hout : ¬ (r₁ = r ∧ lo ≤ v₁ ∧ v₁ < hi) := by
    rintro ⟨rfl, h1, h2⟩
    have := hu.2.1
    rw [(hnew v₁ h1 h2).2.1] at this
    simp at this
  have hu' : s'.view.Uses r₁ v₁ q := by
    rw [View.Uses, hkept.pte r₁ v₁ hout]
    exact hu
  have hok' := h'.ok
  rw [hroots, hheld] at hok'
  refine h.ok.getref_same hok' hu fun r₂ v₂ => ?_
  have hview : MiniOS.view s'.kmem s.roots = s'.view := by rw [Sys.view, hroots]
  rw [hview]
  by_cases hin : r₂ = r ∧ lo ≤ v₂ ∧ v₂ < hi
  · -- a page that can be written has one user
    obtain ⟨rfl, h1, h2⟩ := hin
    obtain ⟨hv, h0, hV, hW⟩ := hnew v₂ h1 h2
    refine iff_of_false (fun hc => ?_) fun hc => ?_
    · have hsole := h'.excl r₂ v₂ hv hV hW
      rw [hc.2.2] at hsole
      obtain ⟨rfl, rfl⟩ := hsole r₁ v₁ hu'
      exact hout ⟨rfl, h1, h2⟩
    · have := hc.2.1
      change has (s.view.pte r₂ v₂) pteV = true at this
      rw [h0] at this
      simp at this
  · rw [View.Uses, hkept.pte r₂ v₂ hin]
    exact Iff.rfl

/-- The first page that a process of size `sz` does not have. -/
def firstPage (sz : Nat) : Nat := pgRoundUp sz / pgSize

section
variable (h : s.Inv) (hl : (s.procs p).state ≠ .unused) (hframes : ∀ q ∈ s.held, s'.kmem.mem q = s.kmem.mem q)
include h hl hframes

/-- `growproc` has unmapped again what it had mapped. -/
theorem Sys.Inv.keptOutside_failed {pas : List Nat} (hlen : firstPage (s.procs p).sz + pas.length ≤ userVpn)
    (hd : Edits s.view (maps (s.procs p).pagetable (pteR ||| pteU ||| pteW) (firstPage (s.procs p).sz) pas ++
      unmaps (s.procs p).pagetable (firstPage (s.procs p).sz) pas.length) s'.view) :
    s.KeptOutside (s.procs p).pagetable 0 0 s' := by
  have hundo := hd.mapsUndone (view_clean _ _) fun v hlo hhi => (h.live hl).above v hlo (by omega)
  exact ⟨fun r v _ => (hundo r v).1, fun r v hv _ => (hundo r v).2 hv, hframes⟩

/-- `growproc` has mapped new pages. -/
theorem Sys.Inv.keptOutside_grown {sz : Nat} (hsz : sz ≤ trapframeVa) (hle : (s.procs p).sz ≤ sz) {pas : List Nat}
    (hlen : pas.length = firstPage sz - firstPage (s.procs p).sz) (h' : s'.Inv)
    (hr : (s.procs p).pagetable ∈ s'.roots)
    (hd : Edits s.view (maps (s.procs p).pagetable (pteR ||| pteU ||| pteW) (firstPage (s.procs p).sz) pas) s'.view) :
    s.KeptOutside (s.procs p).pagetable (firstPage (s.procs p).sz) (firstPage sz) s' ∧
      ∀ v, firstPage (s.procs p).sz ≤ v → v < firstPage sz → s'.NewPage (s.procs p).pagetable v := by
  have hmono : firstPage (s.procs p).sz ≤ firstPage sz := pages_mono hle
  have hmax : firstPage sz ≤ userVpn := pages_le_user hsz
  have hpte := hd.maps_pte
  have hsees : ∀ r v, v < userVpn → s'.view.sees r v = s.view.sees r v := fun r v hv =>
    hd.sees_quiet hv (view_clean _ _) fun e he => by
      obtain ⟨_, _, -, -, rfl⟩ := mem_maps he
      trivial
  refine ⟨⟨fun r v hout => ?_, fun r v hv _ => hsees r v hv, hframes⟩, fun v hlo hhi => ?_⟩
  · rw [hpte, if_neg (by omega)]
  · have hv : v < userVpn := by omega
    refine h'.newPage hr hv ((hpte _ v).trans (if_pos ⟨rfl, hlo, by omega⟩)) ?_
    rw [hsees _ v hv]
    exact (h.live hl).sees_above hlo hv

/-- `growproc` has unmapped the pages above the new size. -/
theorem Sys.Inv.keptOutside_shrunk {sz : Nat} (hle : sz ≤ (s.procs p).sz)
    (hd : Edits s.view (unmaps (s.procs p).pagetable (firstPage sz)
      (firstPage (s.procs p).sz - firstPage sz)) s'.view) :
    s.KeptOutside (s.procs p).pagetable (firstPage sz) userVpn s' ∧
      ∀ v, firstPage sz ≤ v → v < userVpn → s'.view.pte (s.procs p).pagetable v = 0 := by
  have hmono : firstPage sz ≤ firstPage (s.procs p).sz := pages_mono hle
  have hmax : firstPage (s.procs p).sz ≤ userVpn := (h.live hl).pages_le
  refine ⟨⟨fun r v hout => ?_, fun r v hv hout => ?_, hframes⟩, fun v hlo hhi => ?_⟩
  · rw [hd.unmaps_pte, if_neg (by omega)]
  · rw [hd.unmaps_sees (view_clean _ _) r v hv, if_neg (by omega)]
  · by_cases hin : v < firstPage (s.procs p).sz
    · exact hd.unmaps_zero (view_clean _ _) hlo (by omega)
    · rw [hd.unmaps_pte, if_neg (by omega)]
      exact (h.live hl).above v (Nat.le_of_not_lt hin) hhi

end

/-- `growproc(n)` changes the size and the leaf mappings exactly as requested, or fails and leaves the mappings,
the bytes and the counts of the mapped pages as they were. -/
theorem growproc_all_or_nothing (h : s.Inv) (hl : (s.procs p).state ≠ .unused) {n : Int} (hn : -2 ^ 31 ≤ n) :
    Returns (growproc p n) s fun ok s' => s'.Inv ∧
      if ok = false then
        s'.procs = s.procs ∧ s.KeptOutside (s.procs p).pagetable 0 0 s' ∧ s.SameRefs s'
      else if 0 < n then
        s'.procs = Function.update s.procs p { s.procs p with sz := (s.procs p).sz + n.toNat } ∧
        s.KeptOutside (s.procs p).pagetable (firstPage (s.procs p).sz) (firstPage ((s.procs p).sz + n.toNat)) s' ∧
        s.SameRefs s' ∧
        ∀ v, firstPage (s.procs p).sz ≤ v → v < firstPage ((s.procs p).sz + n.toNat) →
          s'.NewPage (s.procs p).pagetable v
      else if n < 0 ∧ 0 ≤ (s.procs p).sz + n then
        ∃ newsz : Nat, (newsz : Int) = (s.procs p).sz + n ∧
        s'.procs = Function.update s.procs p { s.procs p with sz := newsz } ∧
        s.KeptOutside (s.procs p).pagetable (firstPage newsz) userVpn s' ∧
        (∀ v, firstPage newsz ≤ v → v < userVpn → s'.view.pte (s.procs p).pagetable v = 0) ∧
        ∀ r v q, s.view.Uses r v q → getref s'.kmem q + (mapping s.view (s.procs p).pagetable (firstPage newsz)
          (firstPage (s.procs p).sz - firstPage newsz) q).card = getref s.kmem q
      else s'.procs = s.procs ∧ s.KeptOutside (s.procs p).pagetable 0 0 s' ∧ s.SameRefs s' := by
  refine (h.growproc_does hl hn).mono ?_
  rintro ok s' ⟨sz, es, k', hg, hs', hd⟩
  have hprocs : s'.procs = Function.update s.procs p { s.procs p with sz := sz } := by rw [hs']
  have hroots : s'.roots = s.roots := Sys.roots_same hprocs rfl
  have hheld : s'.held = s.held := Sys.held_same hprocs (by rw [hs']) rfl
  have hinv : s'.Inv := by
    obtain ⟨es', hmoves, -⟩ := (h.grown_resized hl hg (by
      split at hd
      · exact hd
      · exact hd.of_new zero_not_mem_roots)).moves
    rw [hs']
    exact hmoves.inv
  obtain rfl : k' = s'.kmem := by rw [hs']
  have hview : MiniOS.view s'.kmem s.roots = s'.view := by rw [Sys.view, hroots]
  have hedits : Edits s.view es s'.view := by
    rw [← hview]
    exact hd.edits
  have hframes : ∀ q ∈ s.held, s'.kmem.mem q = s.kmem.mem q := fun q hq => hd.frame q hq hq
  have hnothing : s'.procs = s.procs → s.KeptOutside (s.procs p).pagetable 0 0 s' →
      s'.procs = s.procs ∧ s.KeptOutside (s.procs p).pagetable 0 0 s' ∧ s.SameRefs s' := fun hp hkept =>
    ⟨hp, hkept, h.sameRefs hinv hroots hheld (fun v _ hv => absurd hv (Nat.not_lt_zero v)) hkept⟩
  refine ⟨hinv, ?_⟩
  cases hg with
  | failed pas hlen =>
    rw [if_pos rfl]
    exact hnothing (by rw [hprocs, Function.update_eq_self]) (h.keptOutside_failed hl hframes hlen hedits)
  | grown hpos hle pas hlen =>
    obtain ⟨hkept, hnew⟩ := h.keptOutside_grown hl hframes hle (Nat.le_add_right _ _) hlen hinv
      (by rw [hroots]; exact (h.live hl).mem_roots) hedits
    rw [if_neg (by simp), if_pos hpos]
    refine ⟨hprocs, hkept, h.sameRefs hinv hroots hheld (fun v hlo hhi => ?_) hkept, hnew⟩
    have hv : v < userVpn := Nat.lt_of_lt_of_le hhi (pages_le_user hle)
    obtain ⟨hflags, -, -⟩ := hnew v hlo hhi
    refine ⟨hv, (h.live hl).above v hlo hv, ?_, ?_⟩
    · rw [← (has_pteFlags _).1, hflags]
      simp
    · rw [← (has_pteFlags _).2.2.1, hflags]
      simp
  | shrunk _ hneg hsz =>
    obtain ⟨hkept, hgone⟩ := h.keptOutside_shrunk hl hframes (by omega) hedits
    rw [if_neg (by simp), if_neg (by omega), if_pos ⟨hneg, by omega⟩]
    refine ⟨sz, hsz, hprocs, hkept, hgone, fun r v q hu => ?_⟩
    rw [if_neg (by omega)] at hd
    refine h.ok.getref_unmaps hd.ok (fun r hr => (hd.keeps r hr ?_).2) hd.edits hu
    rintro rfl
    exact zero_not_mem_roots hr
  | same hn =>
    rw [if_neg (by simp), if_neg (by omega), if_neg (by omega)]
    have hsame : s'.view = s.view := Edits.nil_iff.mp hedits
    refine hnothing (by rw [hprocs, Function.update_eq_self]) ⟨fun r v _ => ?_, fun r v _ _ => ?_, hframes⟩
    · rw [hsame]
    · rw [hsame]

end

/-- The first process grows to two pages. -/
theorem growproc_all_or_nothing_twoPages :
    ∃ s s', tinyRun [.userinit] = some s ∧ @growproc tinyImage 0 8192 s = some (true, s') ∧
      (s'.procs 0).sz = 8192 ∧ ∀ v < 2, s'.NewPage (s.procs 0).pagetable v := by
  let _ := tinyImage
  have hrun : ((tinyRun [.userinit]).bind fun s => (growproc 0 8192 s).map fun r =>
      (r.1, (s.procs 0).state, (s.procs 0).sz)) = some (true, .runnable, 0) := by decide +kernel
  obtain ⟨s, hs, hgrow⟩ := Option.bind_eq_some_iff.mp hrun
  obtain ⟨⟨ok, s'⟩, hg, heq⟩ := Option.map_eq_some_iff.mp hgrow
  simp only [Prod.mk.injEq] at heq
  obtain ⟨rfl, hstate, hsz⟩ := heq
  obtain ⟨-, hprocs, -, -, hnew⟩ := (growproc_all_or_nothing (reachable_tinyRun hs).inv (p := 0) (n := 8192)
    (by rw [hstate]; decide) (by decide)).of_run hg
  rw [hsz] at hprocs hnew
  refine ⟨s, s', hs, hg, by rw [hprocs]; simp, fun v hv => hnew v ?_ ?_⟩
  · exact Nat.zero_le _
  · exact hv

end MiniOS
