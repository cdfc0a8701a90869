import MiniOS.Vm.Tables

/-!
# MiniOS.Vm.Fault

Specifications of the functions of `vm.c` that share pages and resolve
faults: `uvmcopy`, `uvmclear`, `walkaddr`, `vmfault`.
-/

namespace MiniOS

open Total

section
variable [KernelImage] {k : Kmem} {roots held : Finset Nat} {ρ : Nat}

/-! ## uvmcopy -/

/-- The pages `lo, .., lo + n - 1` of `old` are shared with `new`. -/
def copies (old new lo n : Nat) : List Edit :=
  (List.range' lo n).flatMap fun v => [.cow old v, .share old new v]

section
omit [KernelImage]

theorem copies_succ (old new lo n : Nat) :
    copies old new lo (n + 1) = [.cow old lo, .share old new lo] ++ copies old new (lo + 1) n := by
  simp [copies, List.range'_succ]

theorem View.edit_cow_invalid {V : View} {r v : Nat} (h : V.pte r v = 0) : V.edit (.cow r v) = V := by
  rw [View.edit, h, cowedPte, if_neg (by simp), ← h, View.setPte_self]

theorem View.edit_share_invalid {V : View} {old new v : Nat} (h : V.pte old v = 0) :
    V.edit (.share old new v) = V := by
  rw [View.edit, h, if_neg (by simp)]

end

theorem Ok.uvmcopyLoop {old new : Nat} (hold : old ∈ roots) (hnew : new ∈ roots) (hne : old ≠ new) :
    ∀ {n lo : Nat} {k : Kmem}, Ok k roots held → lo + n ≤ userVpn →
      (∀ v, lo ≤ v → v < lo + n → (view k roots).pte new v = 0) →
      Returns (uvmcopyLoop old new n (lo * pgSize)) k fun ok k' =>
        (ok = true → Does new k roots held (copies old new lo n) k' roots held) ∧
        (ok = false → ∃ m < n, Does new k roots held
          (copies old new lo m ++ ([.cow old (lo + m)] ++ unmaps new 0 (lo + m))) k' roots held)
  | 0, lo, k, h, _, _ => returns_pure ⟨fun _ => Does.refl h, by simp⟩
  | n + 1, lo, k, h, hn, hfree => by
      have hv : lo < userVpn := by omega
      have hvm := maxVpn_of_user hv
      have hnext : lo * pgSize + pgSize = (lo + 1) * pgSize := by rw [Nat.add_mul, Nat.one_mul]
      have hnew0 : (view k roots).pte new lo = 0 := hfree lo (Nat.le_refl _) (by omega)
      -- what is left to do once page `lo` is shared
      have hrest : ∀ k₁, Does new k roots held [.cow old lo, .share old new lo] k₁ roots held →
          Returns (MiniOS.uvmcopyLoop old new n (lo * pgSize + pgSize)) k₁ fun ok k' =>
            (ok = true → Does new k roots held (copies old new lo (n + 1)) k' roots held) ∧
            (ok = false → ∃ m < n + 1, Does new k roots held
              (copies old new lo m ++ ([.cow old (lo + m)] ++ unmaps new 0 (lo + m))) k' roots held) := by
        intro k₁ hd
        rw [hnext]
        refine (Ok.uvmcopyLoop hold hnew hne hd.ok (by omega) fun v h1 h2 => ?_).mono ?_
        · obtain ⟨-, he⟩ := Edits.cons_iff.mp hd.edits
          obtain ⟨-, he⟩ := Edits.cons_iff.mp he
          rw [Edits.nil_iff.mp he, View.edit_pte]
          have hcow : ((view k roots).edit (.cow old lo)).pte new v = (view k roots).pte new v := by
            rw [View.edit_pte_some rfl, if_neg (by rintro ⟨rfl, -⟩; exact hne rfl)]
          have hvlo : v ≠ lo := by omega
          by_cases hV : has (((view k roots).edit (.cow old lo)).pte old lo) pteV <;>
            simp only [Edit.entry, hV, if_true, if_false, hvlo, and_false, hcow, Bool.false_eq_true] <;>
            exact hfree v (by omega) (by omega)
        · rintro ok k' ⟨hok, hfail⟩
          refine ⟨fun h => ?_, fun h => ?_⟩
          · rw [copies_succ]
            exact hd.trans (hok h) fun _ hp _ => hp
          · obtain ⟨m, hm, hd'⟩ := hfail h
            refine ⟨m + 1, by omega, ?_⟩
            rw [copies_succ, List.append_assoc, show lo + (m + 1) = lo + 1 + m by omega]
            exact hd.trans hd' fun _ hp _ => hp
      have hskip : (view k roots).pte old lo = 0 →
          Does new k roots held [.cow old lo, .share old new lo] k roots held := fun h0 =>
        (h.idle new (e := .cow old lo) hv (View.edit_cow_invalid h0)).trans
          (h.idle new (e := .share old new lo) ⟨hv, hnew0, by rw [h0]; simp, hne, h.root_managed hnew⟩
            (View.edit_share_invalid h0)) fun _ hp _ => hp
      rw [MiniOS.uvmcopyLoop]
      refine returns_bind (walk_false (va_lt hvm) old k) ?_
      cases hs : pteSlot k.mem old (lo * pgSize) with
      | none => exact hrest k (hskip (pte_of_no_slot hold hvm hs))
      | some s =>
        refine returns_bind (a := k.mem s.table s.idx) (t := k) rfl ?_
        by_cases hV : has (k.mem s.table s.idx) pteV
        · have hpte : (view k roots).pte old lo = k.mem s.table s.idx := pte_of_valid hold hv hs hV
          have hd := h.cow new hold hv hs hV
          have hW' : has (pteFlags (k.mem s.table s.idx)) pteW = has (k.mem s.table s.idx) pteW := by simp
          -- the parent's entry is rewritten, then the child's made
          have hcont : ∀ k₁, Does new k roots held [.cow old lo] k₁ roots held →
              Returns (do
                if ← MiniOS.mappages new (lo * pgSize) pgSize (pte2pa (k.mem s.table s.idx))
                    (cowFlags (pteFlags (k.mem s.table s.idx))) then
                  increfK (pte2pa (k.mem s.table s.idx))
                  MiniOS.uvmcopyLoop old new n (lo * pgSize + pgSize)
                else
                  MiniOS.uvmunmap new 0 (lo * pgSize / pgSize) true
                  pure false) k₁ fun ok k' =>
                (ok = true → Does new k roots held (copies old new lo (n + 1)) k' roots held) ∧
                (ok = false → ∃ m < n + 1, Does new k roots held
                  (copies old new lo m ++ ([.cow old (lo + m)] ++ unmaps new 0 (lo + m))) k' roots held) := by
            intro k₁ hd₁
            have hpte₁ : (view k₁ roots).pte old lo = cowedPte (k.mem s.table s.idx) := by
              rw [hd₁.view_one, View.edit_pte_some rfl, if_pos ⟨rfl, rfl⟩, hpte]
            have hnew₁ : (view k₁ roots).pte new lo = 0 := by
              rw [hd₁.view_one, View.edit_pte_some rfl, if_neg (by rintro ⟨rfl, -⟩; exact hne rfl), hnew0]
            refine (hd₁.ok.mappages hnew hvm hnew₁ _ _).bind ?_
            rintro ok k₂ ⟨k₃, hd₃, -, hfail, hok⟩
            have hd₄ := hd₁.trans hd₃ fun _ hp _ => hp
            rw [List.append_nil] at hd₄
            cases ok with
            | true =>
              obtain ⟨s', hs', rfl⟩ := hok rfl
              have hpte₃ : (view k₃ roots).pte old lo = cowedPte (k.mem s.table s.idx) := by
                rw [hd₃.view_eq, hpte₁]
              have hd₅ := hd₃.ok.share new old (cowFlags (pteFlags (k.mem s.table s.idx)))
                hnew hs' (by rw [hd₃.view_eq, hnew₁]) hv (by rw [hpte₃, (has_cowedPte _).2.1, hV]) hne
                (by rw [hpte₃, (has_cowedPte _).1]) (by rw [hpte₃, cowFlags_cowedPte])
              rw [hpte₃, pte2pa_cowedPte] at hd₅
              rw [if_pos rfl]
              exact returns_bind (a := ()) rfl (hrest _ (hd₄.trans hd₅ fun _ hp _ => hp))
            | false =>
              obtain ⟨rfl, -⟩ := hfail rfl
              have hlo : lo * pgSize / pgSize = lo := Nat.mul_div_cancel _ (by decide)
              have hun := hd₃.ok.uvmunmap new 0 hnew (n := lo) (by omega)
              rw [Nat.zero_mul] at hun
              rw [if_neg (by decide), hlo]
              exact hun.bind fun _ k' hd' => returns_pure ⟨by simp, fun _ =>
                ⟨0, Nat.succ_pos n, hd₄.trans hd' fun _ hp _ => hp⟩⟩
          simp only [hV, Bool.not_true, Bool.false_eq_true, if_false, hW']
          by_cases hW : has (k.mem s.table s.idx) pteW
          · rw [if_pos hW] at hd ⊢
            exact returns_bind (a := ()) rfl (hcont _ hd)
          · rw [if_neg hW] at hd ⊢
            exact hcont k hd
        · simp only [hV, Bool.not_false, if_true]
          exact hrest k (hskip (by rw [pte_of_slot hold hvm hs, if_neg hV]))

/-- `uvmcopy` shares every page of `old` below `sz`, or runs out of memory at
some page and takes back what it gave to `new`. -/
theorem Ok.uvmcopy (h : Ok k roots held) {old new sz : Nat} (hold : old ∈ roots) (hnew : new ∈ roots)
    (hne : old ≠ new) (hsz : sz ≤ trapframeVa)
    (hfree : ∀ v < pgRoundUp sz / pgSize, (view k roots).pte new v = 0) :
    Returns (uvmcopy old new sz) k fun ok k' =>
      (ok = true → Does new k roots held (copies old new 0 (pgRoundUp sz / pgSize)) k' roots held) ∧
      (ok = false → ∃ m < pgRoundUp sz / pgSize, Does new k roots held
        (copies old new 0 m ++ ([.cow old m] ++ unmaps new 0 m)) k' roots held) := by
  have hn : (sz + pgSize - 1) / pgSize = pgRoundUp sz / pgSize := by
    simp only [pgRoundUp, pgSize]; omega
  have hend : 0 + pgRoundUp sz / pgSize ≤ userVpn := by
    rw [trapframeVa_eq] at hsz
    simp only [pgRoundUp, pgSize, userVpn] at *; omega
  have := Ok.uvmcopyLoop hold hnew hne h hend fun v _ hv => hfree v (by omega)
  simp only [Nat.zero_mul, Nat.zero_add] at this
  rw [MiniOS.uvmcopy, hn]
  exact this

variable (ρ) in
theorem Ok.uvmclear (h : Ok k roots held) {r v : Nat} (hr : r ∈ roots) (hv : v < userVpn)
    (hV : has ((view k roots).pte r v) pteV)
    (hsole : (view k roots).Sole r v (pte2pa ((view k roots).pte r v))) :
    Returns (uvmclear r (v * pgSize)) k fun _ k' => Does ρ k roots held [.clear r v] k' roots held := by
  have hvm := maxVpn_of_user hv
  rw [MiniOS.uvmclear]
  refine returns_bind (walk_false (va_lt hvm) r k) ?_
  cases hs : pteSlot k.mem r (v * pgSize) with
  | none =>
    rw [pte_of_no_slot hr hvm hs] at hV
    exact absurd hV (by simp)
  | some s =>
    rw [← has_of_slot hr hvm hs] at hV
    rw [pte_of_valid hr hv hs hV] at hsole
    exact returns_bind (a := k.mem s.table s.idx) (t := k) rfl
      ⟨(), _, rfl, h.clear ρ hr hv hs hV hsole⟩

/-! ## walkaddr -/

/-- The page a user entry gives access to, or 0. -/
def userPa (pte : Word) : Nat := if has pte pteV && has pte pteU then pte2pa pte else 0

omit [KernelImage] in
theorem walkaddr_eq {r va : Nat} (hr : r ∈ roots) :
    walkaddr r va k = some (userPa ((view k roots).pte r (va / pgSize)), k) := by
  unfold walkaddr
  by_cases hva : maxVa ≤ va
  · have hvm : ¬ va / pgSize < maxVpn := by simp only [maxVa, maxVpn, pgSize] at *; omega
    rw [if_pos hva, show (view k roots).pte r (va / pgSize) = 0 from if_neg fun hc => hvm hc.2]
    simp [userPa, pure_apply]
  · have hvm : va / pgSize < maxVpn := by simp only [maxVa, maxVpn, pgSize] at *; omega
    rw [if_neg hva, bind_apply, walk_false (by omega), ← pteSlot_div]
    cases hs : pteSlot k.mem r (va / pgSize * pgSize) with
    | none =>
      rw [pte_of_no_slot hr hvm hs]
      simp [userPa, pure_apply]
    | some s =>
      rw [pte_of_slot hr hvm hs]
      simp only [Option.bind_some, bind_apply, readPte]
      by_cases hV : has (k.mem s.table s.idx) pteV
      · by_cases hU : has (k.mem s.table s.idx) pteU <;>
          simp [userPa, hV, hU, pure_apply]
      · simp [userPa, hV, pure_apply]

/-! ## vmfault -/

/-- The permissions of a page that is allocated on a fault. -/
def lazyPerm : Word := pteW ||| pteU ||| pteR

/-- What resolves a fault at page `v` of a table. -/
inductive IsFault (r v : Nat) : Edit → Prop
  | lazy (pa : Nat) : IsFault r v (.map r v (pa2pte pa ||| lazyPerm ||| pteV))
  | copy (pa : Nat) : IsFault r v (.copy r v pa)
  | promote : IsFault r v (.promote r v)

omit [KernelImage] in
theorem toNat_lazyPerm_lt : lazyPerm.toNat < 1024 := by decide

theorem Ok.vmfaultLazy (h : Ok k roots held) {r v : Nat} (hr : r ∈ roots) (hv : v < userVpn)
    (hpte : (view k roots).pte r v = 0) :
    Returns (vmfaultLazy r (v * pgSize)) k fun pa k' =>
      (pa = 0 ∧ Does r k roots held [] k' roots held ∧ nfree k < 3) ∨
      (pa ≠ 0 ∧ ∃ e, IsFault r v e ∧ Does r k roots held [e] k' roots held ∧
        pa = pte2pa ((view k' roots).pte r v) ∧ nfree k ≤ nfree k' + 3) := by
  refine h.kallocK.bind ?_
  rintro pa k₁ (⟨rfl, rfl, hn⟩ | ⟨hpa, hnew, -, hd, hn⟩)
  · rw [if_pos rfl]
    exact returns_pure (Or.inl ⟨rfl, Does.refl h, by omega⟩)
  · rw [if_neg hpa]
    refine returns_bind (a := ()) rfl (((hd r).mapNew hr hv hpte toNat_lazyPerm_lt
      (by simp [lazyPerm]) (by simp [lazyPerm]) hnew).bind ?_)
    rintro ok k₂ ⟨hn₂, hok, hfail⟩
    cases ok with
    | true =>
      have hd₂ := hok rfl
      refine returns_pure (Or.inr ⟨hpa, _, .lazy pa, hd₂, ?_, by omega⟩)
      have hman := (hd r).ok.managed (Finset.mem_insert_self pa held)
      rw [hd₂.view_one, View.edit_pte]
      simp only [Edit.entry, and_self, if_true]
      exact (pte2pa_mapped (managed_lt hman) hman.1 toNat_lazyPerm_lt).symm
    | false =>
      obtain ⟨hd₂, hlt⟩ := hfail rfl
      rw [if_neg (by decide)]
      refine (hd₂.ok.kfreeK r (Finset.mem_insert_self pa held)).bind ?_
      rintro _ k₃ ⟨hd₃, -⟩
      rw [Finset.erase_insert hnew] at hd₃
      exact returns_pure (Or.inl ⟨rfl, hd₂.trans hd₃ fun p hp _ => Finset.mem_insert_of_mem hp,
        by omega⟩)

theorem Ok.vmfaultCow (h : Ok k roots held) {r v : Nat} {s : PteRef} (hr : r ∈ roots) (hv : v < userVpn)
    (hs : pteSlot k.mem r (v * pgSize) = some s) (hV : has (k.mem s.table s.idx) pteV)
    (hcow : has (k.mem s.table s.idx) pteCow) (hW : has (k.mem s.table s.idx) pteW = false) :
    Returns (vmfaultCow r (v * pgSize) s (k.mem s.table s.idx)) k fun pa k' =>
      (pa = 0 ∧ Does r k roots held [] k' roots held) ∨
      (pa ≠ 0 ∧ ∃ e, IsFault r v e ∧ Does r k roots held [e] k' roots held ∧
        pa = pte2pa ((view k' roots).pte r v) ∧ nfree k ≤ nfree k' + 3) := by
  have hman : Managed (pte2pa (k.mem s.table s.idx)) := by
    obtain ⟨bs, kind, ht⟩ := h
    exact (ht.ref_user (uses_slot hr hv hs hV)).2.1
  rw [MiniOS.vmfaultCow]
  refine returns_bind (a := getref k (pte2pa (k.mem s.table s.idx))) (t := k) rfl ?_
  by_cases href : 1 < getref k (pte2pa (k.mem s.table s.idx))
  · rw [if_pos href]
    refine h.kallocK.with_run.bind ?_
    rintro mem k₁ ⟨hrun, ⟨rfl, rfl, hn⟩ | ⟨hmem0, hnew, -, hd, hn⟩⟩
    · rw [if_pos rfl]
      exact returns_pure (Or.inl ⟨rfl, Does.refl h⟩)
    · rw [if_neg hmem0]
      have hd := hd r
      -- `kalloc` has not touched the entry nor the count of the shared page
      obtain ⟨hslots, hrefs⟩ := h.kallocK_frame hrun
      obtain ⟨hslot, htable⟩ := hslots r hr (v * pgSize)
      have hs₁ : pteSlot k₁.mem r (v * pgSize) = some s := by rw [hslot, hs]
      have hin : mem ∈ insert mem held := Finset.mem_insert_self mem held
      have hmanm := hd.ok.managed hin
      have hne : pte2pa (k.mem s.table s.idx) ≠ mem := fun he => by
        have hu := uses_slot hr hv hs₁ (by rw [htable s hs]; exact hV)
        rw [htable s hs, he] at hu
        exact (hd.ok.fresh hin).1 r v hu
      have hpte₁ : k₁.mem s.table s.idx = k.mem s.table s.idx := by rw [htable s hs]
      have href₁ : 1 < getref k₁ (pte2pa (k.mem s.table s.idx)) := by
        rw [getref, hrefs _ hman hne]; exact href
      obtain ⟨n, k₂, hdec, hd₂, hn₂⟩ := hd.ok.copy r hr hv hs₁ (by rw [hpte₁]; exact hV) hin
        (by rw [hpte₁]; exact hcow) (by rw [hpte₁]; exact hW) (by rw [hpte₁]; exact href₁)
      rw [hpte₁] at hdec
      rw [Finset.erase_insert hnew] at hd₂
      have hw : pte2pa (copiedPte mem) = mem := pte2pa_copiedPte (managed_lt hmanm) hmanm.1
      have hd₃ := hd.trans hd₂ fun p hp _ => Finset.mem_insert_of_mem hp
      refine ⟨mem, recordRmap k₂ mem r (v * pgSize), ?_, Or.inr ⟨hmem0, _, .copy mem, hd₃, ?_, ?_⟩⟩
      · simp only [bind_apply, readPage, writePage, writePte, Option.bind_some, decrefK, hdec,
          recordRmapK, hw]
        rfl
      · rw [hd₃.view_one, View.edit_pte]
        simp only [Edit.entry, and_self, if_true, hw]
      · have : nfree (recordRmap k₂ mem r (v * pgSize)) = nfree k₂ := nfree_congr (by simp)
        omega
  · rw [if_neg href]
    have hd := h.promote r hr hv hs hV hcow hW (by omega)
    have htwice : ∀ w w', setWord (setWord k.mem s.table s.idx w) s.table s.idx w' =
        setWord k.mem s.table s.idx w' := fun w w' => by simp [setWord]
    refine ⟨pte2pa (promotedPte (k.mem s.table s.idx)),
      recordRmap { k with mem := setWord k.mem s.table s.idx (promotedPte (k.mem s.table s.idx)) }
        (pte2pa (promotedPte (k.mem s.table s.idx))) r (v * pgSize), ?_, Or.inr ⟨?_, _, .promote, ?_, ?_, ?_⟩⟩
    · simp only [bind_apply, writePte, Option.bind_some, recordRmapK, htwice]
      rfl
    · rw [pte2pa_promotedPte]; exact managed_ne_zero hman
    · rw [pte2pa_promotedPte]; exact hd
    · rw [pte2pa_promotedPte, hd.view_one, View.edit_pte]
      simp only [Edit.entry, and_self, if_true, pte2pa_promotedPte]
      rw [pte_of_valid hr hv hs hV]
    · have : nfree (recordRmap { k with
          mem := setWord k.mem s.table s.idx (promotedPte (k.mem s.table s.idx)) }
          (pte2pa (promotedPte (k.mem s.table s.idx))) r (v * pgSize)) = nfree k := nfree_congr (by simp)
      omega

/-- `vmfault` fails without a trace (except for table pages it may have
added), or resolves the fault and returns the page. -/
theorem Ok.vmfault (h : Ok k roots held) {r sz : Nat} (va : Nat) (hr : r ∈ roots) (hsz : sz ≤ trapframeVa) :
    Returns (vmfault sz r va) k fun pa k' =>
      (pa = 0 ∧ Does r k roots held [] k' roots held ∧
        (va < sz → (view k roots).pte r (va / pgSize) = 0 → nfree k < 3)) ∨
      (pa ≠ 0 ∧ va < sz ∧ ∃ e, IsFault r (va / pgSize) e ∧ Does r k roots held [e] k' roots held ∧
        pa = pte2pa ((view k' roots).pte r (va / pgSize)) ∧ nfree k ≤ nfree k' + 3) := by
  rw [MiniOS.vmfault]
  by_cases hva : sz ≤ va
  · rw [if_pos hva]
    exact returns_pure (Or.inl ⟨rfl, Does.refl h, fun hlt => absurd hlt (by omega)⟩)
  · have hlt : va < sz := by omega
    have hv : va / pgSize < userVpn := by
      rw [trapframeVa_eq] at hsz
      simp only [pgSize, userVpn] at *; omega
    have hvm := maxVpn_of_user hv
    rw [if_neg hva]
    simp only [pgRoundDown]
    -- a page that is not mapped is allocated
    have hlazy : (view k roots).pte r (va / pgSize) = 0 →
        Returns (MiniOS.vmfaultLazy r (va / pgSize * pgSize)) k fun pa k' =>
          (pa = 0 ∧ Does r k roots held [] k' roots held ∧
            (va < sz → (view k roots).pte r (va / pgSize) = 0 → nfree k < 3)) ∨
          (pa ≠ 0 ∧ va < sz ∧ ∃ e, IsFault r (va / pgSize) e ∧ Does r k roots held [e] k' roots held ∧
            pa = pte2pa ((view k' roots).pte r (va / pgSize)) ∧ nfree k ≤ nfree k' + 3) := by
      intro hpte
      refine (h.vmfaultLazy hr hv hpte).mono ?_
      rintro pa k' (⟨hpa, hd, hn⟩ | ⟨hpa, hrest⟩)
      · exact Or.inl ⟨hpa, hd, fun _ _ => hn⟩
      · exact Or.inr ⟨hpa, hlt, hrest⟩
    refine returns_bind (walk_false (va_lt hvm) r k) ?_
    cases hs : pteSlot k.mem r (va / pgSize * pgSize) with
    | none => exact hlazy (pte_of_no_slot hr hvm hs)
    | some s =>
      refine returns_bind (a := k.mem s.table s.idx) (t := k) rfl ?_
      by_cases hV : has (k.mem s.table s.idx) pteV
      · have hmapped : (view k roots).pte r (va / pgSize) ≠ 0 := fun h0 => by
          rw [pte_of_valid hr hv hs hV] at h0
          rw [h0] at hV
          exact absurd hV (by simp)
        simp only [hV, Bool.not_true, Bool.false_eq_true, if_false]
        by_cases hc : (has (k.mem s.table s.idx) pteCow && !has (k.mem s.table s.idx) pteW) = true
        · rw [if_pos hc]
          rw [Bool.and_eq_true, Bool.not_eq_true'] at hc
          refine (h.vmfaultCow hr hv hs hV hc.1 hc.2).mono ?_
          rintro pa k' (⟨hpa, hd⟩ | ⟨hpa, hrest⟩)
          · exact Or.inl ⟨hpa, hd, fun _ h0 => absurd h0 hmapped⟩
          · exact Or.inr ⟨hpa, hlt, hrest⟩
        · rw [if_neg hc]
          exact returns_pure (Or.inl ⟨rfl, Does.refl h, fun _ h0 => absurd h0 hmapped⟩)
      · simp only [hV, Bool.not_false, if_true]
        exact hlazy (by rw [pte_of_slot hr hvm hs, if_neg hV])

end

end MiniOS
