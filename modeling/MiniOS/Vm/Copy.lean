import MiniOS.Vm.Fault
import MiniOS.Cow

/-!
# MiniOS.Vm.Copy

Specifications of `copyout` and `copyin`: which bytes of which process change,
which pages are faulted in on the way, and when `copyout` succeeds.
-/

namespace MiniOS

open Total

/-- The byte that is seen at an address. -/
def View.byte (V : View) (r a : Nat) : Byte := pageByte (V.sees r (a / pgSize)) (a % pgSize)

/-- `v` is a page of the range of `len` bytes from `va`. -/
def Touches (va len v : Nat) : Prop := ∃ a, va ≤ a ∧ a < va + len ∧ a / pgSize = v

/-- The number of pages of a range. -/
def npages (va len : Nat) : Nat := (va % pgSize + len + pgSize - 1) / pgSize

theorem view_clean (k : Kmem) (roots : Finset Nat) : (view k roots).Clean := by
  intro r v hV
  by_cases hrv : r ∈ roots ∧ v < maxVpn
  · have hleaf : has (leafPte k.mem r v) pteV = false := by rw [← view_pte hrv.1 hrv.2]; exact hV
    refine ⟨?_, view_sees_invalid hleaf⟩
    rw [view_pte hrv.1 hrv.2, leafPte, if_neg]
    rw [has_leafPte] at hleaf
    simp [hleaf]
  · refine ⟨if_neg hrv, if_neg fun hc => hrv ⟨hc.1.1, maxVpn_of_user hc.1.2⟩⟩

section
variable [KernelImage] {k : Kmem} {roots held : Finset Nat}

/-! ## what a fault leaves -/

section
variable {V : View} {r v : Nat} {e : Edit} (he : IsFault r v e)
include he

omit [KernelImage] in
theorem IsFault.pte_ne {r' v' : Nat} (hne : ¬ (r' = r ∧ v' = v)) :
    (V.edit e).pte r' v' = V.pte r' v' := by
  cases he <;> rw [View.edit_pte_some rfl, if_neg hne]

theorem IsFault.sees_eq (hc : V.Clean) (hl : V.Legal e) {r' v' : Nat} (hv' : v' < userVpn) :
    (V.edit e).sees r' v' = V.sees r' v' := by
  rw [View.edit_sees hc hl hv']
  cases he <;> rfl

/-- A resolved fault leaves a page that can be written. -/
theorem IsFault.writable (hl : V.Legal e) :
    v < userVpn ∧ has ((V.edit e).pte r v) pteV ∧ has ((V.edit e).pte r v) pteW := by
  cases he with
  | lazy pa =>
    rw [View.edit_pte_some rfl, if_pos ⟨rfl, rfl⟩]
    exact ⟨hl.1, by simp, by simp [lazyPerm]⟩
  | copy pa =>
    rw [View.edit_pte_some rfl, if_pos ⟨rfl, rfl⟩]
    exact ⟨hl.1, by simp [copiedPte], by simp [copiedPte]⟩
  | promote =>
    rw [View.edit_pte_some rfl, if_pos ⟨rfl, rfl⟩]
    exact ⟨hl.1, by simp [promotedPte, hl.2.1], by simp [promotedPte]⟩

end

/-- The state in which `copyout` and `copyin` have found page `v` of `r`: it
was mapped for the user, or has been faulted in. -/
structure FaultedIn (k : Kmem) (roots held : Finset Nat) (sz r v : Nat) (k₁ : Kmem) : Prop where
  does : ∃ es, Does r k roots held es k₁ roots held ∧
    ∀ e ∈ es, IsFault r v e ∧ userPa ((view k roots).pte r v) = 0
  user : v < userVpn
  valid : has ((view k₁ roots).pte r v) pteV
  sees : ∀ r' v', v' < userVpn → (view k₁ roots).sees r' v' = (view k roots).sees r' v'
  other : ∀ r' v', ¬ (r' = r ∧ v' = v) → (view k₁ roots).pte r' v' = (view k roots).pte r' v'
  same : userPa ((view k roots).pte r v) ≠ 0 → (view k₁ roots).pte r v = (view k roots).pte r v
  writable : userPa ((view k roots).pte r v) = 0 → has ((view k₁ roots).pte r v) pteW
  free : nfree k ≤ nfree k₁ + 3
  below : userPa ((view k roots).pte r v) = 0 → v * pgSize < sz

variable {sz r v dstva len : Nat} {src : List Byte}

/-- Nothing is seen above user memory. -/
theorem FaultedIn.sees_all {k₁ : Kmem} (h : FaultedIn k roots held sz r v k₁)
    (r' v' : Nat) : (view k₁ roots).sees r' v' = (view k roots).sees r' v' := by
  by_cases hv' : v' < userVpn
  · exact h.sees r' v' hv'
  · rw [view_sees_kernel (by omega), view_sees_kernel (by omega)]

/-- The page of `copyout` and `copyin`. -/
theorem Ok.userPage (h : Ok k roots held) (hr : r ∈ roots) (hsz : sz ≤ trapframeVa)
    (hhigh : ∀ v, userVpn ≤ v → has ((view k roots).pte r v) pteU = false) :
    Returns (userPage sz r (v * pgSize)) k fun pa k₁ =>
      (pa = 0 ∧ Does r k roots held [] k₁ roots held ∧
        userPa ((view k roots).pte r v) = 0 ∧
        (v * pgSize < sz → (view k roots).pte r v = 0 → nfree k < 3)) ∨
      (pa ≠ 0 ∧ pa = pte2pa ((view k₁ roots).pte r v) ∧ FaultedIn k roots held sz r v k₁) := by
  have hdiv : v * pgSize / pgSize = v := Nat.mul_div_cancel _ (by decide)
  refine returns_bind (walkaddr_eq hr) ?_
  rw [hdiv]
  by_cases hpa : userPa ((view k roots).pte r v) = 0
  · rw [if_pos hpa]
    have hvm := h.vmfault (v * pgSize) hr hsz
    rw [hdiv] at hvm
    refine hvm.mono ?_
    rintro pa k₁ (⟨h0, hd, hn⟩ | ⟨h0, hlt, e, he, hd, hp, hn⟩)
    · exact Or.inl ⟨h0, hd, hpa, hn⟩
    · have hl := (Edits.cons_iff.mp hd.edits).1
      obtain ⟨hv, hV, hW⟩ := he.writable hl
      rw [← hd.view_one] at hV hW
      refine Or.inr ⟨h0, hp, ⟨[e], hd, by simp [he, hpa]⟩, hv, hV, fun r' v' hv' => ?_,
        fun r' v' hne => ?_, fun hne => absurd hpa hne, fun _ => hW, hn, fun _ => hlt⟩
      · rw [hd.view_one, he.sees_eq (view_clean k roots) hl hv']
      · rw [hd.view_one, he.pte_ne hne]
  · rw [if_neg hpa]
    have hc : (has ((view k roots).pte r v) pteV && has ((view k roots).pte r v) pteU) = true := by
      by_contra hc
      exact hpa (if_neg hc)
    have hu : userPa ((view k roots).pte r v) = pte2pa ((view k roots).pte r v) := if_pos hc
    rw [Bool.and_eq_true] at hc
    have hv : v < userVpn := by
      by_contra hv
      rw [hhigh v (by omega)] at hc
      exact absurd hc.2 (by decide)
    exact returns_pure (Or.inr ⟨hpa, hu, ⟨[], Does.refl h, by simp⟩, hv, hc.1, fun _ _ _ => rfl,
      fun _ _ _ => rfl, fun _ => rfl, fun h0 => absurd h0 hpa, by omega, fun h0 => absurd h0 hpa⟩)

/-! ## copyout -/

/-- What `copyout` of `src` to `dstva` does, when it copies `n` bytes. -/
structure CopiedOut (k : Kmem) (roots held : Finset Nat) (sz r dstva : Nat) (src : List Byte)
    (ok : Bool) (n : Nat) (k' : Kmem) : Prop where
  len : n ≤ src.length
  ok_iff : ok = true ↔ n = src.length
  does : ∃ es, Does r k roots held es k' roots held ∧ ∀ e ∈ es, ∃ v, Touches dstva src.length v ∧
    (userPa ((view k roots).pte r v) = 0 → v * pgSize < sz) ∧
    ((IsFault r v e ∧ userPa ((view k roots).pte r v) = 0) ∨ ∃ page, e = .write r v page)
  byte : ∀ r' a, a / pgSize < userVpn → (view k' roots).byte r' a =
    if r' = r ∧ dstva ≤ a ∧ a < dstva + n then src.getD (a - dstva) 0 else (view k roots).byte r' a
  /-- success means that every page was writable or could be faulted in -/
  writable : ok = true → ∀ v, Touches dstva src.length v →
    userPa ((view k roots).pte r v) = 0 ∨ has ((view k roots).pte r v) pteW
  /-- three free pages for each page of the range are enough -/
  enough : (∀ v, Touches dstva src.length v →
      (userPa ((view k roots).pte r v) ≠ 0 ∧ has ((view k roots).pte r v) pteW) ∨
        ((view k roots).pte r v = 0 ∧ v * pgSize < sz)) →
    3 * npages dstva src.length ≤ nfree k → ok = true
  /-- no free page is needed where all pages are there -/
  mapped : (∀ v, Touches dstva src.length v →
      userPa ((view k roots).pte r v) ≠ 0 ∧ has ((view k roots).pte r v) pteW) → ok = true

section
omit [KernelImage]

theorem touches_first (h : 0 < len) : Touches dstva len (dstva / pgSize) :=
  ⟨dstva, Nat.le_refl _, by omega, rfl⟩

/-- The pages of a range are the first one and those of the rest. -/
theorem touches_cons (h : Touches dstva len v) :
    v = dstva / pgSize ∨ Touches (dstva / pgSize * pgSize + pgSize)
      (len - min (pgSize - dstva % pgSize) len) v := by
  obtain ⟨a, h1, h2, rfl⟩ := h
  by_cases hv : a / pgSize = dstva / pgSize
  · exact Or.inl hv
  · refine Or.inr ⟨a, ?_, ?_, rfl⟩ <;> simp only [pgSize] at * <;> omega

theorem touches_rest (h : Touches (dstva / pgSize * pgSize + pgSize)
      (len - min (pgSize - dstva % pgSize) len) v) : Touches dstva len v ∧ v ≠ dstva / pgSize := by
  obtain ⟨a, h1, h2, rfl⟩ := h
  refine ⟨⟨a, ?_, ?_, rfl⟩, ?_⟩ <;> simp only [pgSize] at * <;> omega

theorem npages_cons (dstva : Nat) (h : 0 < len) :
    npages (dstva / pgSize * pgSize + pgSize) (len - min (pgSize - dstva % pgSize) len) + 1 ≤
      npages dstva len := by
  simp only [npages, pgSize]; omega

/-- The bytes of one page of a copy, and of the rest. -/
theorem byte_cons {V V₂ : View} {n₀ n : Nat}
    (hn₀ : n₀ = min (pgSize - dstva % pgSize) src.length)
    (hn : n ≤ src.length - min (pgSize - dstva % pgSize) src.length)
    (hsees : ∀ r' v', v' < userVpn → V₂.sees r' v' =
      if r' = r ∧ v' = dstva / pgSize then
        pageWrite (V.sees r (dstva / pgSize)) (dstva % pgSize) (src.take n₀)
      else V.sees r' v') {r' a : Nat} (ha : a / pgSize < userVpn) :
    (if r' = r ∧ dstva / pgSize * pgSize + pgSize ≤ a ∧ a < dstva / pgSize * pgSize + pgSize + n then
        (src.drop n₀).getD (a - (dstva / pgSize * pgSize + pgSize)) 0
      else V₂.byte r' a) =
      if r' = r ∧ dstva ≤ a ∧ a < dstva + (n₀ + n) then src.getD (a - dstva) 0 else V.byte r' a := by
  have hmod : dstva / pgSize * pgSize + dstva % pgSize = dstva := Nat.div_add_mod' dstva pgSize
  have hoff : dstva % pgSize < pgSize := Nat.mod_lt _ (by decide)
  -- bytes are left only when the first page was filled to its end
  have hfull : n = 0 ∨ n₀ = pgSize - dstva % pgSize := by omega
  by_cases hr : r' = r
  · simp only [hr, true_and]
    by_cases h1 : dstva / pgSize * pgSize + pgSize ≤ a ∧ a < dstva / pgSize * pgSize + pgSize + n
    · have hidx : n₀ + (a - (dstva / pgSize * pgSize + pgSize)) = a - dstva := by omega
      rw [if_pos h1, if_pos (by omega), List.getD_eq_getElem?_getD, List.getD_eq_getElem?_getD,
        List.getElem?_drop, hidx]
    · rw [if_neg h1, View.byte, View.byte, hsees r _ ha]
      by_cases h2 : a / pgSize = dstva / pgSize
      · have hlen : (src.take n₀).length = n₀ := by rw [List.length_take]; omega
        have hamod : dstva / pgSize * pgSize + a % pgSize = a := by
          rw [← h2]; exact Nat.div_add_mod' a pgSize
        have hlt : a % pgSize < pgSize := Nat.mod_lt _ (by decide)
        have hfit : dstva % pgSize + (src.take n₀).length ≤ pgSize := by omega
        rw [if_pos ⟨rfl, h2⟩, pageByte_pageWrite _ _ _ _ hfit hlt, hlen, h2]
        by_cases h3 : dstva % pgSize ≤ a % pgSize ∧ a % pgSize < dstva % pgSize + n₀
        · have hidx : a % pgSize - dstva % pgSize = a - dstva := by omega
          rw [if_pos h3, if_pos (by omega), List.getD_eq_getElem?_getD, List.getD_eq_getElem?_getD,
            List.getElem?_take, if_pos (by omega), hidx]
        · rw [if_neg h3, if_neg (by omega)]
      · rw [if_neg fun hc => h2 hc.2, if_neg]
        simp only [pgSize] at *; omega
  · simp only [hr, false_and, if_false, View.byte, hsees r' _ ha]

end

/-- One page of `copyout`, then the rest. -/
theorem CopiedOut.cons {n₀ n : Nat} {ok : Bool} {k₂ k' : Kmem}
    {es : List Edit} (hsrc : 0 < src.length) (hn₀ : n₀ = min (pgSize - dstva % pgSize) src.length)
    (hd : Does r k roots held es k₂ roots held)
    (hes : ∀ e ∈ es, (IsFault r (dstva / pgSize) e ∧
      userPa ((view k roots).pte r (dstva / pgSize)) = 0) ∨ ∃ page, e = .write r (dstva / pgSize) page)
    (hpte : ∀ v, v ≠ dstva / pgSize → (view k₂ roots).pte r v = (view k roots).pte r v)
    (hsees : ∀ r' v', v' < userVpn → (view k₂ roots).sees r' v' =
      if r' = r ∧ v' = dstva / pgSize then
        pageWrite ((view k roots).sees r (dstva / pgSize)) (dstva % pgSize) (src.take n₀)
      else (view k roots).sees r' v')
    (hready : userPa ((view k roots).pte r (dstva / pgSize)) = 0 ∨
      has ((view k roots).pte r (dstva / pgSize)) pteW)
    (hbelow : userPa ((view k roots).pte r (dstva / pgSize)) = 0 → dstva / pgSize * pgSize < sz)
    (hn : nfree k ≤ nfree k₂ + 3)
    (h : CopiedOut k₂ roots held sz r (dstva / pgSize * pgSize + pgSize) (src.drop n₀) ok n k') :
    CopiedOut k roots held sz r dstva src ok (n₀ + n) k' := by
  have hlen : (src.drop n₀).length = src.length - min (pgSize - dstva % pgSize) src.length := by
    rw [List.length_drop, hn₀]
  have hle := h.len
  have hok := h.ok_iff
  obtain ⟨es', hd', hes'⟩ := h.does
  have hwr := h.writable
  have hen := h.enough
  have hmap := h.mapped
  rw [hlen] at hle hok hes' hwr hen hmap
  refine ⟨by omega, by rw [hok]; omega, ⟨es ++ es', hd.trans hd' fun _ hp _ => hp, ?_⟩, ?_, ?_, ?_, ?_⟩
  · intro e he
    rcases List.mem_append.mp he with he | he
    · exact ⟨dstva / pgSize, touches_first hsrc, hbelow, hes e he⟩
    · obtain ⟨v, ht, hev⟩ := hes' e he
      obtain ⟨ht', hne⟩ := touches_rest ht
      rw [hpte v hne] at hev
      exact ⟨v, ht', hev⟩
  · intro r' a ha
    rw [h.byte r' a ha]
    exact byte_cons hn₀ hle hsees ha
  · intro hk v ht
    rcases touches_cons ht with rfl | ht'
    · exact hready
    · have := hwr hk v ht'
      rwa [hpte v (touches_rest ht').2] at this
  · intro hall hfree
    have := npages_cons dstva hsrc
    refine hen (fun v ht' => ?_) (by omega)
    obtain ⟨ht, hne⟩ := touches_rest ht'
    rw [hpte v hne]
    exact hall v ht
  · intro hall
    refine hmap fun v ht' => ?_
    obtain ⟨ht, hne⟩ := touches_rest ht'
    rw [hpte v hne]
    exact hall v ht

/-- `copyout` stops before a page. -/
theorem CopiedOut.stop {es : List Edit} {k' : Kmem}
    (hsrc : 0 < src.length) (hd : Does r k roots held es k' roots held)
    (hes : ∀ e ∈ es, IsFault r (dstva / pgSize) e ∧ userPa ((view k roots).pte r (dstva / pgSize)) = 0 ∧
      dstva / pgSize * pgSize < sz)
    (hsees : ∀ r' v', v' < userVpn → (view k' roots).sees r' v' = (view k roots).sees r' v')
    (hnot : userPa ((view k roots).pte r (dstva / pgSize)) ≠ 0 →
      has ((view k roots).pte r (dstva / pgSize)) pteW = false)
    (hlazy : (view k roots).pte r (dstva / pgSize) = 0 → dstva / pgSize * pgSize < sz → nfree k < 3) :
    CopiedOut k roots held sz r dstva src false 0 k' := by
  have hfirst : Touches dstva src.length (dstva / pgSize) := touches_first hsrc
  refine ⟨Nat.zero_le _, ⟨nofun, fun h => by omega⟩, ⟨es, hd, fun e he =>
    ⟨_, hfirst, fun _ => (hes e he).2.2, Or.inl ⟨(hes e he).1, (hes e he).2.1⟩⟩⟩, fun r' a ha => ?_, nofun,
    fun hall hfree => ?_, fun hall => ?_⟩
  · rw [if_neg (by omega), View.byte, View.byte, hsees r' _ ha]
  · have hpos : 1 ≤ npages dstva src.length := by
      simp only [npages, pgSize]; omega
    rcases hall _ hfirst with ⟨hpa, hW⟩ | ⟨h0, hlt⟩
    · rw [hnot hpa] at hW
      exact absurd hW (by simp)
    · have := hlazy h0 hlt
      omega
  · obtain ⟨hpa, hW⟩ := hall _ hfirst
    rw [hnot hpa] at hW
    exact absurd hW (by simp)

theorem Ok.copyoutLoop (hr : r ∈ roots) (hsz : sz ≤ trapframeVa) :
    ∀ {fuel dstva : Nat} {src : List Byte} {done : Nat} {k : Kmem}, Ok k roots held →
      (view k roots).Excl → (∀ v, userVpn ≤ v → has ((view k roots).pte r v) pteU = false) →
      src.length ≤ fuel →
      Returns (copyoutLoop sz r fuel dstva src done) k fun res k' => ∃ n,
        res.2 = done + n ∧ CopiedOut k roots held sz r dstva src res.1 n k'
  | fuel, dstva, [], done, k, h, _, _, _ => by
      have hnil : CopiedOut k roots held sz r dstva [] true 0 k :=
        ⟨Nat.le_refl _, by simp, ⟨[], Does.refl h, by simp⟩, fun r' a _ => by
          rw [if_neg (by omega)], fun _ v ht => by
            obtain ⟨a, h1, h2, -⟩ := ht
            simp only [List.length_nil] at h2; omega, fun _ _ => rfl, fun _ => rfl⟩
      cases fuel <;> exact returns_pure ⟨0, rfl, hnil⟩
  | 0, dstva, b :: src, done, k, _, _, _, hfuel => absurd hfuel (by simp)
  | fuel + 1, dstva, b :: src, done, k, h, hx, hhigh, hfuel => by
      set bytes := b :: src with hbytes
      have hpos : 0 < bytes.length := by simp [hbytes]
      have hva0 : pgRoundDown dstva = dstva / pgSize * pgSize := rfl
      rw [MiniOS.copyoutLoop, if_neg (by simp [hbytes]), hva0]
      by_cases hmax : maxVa ≤ dstva / pgSize * pgSize
      · rw [if_pos hmax]
        refine returns_pure ⟨0, rfl, CopiedOut.stop hpos (Does.refl h) (by simp) (fun _ _ _ => rfl) ?_ ?_⟩
        · intro _
          rw [show (view k roots).pte r (dstva / pgSize) = 0 from if_neg fun hc => by
            have := hc.2
            simp only [maxVa, maxVpn, pgSize] at *; omega]
          simp
        · intro _ hlt
          exact absurd (Nat.lt_of_lt_of_le hlt hsz) (by simp only [trapframeVa, trampolineVa]; omega)
      · rw [if_neg hmax]
        refine (h.userPage hr hsz hhigh).bind ?_
        rintro pa k₁ (⟨rfl, hd, hu, hn⟩ | ⟨hpa, hpav, hf⟩)
        · rw [if_pos rfl]
          refine returns_pure ⟨0, rfl, CopiedOut.stop hpos hd (by simp)
            (fun _ _ _ => by rw [hd.view_eq]) (fun hne => absurd hu hne) fun h0 hlt => hn hlt h0⟩
        · rw [if_neg hpa]
          obtain ⟨es, hd, hes⟩ := hf.does
          have hvm := maxVpn_of_user hf.user
          obtain ⟨s, hs, hpte⟩ := slot_of_valid hr hvm hf.valid
          have hV : has (k₁.mem s.table s.idx) pteV := by rw [hpte]; exact hf.valid
          refine returns_bind (walk_false (va_lt hvm) r k₁) ?_
          rw [hs]
          refine returns_bind (a := k₁.mem s.table s.idx) (t := k₁) rfl ?_
          rw [hpte]
          by_cases hW : has ((view k₁ roots).pte r (dstva / pgSize)) pteW
          · -- the page is the process's own
            have hsole := hd.edits.excl hx r _ hf.user hf.valid hW
            rw [← hpte] at hsole
            have hoff : dstva - dstva / pgSize * pgSize = dstva % pgSize := by
              have := Nat.div_add_mod' dstva pgSize
              omega
            set n₀ := min (pgSize - dstva % pgSize) bytes.length with hn₀
            have hn₀pos : 0 < n₀ := by
              have := Nat.mod_lt dstva (show 0 < pgSize by decide)
              omega
            have hd₂ := hd.ok.write r hr hf.user hs hV hsole
              (pageWrite (k₁.mem pa) (dstva % pgSize) (bytes.take n₀))
            have hl₂ := (Edits.cons_iff.mp hd₂.edits).1
            rw [hpte, ← hpav] at hd₂
            simp only [hW, Bool.not_true, Bool.false_eq_true, if_false, hoff, ← hn₀]
            refine returns_bind (a := ()) rfl ?_
            have hsame : ∀ r' v', (view _ roots).pte r' v' = (view k₁ roots).pte r' v' := fun r' v' => by
              rw [hd₂.view_one, View.edit_pte_none rfl]
            refine (Ok.copyoutLoop hr hsz hd₂.ok ((hd.edits.append hd₂.edits).excl hx) (fun v hv => ?_)
              (by rw [List.length_drop]; omega)).mono ?_
            · rw [hsame, hf.other r v fun hc => by have := hf.user; omega]
              exact hhigh v hv
            · rintro ⟨ok, m⟩ k' ⟨n, hm, hc⟩
              refine ⟨n₀ + n, by simp only at hm ⊢; omega,
                CopiedOut.cons hpos hn₀ (hd.trans hd₂ fun _ hp _ => hp) (fun e he => ?_)
                  (fun v hv => ?_) (fun r' v' hv' => ?_) ?_ hf.below ?_ hc⟩
              · rcases List.mem_append.mp he with he | he
                · exact Or.inl (hes e he)
                · exact Or.inr ⟨_, List.mem_singleton.mp he⟩
              · rw [hsame, hf.other r v fun hc => hv hc.2]
              · have hpage : k₁.mem pa = (view k roots).sees r (dstva / pgSize) := by
                  rw [← hf.sees r _ hf.user, view_sees hr hf.user (by rw [← view_pte hr hvm]; exact hf.valid),
                    ← view_pte hr hvm, hpav]
                rw [hd₂.view_one, View.edit_sees (view_clean k₁ roots) hl₂ hv', Edit.sees, hpage,
                  hf.sees r' v' hv']
              · by_cases hu : userPa ((view k roots).pte r (dstva / pgSize)) = 0
                · exact Or.inl hu
                · rw [hf.same hu] at hW
                  exact Or.inr hW
              · rw [nfree_mem k₁]
                exact hf.free
          · simp only [hW, Bool.not_false, if_true]
            refine returns_pure ⟨0, rfl, CopiedOut.stop hpos hd (fun e he =>
              ⟨(hes e he).1, (hes e he).2, hf.below (hes e he).2⟩) hf.sees (fun hne => ?_) fun h0 _ => ?_⟩
            · rw [hf.same hne] at hW
              exact Bool.eq_false_iff.mpr hW
            · exact absurd (hf.writable (by rw [h0]; simp [userPa])) hW

/-- `copyout(pagetable, dstva, src, len)`. -/
theorem Ok.copyout (h : Ok k roots held) (hr : r ∈ roots)
    (hsz : sz ≤ trapframeVa) (hx : (view k roots).Excl)
    (hhigh : ∀ v, userVpn ≤ v → has ((view k roots).pte r v) pteU = false) :
    Returns (copyout sz r dstva src) k fun res k' =>
      CopiedOut k roots held sz r dstva src res.1 res.2 k' := by
  refine (Ok.copyoutLoop hr hsz h hx hhigh (Nat.le_refl _)).mono ?_
  rintro res k' ⟨n, hn, hc⟩
  rw [hn, Nat.zero_add]
  exact hc

/-! ## copyin -/

omit [KernelImage] in
/-- The bytes of one page of a range, and of the rest. -/
theorem bytes_cons (V : View) {srcva : Nat} :
    (List.range (min (pgSize - srcva % pgSize) len)).map
        (fun i => pageByte (V.sees r (srcva / pgSize)) (srcva % pgSize + i)) ++
      (List.range (len - min (pgSize - srcva % pgSize) len)).map
        (fun i => V.byte r (srcva / pgSize * pgSize + pgSize + i)) =
      (List.range len).map fun i => V.byte r (srcva + i) := by
  have hmod := Nat.div_add_mod' srcva pgSize
  obtain ⟨n, hn⟩ : ∃ n, n = min (pgSize - srcva % pgSize) len := ⟨_, rfl⟩
  rw [← hn]
  have hlen : len = n + (len - n) := by omega
  have hsplit : List.range len = List.range n ++ (List.range (len - n)).map (n + ·) := by
    rw [← List.range_add, ← hlen]
  rw [hsplit, List.map_append, List.map_map]
  congr 1
  · refine List.map_congr_left fun i hi => ?_
    rw [List.mem_range] at hi
    have h1 : (srcva + i) / pgSize = srcva / pgSize := by simp only [pgSize] at *; omega
    have h2 : (srcva + i) % pgSize = srcva % pgSize + i := by simp only [pgSize] at *; omega
    rw [View.byte, h1, h2]
  · refine List.map_congr_left fun i hi => ?_
    rw [List.mem_range] at hi
    have hidx : srcva / pgSize * pgSize + pgSize + i = srcva + (n + i) := by
      have hlt := Nat.mod_lt srcva (show 0 < pgSize by decide)
      generalize srcva / pgSize * pgSize = q at hmod ⊢
      generalize srcva % pgSize = m at hmod hn hlt
      omega
    rw [Function.comp_apply, hidx]

theorem Ok.copyinLoop (hr : r ∈ roots) (hsz : sz ≤ trapframeVa) :
    ∀ {fuel srcva len : Nat} {dst : List Byte} {k : Kmem}, Ok k roots held →
      (∀ v, userVpn ≤ v → has ((view k roots).pte r v) pteU = false) → len ≤ fuel →
      Returns (copyinLoop sz r fuel srcva len dst) k fun res k' =>
        (∃ es, Does r k roots held es k' roots held ∧ ∀ e ∈ es, ∃ v, Touches srcva len v ∧
          IsFault r v e ∧ userPa ((view k roots).pte r v) = 0 ∧ v * pgSize < sz) ∧
        ∀ bs, res = some bs →
          bs = dst ++ (List.range len).map fun i => (view k roots).byte r (srcva + i)
  | fuel, srcva, 0, dst, k, h, _, _ => by
      have : (∃ es, Does r k roots held es k roots held ∧ ∀ e ∈ es, ∃ v, Touches srcva 0 v ∧
          IsFault r v e ∧ userPa ((view k roots).pte r v) = 0 ∧ v * pgSize < sz) ∧ ∀ bs, some dst = some bs →
          bs = dst ++ (List.range 0).map fun i => (view k roots).byte r (srcva + i) :=
        ⟨⟨[], Does.refl h, by simp⟩, fun bs hbs => by cases hbs; simp⟩
      cases fuel <;> exact returns_pure this
  | 0, srcva, len + 1, dst, k, _, _, hfuel => absurd hfuel (by simp)
  | fuel + 1, srcva, len + 1, dst, k, h, hhigh, hfuel => by
      have hva0 : pgRoundDown srcva = srcva / pgSize * pgSize := rfl
      have hoff : srcva - srcva / pgSize * pgSize = srcva % pgSize := by
        have := Nat.div_add_mod' srcva pgSize
        omega
      have hn₀ : 0 < min (pgSize - srcva % pgSize) (len + 1) := by
        have := Nat.mod_lt srcva (show 0 < pgSize by decide)
        omega
      rw [MiniOS.copyinLoop, if_neg (by omega), hva0]
      refine (h.userPage hr hsz hhigh).bind ?_
      rintro pa k₁ (⟨rfl, hd, -, -⟩ | ⟨hpa, hpav, hf⟩)
      · rw [if_pos rfl]
        exact returns_pure ⟨⟨[], hd, by simp⟩, nofun⟩
      · rw [if_neg hpa]
        obtain ⟨es, hd, hes⟩ := hf.does
        have hvm := maxVpn_of_user hf.user
        have hpage : k₁.mem pa = (view k roots).sees r (srcva / pgSize) := by
          rw [← hf.sees r _ hf.user, view_sees hr hf.user (by rw [← view_pte hr hvm]; exact hf.valid),
            ← view_pte hr hvm, hpav]
        refine returns_bind (a := k₁.mem pa) (t := k₁) rfl ?_
        simp only [hoff]
        refine (Ok.copyinLoop hr hsz hd.ok (fun v hv => ?_) (by omega)).mono ?_
        · rw [hf.other r v fun hc => by have := hf.user; omega]
          exact hhigh v hv
        · rintro res k' ⟨⟨es', hd', hes'⟩, hres⟩
          refine ⟨⟨es ++ es', hd.trans hd' fun _ hp _ => hp, fun e he => ?_⟩, fun bs hbs => ?_⟩
          · rcases List.mem_append.mp he with he | he
            · obtain ⟨hfault, hpa₀⟩ := hes e he
              exact ⟨_, touches_first (Nat.succ_pos len), hfault, hpa₀, hf.below hpa₀⟩
            · obtain ⟨v, ht, hev⟩ := hes' e he
              obtain ⟨ht', hne⟩ := touches_rest ht
              rw [hf.other r v fun hc => hne hc.2] at hev
              exact ⟨v, ht', hev⟩
          · rw [hres bs hbs, List.append_assoc, ← bytes_cons (view k roots), hpage]
            have hbyte : ∀ a, (view k₁ roots).byte r a = (view k roots).byte r a := fun a => by
              rw [View.byte, View.byte, hf.sees_all]
            simp only [pageBytes, hbyte]

/-- `copyin(pagetable, dst, srcva, len)`: the bytes that the process sees. -/
theorem Ok.copyin (h : Ok k roots held) {srcva : Nat} (hr : r ∈ roots) (hsz : sz ≤ trapframeVa)
    (hhigh : ∀ v, userVpn ≤ v → has ((view k roots).pte r v) pteU = false) :
    Returns (copyin sz r srcva len) k fun res k' =>
      (∃ es, Does r k roots held es k' roots held ∧ ∀ e ∈ es, ∃ v, Touches srcva len v ∧
        IsFault r v e ∧ userPa ((view k roots).pte r v) = 0 ∧ v * pgSize < sz) ∧
      ∀ bs, res = some bs → bs = (List.range len).map fun i => (view k roots).byte r (srcva + i) :=
  Ok.copyinLoop hr hsz h hhigh (Nat.le_refl _)

end

end MiniOS
