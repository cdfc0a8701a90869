import MiniOS.Own

/-!
# MiniOS.Vm.Tables

Specifications of the functions of `vm.c` that create, grow, shrink and free
page tables.  Each one returns (none of them panics when the kernel owns its
memory), and what it does to the processes is a list of edits that its
specification names.
-/

namespace MiniOS

open Total
open Function (update update_self update_of_ne)

section
variable {v r : Nat}

theorem va_lt (hv : v < maxVpn) : v * pgSize < maxVa := by
  simp only [maxVa, maxVpn, pgSize] at *; omega

theorem maxVpn_of_user (hv : v < userVpn) : v < maxVpn := by
  simp only [userVpn, maxVpn] at *; omega

/-! ## uvmunmap -/

/-- The pages `lo, .., lo + n - 1` of a table are unmapped. -/
def unmaps (r lo n : Nat) : List Edit := (List.range' lo n).map (Edit.unmap r)

theorem unmaps_succ (r lo n : Nat) : unmaps r lo (n + 1) = [.unmap r lo] ++ unmaps r (lo + 1) n := by
  simp [unmaps, List.range'_succ]

theorem View.edit_unmap_invalid {V : View} (h : has (V.pte r v) pteV = false) :
    V.edit (.unmap r v) = V := by
  rw [View.edit, if_neg (by simp [h])]

theorem View.edit_unmap_pte (V : View) (r v r' v' : Nat) : (V.edit (.unmap r v)).pte r' v' =
    if (r' = r ∧ v' = v) ∧ has (V.pte r' v') pteV then 0 else V.pte r' v' := by
  rw [View.edit_pte]
  by_cases he : r' = r ∧ v' = v
  · obtain ⟨rfl, rfl⟩ := he
    by_cases hV : has (V.pte r' v') pteV <;> simp [Edit.entry, hV]
  · by_cases hV : has (V.pte r v) pteV <;> simp [Edit.entry, hV, he]

variable [KernelImage] {k : Kmem} {roots held : Finset Nat} {ρ : Nat}

variable (ρ) in
/-- An edit that changes nothing. -/
theorem Ok.idle (h : Ok k roots held) {e : Edit} (hl : (view k roots).Legal e)
    (he : (view k roots).edit e = view k roots) : Does ρ k roots held [e] k roots held := by
  have := Edits.one hl
  rw [he] at this
  exact ⟨h, this, fun _ _ _ => rfl, Keeps.refl ρ _ _⟩

/-- The entries that are left. -/
theorem Edits.unmaps_pte : ∀ {n lo : Nat} {V V' : View}, Edits V (unmaps r lo n) V' →
    ∀ r' v, V'.pte r' v =
      if (r' = r ∧ lo ≤ v ∧ v < lo + n) ∧ has (V.pte r' v) pteV then 0 else V.pte r' v
  | 0, lo, V, V', h, r', v => by
      rw [Edits.nil_iff.mp h, if_neg (by omega)]
  | n + 1, lo, V, V', h, r', v => by
      rw [unmaps_succ] at h
      obtain ⟨-, h⟩ := Edits.cons_iff.mp h
      rw [Edits.unmaps_pte h r' v]
      by_cases he : (r' = r ∧ v = lo) ∧ has (V.pte r' v) pteV
      · obtain ⟨⟨rfl, rfl⟩, hV⟩ := he
        simp [View.edit_unmap_pte, hV]
      · simp only [View.edit_unmap_pte, if_neg he]
        refine if_congr (and_congr_left fun hV => and_congr_right fun hr => ?_) rfl rfl
        have : v ≠ lo := fun hv => he ⟨⟨hr, hv⟩, hV⟩
        omega

theorem Ok.uvmunmapLoop (hr : r ∈ roots) :
    ∀ {n lo : Nat} {k : Kmem}, Ok k roots held → lo + n ≤ userVpn →
      Returns (uvmunmapLoop r true n (lo * pgSize)) k fun _ k' =>
        Does ρ k roots held (unmaps r lo n) k' roots held
  | 0, lo, k, h, _ => returns_pure (Does.refl h)
  | n + 1, lo, k, h, hn => by
      have hv : lo < userVpn := by omega
      have hvm := maxVpn_of_user hv
      have hnext : lo * pgSize + pgSize = (lo + 1) * pgSize := by rw [Nat.add_mul, Nat.one_mul]
      -- nothing to do at an entry that is not valid
      have hskip : has ((view k roots).pte r lo) pteV = false →
          Returns (MiniOS.uvmunmapLoop r true n (lo * pgSize + pgSize)) k fun _ k' =>
            Does ρ k roots held (unmaps r lo (n + 1)) k' roots held := fun hV => by
        rw [hnext, unmaps_succ]
        refine (Ok.uvmunmapLoop hr h (by omega)).mono fun _ k' hd => ?_
        exact (h.idle ρ (e := .unmap r lo) hv (View.edit_unmap_invalid hV)).trans hd fun _ hp _ => hp
      rw [MiniOS.uvmunmapLoop]
      refine returns_bind (walk_false (va_lt hvm) r k) ?_
      cases hs : pteSlot k.mem r (lo * pgSize) with
      | none => exact hskip (by rw [pte_of_no_slot hr hvm hs]; simp)
      | some s =>
        refine returns_bind (a := k.mem s.table s.idx) (t := k) rfl ?_
        by_cases hV : has (k.mem s.table s.idx) pteV
        · obtain ⟨k₁, hk, hd⟩ := h.unmap ρ hr hv hs hV
          simp only [hV, Bool.not_true, Bool.false_eq_true, if_false, if_true]
          refine returns_bind (a := ()) (t := k₁) (by rw [MiniOS.kfreeK, hk]; rfl)
            (returns_bind (a := ()) rfl ?_)
          rw [hnext, unmaps_succ]
          exact (Ok.uvmunmapLoop hr hd.ok (by omega)).mono fun _ k' hd' =>
            hd.trans hd' fun _ hp _ => hp
        · simp only [hV, Bool.not_false, if_true]
          exact hskip (by rw [← has_of_slot hr hvm hs]; simpa using hV)

variable (ρ) in
/-- `uvmunmap` with `do_free`, below the trapframe. -/
theorem Ok.uvmunmap (h : Ok k roots held) {n : Nat} (lo : Nat) (hr : r ∈ roots) (hn : lo + n ≤ userVpn) :
    Returns (uvmunmap r (lo * pgSize) n true) k fun _ k' =>
      Does ρ k roots held (unmaps r lo n) k' roots held := by
  rw [MiniOS.uvmunmap, if_neg (by simp only [pgSize]; omega)]
  exact Ok.uvmunmapLoop hr h hn

omit [KernelImage] in
/-- Nothing is seen through the entries of the kernel. -/
theorem view_sees_kernel (hv : userVpn ≤ v) : (view k roots).sees r v = zeroPage :=
  if_neg fun hc => absurd hc.1.2 (by omega)

variable (ρ) in
/-- `uvmunmap` of the trampoline or the trapframe. -/
theorem Ok.uvmunmap_kernel (h : Ok k roots held) (hr : r ∈ roots) (hv : v < maxVpn)
    (hv' : userVpn ≤ v) :
    Returns (MiniOS.uvmunmap r (v * pgSize) 1 false) k fun _ k' =>
      Does ρ k roots held [.kmap r v 0] k' roots held := by
  have hidle : has ((view k roots).pte r v) pteV = false → (view k roots).pte r v = 0 →
      Does ρ k roots held [.kmap r v 0] k roots held := fun hV h0 => by
    refine h.idle ρ ⟨hv', Or.inr rfl⟩ ?_
    rw [View.edit, View.set]
    ext1
    · funext r' v'
      simp only
      split
      next he => rw [he.1, he.2, h0]
      next => rfl
    · funext r' v'
      simp only
      split
      next he => rw [he.1, he.2, view_sees_kernel hv']
      next => rfl
    · rfl
  rw [MiniOS.uvmunmap, if_neg (by simp only [pgSize]; omega), MiniOS.uvmunmapLoop]
  refine returns_bind (walk_false (va_lt hv) r k) ?_
  cases hs : pteSlot k.mem r (v * pgSize) with
  | none =>
    have h0 := pte_of_no_slot hr hv hs
    exact returns_pure (hidle (by rw [h0]; simp) h0)
  | some s =>
    refine returns_bind (a := k.mem s.table s.idx) (t := k) rfl ?_
    by_cases hV : has (k.mem s.table s.idx) pteV
    · simp only [hV, Bool.not_true, Bool.false_eq_true, if_false]
      refine returns_bind (a := ()) rfl (returns_pure ?_)
      exact h.kunmap ρ hr hs hv hv'
    · simp only [hV, Bool.not_false, if_true]
      refine returns_pure (hidle (by rw [← has_of_slot hr hv hs]; simpa using hV) ?_)
      rw [pte_of_slot hr hv hs, if_neg hV]

variable (ρ) in
/-- `uvmdealloc`: the pages between the two sizes are unmapped. -/
theorem Ok.uvmdealloc (h : Ok k roots held) (oldsz newsz : Nat) (hr : r ∈ roots)
    (hsz : oldsz ≤ trapframeVa) (hlt : newsz < oldsz) :
    Returns (MiniOS.uvmdealloc r oldsz newsz) k fun sz k' => sz = newsz ∧
      Does ρ k roots held (unmaps r (pgRoundUp newsz / pgSize)
        (pgRoundUp oldsz / pgSize - pgRoundUp newsz / pgSize)) k' roots held := by
  have hdiv : pgRoundUp newsz / pgSize * pgSize = pgRoundUp newsz := by
    have := pgRoundUp_mod newsz
    simp only [pgSize] at *; omega
  have hsub : (pgRoundUp oldsz - pgRoundUp newsz) / pgSize =
      pgRoundUp oldsz / pgSize - pgRoundUp newsz / pgSize := by
    have h1 := pgRoundUp_mod newsz
    have h2 := pgRoundUp_mod oldsz
    simp only [pgSize] at *; omega
  rw [MiniOS.uvmdealloc, if_neg (by omega)]
  by_cases hpages : pgRoundUp newsz < pgRoundUp oldsz
  · rw [if_pos hpages, hsub]
    have hend : pgRoundUp newsz / pgSize + (pgRoundUp oldsz / pgSize - pgRoundUp newsz / pgSize) ≤
        userVpn := by
      rw [trapframeVa_eq] at hsz
      simp only [pgRoundUp, pgSize, userVpn] at *; omega
    have := h.uvmunmap ρ _ hr hend
    rw [hdiv] at this
    exact this.bind fun _ k' hd => returns_pure ⟨rfl, hd⟩
  · have hzero : pgRoundUp oldsz / pgSize - pgRoundUp newsz / pgSize = 0 := by
      rw [Nat.sub_eq_zero_iff_le]
      exact Nat.div_le_div_right (by omega)
    rw [if_neg hpages, hzero]
    exact returns_pure ⟨rfl, Does.refl h⟩

/-! ## uvmcreate, uvmalloc -/

theorem Ok.uvmcreate (h : Ok k roots held) :
    Returns uvmcreate k fun r k' => (r = 0 ∧ k' = k) ∨
      (r ≠ 0 ∧ r ∉ roots ∧ r ∉ held ∧ (∀ ρ, Does ρ k roots held [] k' (insert r roots) held) ∧
        nfree k' + 1 = nfree k) := by
  refine h.kallocK.bind ?_
  rintro r k₁ (⟨rfl, rfl, -⟩ | ⟨hr0, hnew, hroot, hd, hn⟩)
  · rw [if_pos rfl]
    exact returns_pure (Or.inl ⟨rfl, rfl⟩)
  · rw [if_neg hr0]
    refine returns_bind (a := ()) rfl (returns_pure (Or.inr ⟨hr0, hroot, hnew, fun ρ => ?_, ?_⟩))
    · have hd₁ := (hd ρ).fill hnew zeroPage
      have hd₂ := hd₁.ok.addRoot ρ (Finset.mem_insert_self r held) (update_self _ _ _)
      rw [Finset.erase_insert hnew] at hd₂
      exact hd₁.trans hd₂ fun p hp _ => Finset.mem_insert_of_mem hp
    · rw [← hn]; exact congrArg (· + 1) (nfree_congr rfl)

/-- The pages `pas` are mapped one after the other, from page `v` on. -/
def maps (r : Nat) (perm : Word) : Nat → List Nat → List Edit
  | _, [] => []
  | v, pa :: pas => .map r v (pa2pte pa ||| perm ||| pteV) :: maps r perm (v + 1) pas

variable (ρ) in
/-- The pages a step of `uvmalloc` unmaps when memory runs out. -/
theorem Ok.rollback (h : Ok k roots held) {lo m : Nat} (hr : r ∈ roots) (hm : lo + m ≤ userVpn) :
    Returns (MiniOS.uvmdealloc r ((lo + m) * pgSize) (lo * pgSize)) k fun _ k' =>
      Does ρ k roots held (unmaps r lo m) k' roots held := by
  have hround : ∀ n, pgRoundUp (n * pgSize) / pgSize = n := fun n => by
    simp only [pgRoundUp, pgSize]; omega
  rcases Nat.eq_zero_or_pos m with rfl | hpos
  · rw [MiniOS.uvmdealloc, if_pos (by simp)]
    exact returns_pure (Does.refl h)
  · have hd := h.uvmdealloc ρ ((lo + m) * pgSize) (lo * pgSize) hr
      (by rw [trapframeVa_eq]; exact Nat.mul_le_mul_right _ hm)
      (Nat.mul_lt_mul_of_pos_right (by omega) (by decide))
    rw [hround, hround, Nat.add_sub_cancel_left] at hd
    exact hd.mono fun _ _ h => h.2

/-- One page of `uvmalloc` and of a lazy allocation: take a page and map it. -/
theorem Does.mapNew {perm : Word} (hr : r ∈ roots) (hv : v < userVpn)
    (hpte : (view k roots).pte r v = 0) (hperm : perm.toNat < 1024) (hcow : has perm pteCow = false)
    (hU : has perm pteU) {pa : Nat} {k₁ : Kmem} (hnew : pa ∉ held)
    (hd : Does r k roots held [] k₁ roots (insert pa held)) :
    Returns (MiniOS.mappages r (v * pgSize) pgSize pa perm)
        { k₁ with mem := update k₁.mem pa zeroPage } fun ok k' =>
      (nfree k' ≤ nfree k₁ ∧ nfree k₁ ≤ nfree k' + 2) ∧
      (ok = true → Does r k roots held [.map r v (pa2pte pa ||| perm ||| pteV)] k' roots held) ∧
      (ok = false → Does r k roots held [] k' roots (insert pa held) ∧ nfree k₁ < 2) := by
  have hd₁ := hd.fill hnew zeroPage
  have hin : pa ∈ insert pa held := Finset.mem_insert_self pa held
  refine (hd₁.ok.mappages hr (maxVpn_of_user hv) (by rw [hd₁.view_eq]; exact hpte) pa perm).mono ?_
  rintro ok k' ⟨k₂, hd₂, hn, hfail, hok⟩
  have hsame : nfree { k₁ with mem := update k₁.mem pa zeroPage } = nfree k₁ := nfree_congr rfl
  rw [hsame] at hn hfail
  cases ok with
  | false =>
    obtain ⟨rfl, h0⟩ := hfail rfl
    exact ⟨hn, nofun, fun _ => ⟨hd₁.trans hd₂ fun p hp _ => Finset.mem_insert_of_mem hp, h0⟩⟩
  | true =>
    obtain ⟨s, hs, rfl⟩ := hok rfl
    have hzero : k₂.mem pa = zeroPage := (hd₂.frame pa hin hin).trans (update_self _ _ _)
    have hd₃ := hd₂.ok.map r hr hs (by rw [hd₂.view_eq, hd₁.view_eq]; exact hpte) hperm hv hin
      hzero hcow hU
    rw [Finset.erase_insert hnew] at hd₃
    refine ⟨?_, fun _ => ?_, nofun⟩
    · have : nfree (mapPte k₂ s pa perm r (v * pgSize)) = nfree k₂ := nfree_congr (by
        unfold mapPte; split <;> simp)
      rw [this]; exact hn
    · exact (hd₁.trans hd₂ fun p hp _ => Finset.mem_insert_of_mem hp).trans hd₃
        fun p hp _ => Finset.mem_insert_of_mem hp

/-- The loop of `uvmalloc` after `m` pages: it maps the `n` pages left, or
gives all of them back.  A loop that would leave user memory runs out of free
pages first. -/
theorem Ok.uvmallocLoop (lo newsz : Nat) {xperm : Word} (hr : r ∈ roots)
    (hperm : (pteR ||| pteU ||| xperm).toNat < 1024)
    (hcow : has (pteR ||| pteU ||| xperm) pteCow = false) :
    ∀ {n m : Nat} {k : Kmem}, Ok k roots held → lo + m + min n (nfree k) ≤ userVpn →
      (∀ v, lo + m ≤ v → v < userVpn → (view k roots).pte r v = 0) →
      Returns (uvmallocLoop r (lo * pgSize) newsz xperm n ((lo + m) * pgSize)) k fun sz k' =>
        (sz = newsz ∧ ∃ pas : List Nat, pas.length = n ∧ nfree k' + n ≤ nfree k ∧
          Does r k roots held (maps r (pteR ||| pteU ||| xperm) (lo + m) pas) k' roots held) ∨
        (sz = 0 ∧ ∃ pas : List Nat, pas.length < n ∧
          Does r k roots held (maps r (pteR ||| pteU ||| xperm) (lo + m) pas ++
            unmaps r lo (m + pas.length)) k' roots held)
  | 0, m, k, h, _, _ => returns_pure (Or.inl ⟨rfl, [], rfl, Nat.le_of_eq (Nat.add_zero _), Does.refl h⟩)
  | n + 1, m, k, h, hend, hfree => by
      rw [MiniOS.uvmallocLoop]
      refine h.kallocK.bind ?_
      rintro pa k₁ (⟨rfl, rfl, hn⟩ | ⟨hpa, hnew, -, hd, hn⟩)
      · rw [if_pos rfl]
        refine (h.rollback r hr (m := m) (by omega)).bind fun _ k' hd => ?_
        exact returns_pure (Or.inr ⟨rfl, [], Nat.succ_pos n, hd⟩)
      · have hv : lo + m < userVpn := by
          have : 0 < min (n + 1) (nfree k) := by omega
          omega
        rw [if_neg hpa]
        refine returns_bind (a := ()) rfl (((hd r).mapNew hr hv
          (hfree _ (Nat.le_refl _) hv) hperm hcow (by simp) hnew).bind ?_)
        rintro ok k₂ ⟨hn₂, hok, hfail⟩
        cases ok with
        | true =>
          have hd₂ := hok rfl
          have hview := hd₂.view_one
          have hnext : (lo + m) * pgSize + pgSize = (lo + (m + 1)) * pgSize := by
            rw [← Nat.add_assoc, Nat.add_mul (lo + m), Nat.one_mul]
          rw [if_pos rfl, hnext]
          refine (Ok.uvmallocLoop lo newsz hr hperm hcow hd₂.ok (by omega) fun v hlo hhi => ?_).mono ?_
          · rw [hview, View.edit_pte]
            simp only [Edit.entry]
            rw [if_neg (by rintro ⟨-, rfl⟩; omega)]
            exact hfree v (by omega) hhi
          · rintro sz k' (⟨hsz, pas, hlen, hnf, hd₃⟩ | ⟨hsz, pas, hlen, hd₃⟩)
            · refine Or.inl ⟨hsz, pa :: pas, by simp [hlen], by omega, ?_⟩
              exact hd₂.trans hd₃ fun _ hp _ => hp
            · refine Or.inr ⟨hsz, pa :: pas, by simp [hlen], ?_⟩
              rw [List.length_cons, show m + (pas.length + 1) = m + 1 + pas.length by omega]
              exact hd₂.trans hd₃ fun _ hp _ => hp
        | false =>
          obtain ⟨hd₂, -⟩ := hfail rfl
          rw [if_neg (by decide)]
          refine (hd₂.ok.kfreeK r (Finset.mem_insert_self pa held)).bind fun _ k₃ hd₃ => ?_
          rw [Finset.erase_insert hnew] at hd₃
          have hd₄ := hd₂.trans hd₃.1 fun p hp _ => Finset.mem_insert_of_mem hp
          refine (hd₃.1.ok.rollback r hr (m := m) (by omega)).bind fun _ k' hd₅ => ?_
          exact returns_pure (Or.inr ⟨rfl, [], Nat.succ_pos n, hd₄.trans hd₅ fun _ hp _ => hp⟩)

/-- `uvmalloc` from `oldsz` up to `newsz`. -/
theorem Ok.uvmalloc (h : Ok k roots held) {oldsz newsz : Nat} {xperm : Word} (hr : r ∈ roots)
    (hperm : (pteR ||| pteU ||| xperm).toNat < 1024)
    (hcow : has (pteR ||| pteU ||| xperm) pteCow = false) (hle : oldsz ≤ newsz)
    (hend : pgRoundUp oldsz / pgSize +
      min (pgRoundUp newsz / pgSize - pgRoundUp oldsz / pgSize) (nfree k) ≤ userVpn)
    (hfree : ∀ v, pgRoundUp oldsz / pgSize ≤ v → v < userVpn → (view k roots).pte r v = 0) :
    Returns (uvmalloc r oldsz newsz xperm) k fun sz k' =>
      (sz = newsz ∧ ∃ pas : List Nat,
        pas.length = pgRoundUp newsz / pgSize - pgRoundUp oldsz / pgSize ∧
        nfree k' + pas.length ≤ nfree k ∧
        Does r k roots held (maps r (pteR ||| pteU ||| xperm) (pgRoundUp oldsz / pgSize) pas) k'
          roots held) ∨
      (sz = 0 ∧ ∃ pas : List Nat,
        pas.length < pgRoundUp newsz / pgSize - pgRoundUp oldsz / pgSize ∧
        Does r k roots held (maps r (pteR ||| pteU ||| xperm) (pgRoundUp oldsz / pgSize) pas ++
          unmaps r (pgRoundUp oldsz / pgSize) pas.length) k' roots held) := by
  have hcount : (newsz - pgRoundUp oldsz + pgSize - 1) / pgSize =
      pgRoundUp newsz / pgSize - pgRoundUp oldsz / pgSize := by
    simp only [pgRoundUp, pgSize]; omega
  have hlo : pgRoundUp oldsz = (pgRoundUp oldsz / pgSize + 0) * pgSize := by
    have := pgRoundUp_mod oldsz
    simp only [pgSize] at *; omega
  have hloop := Ok.uvmallocLoop (pgRoundUp oldsz / pgSize) newsz hr hperm hcow h
    (n := pgRoundUp newsz / pgSize - pgRoundUp oldsz / pgSize) (m := 0) hend
    fun v h1 h2 => hfree v (by omega) (by omega)
  rw [← hlo, Nat.add_zero, show pgRoundUp oldsz / pgSize * pgSize = pgRoundUp oldsz by
    rw [Nat.add_zero] at hlo; exact hlo.symm] at hloop
  rw [MiniOS.uvmalloc, if_neg (by omega), hcount]
  refine hloop.mono ?_
  rintro sz k' (⟨hsz, pas, hlen, hn, hd⟩ | ⟨hsz, pas, hlen, hd⟩)
  · exact Or.inl ⟨hsz, pas, hlen, by omega, hd⟩
  · rw [Nat.zero_add] at hd
    exact Or.inr ⟨hsz, pas, hlen, hd⟩

/-! ## freewalk, uvmfree -/

/-- A page table without mappings. -/
def Unmapped (k : Kmem) (roots : Finset Nat) (r : Nat) : Prop :=
  ∀ v < maxVpn, has ((view k roots).pte r v) pteV = false

theorem Typed.low_empty {bs : List Extents.Block} {kind : Nat → Kind} {loose : Nat → Nat}
    (h : Typed k bs roots held kind loose) {p : Nat} {i j : Fin 512} (hp : kind p = .table r [j, i])
    (hun : Unmapped k roots r) (l : Fin 512) : has (k.mem p l) pteV = false := by
  have hv := h.tree.vpnOf_lt hp l
  have := hun _ hv
  rwa [view_pte (h.tree.mem_roots hp) hv, has_leafPte, h.tree.pteAt_table hp l] at this

/-- What the freeing of tables of `r` below the table `p` at some depth leaves:
the tables down to that depth stay, and of them only `p` has changed; other
page tables are as they were. -/
structure Pruned (roots held : Finset Nat) (loose : Nat → Nat) (r depth p : Nat) (k : Kmem)
    (kind : Nat → Kind) (k' : Kmem) (bs' : List Extents.Block) (kind' : Nat → Kind) : Prop where
  typed : Typed k' bs' roots held kind' loose
  view_eq : view k' roots = view k roots
  held_mem : ∀ q ∈ held, k'.mem q = k.mem q
  kinds : ∀ q r π, kind q = .table r π → π.length ≤ depth → kind' q = kind q
  tables : ∀ q r π, kind q = .table r π → π.length ≤ depth → q ≠ p → k'.mem q = k.mem q
  others : ∀ q r' π, kind q = .table r' π → r' ≠ r → kind' q = kind q ∧ k'.mem q = k.mem q

theorem Pruned.trans {loose : Nat → Nat} {depth p : Nat} {k₁ k₂ : Kmem} {bs₁ bs₂ : List Extents.Block}
    {kind kind₁ kind₂ : Nat → Kind} (h : Pruned roots held loose r depth p k kind k₁ bs₁ kind₁)
    (h' : Pruned roots held loose r depth p k₁ kind₁ k₂ bs₂ kind₂) :
    Pruned roots held loose r depth p k kind k₂ bs₂ kind₂ where
  typed := h'.typed
  view_eq := h'.view_eq.trans h.view_eq
  held_mem q hq := (h'.held_mem q hq).trans (h.held_mem q hq)
  kinds q r π hq hd := by
    have := h.kinds q r π hq hd
    rw [h'.kinds q r π (this.trans hq) hd, this]
  tables q r π hq hd hne := by
    rw [h'.tables q r π ((h.kinds q r π hq hd).trans hq) hd hne, h.tables q r π hq hd hne]
  others q r' π hq hne := by
    obtain ⟨hk, hm⟩ := h.others q r' π hq hne
    obtain ⟨hk', hm'⟩ := h'.others q r' π (hk.trans hq) hne
    exact ⟨hk'.trans hk, hm'.trans hm⟩

section freewalk
variable {loose : Nat → Nat} {r p : Nat} {path : List (Fin 512)}

/-- The loop of `freewalk` over the entries of the table `p`, given what it
does for a table below. -/
theorem freewalkEntries_spec {child : Nat → K Unit}
    (hchild : ∀ {k : Kmem} {bs : List Extents.Block} {kind : Nat → Kind} (i : Fin 512),
      Typed k bs roots held kind loose → kind p = .table r path → Unmapped k roots r →
      path.length < 2 → has (k.mem p i) pteV →
      Returns (child (pte2pa (k.mem p i))) k fun _ k' => k'.mem p = k.mem p ∧ ∃ bs' kind',
        Pruned roots held loose r path.length p k kind { k' with mem := setWord k'.mem p i 0 } bs' kind') :
    ∀ {is : List (Fin 512)} {k : Kmem} {bs : List Extents.Block} {kind : Nat → Kind},
      Typed k bs roots held kind loose → kind p = .table r path → Unmapped k roots r →
      (∀ i, i ∉ is → has (k.mem p i) pteV = false) →
      Returns (freewalkEntries child p is) k fun _ k' =>
        (∀ i, has (k'.mem p i) pteV = false) ∧ ∃ bs' kind',
        Pruned roots held loose r path.length p k kind k' bs' kind'
  | [], k, bs, kind, h, hp, _, hdone =>
    returns_pure ⟨fun i => hdone i (by simp), bs, kind, h, rfl, fun _ _ => rfl, fun _ _ _ _ _ => rfl,
      fun _ _ _ _ _ _ => rfl, fun _ _ _ _ _ => ⟨rfl, rfl⟩⟩
  | i :: is, k, bs, kind, h, hp, hun, hdone => by
      rw [freewalkEntries]
      refine returns_bind (a := k.mem p i) (t := k) rfl ?_
      by_cases hV : has (k.mem p i) pteV
      · -- the entry leads to a lower table
        have hlen : path.length < 2 := by
          have hle := h.tree.depth p r path hp
          rcases Nat.lt_or_eq_of_le hle with hlt | heq
          · exact hlt
          · obtain ⟨a, b, rfl⟩ := List.length_eq_two.mp heq
            rw [h.low_empty hp hun i] at hV
            exact absurd hV (by decide)
        have hdir : isDir (k.mem p i) := (h.tree.entry p r path hp hlen i hV).1
        have hcond : (has (k.mem p i) pteV && !has (k.mem p i) (pteR ||| pteW ||| pteX)) = true := by
          rw [hV, show has (k.mem p i) (pteR ||| pteW ||| pteX) = false from hdir]
          rfl
        rw [if_pos hcond]
        refine (hchild i h hp hun hlen hV).bind ?_
        rintro _ k₁ ⟨hmem, bs₁, kind₁, hpr⟩
        refine returns_bind (a := ()) rfl ?_
        have hp₁ : kind₁ p = .table r path := by
          rw [hpr.kinds p r path hp (Nat.le_refl _), hp]
        refine (freewalkEntries_spec hchild hpr.typed hp₁ ?_ fun j hj => ?_).mono ?_
        · intro v hv
          rw [hpr.view_eq]; exact hun v hv
        · simp only [setWord, update_self, hmem]
          by_cases hji : j = i
          · rw [hji, update_self]; simp
          · rw [update_of_ne hji]
            exact hdone j (by simp [hji, hj])
        · rintro _ k' ⟨hall, bs', kind', hpr'⟩
          exact ⟨hall, bs', kind', hpr.trans hpr'⟩
      · rw [if_neg (by simp [hV]), if_neg hV]
        refine freewalkEntries_spec hchild h hp hun fun j hj => ?_
        by_cases hji : j = i
        · rw [hji]; simpa using hV
        · exact hdone j (by simp [hji, hj])

/-- `freewalk` of the table below entry `i` of the table `p`. -/
theorem freewalk_table : ∀ {level : Nat} {p : Nat} {path : List (Fin 512)} {k : Kmem}
    {bs : List Extents.Block} {kind : Nat → Kind} (i : Fin 512), path.length + level = 2 →
    Typed k bs roots held kind loose → kind p = .table r path → Unmapped k roots r →
    path.length < 2 → has (k.mem p i) pteV →
    Returns (freewalk level (pte2pa (k.mem p i))) k fun _ k' => k'.mem p = k.mem p ∧ ∃ bs' kind',
      Pruned roots held loose r path.length p k kind { k' with mem := setWord k'.mem p i 0 } bs' kind'
  | 0, p, path, k, bs, kind, i, hlevel, _, _, _, hlen, _ => by omega
  | level + 1, p, path, k, bs, kind, i, hlevel, h, hp, hun, hlen, hV => by
      have hc : kind (pte2pa (k.mem p i)) = .table r (i :: path) := (h.tree.entry p r path hp hlen i hV).2
      set c := pte2pa (k.mem p i) with hcdef
      have hpc : p ≠ c := by
        intro he
        rw [← he, hp] at hc
        simpa using (Kind.table.inj hc).2
      rw [freewalk]
      refine (freewalkEntries_spec (fun j h' hp' hun' hlen' hV' => freewalk_table j (by simp at *; omega)
        h' hp' hun' hlen' hV') h hc hun fun j hj => absurd (List.mem_finRange j) hj).bind ?_
      rintro _ k₁ ⟨hempty, bs₁, kind₁, hpr⟩
      have hp₁ : kind₁ p = .table r path := by rw [hpr.kinds p r path hp (by simp), hp]
      have hc₁ : kind₁ c = .table r (i :: path) := by rw [hpr.kinds c r _ hc (by simp), hc]
      have hmem₁ : k₁.mem p = k.mem p := hpr.tables p r path hp (by simp) hpc
      have hman : Managed c := hpr.typed.managed c (by rw [hc₁]; simp)
      have href : k₁.refCount (pa2idx c) = 1 := by
        have := hpr.typed.ref c hman
        rwa [hc₁] at this
      obtain ⟨k₂, bs₂, hk₂, hput⟩ := kfree_last hpr.typed.rep hman href
        (hpr.typed.not_free (by rw [hc₁]; simp))
      have hstay : ∀ q, kind₁ q ≠ .free → kind₁ q ≠ .held → q ≠ c → k₂.mem q = k₁.mem q :=
        fun q hf hh hq => hput.frame q (hpr.typed.aligned hh) fun hfree => by
          rcases (hput.free_iff q).mp hfree with hfree | rfl
          · exact hpr.typed.not_free hf hfree
          · exact hq rfl
      -- cutting the table off commutes with freeing it
      obtain ⟨h₃, hview₃⟩ := hpr.typed.dropTable hc₁ hp₁ hempty
      have hput' := hput.setWord (t := p) (hpr.typed.aligned (by rw [hp₁]; simp)) (fun hf => by
        rcases (hput.free_iff p).mp hf with hf | hf
        · exact hpr.typed.not_free (by rw [hp₁]; simp) hf
        · exact hpc hf) i 0
      have hnew : c ∉ held := fun hm => by
        rw [((h.held_iff c).mp hm).2] at hc; cases hc
      obtain ⟨h₄, hview₄⟩ := h₃.put (Finset.mem_insert_self c held) hput'
      rw [Finset.erase_insert hnew] at h₄
      refine ⟨(), k₂, by rw [MiniOS.kfreeK, hk₂]; rfl, ?_, bs₂, _, h₄, ?_, fun q hq => ?_,
        fun q r' π hq hd => ?_, fun q r' π hq hd hqp => ?_, fun q r' π hq hne => ?_⟩
      · rw [hstay p (by rw [hp₁]; simp) (by rw [hp₁]; simp) hpc, hmem₁]
      · rw [hview₄, hview₃, hpr.view_eq]
      · have hkq := ((h.held_iff q).mp hq).2
        have hkq₁ := ((hpr.typed.held_iff q).mp hq).2
        have hqp : q ≠ p := by rintro rfl; rw [hkq] at hp; cases hp
        have hqc : q ≠ c := by rintro rfl; exact hnew hq
        simp only
        rw [setWord_of_ne hqp, ← hpr.held_mem q hq]
        refine hput.frame q ((hpr.typed.held_iff q).mp hq).1.1 fun hf => ?_
        rcases (hput.free_iff q).mp hf with hf | hf
        · exact hpr.typed.not_free (by rw [hkq₁]; simp) hf
        · exact hqc hf
      · have hqc : q ≠ c := by
          rintro rfl
          rw [hc] at hq
          cases hq
          rw [List.length_cons] at hd; omega
        rw [update_of_ne hqc, update_of_ne hqc]
        exact hpr.kinds q r' π hq (by simp; omega)
      · have hqc : q ≠ c := by
          rintro rfl
          rw [hc] at hq
          cases hq
          rw [List.length_cons] at hd; omega
        have hkq₁ := hpr.kinds q r' π hq (by simp; omega)
        simp only
        rw [setWord_of_ne hqp, hstay q (by rw [hkq₁, hq]; simp) (by rw [hkq₁, hq]; simp) hqc]
        exact hpr.tables q r' π hq (by simp; omega) hqc
      · have hqc : q ≠ c := by rintro rfl; rw [hc] at hq; cases hq; exact hne rfl
        have hqp : q ≠ p := by rintro rfl; rw [hp] at hq; cases hq; exact hne rfl
        obtain ⟨hkq₁, hmq₁⟩ := hpr.others q r' π hq hne
        refine ⟨by rw [update_of_ne hqc, update_of_ne hqc, hkq₁], ?_⟩
        simp only
        rw [setWord_of_ne hqp, hstay q (by rw [hkq₁, hq]; simp) (by rw [hkq₁, hq]; simp) hqc, hmq₁]

end freewalk

/-- `freewalk` of a page table without mappings. -/
theorem Ok.freewalk (h : Ok k roots held) (hr : r ∈ roots) (hun : Unmapped k roots r) :
    Returns (freewalk 3 r) k fun _ k' => Does r k roots held [] k' (roots.erase r) held := by
  obtain ⟨bs, kind, h⟩ := h
  have hkr := h.tree.kind_root hr
  rw [MiniOS.freewalk]
  refine (freewalkEntries_spec (fun j h' hp' hun' hlen' hV' => freewalk_table j rfl
    h' hp' hun' hlen' hV') h hkr hun fun j hj => absurd (List.mem_finRange j) hj).bind ?_
  rintro _ k₁ ⟨hempty, bs₁, kind₁, hpr⟩
  obtain ⟨h₂, hview₂⟩ := hpr.typed.dropRoot hr hempty
  have hnew : r ∉ held := fun hm => by
    rw [((h.held_iff r).mp hm).2] at hkr; cases hkr
  refine (Ok.kfreeK r ⟨bs₁, _, h₂⟩ (Finset.mem_insert_self r held)).mono ?_
  rintro _ k' ⟨hd, -⟩
  rw [Finset.erase_insert hnew] at hd
  refine ⟨hd.ok, ?_, fun p hp hp' => ?_, ?_⟩
  · rw [hd.view_eq, hview₂, hpr.view_eq]; exact Edits.nil _
  · rw [hd.frame p (Finset.mem_insert_of_mem hp) hp', hpr.held_mem p hp]
  · refine (h.tree.keeps (fun q hq hne => Finset.mem_erase.mpr ⟨hne, hq⟩) fun q r' π hq _ hne => ?_).trans
      hd.keeps
    exact (hpr.others q r' π hq hne).2

/-- `uvmfree` of a page table that maps nothing from `PGROUNDUP(sz)` on. -/
theorem Ok.uvmfree (h : Ok k roots held) {sz : Nat} (hr : r ∈ roots) (hsz : sz ≤ trapframeVa)
    (hhigh : ∀ v, pgRoundUp sz / pgSize ≤ v → v < maxVpn → has ((view k roots).pte r v) pteV = false) :
    Returns (uvmfree r sz) k fun _ k' =>
      Does r k roots held (unmaps r 0 (pgRoundUp sz / pgSize)) k' (roots.erase r) held := by
  have hend : 0 + pgRoundUp sz / pgSize ≤ userVpn := by
    rw [trapframeVa_eq] at hsz
    simp only [pgRoundUp, pgSize, userVpn] at *; omega
  have hrest : ∀ k₁, Does r k roots held (unmaps r 0 (pgRoundUp sz / pgSize)) k₁ roots held →
      Returns (MiniOS.freewalk 3 r) k₁ fun _ k' =>
        Does r k roots held (unmaps r 0 (pgRoundUp sz / pgSize)) k' (roots.erase r) held := by
    intro k₁ hd
    refine (hd.ok.freewalk hr fun v hv => ?_).mono fun _ k' hd' => ?_
    · rw [Edits.unmaps_pte hd.edits]
      split
      next => simp
      next hne =>
        by_cases hlo : v < pgRoundUp sz / pgSize
        · by_contra hV
          exact hne ⟨⟨rfl, by omega, by omega⟩, by simpa using hV⟩
        · exact hhigh v (by omega) hv
    · have := hd.trans hd' fun _ hp _ => hp
      rwa [List.append_nil] at this
  rw [MiniOS.uvmfree]
  by_cases h0 : 0 < sz
  · have hunmap := h.uvmunmap r 0 hr hend
    rw [Nat.zero_mul] at hunmap
    rw [if_pos h0]
    exact hunmap.bind fun _ k₁ hd => hrest k₁ hd
  · obtain rfl : sz = 0 := by omega
    rw [if_neg h0]
    exact hrest k (Does.refl h)

end

end MiniOS
