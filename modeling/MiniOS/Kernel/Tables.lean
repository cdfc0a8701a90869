import MiniOS.Kernel
import MiniOS.Vm.Copy

/-!
# MiniOS.Kernel.Tables

The page tables of processes: `proc_pagetable` and `proc_freepagetable` with
the two mappings of the kernel above user memory.
-/

namespace MiniOS

open Total

section
variable {k : Kmem} {roots held : Finset Nat} {ρ : Nat}

theorem view_pte_not_root {r : Nat} (hr : r ∉ roots) (v : Nat) : (view k roots).pte r v = 0 :=
  if_neg fun hc => hr hc.1

theorem view_pte_high {v : Nat} (hv : maxVpn ≤ v) (r : Nat) : (view k roots).pte r v = 0 :=
  if_neg fun hc => by omega

theorem trampoline_vpn : userVpn + 1 < maxVpn ∧ userVpn < maxVpn := by decide

/-- A mapping of the kernel that is made and removed again leaves no trace. -/
theorem kmap_undo {r v : Nat} {w : Word} (hr : r ∉ roots) (hv : userVpn ≤ v) :
    ((view k roots).edit (.kmap r v w)).edit (.kmap r v 0) = view k roots := by
  ext1
  · funext r' v'
    rw [View.edit_pte_some rfl, View.edit_pte_some rfl]
    split
    next he => rw [he.1, view_pte_not_root hr]
    next => rfl
  · funext r' v'
    simp only [View.edit, View.set_sees]
    split
    next he => rw [he.2, view_sees_kernel hv]
    next => rfl
  · rfl

variable [KernelImage]

/-- The entry for `TRAMPOLINE`. -/
def trampolinePte : Word := pa2pte trampoline ||| (pteR ||| pteX) ||| pteV

/-- The entry for `TRAPFRAME`. -/
def trapframePte (trapframe : Nat) : Word := pa2pte trapframe ||| (pteR ||| pteW) ||| pteV

/-- `mappages` of one page of the kernel. -/
theorem Ok.mapKernel (h : Ok k roots held) {r v : Nat} (hr : r ∈ roots) (hv : v < maxVpn)
    (hv' : userVpn ≤ v) (hpte : (view k roots).pte r v = 0) (pa : Nat) {perm : Word}
    (hU : has perm pteU = false) :
    Returns (MiniOS.mappages r (v * pgSize) pgSize pa perm) k fun ok k' =>
      Does r k roots held (if ok then [.kmap r v (pa2pte pa ||| perm ||| pteV)] else []) k' roots held := by
  refine (h.mappages hr hv hpte pa perm).mono ?_
  rintro ok k' ⟨k₁, hd, -, hfail, hok⟩
  cases ok with
  | false =>
    obtain ⟨rfl, -⟩ := hfail rfl
    exact hd
  | true =>
    obtain ⟨s, hs, rfl⟩ := hok rfl
    exact hd.trans (hd.ok.kmap r hr hs hv hv' hU) fun _ hp _ => hp

variable (ρ) in
/-- `proc_pagetable`. -/
theorem Ok.procPagetable (h : Ok k roots held) (trapframe : Nat) :
    Returns (procPagetable trapframe) k fun r k' =>
      (r = 0 ∧ Does ρ k roots held [] k' roots held) ∨
      (r ≠ 0 ∧ r ∉ roots ∧ r ∉ held ∧
        Does ρ k roots held [.kmap r (userVpn + 1) trampolinePte, .kmap r userVpn (trapframePte trapframe)]
          k' (insert r roots) held) := by
  obtain ⟨hv₁, hv₀⟩ := trampoline_vpn
  rw [MiniOS.procPagetable, trampolineVa_eq, trapframeVa_eq]
  refine h.uvmcreate.bind ?_
  rintro r k₁ (⟨rfl, rfl⟩ | ⟨hr0, hroot, hheld, hd, -⟩)
  · rw [if_pos rfl]
    exact returns_pure (Or.inl ⟨rfl, Does.refl h⟩)
  rw [if_neg hr0]
  have hd := hd r
  have hr : r ∈ insert r roots := Finset.mem_insert_self r roots
  have herase : (insert r roots).erase r = roots := Finset.erase_insert hroot
  have hempty : ∀ v, (view k₁ (insert r roots)).pte r v = 0 := fun v => by
    rw [hd.view_eq, view_pte_not_root hroot]
  refine (hd.ok.mapKernel hr hv₁ (Nat.le_succ _) (hempty _) trampoline (by simp)).bind ?_
  intro ok k₂ hd₂
  cases ok with
  | false =>
    rw [if_neg (by decide)] at hd₂
    have hd₂' := hd.trans hd₂ fun _ hp _ => hp
    refine (hd₂'.ok.uvmfree hr (Nat.zero_le _) fun v _ _ => ?_).bind fun _ k₃ hd₃ => returns_pure ?_
    · rw [hd₂.view_eq, hempty]; simp
    · have := hd₂'.trans hd₃ fun _ hp _ => hp
      rw [herase] at this
      exact Or.inl ⟨rfl, this.of_new hroot⟩
  | true =>
    rw [if_pos rfl] at hd₂
    have hpte₂ : ∀ v, (view k₂ (insert r roots)).pte r v = if v = userVpn + 1 then trampolinePte else 0 := by
      intro v
      rw [hd₂.view_one, View.edit_pte_some rfl, hempty]
      simp [trampolinePte]
    refine (hd₂.ok.mapKernel hr hv₀ (Nat.le_refl _) (by rw [hpte₂]; simp) trapframe (by simp)).bind ?_
    intro ok k₃ hd₃
    have hd₂' := hd.trans hd₂ fun _ hp _ => hp
    have hd₃' := hd₂'.trans hd₃ fun _ hp _ => hp
    cases ok with
    | true => exact returns_pure (Or.inr ⟨hr0, hroot, hheld, hd₃'.of_new hroot⟩)
    | false =>
      rw [if_neg (by decide)] at hd₃ hd₃'
      refine (hd₃'.ok.uvmunmap_kernel r hr hv₁ (Nat.le_succ _)).bind fun _ k₄ hd₄ => ?_
      have hd₄' := hd₃'.trans hd₄ fun _ hp _ => hp
      have hview : view k₄ (insert r roots) = view k roots := by
        rw [hd₄.view_one, hd₃.view_eq, hd₂.view_one, hd.view_eq, kmap_undo hroot (Nat.le_succ _)]
      refine (hd₄'.ok.uvmfree hr (Nat.zero_le _) fun v _ _ => ?_).bind fun _ k₅ hd₅ => returns_pure ?_
      · rw [hview, view_pte_not_root hroot]; simp
      · have := hd₄'.trans hd₅ fun _ hp _ => hp
        rw [herase] at this hd₅
        exact Or.inl ⟨rfl, Does.of_view this.ok (hd₅.view_eq.trans hview) this.frame (this.of_new hroot).keeps⟩

/-- What `proc_freepagetable` does to the view. -/
def freed (r sz : Nat) : List Edit :=
  [.kmap r (userVpn + 1) 0] ++ ([.kmap r userVpn 0] ++ unmaps r 0 (pgRoundUp sz / pgSize))

/-- `proc_freepagetable` of a page table that maps nothing between
`PGROUNDUP(sz)` and `TRAPFRAME`. -/
theorem Ok.procFreepagetable (h : Ok k roots held) {r sz : Nat} (hr : r ∈ roots)
    (hsz : sz ≤ trapframeVa)
    (hhigh : ∀ v, pgRoundUp sz / pgSize ≤ v → v < userVpn → (view k roots).pte r v = 0) :
    Returns (procFreepagetable r sz) k fun _ k' =>
      Does r k roots held (freed r sz) k' (roots.erase r) held := by
  obtain ⟨hv₁, hv₀⟩ := trampoline_vpn
  rw [MiniOS.procFreepagetable, trampolineVa_eq, trapframeVa_eq]
  refine (h.uvmunmap_kernel r hr hv₁ (Nat.le_succ _)).bind fun _ k₁ hd₁ => ?_
  refine (hd₁.ok.uvmunmap_kernel r hr hv₀ (Nat.le_refl _)).bind fun _ k₂ hd₂ => ?_
  refine (hd₂.ok.uvmfree hr hsz fun v hlo hhi => ?_).mono fun _ k₃ hd₃ =>
    hd₁.trans (hd₂.trans hd₃ fun _ hp _ => hp) fun _ hp _ => hp
  rw [hd₂.view_one, View.edit_pte_some rfl, hd₁.view_one, View.edit_pte_some rfl]
  simp only [true_and]
  by_cases h0 : v = userVpn
  · simp [h0]
  · by_cases h1 : v = userVpn + 1
    · simp [h1]
    · rw [if_neg h0, if_neg h1, hhigh v hlo (by simp only [maxVpn, userVpn] at *; omega)]
      simp

end

end MiniOS
