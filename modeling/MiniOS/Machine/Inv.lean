import MiniOS.Machine.Step

/-!
# MiniOS.Machine.Inv

The invariant of the kernel holds from boot on, along every run of the machine.
-/

namespace MiniOS

open Extents

section
variable [KernelImage] {k : Kmem} {s s' : Sys}

/-- After `kinit` every page is free. -/
theorem Ok.kinit {mem : Mem} (hk : kinit mem = some k) : Ok k ∅ ∅ := by
  obtain ⟨k₁, hk₁, hrep, href, hrmap, -⟩ := kinit_spec mem
  rw [hk] at hk₁
  cases hk₁
  have hkind : ∀ p r path, (if Managed p then Kind.free else .held) ≠ .table r path := fun p r path => by
    split <;> simp
  refine ⟨[wholeRange], fun p => if Managed p then .free else .held, hrep, ?_, fun p => ?_, fun p hp => ?_,
    fun p => ?_, fun p hp => ?_, fun p hp => ?_, fun x _ => href x, fun p _ _ => hrmap _⟩
  · exact ⟨fun p r => ⟨fun h => absurd h (hkind p r []), fun h => absurd h.2 (Finset.notMem_empty r)⟩,
      fun p r path h => absurd h (hkind p r path), fun p r path h => absurd h (hkind p r path),
      fun p r i path h => absurd h (hkind p r _), fun p r i h => absurd h (hkind p r _),
      fun p r i j h => absurd h (hkind p r _)⟩
  · have hfree : FreePage [wholeRange] p ↔ Managed p := by
      rw [FreePage]
      have hcov : Covers [wholeRange] (p / pgSize) ↔ Managed (p / pgSize * pgSize) := by
        rw [← has_wholeRange]
        simp [Covers]
      rw [hcov]
      refine ⟨fun hm => ?_, fun hm => ⟨hm.1, ?_⟩⟩
      · have hman := hm.2
        rwa [Nat.div_mul_cancel (Nat.dvd_of_mod_eq_zero hm.1)] at hman
      · rwa [Nat.div_mul_cancel (Nat.dvd_of_mod_eq_zero hm.1)]
    rw [hfree]
    split
    next hm => simp [hm]
    next hm => simp [hm]
  · by_contra hm
    exact hp (if_neg hm)
  · simp +contextual
  · simp [getref, href, if_pos hp, Kind.refs]
  · split at hp <;> cases hp

/-- The kernel at boot. -/
theorem booted_inv {mem : Mem} (hk : MiniOS.kinit mem = some k) : (booted k).Inv := by
  have hroots : (booted k).roots = ∅ := by
    ext r
    simp [Sys.mem_roots, booted, freshTable, Proc.fresh]
    omega
  have hheld : (booted k).held = ∅ := by
    ext q
    simp [Sys.held, Table.trapframes, booted, freshTable, Proc.fresh]
    omega
  refine ⟨?_, fun p q _ h0 => absurd rfl h0, fun p q _ h0 => absurd rfl h0, fun p => Finset.notMem_empty _, ?_,
    fun p => Entry.of_unused rfl rfl rfl rfl⟩
  · rw [hroots, hheld]
    exact Ok.kinit hk
  · intro r v _ hV
    rw [Sys.view, hroots, view_pte_not_root (Finset.notMem_empty r)] at hV
    exact absurd hV (by simp)

/-- One operation. -/
theorem Sys.Inv.step (h : s.Inv) {op : Op} (hs : s.step op = some s') : ∃ out, Performs s op out s' := by
  obtain ⟨⟨out, s₁⟩, hp, rfl⟩ := Option.map_eq_some_iff.mp hs
  exact ⟨out, (h.perform op).2 out s₁ hp⟩

theorem Sys.Inv.of_step (h : s.Inv) {op : Op} (hs : s.step op = some s') : s'.Inv := by
  obtain ⟨out, es, hinv, -⟩ := h.step hs
  exact hinv

/-- Every run keeps the invariant. -/
theorem Sys.Inv.run {ops : List Op} (h : s.Inv) (hr : Runs.run Sys.step s ops = some s') : s'.Inv :=
  Runs.invariant_of_step (fun _ _ _ hi hs => hi.of_step hs) h hr

/-- The invariant holds in every state that the kernel can be in. -/
theorem Reachable.inv (h : Reachable s) : s.Inv := by
  obtain ⟨mem, k, ops, hk, hr⟩ := h
  exact (booted_inv hk).run hr

end

/-! ## a small machine -/

/-- A kernel that has 24 pages to manage. -/
@[reducible] def tinyImage : KernelImage where
  kernelEnd := 0x87FE8000
  trampoline := 0x80007000
  kernBase_le := by decide
  kernelEnd_le := by decide
  trampoline_mod := sampleImage.trampoline_mod
  trampoline_lt := by decide

/-- Its state after some operations from boot, on zeroed memory. -/
def tinyRun (ops : List Op) : Option Sys :=
  (@kinit tinyImage fun _ => zeroPage).bind fun k => Runs.run (@Sys.step tinyImage) (booted k) ops

theorem reachable_tinyRun {ops : List Op} {s : Sys} (h : tinyRun ops = some s) : @Reachable tinyImage s := by
  obtain ⟨k, hk, hr⟩ := Option.bind_eq_some_iff.mp h
  exact ⟨_, k, ops, hk, hr⟩

/-- `compact_memory` moves no page: it reads the counts of others. -/
theorem compact_moves_nothing [KernelImage] {s : Sys} (h : Reachable s) : compactMemory s.kmem = some ((), s.kmem) :=
  h.inv.ok.compactMemory

theorem compact_moves_nothing_hole : ∃ s, compactMemory s.kmem = some ((), s.kmem) ∧
    tinyRun [.userinit, .kbufAlloc, .sbrk 0 4096 true, .kbufFree 0x87FEC000] = some s := by
  have hrun : (tinyRun [.userinit, .kbufAlloc, .sbrk 0 4096 true, .kbufFree 0x87FEC000]).isSome := by decide +kernel
  obtain ⟨s, hs⟩ := Option.isSome_iff_exists.mp hrun
  exact ⟨s, @compact_moves_nothing tinyImage s (reachable_tinyRun hs), hs⟩

end MiniOS
