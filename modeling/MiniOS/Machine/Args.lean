import MiniOS.Machine.Inv

/-!
# MiniOS.Machine.Args

The arguments of a program, as it finds them on its stack after `kexec`.
-/

namespace MiniOS

/-- The areas of the strings, with the terminating 0: address and size. -/
def argAreas (addrs : List Nat) (argv : List (List Byte)) : List (Nat × Nat) :=
  List.zipWith (fun a arg => (a, arg.length + 1)) addrs argv

/-- The areas of all that `kexec` puts on the stack. -/
def stackAreas (sp : Nat) (addrs : List Nat) (argv : List (List Byte)) : List (Nat × Nat) :=
  argAreas addrs argv ++ [(sp, (argv.length + 1) * 8)]

/-- Each area of a list lies below the one before it. -/
def Descending (areas : List (Nat × Nat)) : Prop := areas.Pairwise fun a b => b.1 + b.2 ≤ a.1

/-- The strings fill the stack from `sp` down. -/
theorem argAreas_bounds {sp : Nat} {argv : List (List Byte)} (h : argSlots argv ≤ sp) :
    ∀ a ∈ argAreas (argAddrs sp argv) argv, sp - argSlots argv ≤ a.1 ∧ a.1 + a.2 ≤ sp := by
  induction argv generalizing sp with
  | nil => simp [argAreas]
  | cons arg argv ih =>
    have hslot := (lt_argSlot arg).1
    rw [argSlots_cons] at h ⊢
    simp only [argAreas, argAddrs, List.zipWith_cons_cons, List.mem_cons]
    rintro a (rfl | ha)
    · simp only
      omega
    · have := @ih (sp - argSlot arg) (by omega) a ha
      omega

theorem argAreas_descending {sp : Nat} {argv : List (List Byte)} (h : argSlots argv ≤ sp) :
    Descending (argAreas (argAddrs sp argv) argv) := by
  induction argv generalizing sp with
  | nil => exact List.Pairwise.nil
  | cons arg argv ih =>
    rw [argSlots_cons] at h
    refine List.Pairwise.cons (fun b hb => ?_) (ih (by omega))
    exact (argAreas_bounds (by omega) b hb).2

section
variable [KernelImage] {s : Sys} {p : Fin nproc}

/-- The program of process `p` finds its arguments: the stack pointer and `a1` point to an array of pointers to the
strings, which ends with 0, and all of it is in the page below `sz`. -/
structure ArgsPassed (s : Sys) (p : Fin nproc) (argv : List (List Byte)) (sp : Nat) (addrs : List Nat) : Prop where
  a1 : s.kmem.mem (s.procs p).trapframe tfA1 = BitVec.ofNat 64 sp
  stack : s.kmem.mem (s.procs p).trapframe tfSp = BitVec.ofNat 64 sp
  aligned : sp % 16 = 0
  pointers : s.view.Holds (s.procs p).pagetable sp ((addrs ++ [0]).flatMap uint64Bytes)
  strings : s.view.Strings (s.procs p).pagetable addrs argv
  disjoint : Descending (stackAreas sp addrs argv)
  inside : ∀ a ∈ stackAreas sp addrs argv, (s.procs p).sz - pgSize ≤ a.1 ∧ a.1 + a.2 ≤ (s.procs p).sz

theorem Sys.Executed.argsPassed {s' : Sys} {file : List Byte} {argv : List (List Byte)} {r sz sp : Nat}
    (h : s.Executed p file argv r sz sp s') : ArgsPassed s' p argv sp (argAddrs sz argv) := by
  have hproc : s'.procs p = { s.procs p with pagetable := r, sz := sz } := by rw [h.procs, Function.update_self]
  obtain ⟨⟨-, hfit⟩, ⟨n, hn⟩, hsp, hstrings, hpointers⟩ := h.laid
  obtain ⟨elf, -, hframe⟩ := h.frame
  have hmod := argSlots_mod argv
  have hslot : (argv.length + 1) * 8 ≤ argvSlot argv.length ∧ argvSlot argv.length % 16 = 0 := by
    simp only [argvSlot]
    omega
  have hbounds := @argAreas_bounds sz argv
  simp only [argBytes, pgSize] at hfit hsp hn
  have hdisjoint : Descending (stackAreas sp (argAddrs sz argv) argv) := by
    refine List.pairwise_append.mpr ⟨argAreas_descending (by omega), List.pairwise_singleton _ _, fun a ha b hb => ?_⟩
    have := (hbounds (by omega) a ha).1
    rw [List.mem_singleton.mp hb]
    simp only
    omega
  have hinside : ∀ a ∈ stackAreas sp (argAddrs sz argv) argv, sz - 4096 ≤ a.1 ∧ a.1 + a.2 ≤ sz := by
    intro a ha
    rcases List.mem_append.mp ha with ha | ha
    · have := hbounds (by omega) a ha
      omega
    · rw [List.mem_singleton.mp ha]
      simp only
      omega
  exact {
    a1 := by rw [hproc, hframe]; rfl
    stack := by rw [hproc, hframe]; rfl
    aligned := by omega
    pointers := by rw [hproc]; exact hpointers
    strings := by rw [hproc]; exact hstrings
    disjoint := hdisjoint
    inside := by rw [hproc]; exact hinside }

/-- `kexec` passes its arguments, and if the program can be loaded it fails exactly when they do not fit. -/
theorem exec_passes_args (h : Reachable s) (hl : (s.procs p).state ≠ .unused) (file : List Byte)
    (argv : List (List Byte)) : ∃ res s', kexec p file argv s = some (res, s') ∧
      (∀ argc, res = some argc → argc = argv.length ∧ ∃ sp addrs, ArgsPassed s' p argv sp addrs) ∧
      (Execs s p file → (res = none ↔ ¬ (argv.length ≤ maxArg ∧ argBytes argv ≤ pgSize))) := by
  obtain ⟨res, s', hrun, hiff, -, hsome⟩ := h.inv.kexec hl file argv
  refine ⟨res, s', hrun, fun argc hargc => ?_, fun hexec => ?_⟩
  · obtain ⟨hlen, r, sz, sp, hex⟩ := hsome argc hargc
    exact ⟨hlen, sp, _, hex.argsPassed⟩
  · rw [← Option.not_isSome_iff_eq_none, hiff, and_iff_right hexec]
    rfl

end

/-- An ELF header without program headers. -/
def emptyProgram : List Byte := [0x7f, 0x45, 0x4c, 0x46] ++ List.replicate 60 0

/-- The first process executes a program with one argument. -/
theorem exec_passes_args_first : ∃ s s' argc, tinyRun [.userinit] = some s ∧
    @kexec tinyImage 0 emptyProgram [[97]] s = some (some argc, s') ∧ ∃ sp addrs, ArgsPassed s' 0 [[97]] sp addrs := by
  let _ := tinyImage
  have hrun : ((tinyRun [.userinit]).bind fun s => (procPagetable (s.procs 0).trapframe s.kmem).bind fun r =>
      (uvmalloc r.1 (pgRoundUp 0) (pgRoundUp 0 + 2 * pgSize) pteW r.2).map fun t =>
        ((s.procs 0).state, decide (r.1 ≠ 0), decide (t.1 ≠ 0))) = some (.runnable, true, true) := by
    decide +kernel
  obtain ⟨s, hs, hpage⟩ := Option.bind_eq_some_iff.mp hrun
  obtain ⟨⟨r, k⟩, hr, hstack⟩ := Option.bind_eq_some_iff.mp hpage
  obtain ⟨⟨sz, k₁⟩, hsz, heq⟩ := Option.map_eq_some_iff.mp hstack
  simp only [Prod.mk.injEq, decide_eq_true_eq] at heq
  obtain ⟨hstate, hr0, hsz0⟩ := heq
  have helf : ∃ elf, readElfhdr emptyProgram = some elf ∧ elf.phnum = 0 := by decide +kernel
  obtain ⟨elf, helf, hphnum⟩ := helf
  have hexec : Execs s 0 emptyProgram := by
    refine ⟨elf, r, k, helf, hr, hr0, 0, k, ?_, sz, k₁, hsz, hsz0⟩
    rw [hphnum]
    rfl
  obtain ⟨res, s', hk, hargs, hnone⟩ :=
    exec_passes_args (reachable_tinyRun hs) (p := 0) (by rw [hstate]; decide) emptyProgram [[97]]
  obtain ⟨argc, rfl⟩ := Option.ne_none_iff_exists'.mp fun he => (hnone hexec).mp he (by decide)
  exact ⟨s, s', argc, hs, hk, (hargs argc rfl).2⟩

end MiniOS
