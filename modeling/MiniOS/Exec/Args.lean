import MiniOS.Exec.Spec

/-!
# MiniOS.Exec.Args

The stack of a new image.  Every string takes a slot of a multiple of 16 bytes,
and the slots follow one another from the top of the stack down; below them is
the array of pointers.  So whether the arguments fit depends on the sum of the
slots alone (`argBytes`).
-/

namespace MiniOS

open Total

/-! ## the layout -/

/-- The bytes that a string takes on the stack. -/
def argSlot (arg : List Byte) : Nat := (arg.length + 1 + 15) / 16 * 16

/-- The bytes of all strings. -/
def argSlots (argv : List (List Byte)) : Nat := (argv.map argSlot).sum

/-- The bytes of the array of pointers. -/
def argvSlot (argc : Nat) : Nat := ((argc + 1) * 8 + 15) / 16 * 16

/-- The bytes of all that `kexec` puts on the stack. -/
def argBytes (argv : List (List Byte)) : Nat := argSlots argv + argvSlot argv.length

/-- The addresses of the strings, from `sp` down. -/
def argAddrs : Nat → List (List Byte) → List Nat
  | _, [] => []
  | sp, arg :: argv => (sp - argSlot arg) :: argAddrs (sp - argSlot arg) argv

@[simp] theorem argSlots_nil : argSlots [] = 0 := rfl

@[simp] theorem argSlots_cons (arg : List Byte) (argv : List (List Byte)) :
    argSlots (arg :: argv) = argSlot arg + argSlots argv := by simp [argSlots]

@[simp] theorem length_argAddrs (sp : Nat) (argv : List (List Byte)) : (argAddrs sp argv).length = argv.length := by
  induction argv generalizing sp with
  | nil => rfl
  | cons arg argv ih => simp [argAddrs, ih]

theorem lt_argSlot (arg : List Byte) : arg.length < argSlot arg ∧ argSlot arg % 16 = 0 := by
  simp only [argSlot]
  omega

/-- `sp -= strlen(argv[argc]) + 1; sp -= sp % 16`. -/
theorem push_eq {sp : Nat} (h : sp % 16 = 0) (arg : List Byte) :
    (sp - (arg.length + 1)) / 16 * 16 = sp - argSlot arg := by
  simp only [argSlot]
  omega

/-- The pointers. -/
theorem pushArgv_eq {sp : Nat} (h : sp % 16 = 0) (argc : Nat) :
    (sp - (argc + 1) * 8) / 16 * 16 = sp - argvSlot argc := by
  simp only [argvSlot]
  omega

/-- The bytes `bs` are seen at `a`. -/
def View.Holds (V : View) (r a : Nat) (bs : List Byte) : Prop :=
  ∀ i < bs.length, V.byte r (a + i) = bs.getD i 0

theorem View.Holds.congr {V V' : View} {r a : Nat} {bs : List Byte} (h : V.Holds r a bs)
    (hbyte : ∀ i < bs.length, V'.byte r (a + i) = V.byte r (a + i)) : V'.Holds r a bs := fun i hi => by
  rw [hbyte i hi, h i hi]

/-- The strings with their terminating 0 are at their addresses. -/
def View.Strings (V : View) (r : Nat) (addrs : List Nat) (argv : List (List Byte)) : Prop :=
  List.Forall₂ (fun a arg => V.Holds r a (arg ++ [0])) addrs argv

theorem View.Strings.congr {V V' : View} {r : Nat} (lo : Nat) : ∀ {argv : List (List Byte)} {sp : Nat},
    V.Strings r (argAddrs sp argv) argv → lo + argSlots argv ≤ sp →
    (∀ a, lo ≤ a → a < sp → V'.byte r a = V.byte r a) → V'.Strings r (argAddrs sp argv) argv
  | [], _, _, _, _ => List.Forall₂.nil
  | arg :: argv, sp, h, hlo, hbyte => by
      obtain ⟨hhead, htail⟩ := List.forall₂_cons.mp h
      rw [argSlots_cons] at hlo
      have hslot := lt_argSlot arg
      refine List.Forall₂.cons (hhead.congr fun i hi => hbyte _ (by omega) ?_) ?_
      · rw [List.length_append, List.length_singleton] at hi
        omega
      · exact View.Strings.congr lo htail (by omega) fun a h1 h2 => hbyte a h1 (by omega)

theorem length_pointers (addrs : List Nat) : (addrs.flatMap uint64Bytes).length = addrs.length * 8 := by
  induction addrs with
  | nil => rfl
  | cons a addrs ih =>
    rw [List.flatMap_cons, List.length_append, ih, List.length_cons]
    simp [uint64Bytes]
    omega

theorem argSlots_mod : ∀ argv : List (List Byte), argSlots argv % 16 = 0
  | [] => rfl
  | arg :: argv => by
      have := (lt_argSlot arg).2
      have := argSlots_mod argv
      rw [argSlots_cons]
      omega

/-- The addresses of the guard page and the stack. -/
theorem stack_addrs (n : Nat) : (n + 2) * pgSize - 2 * pgSize = n * pgSize ∧
    (n + 2) * pgSize - pgSize = (n + 1) * pgSize ∧ (n + 1) * pgSize + pgSize = (n + 2) * pgSize ∧
    (n + 2) * pgSize % 16 = 0 ∧ (n + 2) * pgSize ≠ 0 ∧ (n + 2) * pgSize / pgSize - 2 = n := by
  simp only [pgSize]
  omega

section
variable [KernelImage] {k k' : Kmem} {roots held : Finset Nat} {r n psz : Nat}

/-- The loop over the arguments: all strings are on the stack, or they do not fit. -/
theorem Stacked.pushArgs (hpsz : psz ≤ trapframeVa) : ∀ {argv : List (List Byte)} {sp : Nat} {ustack : List Nat}
    {k : Kmem}, Stacked k roots held r n → ustack.length ≤ maxArg → sp % 16 = 0 → (n + 1) * pgSize ≤ sp →
    sp ≤ (n + 2) * pgSize →
    Returns (pushArgs psz r ((n + 1) * pgSize) argv sp ustack) k fun res k' =>
      Works k roots held r k' ∧ Stacked k' roots held r n ∧
      (res = none ↔ ¬ (ustack.length + argv.length ≤ maxArg ∧ (n + 1) * pgSize + argSlots argv ≤ sp)) ∧
      ∀ out, res = some out → out = (sp - argSlots argv, ustack ++ argAddrs sp argv) ∧
        (view k' roots).Strings r (argAddrs sp argv) argv ∧
        ∀ a, sp ≤ a → a / pgSize < userVpn → (view k' roots).byte r a = (view k roots).byte r a
  | [], sp, ustack, k, h, hlen, _, hlo, _ => by
      refine returns_pure ⟨Works.refl h.ok, h, by simp [hlen, hlo], ?_⟩
      rintro out hout
      cases hout
      exact ⟨by simp [argAddrs], List.Forall₂.nil, fun _ _ _ => rfl⟩
  | arg :: argv, sp, ustack, k, h, hlen, hmod, hlo, hhi => by
      obtain ⟨hslot, hslot16⟩ := lt_argSlot arg
      rw [MiniOS.pushArgs, argSlots_cons, List.length_cons]
      split
      next hfull => exact returns_pure ⟨Works.refl h.ok, h, by simp; omega, nofun⟩
      next hroom =>
        simp only [push_eq hmod]
        split
        next hbase => exact returns_pure ⟨Works.refl h.ok, h, by simp; omega, nofun⟩
        next hbase =>
          have hfit : argSlot arg ≤ sp := by
            have : 0 < (n + 1) * pgSize := by simp [pgSize]
            omega
          have hsp : sp - argSlot arg + (arg ++ [(0 : Byte)]).length ≤ sp := by
            rw [List.length_append, List.length_singleton]
            omega
          refine (h.copyout hpsz (Nat.le_of_not_lt hbase) (by omega)).bind ?_
          rintro ⟨ok, m⟩ k₁ ⟨rfl, hw, hst, hbyte⟩
          simp only [Bool.not_true, Bool.false_eq_true, if_false]
          have hnew : (ustack ++ [sp - argSlot arg]).length = ustack.length + 1 := by simp
          refine (Stacked.pushArgs hpsz hst (by omega) (by omega) (Nat.le_of_not_lt hbase) (by omega)).mono ?_
          rintro res k' ⟨hw', hst', hnone, hsome⟩
          rw [hnew] at hnone
          refine ⟨hw.trans hw', hst', hnone.trans (not_congr (by omega)), fun out hout => ?_⟩
          obtain ⟨rfl, hstrings, hkeep⟩ := hsome out hout
          have huser : ∀ a, a < (n + 2) * pgSize → a / pgSize < userVpn := fun a ha => by
            have := h.lt_user
            simp only [pgSize] at *
            omega
          refine ⟨by simp [argAddrs]; omega, List.Forall₂.cons (fun i hi => ?_) hstrings, fun a ha hua => ?_⟩
          · -- the string, which later copies leave alone
            rw [hkeep _ (by omega) (huser _ (by omega)), hbyte _ _ (huser _ (by omega)), if_pos (by omega),
              Nat.add_sub_cancel_left]
          · rw [hkeep a (by omega) hua, hbyte _ _ hua, if_neg (by omega)]

/-! ## building the stack -/

/-- The arguments fit on the stack. -/
def ArgsFit (argv : List (List Byte)) : Prop := argv.length ≤ maxArg ∧ argBytes argv ≤ pgSize

/-- What `kexec` leaves on the stack of an image of size `sz`. -/
structure Laid (V : View) (r sz sp : Nat) (argv : List (List Byte)) : Prop where
  fit : ArgsFit argv
  top : ∃ n, sz = (n + 2) * pgSize
  sp_eq : sp = sz - argBytes argv
  strings : V.Strings r (argAddrs sz argv) argv
  pointers : V.Holds r sp ((argAddrs sz argv ++ [0]).flatMap uint64Bytes)

/-- There is memory for the stack above a program of size `sz`. -/
def StackRoom (k : Kmem) (r sz : Nat) : Prop :=
  ∃ sz₁ k₁, uvmalloc r (pgRoundUp sz) (pgRoundUp sz + 2 * pgSize) pteW k = some (sz₁, k₁) ∧ sz₁ ≠ 0

theorem Building.round {sz : Nat} (h : Building k roots held r sz) :
    Building k roots held r (pgRoundUp sz / pgSize * pgSize) := by
  have hpages := pages_mul (pgRoundUp sz / pgSize)
  obtain ⟨hok, hroot, hexcl, ⟨hpriv, hpage, habove, hhigh⟩, hroom⟩ := h
  exact ⟨hok, hroot, hexcl, ⟨hpriv, by rwa [hpages], by rwa [hpages], hhigh⟩, by rwa [hpages]⟩

/-- The guard page is closed to user code. -/
theorem Building.uvmclear (h : Building k roots held r ((n + 2) * pgSize))
    (hW : has ((view k roots).pte r (n + 1)) pteW) :
    Returns (uvmclear r (n * pgSize)) k fun _ k' => Works k roots held r k' ∧ Stacked k' roots held r n := by
  have hpages := pages_mul (n + 2)
  have huser : n + 2 ≤ userVpn := hpages ▸ h.pages_le
  obtain ⟨hV, -⟩ := h.loaded.page n (by omega)
  obtain ⟨hV₁, hU₁⟩ := h.loaded.page (n + 1) (by omega)
  refine (h.ok.uvmclear r h.root (by omega) hV (h.loaded.priv n (by omega) hV)).mono ?_
  rintro _ k' hd
  have hpte : ∀ v, v ≠ n → (view k' roots).pte r v = (view k roots).pte r v := fun v hv => by
    rw [hd.view_one]
    exact View.edit_pte_of_ne (by simp [Edit.place, Ne.symm hv])
  refine ⟨⟨_, hd, by simp [Edit.place]; omega⟩, hd.ok, h.root, hd.edits.excl h.excl, ?_, ?_, ?_⟩
  · rw [hpte _ (by omega)]
    exact ⟨hV₁, hU₁, hW⟩
  · intro v hv
    rw [hpte v (by omega)]
    exact h.loaded.high v hv
  · refine ⟨h.pages_le, fun v hlo hhi => ?_⟩
    rw [hpte v (by omega)]
    exact h.loaded.above v hlo hhi

/-- How building an image in the table `r` ends. -/
def Built.Good (argv : List (List Byte)) (roots held : Finset Nat) (r : Nat) (k' : Kmem) : Built → Prop
  | .bad sz => Freeable (view k' roots) r sz
  | .image sz sp => Stacked k' roots held r (sz / pgSize - 2) ∧ Laid (view k' roots) r sz sp argv

/-- An image has been built. -/
def Built.isImage : Built → Bool
  | .bad _ => false
  | .image _ _ => true

/-- `buildStack` fails for lack of memory, or for lack of stack. -/
theorem Building.buildStack {sz : Nat} (h : Building k roots held r sz) (hpsz : psz ≤ trapframeVa)
    (argv : List (List Byte)) :
    Returns (buildStack psz r sz argv) k fun b k' => Works k roots held r k' ∧
      b.Good argv roots held r k' ∧ (b.isImage ↔ StackRoom k r sz ∧ ArgsFit argv) := by
  obtain ⟨n, hn⟩ : ∃ n, n = pgRoundUp sz / pgSize := ⟨_, rfl⟩
  have hround : pgRoundUp sz = n * pgSize := by
    have := pgRoundUp_mod sz
    simp only [pgSize] at *
    omega
  have hsum : n * pgSize + 2 * pgSize = (n + 2) * pgSize := (Nat.add_mul n 2 pgSize).symm
  have hb := h.round
  rw [← hn] at hb
  obtain ⟨sz₁, k₁, halloc, hw, hres⟩ := hb.uvmalloc ((n + 2) * pgSize)
    (show (pteR ||| pteU ||| pteW).toNat < 1024 by decide) (by decide)
  have hroom : StackRoom k r sz ↔ sz₁ ≠ 0 := by
    rw [StackRoom, hround, hsum, halloc]
    exact ⟨fun ⟨_, _, he, h0⟩ => by cases he; exact h0, fun h0 => ⟨_, _, rfl, h0⟩⟩
  rw [MiniOS.buildStack, hroom]
  simp only [hround, hsum]
  refine returns_bind halloc ?_
  rcases hres with ⟨rfl, hb₁, hperm⟩ | ⟨rfl, hf⟩
  swap
  · rw [if_pos rfl]
    exact returns_pure ⟨hw, hf, by simp [Built.isImage]⟩
  have hmax : max (n * pgSize) ((n + 2) * pgSize) = (n + 2) * pgSize :=
    max_eq_right (Nat.mul_le_mul_right _ (by omega))
  obtain ⟨hguard, hbase, hpage, hmod, hpos, hidx⟩ := stack_addrs n
  rw [hmax] at hb₁ ⊢
  rw [if_neg hpos, hguard, hbase]
  obtain ⟨pa, hpte⟩ := hperm (n + 1) (by rw [pages_mul]; omega) (by rw [pages_mul]; omega)
  refine (hb₁.uvmclear (by rw [hpte]; simp)).bind ?_
  rintro _ k₂ ⟨hw₂, hst⟩
  refine (hst.pushArgs hpsz (Nat.zero_le _) hmod (by omega) (Nat.le_refl _)).bind ?_
  rintro res k₃ ⟨hw₃, hst₃, hnone, hsome⟩
  replace hw₃ := (hw.trans hw₂).trans hw₃
  have hlack : ∀ {k' : Kmem}, Works k roots held r k' → Stacked k' roots held r n → ¬ ArgsFit argv →
      Returns (pure (Built.bad ((n + 2) * pgSize))) k' fun b k' => Works k roots held r k' ∧
        b.Good argv roots held r k' ∧ (b.isImage ↔ (n + 2) * pgSize ≠ 0 ∧ ArgsFit argv) :=
    fun hw hst hno => returns_pure ⟨hw, hst.freeable, by simp [Built.isImage, hno]⟩
  rw [List.length_nil, Nat.zero_add] at hnone
  cases res with
  | none =>
    have hover := hnone.mp rfl
    refine hlack hw₃ hst₃ fun ⟨h1, h2⟩ => hover ⟨h1, ?_⟩
    rw [argBytes] at h2
    omega
  | some out =>
    obtain ⟨rfl, hstrings, -⟩ := hsome out rfl
    have hfit := not_not.mp (mt hnone.mpr (by simp))
    have hslots := argSlots_mod argv
    simp only [List.nil_append, length_argAddrs]
    rw [pushArgv_eq (by omega)]
    split
    next hlow =>
      refine hlack hw₃ hst₃ fun ⟨_, h2⟩ => ?_
      rw [argBytes] at h2
      omega
    next hlow =>
      have hptrs : ((argAddrs ((n + 2) * pgSize) argv ++ [0]).flatMap uint64Bytes).length =
          (argv.length + 1) * 8 := by
        rw [length_pointers, List.length_append, length_argAddrs, List.length_singleton]
      have hslot : (argv.length + 1) * 8 ≤ argvSlot argv.length := by
        rw [argvSlot]
        omega
      refine (hst₃.copyout hpsz (Nat.le_of_not_lt hlow) (by rw [hptrs]; omega)).bind ?_
      rintro ⟨ok, m⟩ k₄ ⟨rfl, hw₄, hst₄, hbyte⟩
      have huser : ∀ a, a < (n + 2) * pgSize → a / pgSize < userVpn := fun a ha => by
        have := hst.lt_user
        simp only [pgSize] at *
        omega
      have hfits : ArgsFit argv := ⟨hfit.1, by rw [argBytes]; omega⟩
      refine returns_pure ⟨hw₃.trans hw₄, ⟨hidx.symm ▸ hst₄, hfits, ⟨n, rfl⟩, by rw [argBytes]; omega,
        ?_, fun i hi => ?_⟩, by simp [Built.isImage, hfits, hpos]⟩
      · -- the pointers are below the strings
        refine hstrings.congr ((n + 2) * pgSize - argSlots argv) (by omega) fun a h1 h2 => ?_
        rw [hbyte _ _ (huser a h2), if_neg (by omega)]
      · rw [hbyte _ _ (huser _ (by omega)), if_pos (by omega), Nat.add_sub_cancel_left]

omit [KernelImage] in
/-- The stack is in memory below the size. -/
theorem Laid.congr {V V' : View} {sz sp : Nat} {argv : List (List Byte)} (h : Laid V r sz sp argv)
    (hbyte : ∀ a < sz, V'.byte r a = V.byte r a) : Laid V' r sz sp argv := by
  obtain ⟨hfit, ⟨n, htop⟩, hsp, hstrings, hpointers⟩ := h
  have hbytes := hfit.2
  rw [argBytes, argvSlot] at hbytes
  have hpage : pgSize ≤ sz := by
    rw [htop]
    exact Nat.le_mul_of_pos_left _ (by omega)
  refine ⟨hfit, ⟨n, htop⟩, hsp, ?_, ?_⟩
  · exact hstrings.congr (sz - argSlots argv) (by omega) fun a _ h2 => hbyte a h2
  · refine hpointers.congr fun i hi => hbyte _ ?_
    rw [length_pointers, List.length_append, length_argAddrs, List.length_singleton] at hi
    rw [hsp, argBytes, argvSlot]
    omega

end

end MiniOS
