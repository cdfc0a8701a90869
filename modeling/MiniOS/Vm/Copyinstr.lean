import MiniOS.Vm.Fault

/-!
# MiniOS.Vm.Copyinstr

`copyinstr` and `fetchstr`: a string of the user is found, byte by byte, in the
pages that the user can reach.  The model keeps what `copyinstr` stores and which
bytes of physical memory it reads.
-/

namespace MiniOS

open Total

/-! ## The functions -/

/-- What `copyinstr` returns (`true` is 0), stores at `dst` and has read: bytes of physical pages. -/
structure Fetched where
  ok : Bool
  dst : List Byte
  read : List (Nat × Nat)

/-- The inner loop over `n` bytes of a page: the bytes stored, and `got_null`. -/
def copyPage (page : Page) : Nat → Nat → List Byte × Bool
  | 0, _ => ([], false)
  | n + 1, off =>
    if pageByte page off = 0 then ([0], true)
    else (pageByte page off :: (copyPage page n (off + 1)).1, (copyPage page n (off + 1)).2)

/-- The loop of `copyinstr` with `got_null` equal to 0.  Each byte that is read is stored. -/
def copyinstrLoop (pagetable srcva max : Nat) (dst : List Byte) (read : List (Nat × Nat)) : K Fetched :=
  if max = 0 then pure ⟨false, dst, read⟩
  else do
    let va0 := pgRoundDown srcva
    let pa0 ← walkaddr pagetable va0
    if pa0 = 0 then pure ⟨false, dst, read⟩
    else
      let n := min (pgSize - (srcva - va0)) max
      let page ← readPage pa0
      let (bs, gotNull) := copyPage page n (srcva - va0)
      let dst := dst ++ bs
      let read := read ++ (List.range' (srcva - va0) bs.length).map (pa0, ·)
      if gotNull then pure ⟨true, dst, read⟩
      else copyinstrLoop pagetable ((va0 + pgSize) % 2 ^ 64) (max - n) dst read
termination_by max
decreasing_by
  simp only [pgRoundDown, pgSize]
  omega

/-- `copyinstr(pagetable, dst, srcva, max)`. -/
def copyinstr (pagetable srcva max : Nat) : K Fetched := copyinstrLoop pagetable srcva max [] []

/-- `fetchstr(addr, buf, max)` by a process with the page table; `max` is an `int`, as is what
`strlen` returns. -/
def fetchstr (pagetable addr : Nat) (max : Int) : K Int := do
  let f ← copyinstr pagetable addr (max % 2 ^ 64).toNat
  if !f.ok then pure (-1)
  else pure (((f.dst.takeWhile (· ≠ 0)).length : Int).bmod (2 ^ 32))

/-! ## The string of the user -/

section
variable {m : Mem} {r a : Nat}

/-- The entry for the page of an address below `MAXVA`. -/
def pteOf (m : Mem) (r a : Nat) : Word := if a < maxVa then leafPte m r (a / pgSize) else 0

/-- The address is below `MAXVA`, in a valid page of the user. -/
def IsUser (m : Mem) (r a : Nat) : Prop :=
  a < maxVa ∧ has (leafPte m r (a / pgSize)) pteV ∧ has (leafPte m r (a / pgSize)) pteU

instance (m : Mem) (r a : Nat) : Decidable (IsUser m r a) := inferInstanceAs (Decidable (_ ∧ _ ∧ _))

/-- Where the byte of an address is in physical memory. -/
def physAt (m : Mem) (r a : Nat) : Nat × Nat := (pte2pa (leafPte m r (a / pgSize)), a % pgSize)

/-- The byte of the user at an address. -/
def userByte (m : Mem) (r a : Nat) : Option Byte :=
  if IsUser m r a then some (pageByte (m (physAt m r a).1) (physAt m r a).2) else none

/-- No page of the user is the physical page 0. -/
def UserFrames (m : Mem) (r : Nat) : Prop := ∀ a, IsUser m r a → (physAt m r a).1 ≠ 0

/-- The tables of the kernel map the user's pages to memory that it manages. -/
theorem Ok.userFrames [KernelImage] {k : Kmem} {roots held : Finset Nat} (h : Ok k roots held) (hr : r ∈ roots)
    (hhigh : ∀ v, userVpn ≤ v → has ((view k roots).pte r v) pteU = false) : UserFrames k.mem r := by
  intro a ⟨hlt, hV, hU⟩ hz
  obtain ⟨bs, kind, ht⟩ := h
  have hm : a / pgSize < maxVpn := by
    simp only [maxVa, maxVpn, pgSize] at hlt ⊢
    omega
  have hv : a / pgSize < userVpn := by
    by_contra hge
    have := hhigh _ (Nat.le_of_not_lt hge)
    rw [view_pte hr hm, hU] at this
    cases this
  have hkind := ht.leaf_user hr hv hV
  have hman := ht.managed _ (by rw [hkind]; nofun)
  have hge := kernBase_le_of_managed hman
  rw [show pte2pa (leafPte k.mem r (a / pgSize)) = 0 from hz] at hge
  exact absurd hge (by decide)

/-- `bs` is the string of the user at a 64-bit address, up to its terminator, in `max` bytes. -/
structure IsUserString (m : Mem) (r srcva max : Nat) (bs : List Byte) : Prop where
  ends : ∃ text, (0 : Byte) ∉ text ∧ bs = text ++ [0]
  le : bs.length ≤ max
  bytes : ∀ i b, bs[i]? = some b → userByte m r ((srcva + i) % 2 ^ 64) = some b

/-- The string, found byte by byte. -/
def userString (m : Mem) (r : Nat) : Nat → Nat → Option (List Byte)
  | 0, _ => none
  | n + 1, a =>
    match userByte m r (a % 2 ^ 64) with
    | none => none
    | some b => if b = 0 then some [0] else (userString m r n (a + 1)).map (b :: ·)

theorem isUserString_nil {n : Nat} : ¬IsUserString m r a n [] := by
  rintro ⟨⟨text, -, h⟩, -, -⟩
  simp at h

theorem isUserString_cons {n : Nat} {b : Byte} {bs : List Byte} : IsUserString m r a (n + 1) (b :: bs) ↔
    userByte m r (a % 2 ^ 64) = some b ∧ (b = 0 ∧ bs = [] ∨ b ≠ 0 ∧ IsUserString m r (a + 1) n bs) := by
  constructor
  · rintro ⟨⟨text, h0, htext⟩, hle, hbytes⟩
    refine ⟨by simpa using hbytes 0 b rfl, ?_⟩
    cases text with
    | nil =>
      obtain ⟨rfl, rfl⟩ := List.cons.inj htext
      exact .inl ⟨rfl, rfl⟩
    | cons c text =>
      obtain ⟨rfl, rfl⟩ := List.cons.inj htext
      simp only [List.mem_cons, not_or] at h0
      refine .inr ⟨Ne.symm h0.1, ⟨text, h0.2, rfl⟩, Nat.le_of_succ_le_succ hle, fun i c hi => ?_⟩
      rw [Nat.add_assoc, Nat.add_comm 1 i]
      exact hbytes (i + 1) c hi
  · rintro ⟨hb, h⟩
    have hfirst {bs : List Byte} (hbs : ∀ i c, bs[i]? = some c → userByte m r ((a + 1 + i) % 2 ^ 64) = some c) :
        ∀ i c, (b :: bs)[i]? = some c → userByte m r ((a + i) % 2 ^ 64) = some c := by
      intro i c hi
      cases i with
      | zero => rw [Nat.add_zero, hb, ← hi]; rfl
      | succ i =>
        rw [Nat.add_comm i 1, ← Nat.add_assoc]
        exact hbs i c hi
    rcases h with ⟨rfl, rfl⟩ | ⟨hne, ⟨text, h0, rfl⟩, hle, hbytes⟩
    · exact ⟨⟨[], by simp, rfl⟩, by simp, hfirst nofun⟩
    · have h0' : (0 : Byte) ∉ b :: text := by
        rw [List.mem_cons, not_or]
        exact ⟨Ne.symm hne, h0⟩
      exact ⟨⟨b :: text, h0', rfl⟩, Nat.succ_le_succ hle, hfirst hbytes⟩

theorem userString_eq_some {n : Nat} {bs : List Byte} :
    userString m r n a = some bs ↔ IsUserString m r a n bs := by
  induction n generalizing a bs with
  | zero =>
    refine ⟨nofun, fun ⟨⟨text, _, h⟩, hle, _⟩ => ?_⟩
    simp [h] at hle
  | succ n ih =>
    rw [userString]
    cases bs with
    | nil =>
      refine ⟨fun h => ?_, fun h => absurd h isUserString_nil⟩
      generalize userByte m r (a % 2 ^ 64) = o at h
      cases o with
      | none => cases h
      | some b =>
        dsimp only at h
        split at h
        · cases h
        · obtain ⟨_, -, h⟩ := Option.map_eq_some_iff.mp h
          cases h
    | cons c bs =>
      rw [isUserString_cons, ← ih]
      cases hb : userByte m r (a % 2 ^ 64) with
      | none => simp
      | some b =>
        by_cases hz : b = 0
        · simp only [hz, if_true, Option.some.injEq, List.cons.injEq]
          constructor
          · rintro ⟨rfl, rfl⟩
            exact ⟨rfl, .inl ⟨rfl, rfl⟩⟩
          · rintro ⟨rfl, ⟨-, rfl⟩ | ⟨h, -⟩⟩
            · exact ⟨rfl, rfl⟩
            · exact absurd rfl h
        · simp only [hz, if_false, Option.map_eq_some_iff, List.cons.injEq, Option.some.injEq]
          constructor
          · rintro ⟨_, h, rfl, rfl⟩
            exact ⟨rfl, .inr ⟨hz, h⟩⟩
          · rintro ⟨rfl, ⟨h, -⟩ | ⟨-, h⟩⟩
            · exact absurd h hz
            · exact ⟨bs, h, rfl, rfl⟩

/-! ## The loops -/

theorem length_copyPage (page : Page) (n off : Nat) : (copyPage page n off).1.length ≤ n ∧
    ((copyPage page n off).2 = false → (copyPage page n off).1.length = n) := by
  fun_induction copyPage page n off with
  | case1 => simp
  | case2 => simp
  | case3 n off h ih => simpa [copyPage, h] using ih

/-- The inner loop finds the end of the string or `n` bytes of it. -/
theorem userString_copyPage (page : Page) {n a off max : Nat}
    (h : ∀ i < n, userByte m r ((a + i) % 2 ^ 64) = some (pageByte page (off + i))) (hn : n ≤ max) :
    userString m r max a = if (copyPage page n off).2 then some (copyPage page n off).1
      else (userString m r (max - n) (a + n)).map ((copyPage page n off).1 ++ ·) := by
  induction n generalizing a off max with
  | zero => simp [copyPage]
  | succ n ih =>
    obtain ⟨max, rfl⟩ : ∃ k, max = k + 1 := ⟨max - 1, by omega⟩
    have hrest : ∀ i < n, userByte m r ((a + 1 + i) % 2 ^ 64) = some (pageByte page (off + 1 + i)) := by
      intro i hi
      have := h (i + 1) (by omega)
      rwa [Nat.add_comm i 1, ← Nat.add_assoc, ← Nat.add_assoc] at this
    have hb : userByte m r (a % 2 ^ 64) = some (pageByte page off) := h 0 (by omega)
    rw [userString, hb, copyPage, ih hrest (by omega)]
    by_cases hz : pageByte page off = 0
    · simp [hz]
    · simp only [hz, if_false, Nat.succ_sub_succ]
      rw [show a + 1 + n = a + (n + 1) by omega]
      split
      · rfl
      · rw [Option.map_map]
        rfl

theorem walkaddr_pteOf (k : Kmem) (r va : Nat) : walkaddr r va k = some (userPa (pteOf k.mem r va), k) := by
  rw [walkaddr_eq (Finset.mem_singleton_self r), view, pteOf]
  have hlt : va / pgSize < maxVpn ↔ va < maxVa := by
    simp only [maxVa, maxVpn, pgSize]
    omega
  simp [hlt]

/-- `walkaddr` finds a page for the addresses of the user. -/
theorem userPa_eq_zero_iff (hf : UserFrames m r) : userPa (pteOf m r a) = 0 ↔ ¬IsUser m r a := by
  have := hf a
  unfold userPa pteOf IsUser physAt at *
  by_cases hlt : a < maxVa
  · by_cases hV : has (leafPte m r (a / pgSize)) pteV
    · by_cases hU : has (leafPte m r (a / pgSize)) pteU
      · simpa [hlt, hV, hU] using this
      · simp [hlt, hV, hU]
    · simp [hlt, hV]
  · simp [hlt]

end

/-- What `copyinstr` has done from `srcva` on, after `dst` was stored and `read` read. -/
structure Fetches (m : Mem) (r srcva max : Nat) (dst : List Byte) (read : List (Nat × Nat)) (f : Fetched) :
    Prop where
  ok : f.ok = (userString m r max srcva).isSome
  dst_eq : ∀ bs, userString m r max srcva = some bs → f.dst = dst ++ bs
  length_le : f.dst.length ≤ dst.length + max
  reads : ∀ p ∈ f.read, p ∈ read ∨ ∃ a, IsUser m r a ∧ p = physAt m r a

section
variable {k : Kmem} {r : Nat}

/-- The pages of a round. -/
theorem isUser_page {m : Mem} {srcva i : Nat} (h : IsUser m r (pgRoundDown srcva))
    (hi : i < pgSize - (srcva - pgRoundDown srcva)) : IsUser m r (srcva + i) ∧ srcva + i < maxVa ∧
      physAt m r (srcva + i) = (userPa (pteOf m r (pgRoundDown srcva)), srcva - pgRoundDown srcva + i) := by
  obtain ⟨hlt, hV, hU⟩ := h
  have hdiv : (srcva + i) / pgSize = pgRoundDown srcva / pgSize := by
    simp only [pgRoundDown, pgSize] at hi ⊢
    omega
  have hmod : (srcva + i) % pgSize = srcva - pgRoundDown srcva + i := by
    simp only [pgRoundDown, pgSize] at hi ⊢
    omega
  have hlt' : srcva + i < maxVa := by
    simp only [pgRoundDown, pgSize, maxVa] at hi hlt ⊢
    omega
  rw [IsUser, physAt, hdiv, hmod, userPa, pteOf, if_pos hlt, hV, hU]
  exact ⟨⟨hlt', rfl, rfl⟩, hlt', rfl⟩

theorem userString_eq_none {m : Mem} {srcva max : Nat} (hs : srcva < 2 ^ 64)
    (h : ¬IsUser m r (pgRoundDown srcva)) : userString m r max srcva = none := by
  have hnot : ¬IsUser m r srcva := by
    refine fun hu => h ⟨Nat.lt_of_le_of_lt (pgRoundDown_le _) hu.1, ?_⟩
    rw [pgRoundDown_div]
    exact hu.2
  cases max with
  | zero => rfl
  | succ max => rw [userString, Nat.mod_eq_of_lt hs, userByte, if_neg hnot]

/-- The bytes of a round that are stored are read. -/
theorem isUser_of_mem_range {m : Mem} {srcva n : Nat} (h : IsUser m r (pgRoundDown srcva))
    (hn : n ≤ pgSize - (srcva - pgRoundDown srcva)) {p : Nat × Nat}
    (hp : p ∈ (List.range' (srcva - pgRoundDown srcva) n).map (userPa (pteOf m r (pgRoundDown srcva)), ·)) :
    ∃ a, IsUser m r a ∧ p = physAt m r a := by
  obtain ⟨o, ho, rfl⟩ := List.mem_map.mp hp
  obtain ⟨i, hi, rfl⟩ := List.mem_range'.mp ho
  obtain ⟨hu, -, hphys⟩ := isUser_page h (i := i) (by omega)
  exact ⟨_, hu, by rw [hphys, Nat.one_mul]⟩

/-- A round in which no terminator is found, and the rounds after it. -/
theorem Fetches.next {m : Mem} {srcva srcva' max n : Nat} {dst bs : List Byte} {read ps : List (Nat × Nat)}
    {f : Fetched} (h : Fetches m r srcva' (max - n) (dst ++ bs) (read ++ ps) f)
    (hstr : userString m r max srcva = (userString m r (max - n) srcva').map (bs ++ ·)) (hlen : bs.length = n)
    (hn : n ≤ max) (hps : ∀ p ∈ ps, ∃ a, IsUser m r a ∧ p = physAt m r a) : Fetches m r srcva max dst read f where
  ok := by rw [h.ok, hstr, Option.isSome_map]
  dst_eq cs hcs := by
    rw [hstr, Option.map_eq_some_iff] at hcs
    obtain ⟨ds, hds, rfl⟩ := hcs
    rw [h.dst_eq ds hds, List.append_assoc]
  length_le := by
    have := h.length_le
    rw [List.length_append] at this
    omega
  reads p hp := by
    rcases h.reads p hp with hp | hp
    · exact (List.mem_append.mp hp).imp_right (hps p)
    · exact .inr hp

theorem copyinstrLoop_spec (hf : UserFrames k.mem r) (srcva max : Nat) (hs : srcva < 2 ^ 64) (dst : List Byte)
    (read : List (Nat × Nat)) :
    Returns (copyinstrLoop r srcva max dst read) k fun f k' => k' = k ∧ Fetches k.mem r srcva max dst read f := by
  induction max using Nat.strong_induction_on generalizing srcva dst read with
  | _ max ih =>
    rw [copyinstrLoop]
    by_cases hmax : max = 0
    · subst hmax
      exact returns_pure ⟨rfl, rfl, nofun, Nat.le_refl _, fun p hp => .inl hp⟩
    rw [if_neg hmax]
    refine returns_bind (walkaddr_pteOf k r _) ?_
    by_cases hpa : userPa (pteOf k.mem r (pgRoundDown srcva)) = 0
    · have hnone : userString k.mem r max srcva = none :=
        userString_eq_none hs ((userPa_eq_zero_iff hf).mp hpa)
      rw [if_pos hpa]
      refine returns_pure ⟨rfl, ?_, ?_, Nat.le_add_right _ _, fun p hp => .inl hp⟩
      · rw [hnone]; rfl
      · rw [hnone]; nofun
    have huser : IsUser k.mem r (pgRoundDown srcva) := by rwa [userPa_eq_zero_iff hf, not_not] at hpa
    rw [if_neg hpa]
    refine returns_bind rfl ?_
    have hoff : srcva - pgRoundDown srcva < pgSize := by simp only [pgRoundDown, pgSize]; omega
    generalize hn : min (pgSize - (srcva - pgRoundDown srcva)) max = n
    generalize hpage : k.mem (userPa (pteOf k.mem r (pgRoundDown srcva))) = page
    have hbyte : ∀ i < n, userByte k.mem r ((srcva + i) % 2 ^ 64) =
        some (pageByte page (srcva - pgRoundDown srcva + i)) := by
      intro i hi
      obtain ⟨hu, hlt, hp⟩ := isUser_page huser (i := i) (by omega)
      rw [Nat.mod_eq_of_lt (hlt.trans (by decide)), userByte, if_pos hu, hp, hpage]
    have hstr := userString_copyPage page hbyte (by omega : n ≤ max)
    obtain ⟨hlen, hfull⟩ := length_copyPage page n (srcva - pgRoundDown srcva)
    generalize copyPage page n (srcva - pgRoundDown srcva) = res at hstr hlen hfull ⊢
    obtain ⟨bs, gotNull⟩ := res
    dsimp only at hstr hlen hfull ⊢
    have hps := fun p => @isUser_of_mem_range r k.mem srcva bs.length huser (by omega) p
    cases gotNull with
    | true =>
      rw [if_pos rfl] at hstr ⊢
      refine returns_pure ⟨rfl, by rw [hstr]; rfl, fun cs hcs => ?_, ?_, fun p hp => ?_⟩
      · rw [hstr] at hcs
        cases hcs
        rfl
      · rw [List.length_append]
        omega
      · exact (List.mem_append.mp hp).imp_right (hps p)
    | false =>
      rw [if_neg Bool.false_ne_true] at hstr ⊢
      refine (ih (max - n) (by omega) _ (Nat.mod_lt _ (by decide)) _ _).mono ?_
      rintro f k' ⟨rfl, h⟩
      refine ⟨rfl, h.next ?_ (hfull rfl) (by omega) hps⟩
      -- the rest begins at the next page, or there is nothing left to look at
      by_cases hn0 : max - n = 0
      · rw [hstr, hn0, userString, userString]
      · have hva := huser.1
        have hle := pgRoundDown_le srcva
        rw [hstr, Nat.mod_eq_of_lt (by simp only [maxVa, pgSize] at hva ⊢; omega)]
        rw [show srcva + n = pgRoundDown srcva + pgSize by omega]

end

/-- `copyinstr` returns.  It returns 0 exactly if there is a string of the user at `srcva` in `max`
bytes, and has then stored that string; it never stores more than `max` bytes, and reads nothing
but bytes of the user.  So `fetchstr` returns the length of the string. -/
theorem copyinstr_fetches_string (k : Kmem) (r srcva max : Nat) (hf : UserFrames k.mem r) (hs : srcva < 2 ^ 64) :
    (∃ f, copyinstr r srcva max k = some (f, k) ∧
      (f.ok = true ↔ ∃ bs, IsUserString k.mem r srcva max bs) ∧
      (∀ bs, IsUserString k.mem r srcva max bs → f.dst = bs) ∧
      f.dst.length ≤ max ∧ ∀ p ∈ f.read, ∃ a, IsUser k.mem r a ∧ p = physAt k.mem r a) ∧
    (∀ text : List Byte, (0 : Byte) ∉ text → (max : Int) < 2 ^ 31 →
      IsUserString k.mem r srcva max (text ++ [0]) → fetchstr r srcva max k = some ((text.length : Int), k)) ∧
    ((max : Int) < 2 ^ 31 → (¬∃ bs, IsUserString k.mem r srcva max bs) →
      fetchstr r srcva max k = some (-1, k)) := by
  obtain ⟨f, k', hrun, hk, hok, hdst, hlen, hreads⟩ := copyinstrLoop_spec hf srcva max hs [] []
  subst k'
  have hiff : f.ok = true ↔ ∃ bs, IsUserString k.mem r srcva max bs := by
    rw [hok, Option.isSome_iff_exists]
    exact exists_congr fun _ => userString_eq_some
  have hfetch (hmax : (max : Int) < 2 ^ 31) : fetchstr r srcva max k =
      if !f.ok then some (-1, k) else some (((f.dst.takeWhile (· ≠ 0)).length : Int).bmod (2 ^ 32), k) := by
    have hconv : ((max : Int) % 2 ^ 64).toNat = max := by omega
    rw [fetchstr, hconv, Total.bind_apply, show copyinstr r srcva max k = some (f, k) from hrun]
    rw [Option.bind_some]
    dsimp only
    cases f.ok <;> rfl
  refine ⟨⟨f, hrun, hiff, fun bs hbs => hdst bs (userString_eq_some.mpr hbs), by simpa using hlen, ?_⟩, ?_, ?_⟩
  · intro p hp
    rcases hreads p hp with hp | hp
    · cases hp
    · exact hp
  · intro text h0 hmax hstr
    have htext : (text ++ [0]).takeWhile (· ≠ 0) = text := by
      rw [List.takeWhile_append_of_pos fun b hb => by simpa using ne_of_mem_of_not_mem hb h0]
      simp
    have hle : text.length + 1 ≤ max := by simpa using hstr.le
    rw [hfetch hmax, hiff.mpr ⟨_, hstr⟩, hdst _ (userString_eq_some.mpr hstr), List.nil_append, htext]
    have : (text.length : Int).bmod (2 ^ 32) = text.length := Int.bmod_eq_of_le (by omega) (by omega)
    rw [this]
    rfl
  · intro hmax hno
    rw [hfetch hmax, Bool.eq_false_iff.mpr fun h => hno (hiff.mp h)]
    rfl

/-- A memory whose pages all have the same entries, for one page of the user. -/
def oneFrame : Kmem where
  mem := fun _ _ => pa2pte kernBase ||| pteV ||| pteR ||| pteU
  refCount := fun _ => 0
  reverseMap := fun _ => noRmap
  freelist := 0
  useLock := false

theorem userFrames_oneFrame : UserFrames oneFrame.mem kernBase := by
  have hV : has (pa2pte kernBase ||| pteV ||| pteR ||| pteU) pteV = true := by decide
  intro a _
  simp only [physAt, leafPte, pteAt, pteSlot, oneFrame, hV, if_true]
  decide

/-- The string there is the low byte of the entry. -/
theorem copyinstr_fetches_oneFrame : fetchstr kernBase 0 16 oneFrame = some (1, oneFrame) := by
  have h := (copyinstr_fetches_string oneFrame kernBase 0 16 userFrames_oneFrame (by decide)).2.1
  exact h [0x13] (by decide) (by decide) (userString_eq_some.mp (by decide +kernel))

end MiniOS
