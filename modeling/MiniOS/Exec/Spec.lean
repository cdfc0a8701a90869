import MiniOS.Exec
import MiniOS.Kernel.Memory

/-!
# MiniOS.Exec.Spec

What `kexec` does on its way to a new image.  All of it happens in a page table
that no process has yet, so it concerns no other process; each page of the new
image is used by its one entry only, so the kernel may write to it.
-/

namespace MiniOS

open Total

/-! ## pages with one user -/

/-- Every page of the table `r` is used by one entry. -/
def View.Private (V : View) (r : Nat) : Prop :=
  ∀ v < userVpn, has (V.pte r v) pteV → V.Sole r v (pte2pa (V.pte r v))

theorem View.Private.congr {V V' : View} {r : Nat} (h : V.Private r)
    (hhits : ∀ r' v q, Hits (V'.pte r' v) q ↔ Hits (V.pte r' v) q) : V'.Private r := by
  intro v hv hV r' v' hu
  have hpa : Hits (V.pte r v) (pte2pa (V'.pte r v)) := (hhits r v _).mp ⟨hV, rfl⟩
  refine h v hv hpa.1 r' v' ⟨hu.1, ?_⟩
  rw [hpa.2]
  exact (hhits r' v' _).mp hu.2

theorem physTop_le_user : physTop / pgSize ≤ userVpn := by decide

theorem userPa_eq {pte : Word} (hV : has pte pteV) (hU : has pte pteU) : userPa pte = pte2pa pte :=
  if_pos (by rw [hV, hU]; rfl)

theorem pages_mul (n : Nat) : pgRoundUp (n * pgSize) / pgSize = n := by
  simp only [pgRoundUp, pgSize]
  omega

section
variable [KernelImage] {V V' : View} {r sz : Nat}

theorem View.Private.map (h : V.Private r) {v : Nat} {w : Word} (hl : V.Legal (.map r v w)) :
    (V.edit (.map r v w)).Private r := by
  obtain ⟨hv, h0, hV, -, -, hfresh, -⟩ := hl
  have hpte : ∀ r' v', (V.edit (.map r v w)).pte r' v' = if r' = r ∧ v' = v then w else V.pte r' v' :=
    View.edit_pte_some rfl
  intro x hx hxV r' v' hu
  obtain ⟨hv', hhits⟩ := hu
  rw [hpte r' v', hpte r x] at hhits
  rw [hpte r x] at hxV
  by_cases hxv : x = v
  · subst hxv
    rw [if_pos (c := r = r ∧ x = x) ⟨rfl, rfl⟩] at hhits
    by_contra hne
    rw [if_neg hne] at hhits
    exact hfresh.1 r' v' ⟨hv', hhits⟩
  · have hold : ¬(r = r ∧ x = v) := fun hc => hxv hc.2
    rw [if_neg hold] at hxV hhits
    by_cases hn : r' = r ∧ v' = v
    · rw [if_pos hn] at hhits
      exact absurd (show V.Uses r x (pte2pa w) from ⟨hx, hxV, hhits.2.symm⟩) (hfresh.1 r x)
    · rw [if_neg hn] at hhits
      exact h x hx hxV r' v' ⟨hv', hhits⟩

theorem View.Private.maps {perm : Word} : ∀ {pas : List Nat} {lo : Nat} {V V' : View}, V.Private r →
    Edits V (maps r perm lo pas) V' → V'.Private r
  | [], _, _, _, h, hd => by
      rw [Edits.nil_iff.mp hd]
      exact h
  | _ :: _, _, _, _, h, hd => by
      obtain ⟨hl, hd⟩ := Edits.cons_iff.mp hd
      exact View.Private.maps (h.map hl) hd

/-! ## the image so far -/

/-- The new image in the table `r` has come to the size `sz`: the pages below it are mapped for the user. -/
structure Loaded (V : View) (r sz : Nat) : Prop where
  priv : V.Private r
  page : ∀ v < pgRoundUp sz / pgSize, has (V.pte r v) pteV ∧ has (V.pte r v) pteU
  above : ∀ v, pgRoundUp sz / pgSize ≤ v → v < userVpn → V.pte r v = 0
  high : ∀ v, userVpn ≤ v → has (V.pte r v) pteU = false

omit [KernelImage] in
theorem Loaded.congr (h : Loaded V r sz) (hpte : V'.pte = V.pte) : Loaded V' r sz := by
  refine ⟨h.priv.congr fun r v q => by rw [hpte], fun v hv => ?_, fun v hlo hhi => ?_, fun v hv => ?_⟩
  · rw [hpte]
    exact h.page v hv
  · rw [hpte]
    exact h.above v hlo hhi
  · rw [hpte]
    exact h.high v hv

/-- Writes leave the entries alone. -/
theorem Edits.writes_pte : ∀ {es : List Edit} {V V' : View}, Edits V es V' →
    (∀ e ∈ es, ∃ r v page, e = .write r v page) → V'.pte = V.pte
  | [], _, _, h, _ => by rw [Edits.nil_iff.mp h]
  | e :: es, V, V', h, hw => by
      obtain ⟨-, h⟩ := Edits.cons_iff.mp h
      obtain ⟨r, v, page, rfl⟩ := hw e List.mem_cons_self
      rw [h.writes_pte fun e he => hw e (List.mem_cons_of_mem _ he)]
      exact View.edit_pte_none rfl

/-- More pages are mapped. -/
theorem Loaded.maps (h : Loaded V r sz) {sz' : Nat} {perm : Word} {pas : List Nat} (hle : sz ≤ sz')
    (hmax : pgRoundUp sz' / pgSize ≤ userVpn) (hU : has perm pteU)
    (hlen : pas.length = pgRoundUp sz' / pgSize - pgRoundUp sz / pgSize)
    (hd : Edits V (maps r perm (pgRoundUp sz / pgSize) pas) V') : Loaded V' r sz' := by
  have hmono := pages_mono hle
  refine ⟨h.priv.maps hd, fun v hv => ?_, fun v hlo hhi => ?_, fun v hv => ?_⟩
  · rw [hd.maps_pte]
    split
    next => simp [hU]
    next hout => exact h.page v (by omega)
  · rw [hd.maps_pte, if_neg (by omega)]
    exact h.above v (by omega) hhi
  · rw [hd.maps_pte, if_neg (by omega)]
    exact h.high v hv

end

theorem leNat_lt (bs : List Byte) (off n : Nat) : leNat bs off n < 256 ^ n := by
  have hfold : ∀ l : List Nat,
      l.foldr (fun i acc => (bs.getD (off + i) 0).toNat + 256 * acc) 0 < 256 ^ l.length := by
    intro l
    induction l with
    | nil => simp
    | cons i l ih =>
      have hb := (bs.getD (off + i) 0).isLt
      rw [List.foldr_cons, List.length_cons, Nat.pow_succ]
      omega
  have h := hfold (List.range n)
  rwa [List.length_range] at h

/-- A segment that passes the checks does not wrap around. -/
theorem Proghdr.no_wrap {file : List Byte} {off : Nat} {ph : Proghdr} (h : readProghdr file off = some ph)
    (hwf : ph.wellFormed) :
    ph.filesz ≤ ph.memsz ∧ ph.top = ph.vaddr + ph.memsz ∧ ph.vaddr = ph.vaddr / pgSize * pgSize := by
  have hlt : ph.vaddr < 2 ^ 64 ∧ ph.memsz < 2 ^ 64 := by
    rw [readProghdr] at h
    split at h
    · exact absurd h (by simp)
    · cases h
      exact ⟨leNat_lt _ _ 8, leNat_lt _ _ 8⟩
  simp only [Proghdr.wellFormed, decide_eq_true_eq] at hwf
  obtain ⟨hfile, htop, halign⟩ := hwf
  have hva := Nat.div_add_mod' ph.vaddr pgSize
  exact ⟨hfile, by rw [Proghdr.top]; omega, by omega⟩

theorem flags2perm_ok (flags : Nat) : (pteR ||| pteU ||| flags2perm flags).toNat < 1024 ∧
    has (pteR ||| pteU ||| flags2perm flags) pteCow = false := by
  rw [flags2perm]
  cases flags.testBit 0 <;> cases flags.testBit 1 <;> decide

section
variable [KernelImage] {k k' k'' : Kmem} {roots held : Finset Nat} {r sz : Nat}

/-- From `k` to `k'` only user pages of the table `r` have changed. -/
def Works (k : Kmem) (roots held : Finset Nat) (r : Nat) (k' : Kmem) : Prop :=
  ∃ es, Does r k roots held es k' roots held ∧ ∀ e ∈ es, e.place.1 = r ∧ e.place.2 < userVpn

theorem Works.refl (h : Ok k roots held) : Works k roots held r k := ⟨[], Does.refl h, by simp⟩

theorem Works.trans (h : Works k roots held r k') (h' : Works k' roots held r k'') :
    Works k roots held r k'' := by
  obtain ⟨es, hd, hes⟩ := h
  obtain ⟨es', hd', hes'⟩ := h'
  refine ⟨es ++ es', hd.trans hd' fun _ hp _ => hp, fun e he => ?_⟩
  rcases List.mem_append.mp he with he | he
  · exact hes e he
  · exact hes' e he

/-- A page table that `uvmfree` can free for the size `sz`. -/
structure Freeable (V : View) (r sz : Nat) : Prop where
  size : pgRoundUp sz / pgSize ≤ userVpn
  above : ∀ v, pgRoundUp sz / pgSize ≤ v → v < userVpn → V.pte r v = 0

omit [KernelImage] in
theorem Freeable.le {V : View} (h : Freeable V r sz) : sz ≤ trapframeVa := by
  have h1 := le_pgRoundUp sz
  have h2 := pgRoundUp_mod sz
  have h3 := h.size
  simp only [trapframeVa, trampolineVa, maxVa, userVpn, pgSize] at *
  omega

/-- The kernel has come to an image of the size `sz` in the table `r`.  What is mapped was free before, so
the image cannot outgrow user memory. -/
structure Building (k : Kmem) (roots held : Finset Nat) (r sz : Nat) : Prop where
  ok : Ok k roots held
  root : r ∈ roots
  excl : (view k roots).Excl
  loaded : Loaded (view k roots) r sz
  room : pgRoundUp sz / pgSize + nfree k ≤ physTop / pgSize

theorem nfree_le (k : Kmem) : nfree k ≤ physTop / pgSize := by
  unfold nfree freeSet
  exact (Finset.card_filter_le _ _).trans (Finset.card_range _).le

theorem Building.pages_le (h : Building k roots held r sz) : pgRoundUp sz / pgSize ≤ userVpn := by
  have := h.room
  have := physTop_le_user
  omega

theorem Building.freeable (h : Building k roots held r sz) : Freeable (view k roots) r sz :=
  ⟨h.pages_le, h.loaded.above⟩

/-- Memory for the image grows to `newsz`, or there is not enough. -/
theorem Building.uvmalloc (h : Building k roots held r sz) (newsz : Nat) {xperm : Word}
    (hperm : (pteR ||| pteU ||| xperm).toNat < 1024)
    (hcow : has (pteR ||| pteU ||| xperm) pteCow = false) :
    Returns (uvmalloc r sz newsz xperm) k fun n k' => Works k roots held r k' ∧
      ((n = max sz newsz ∧ Building k' roots held r (max sz newsz) ∧
        ∀ v, pgRoundUp sz / pgSize ≤ v → v < pgRoundUp newsz / pgSize →
          ∃ pa, (view k' roots).pte r v = pa2pte pa ||| (pteR ||| pteU ||| xperm) ||| pteV) ∨
      (n = 0 ∧ Freeable (view k' roots) r sz)) := by
  by_cases hlt : newsz < sz
  · have hskip : MiniOS.uvmalloc r sz newsz xperm k = some (sz, k) := by
      rw [MiniOS.uvmalloc, if_pos hlt]
      rfl
    refine ⟨sz, k, hskip, Works.refl h.ok, Or.inl ?_⟩
    rw [max_eq_left (Nat.le_of_lt hlt)]
    refine ⟨rfl, h, fun v h1 h2 => ?_⟩
    have := pages_mono (Nat.le_of_lt hlt)
    omega
  have hle : sz ≤ newsz := by omega
  have hroom := h.room
  have hphys := physTop_le_user
  rw [max_eq_right hle]
  refine (h.ok.uvmalloc h.root hperm hcow hle (by omega) h.loaded.above).mono ?_
  rintro n k' (⟨rfl, pas, hlen, hfree, hd⟩ | ⟨rfl, pas, -, hd⟩)
  · have hmono := pages_mono hle
    have hmax : pgRoundUp n / pgSize ≤ userVpn := by omega
    refine ⟨⟨_, hd, fun e he => ?_⟩, Or.inl ⟨rfl, ⟨hd.ok, h.root, hd.edits.excl h.excl, ?_, by omega⟩, ?_⟩⟩
    · obtain ⟨v, pa, -, hv, rfl⟩ := mem_maps he
      exact ⟨rfl, by simp only [Edit.place]; omega⟩
    · exact h.loaded.maps hle hmax (by simp) hlen hd.edits
    · intro v hlo hhi
      exact ⟨_, by rw [hd.edits.maps_pte, if_pos (by omega)]⟩
  · obtain ⟨V, hmaps, -⟩ := hd.edits.split
    have hundo := hd.edits.mapsUndone (view_clean _ _) fun v hlo hhi => (hmaps.maps_free v hlo hhi).2
    refine ⟨⟨_, hd, fun e he => ?_⟩, Or.inr ⟨rfl, h.pages_le, fun v hlo hhi => ?_⟩⟩
    · rcases List.mem_append.mp he with he | he
      · obtain ⟨v, pa, hlo, hv, rfl⟩ := mem_maps he
        exact ⟨rfl, (hmaps.maps_free v hlo hv).1⟩
      · obtain ⟨h1, h2, h3⟩ := place_unmaps he
        exact ⟨h1, (hmaps.maps_free _ h2 h3).1⟩
    · rw [(hundo r v).1]
      exact h.loaded.above v hlo hhi

/-! ## segments -/

theorem Ok.user_ne_zero (h : Ok k roots held) {v : Nat} (hv : v < userVpn)
    (hV : has ((view k roots).pte r v) pteV) : pte2pa ((view k roots).pte r v) ≠ 0 := by
  obtain ⟨bs, kind, ht⟩ := h
  exact managed_ne_zero (ht.ref_user (show (view k roots).Uses r v _ from ⟨hv, hV, rfl⟩)).2.1

/-- The kernel writes to a page of the new image. -/
theorem Building.write (h : Building k roots held r sz) {v : Nat} (hv : v < pgRoundUp sz / pgSize)
    (page : Page) :
    Works k roots held r { k with mem := Function.update k.mem (pte2pa ((view k roots).pte r v)) page } ∧
    Building { k with mem := Function.update k.mem (pte2pa ((view k roots).pte r v)) page } roots held r sz := by
  have huser : v < userVpn := Nat.lt_of_lt_of_le hv h.pages_le
  obtain ⟨hV, -⟩ := h.loaded.page v hv
  obtain ⟨s, hs, hpte⟩ := slot_of_valid h.root (maxVpn_of_user huser) hV
  have hsole := h.loaded.priv v huser hV
  rw [← hpte] at hV hsole ⊢
  have hd := h.ok.write r h.root huser hs hV hsole page
  refine ⟨⟨_, hd, by simp [Edit.place, huser]⟩, hd.ok, h.root, hd.edits.excl h.excl, ?_, ?_⟩
  · refine h.loaded.congr ?_
    rw [hd.view_one]
    exact View.edit_pte_none rfl
  · rw [nfree_mem]
    exact h.room

/-- The pages of a segment are there to be filled. -/
theorem Building.loadsegLoop {v₀ offset n : Nat} {file : List Byte} :
    ∀ {left j : Nat} {k : Kmem}, Building k roots held r sz → v₀ + j + left ≤ pgRoundUp sz / pgSize →
      Returns (loadsegLoop r (v₀ * pgSize) file offset n left (j * pgSize)) k fun _ k' =>
        Works k roots held r k' ∧ Building k' roots held r sz
  | 0, _, _, h, _ => returns_pure ⟨Works.refl h.ok, h⟩
  | left + 1, j, k, h, hend => by
      have hv : v₀ + j < pgRoundUp sz / pgSize := by omega
      obtain ⟨hV, hU⟩ := h.loaded.page _ hv
      have hva : (v₀ * pgSize + j * pgSize) / pgSize = v₀ + j := by
        rw [← Nat.add_mul]
        exact Nat.mul_div_cancel _ (by decide)
      have hne := h.ok.user_ne_zero (Nat.lt_of_lt_of_le hv h.pages_le) hV
      rw [MiniOS.loadsegLoop]
      refine returns_bind (walkaddr_eq h.root) ?_
      rw [hva, userPa_eq hV hU, if_neg hne]
      obtain ⟨hw, hb⟩ := h.write hv (pageWrite (k.mem (pte2pa ((view k roots).pte r (v₀ + j)))) 0
        (readi file ((offset + j * pgSize) % 2 ^ 32) (min (n - j * pgSize) pgSize)))
      refine returns_bind (a := ()) rfl ?_
      split
      next => exact returns_pure ⟨hw, hb⟩
      next =>
        have hnext : j * pgSize + pgSize = (j + 1) * pgSize := by rw [Nat.add_mul, Nat.one_mul]
        rw [hnext]
        refine (Building.loadsegLoop hb (by omega)).mono ?_
        rintro ok k' ⟨hw', hb'⟩
        exact ⟨hw.trans hw', hb'⟩

/-! ## headers -/

/-- One segment. -/
theorem Building.loadseg (h : Building k roots held r sz) {file : List Byte} {off : Nat} {ph : Proghdr}
    (hph : readProghdr file off = some ph) (hwf : ph.wellFormed) (htop : ph.top ≤ sz) :
    Returns (loadseg r ph.vaddr file ph.off ph.filesz) k fun _ k' =>
      Works k roots held r k' ∧ Building k' roots held r sz := by
  obtain ⟨hfile, heq, hva⟩ := Proghdr.no_wrap hph hwf
  have hpages := pages_mono htop
  have hcount : ph.vaddr / pgSize + 0 + (ph.filesz % 2 ^ 32 + pgSize - 1) / pgSize ≤
      pgRoundUp ph.top / pgSize := by
    have hle := Nat.mod_le ph.filesz (2 ^ 32)
    rw [heq]
    simp only [pgRoundUp, pgSize] at *
    omega
  rw [MiniOS.loadseg, hva, ← Nat.zero_mul pgSize]
  exact Building.loadsegLoop h (by omega)

/-- The loop over the program headers. -/
theorem Building.loadProgram {file : List Byte} : ∀ {left off sz : Nat} {k : Kmem},
    Building k roots held r sz →
    Returns (loadProgram r file left off sz) k fun res k' => Works k roots held r k' ∧
      (res.1 = true → Building k' roots held r res.2) ∧ Freeable (view k' roots) r res.2
  | 0, _, _, _, h => returns_pure ⟨Works.refl h.ok, fun _ => h, h.freeable⟩
  | left + 1, off, sz, k, h => by
      have hstop : Returns (pure (false, sz)) k fun res k' => Works k roots held r k' ∧
          (res.1 = true → Building k' roots held r res.2) ∧ Freeable (view k' roots) r res.2 :=
        returns_pure ⟨Works.refl h.ok, nofun, h.freeable⟩
      rw [MiniOS.loadProgram]
      match hph : readProghdr file off with
      | none => exact hstop
      | some ph =>
        simp only
        split
        next => exact Building.loadProgram h
        next =>
          split
          next => exact hstop
          next hwf =>
            have hwf : ph.wellFormed := by simpa using hwf
            obtain ⟨hperm, hcow⟩ := flags2perm_ok ph.flags
            refine (h.uvmalloc ph.top hperm hcow).bind ?_
            rintro n k₁ ⟨hw, ⟨rfl, hb, -⟩ | ⟨rfl, hf⟩⟩
            · split
              next hzero =>
                have h0 : sz = 0 ∧ ph.top = 0 := by omega
                rw [hzero] at hb
                rw [h0.1]
                exact returns_pure ⟨hw, nofun, hb.freeable⟩
              next =>
                refine (hb.loadseg hph hwf (by omega)).bind ?_
                rintro ok k₂ ⟨hw₂, hb₂⟩
                cases ok with
                | true =>
                  refine (Building.loadProgram hb₂).mono ?_
                  rintro res k' ⟨hw₃, hres⟩
                  exact ⟨(hw.trans hw₂).trans hw₃, hres⟩
                | false => exact returns_pure ⟨hw.trans hw₂, nofun, hb₂.freeable⟩
            · rw [if_pos rfl]
              exact returns_pure ⟨hw, nofun, hf⟩

/-! ## the stack -/

/-- The image has its stack: page `n + 1`, above the guard page. -/
structure Stacked (k : Kmem) (roots held : Finset Nat) (r n : Nat) : Prop where
  ok : Ok k roots held
  root : r ∈ roots
  excl : (view k roots).Excl
  page : has ((view k roots).pte r (n + 1)) pteV ∧ has ((view k roots).pte r (n + 1)) pteU ∧
    has ((view k roots).pte r (n + 1)) pteW
  high : ∀ v, userVpn ≤ v → has ((view k roots).pte r v) pteU = false
  freeable : Freeable (view k roots) r ((n + 2) * pgSize)

theorem Stacked.lt_user {n : Nat} (h : Stacked k roots held r n) : n + 1 < userVpn := by
  have := h.freeable.size
  rw [pages_mul] at this
  omega

/-- `copyout` to the stack: the page is there and writable, so it cannot fail. -/
theorem Stacked.copyout {n psz sp : Nat} {src : List Byte} (h : Stacked k roots held r n)
    (hpsz : psz ≤ trapframeVa) (hlo : (n + 1) * pgSize ≤ sp) (hhi : sp + src.length ≤ (n + 2) * pgSize) :
    Returns (copyout psz r sp src) k fun res k' => res.1 = true ∧ Works k roots held r k' ∧
      Stacked k' roots held r n ∧ ∀ r' a, a / pgSize < userVpn → (view k' roots).byte r' a =
        if r' = r ∧ sp ≤ a ∧ a < sp + src.length then src.getD (a - sp) 0 else (view k roots).byte r' a := by
  have htouch : ∀ v, Touches sp src.length v → v = n + 1 := by
    rintro v ⟨a, h1, h2, rfl⟩
    simp only [pgSize] at *
    omega
  obtain ⟨hV, hU, hW⟩ := h.page
  have hpa : userPa ((view k roots).pte r (n + 1)) ≠ 0 := by
    rw [userPa_eq hV hU]
    exact h.ok.user_ne_zero h.lt_user hV
  refine (h.ok.copyout h.root hpsz h.excl h.high).mono ?_
  rintro ⟨ok, m⟩ k' hc
  have hok : ok = true := hc.mapped fun v ht => by rw [htouch v ht]; exact ⟨hpa, hW⟩
  have hm : m = src.length := hc.ok_iff.mp hok
  obtain ⟨es, hd, hes⟩ := hc.does
  have hwrites : ∀ e ∈ es, ∃ page, e = .write r (n + 1) page := fun e he => by
    obtain ⟨v, ht, -, ⟨-, h0⟩ | hw⟩ := hes e he
    · rw [htouch v ht] at h0
      exact absurd h0 hpa
    · rwa [htouch v ht] at hw
  have hpte : (view k' roots).pte = (view k roots).pte := hd.edits.writes_pte fun e he => by
    obtain ⟨page, rfl⟩ := hwrites e he
    exact ⟨_, _, _, rfl⟩
  refine ⟨hok, ⟨es, hd, fun e he => ?_⟩, ⟨hd.ok, h.root, hd.edits.excl h.excl, ?_, ?_, ?_⟩, ?_⟩
  · obtain ⟨page, rfl⟩ := hwrites e he
    exact ⟨rfl, h.lt_user⟩
  · rw [hpte]
    exact h.page
  · rw [hpte]
    exact h.high
  · exact ⟨h.freeable.size, fun v h1 h2 => by rw [hpte]; exact h.freeable.above v h1 h2⟩
  · intro r' a ha
    rw [hc.byte r' a ha, hm]

end

end MiniOS
