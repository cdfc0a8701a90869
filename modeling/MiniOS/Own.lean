import MiniOS.Frames

/-!
# MiniOS.Own

Specifications of the elementary steps of `vm.c` between states in which the
kernel owns its memory.  `Does ρ k roots held es k' roots' held'` is the common
form: from `k` the kernel comes to `k'`, what it owns changes from
`roots, held` to `roots', held'`, and the processes see the edits `es`; no
page table but `ρ` gains or loses a page.
-/

namespace MiniOS

open Extents Total
open Function (update update_self update_of_ne update_idem update_eq_self)

section
variable [KernelImage]

/-! ## free pages -/

/-- The indices of the free pages. -/
@[irreducible]
def freeSet (k : Kmem) : Finset Nat :=
  (Finset.range (physTop / pgSize)).filter fun x => Managed (x * pgSize) ∧ k.refCount x = 0

/-- The number of free pages. -/
def nfree (k : Kmem) : Nat := (freeSet k).card

theorem mem_freeSet {k : Kmem} {x : Nat} : x ∈ freeSet k ↔ Managed (x * pgSize) ∧ k.refCount x = 0 := by
  rw [freeSet, Finset.mem_filter, Finset.mem_range]
  exact and_iff_right_of_imp fun h => ((managed_iff_idx x).mp h.1).2

section
variable {k k' : Kmem} {pa c : Nat} (hman : Managed pa)
  (hk : k'.refCount = update k.refCount (pa2idx pa) c)
include hman hk

theorem nfree_take (h0 : k.refCount (pa2idx pa) = 0) (hc : 0 < c) : nfree k' + 1 = nfree k := by
  have hmem : pa2idx pa ∈ freeSet k := by
    rw [mem_freeSet, show pa2idx pa * pgSize = pa from managed_div hman]
    exact ⟨hman, h0⟩
  have herase : freeSet k' = (freeSet k).erase (pa2idx pa) := by
    ext x
    rw [Finset.mem_erase, mem_freeSet, mem_freeSet, hk]
    by_cases hx : x = pa2idx pa
    · rw [hx, update_self]
      exact iff_of_false (fun h => by omega) fun h => h.1 rfl
    · rw [update_of_ne hx, and_iff_right hx]
  rw [nfree, nfree, herase, Finset.card_erase_add_one hmem]

theorem nfree_put (h0 : 0 < k.refCount (pa2idx pa)) (hc : c = 0) : nfree k' = nfree k + 1 := by
  refine (nfree_take (k := k') (c := k.refCount (pa2idx pa)) hman ?_ ?_ h0).symm
  · rw [hk, update_idem, update_eq_self]
  · rw [hk, update_self, hc]

omit hman in
theorem nfree_keep (h0 : 0 < k.refCount (pa2idx pa)) (hc : 0 < c) : nfree k' = nfree k := by
  have hsame : freeSet k' = freeSet k := by
    ext x
    rw [mem_freeSet, mem_freeSet, hk]
    by_cases hx : x = pa2idx pa
    · rw [hx, update_self]
      exact and_congr_right fun _ => by omega
    · rw [update_of_ne hx]
  rw [nfree, nfree, hsame]

end

theorem nfree_congr {k k' : Kmem} (h : k'.refCount = k.refCount) : nfree k' = nfree k := by
  rw [nfree, nfree, freeSet, freeSet, h]

@[simp] theorem nfree_mem (k : Kmem) (m : Mem) : nfree { k with mem := m } = nfree k := nfree_congr rfl

section
variable {k k' k'' : Kmem} {bs bs' : List Block} {roots held roots' held' roots'' held'' : Finset Nat}
  {kind : Nat → Kind} {loose : Nat → Nat} {ρ : Nat}

variable {p r v pa : Nat} {es : List Edit} {s : PteRef}

/-- A managed page with count 0 is on the free list. -/
theorem Typed.free_of_ref (h : Typed k bs roots held kind loose) (hp : Managed p)
    (h0 : getref k p = 0) : kind p = .free := by
  have href := h.ref p hp
  cases hk : kind p with
  | free => rfl
  | user =>
    have := h.pos p hk
    rw [hk] at href
    simp only [Kind.refs] at href; omega
  | held => rw [hk] at href; simp only [Kind.refs] at href; omega
  | table r path => rw [hk] at href; simp only [Kind.refs] at href; omega

theorem Typed.nfree_eq_zero (h : Typed k [] roots held kind loose) : nfree k = 0 := by
  rw [nfree, Finset.card_eq_zero, Finset.eq_empty_iff_forall_notMem]
  intro x hx
  obtain ⟨hm, h0⟩ := mem_freeSet.mp hx
  have hidx : pa2idx (x * pgSize) = x := by simp only [pa2idx, pgSize]; omega
  have hfree := h.free_of_ref hm (by rw [getref, hidx]; exact h0)
  exact covers_nil _ ((h.free_iff _).mp hfree).2

/-! ## the form of a specification -/

section
omit [KernelImage]

/-- An entry seen by the processes is a user entry of a page table. -/
theorem uses_view {q : Nat} : (view k roots).Uses r v q ↔ (r, v) ∈ users k.mem roots q := by
  rw [mem_users, View.Uses, view]
  simp only
  constructor
  · rintro ⟨hv, hh⟩
    split at hh
    next hc => exact ⟨⟨hc.1, hv⟩, hh⟩
    next => exact absurd hh.1 (by simp)
  · rintro ⟨⟨hr, hv⟩, hh⟩
    rw [if_pos ⟨hr, by simp only [userVpn, maxVpn] at *; omega⟩]
    exact ⟨hv, hh⟩

theorem view_eq (hm : k'.mem = k.mem) (hr : k'.reverseMap = k.reverseMap) :
    view k' roots = view k roots := by
  unfold view
  rw [hm, hr]

end

/-- From `k` the kernel comes to `k'`, where it owns `roots'` and `held'`,
and the processes see the edits `es`.  Pages it holds throughout keep their
contents, and page tables other than `ρ` their pages. -/
structure Does (ρ : Nat) (k : Kmem) (roots held : Finset Nat) (es : List Edit) (k' : Kmem)
    (roots' held' : Finset Nat) : Prop where
  ok : Ok k' roots' held'
  edits : Edits (view k roots) es (view k' roots')
  frame : ∀ p ∈ held, p ∈ held' → k'.mem p = k.mem p
  keeps : Keeps ρ k.mem roots k'.mem roots'

theorem Does.refl (h : Ok k roots held) : Does ρ k roots held [] k roots held :=
  ⟨h, Edits.nil _, fun _ _ _ => rfl, Keeps.refl ρ _ _⟩

theorem Does.trans {es' : List Edit} (h : Does ρ k roots held es k' roots' held')
    (h' : Does ρ k' roots' held' es' k'' roots'' held'')
    (hheld : ∀ p ∈ held, p ∈ held'' → p ∈ held') :
    Does ρ k roots held (es ++ es') k'' roots'' held'' :=
  ⟨h'.ok, h.edits.append h'.edits, fun p hp hp' =>
    (h'.frame p (hheld p hp hp') hp').trans (h.frame p hp (hheld p hp hp')), h.keeps.trans h'.keeps⟩

/-- A step that the processes do not see. -/
theorem Does.of_view (hok : Ok k' roots' held') (hview : view k' roots' = view k roots)
    (hframe : ∀ p ∈ held, p ∈ held' → k'.mem p = k.mem p) (hkeeps : Keeps ρ k.mem roots k'.mem roots') :
    Does ρ k roots held [] k' roots' held' :=
  ⟨hok, by rw [hview]; exact Edits.nil _, hframe, hkeeps⟩

/-- A page table that did not exist before is no exception. -/
theorem Does.of_new (h : Does r k roots held es k' roots' held')
    (hr : r ∉ roots) : Does ρ k roots held es k' roots' held' :=
  ⟨h.ok, h.edits, h.frame, fun r' hr' _ => h.keeps r' hr' (by rintro rfl; exact hr hr')⟩

section
variable (h : Typed k bs roots held kind loose)
include h

/-- A change outside the page tables. -/
theorem Typed.keeps {m' : Mem}
    (hm : ∀ p r path, kind p = .table r path → m' p = k.mem p) : Keeps ρ k.mem roots m' roots :=
  h.tree.keeps (fun _ hr _ => hr) fun p r path hp _ _ => hm p r path hp

/-- A change of an entry of the lowest level. -/
theorem Typed.keeps_slot (hr : r ∈ roots)
    (hs : pteSlot k.mem r (v * pgSize) = some s) (w : Word) :
    Keeps ρ k.mem roots (setWord k.mem s.table s.idx w) roots :=
  h.tree.keeps (fun _ hr _ => hr) fun _ _ _ hp hlen _ => setWord_dir (h.tree.slot hr hs).1 _ _ hp hlen

theorem Typed.keeps_page (hp : (kind p).isTable = false)
    (page : Page) : Keeps ρ k.mem roots (update k.mem p page) roots :=
  h.keeps fun q r path hq => update_of_ne (by rintro rfl; rw [hq] at hp; cases hp) _ _

theorem Typed.keeps_got (hg : GotPage k k' bs bs' pa) :
    Keeps ρ k.mem roots k'.mem roots :=
  h.keeps fun q _ _ hq => hg.frame q (h.aligned (by rw [hq]; nofun)) (h.not_free (by rw [hq]; nofun))

theorem Typed.keeps_put (hpa : (kind pa).isTable = false)
    (hput : PutPage k k' bs bs' pa) : Keeps ρ k.mem roots k'.mem roots :=
  h.keeps fun q r path hq => hput.frame q (h.aligned (by rw [hq]; nofun)) fun hf => by
    rcases (hput.free_iff q).mp hf with hf | rfl
    · exact h.not_free (by rw [hq]; nofun) hf
    · rw [hq] at hpa; cases hpa

end

theorem Does.view_eq (h : Does ρ k roots held [] k' roots' held') : view k' roots' = view k roots :=
  Edits.nil_iff.mp h.edits

theorem Does.view_one {e : Edit} (h : Does ρ k roots held [e] k' roots' held') :
    view k' roots' = (view k roots).edit e :=
  Edits.nil_iff.mp (Edits.cons_iff.mp h.edits).2

theorem Ok.managed (h : Ok k roots held) (hp : p ∈ held) : Managed p := by
  obtain ⟨bs, kind, h⟩ := h
  exact ((h.held_iff p).mp hp).1

theorem Ok.root_managed (h : Ok k roots held) (hr : r ∈ roots) : Managed r := by
  obtain ⟨bs, kind, h⟩ := h
  exact h.managed r (by rw [h.tree.kind_root hr]; nofun)

/-- A held page is not mapped by anyone. -/
theorem Ok.fresh (h : Ok k roots held) (hp : p ∈ held) : (view k roots).Fresh p := by
  obtain ⟨bs, kind, h⟩ := h
  obtain ⟨hman, hkind⟩ := (h.held_iff p).mp hp
  refine ⟨fun r v hu => ?_, h.rmap p hman (by rw [hkind]; nofun)⟩
  rw [uses_view, h.users_empty (by rw [hkind]; nofun)] at hu
  exact absurd hu (Finset.notMem_empty _)

/-! ## held pages -/

theorem Ok.kallocK (h : Ok k roots held) :
    Returns kallocK k fun pa k' => (pa = 0 ∧ k' = k ∧ nfree k = 0) ∨
      (pa ≠ 0 ∧ pa ∉ held ∧ pa ∉ roots ∧ (∀ ρ, Does ρ k roots held [] k' roots (insert pa held)) ∧
        nfree k' + 1 = nfree k) := by
  obtain ⟨bs, kind, h⟩ := h
  rcases kalloc_spec h.rep with ⟨rfl, hk⟩ | ⟨pa, k', bs', hk, hg⟩
  · exact ⟨0, k, hk, Or.inl ⟨rfl, rfl, h.nfree_eq_zero⟩⟩
  · obtain ⟨htyped, hview, hnew, hfree⟩ := h.got hg
    refine ⟨pa, k', hk, Or.inr ⟨managed_ne_zero hg.managed, hnew, fun hr => ?_,
      fun ρ => Does.of_view ⟨bs', _, htyped⟩ hview (fun p hp _ => ?_) (h.keeps_got hg), ?_⟩⟩
    · rw [h.tree.kind_root hr] at hfree; cases hfree
    · obtain ⟨hman, hkind⟩ := (h.held_iff p).mp hp
      exact hg.frame p hman.1 (h.not_free (by rw [hkind]; nofun))
    · refine nfree_take hg.managed hg.ref ?_ Nat.one_pos
      have := h.ref pa hg.managed
      rwa [hfree] at this

/-- `kalloc` leaves the page tables and the counts of other pages alone. -/
theorem Ok.kallocK_frame (h : Ok k roots held) (hk : MiniOS.kallocK k = some (pa, k')) :
    (∀ r ∈ roots, ∀ va, pteSlot k'.mem r va = pteSlot k.mem r va ∧
      ∀ s, pteSlot k.mem r va = some s → k'.mem s.table = k.mem s.table) ∧
    ∀ p, Managed p → p ≠ pa → k'.refCount (pa2idx p) = k.refCount (pa2idx p) := by
  obtain ⟨bs, kind, h⟩ := h
  rcases kalloc_spec h.rep with ⟨rfl, hk₁⟩ | ⟨pa', k₁, bs₁, hk₁, hg⟩
  · obtain ⟨rfl, rfl⟩ := Prod.mk.inj (Option.some.inj (hk₁.symm.trans hk))
    exact ⟨fun _ _ _ => ⟨rfl, fun _ _ => rfl⟩, fun _ _ _ => rfl⟩
  · obtain ⟨rfl, rfl⟩ := Prod.mk.inj (Option.some.inj (hk₁.symm.trans hk))
    have htab : ∀ q r path, kind q = .table r path → k₁.mem q = k.mem q := fun q r path hq =>
      hg.frame q (h.aligned (by rw [hq]; nofun)) (h.not_free (by rw [hq]; nofun))
    refine ⟨fun r hr va => ⟨h.tree.slot_congr (fun q r' path hq _ => htab q r' path hq) hr va,
      fun s hs => htab _ _ _ (h.tree.slot hr hs).1⟩, fun p hp hne => ?_⟩
    rw [hg.ref, update_of_ne (pa2idx_ne hp.1 hg.managed.1 hne)]

variable (ρ) in
theorem Ok.kfreeK (h : Ok k roots held) (hpa : pa ∈ held) :
    Returns (kfreeK pa) k fun _ k' => Does ρ k roots held [] k' roots (held.erase pa) ∧
      nfree k' = nfree k + 1 := by
  obtain ⟨bs, kind, h⟩ := h
  obtain ⟨hman, hkind⟩ := (h.held_iff pa).mp hpa
  obtain ⟨k', bs', hk, hput⟩ := kfree_last h.rep hman (h.ref_held hpa)
    (h.not_free (by rw [hkind]; nofun))
  obtain ⟨htyped, hview⟩ := h.put hpa hput
  refine ⟨(), k', by rw [MiniOS.kfreeK, hk]; rfl,
    Does.of_view ⟨bs', _, htyped⟩ hview (fun p hp hp' => ?_)
      (h.keeps_put (by rw [hkind]; rfl) hput), ?_⟩
  · obtain ⟨hmanp, hkindp⟩ := (h.held_iff p).mp hp
    refine hput.frame p hmanp.1 fun hf => ?_
    rcases (hput.free_iff p).mp hf with hf | rfl
    · exact h.not_free (by rw [hkindp]; nofun) hf
    · exact (Finset.mem_erase.mp hp').1 rfl
  · exact nfree_put hman hput.ref (by rw [h.ref_held hpa]; decide) rfl

theorem Typed.view_writeHeld (h : Typed k bs roots held kind loose) (hp : kind p = .held)
    (page : Page) : view { k with mem := update k.mem p page } roots = view k roots := by
  have hnone : ∀ r v, ¬ (view k roots).Uses r v p := fun r v hu => by
    rw [uses_view, h.users_empty (by rw [hp]; nofun)] at hu
    exact absurd hu (Finset.notMem_empty _)
  rw [h.view_writePage (Or.inr hp)]
  simp only [hnone, if_false]

/-- Writing a held page. -/
theorem Ok.writeHeld (h : Ok k roots held) (hp : p ∈ held) (page : Page) :
    Does ρ k roots (held.erase p) [] { k with mem := update k.mem p page } roots held := by
  obtain ⟨bs, kind, h⟩ := h
  have hkind := ((h.held_iff p).mp hp).2
  exact Does.of_view ⟨bs, kind, h.writePage (Or.inr hkind) page⟩ (h.view_writeHeld hkind page)
    (fun q hq _ => update_of_ne (Finset.ne_of_mem_erase hq) _ _)
    (h.keeps_page (by rw [hkind]; rfl) page)

/-- A page that is held in the end is written. -/
theorem Does.writeHeld (h : Does ρ k roots held es k' roots' held')
    (hp : p ∈ held') (page : Page) :
    Does ρ k roots (held.erase p) es { k' with mem := update k'.mem p page } roots' held' := by
  have h' : Does ρ k' roots' (held'.erase p) [] _ roots' held' := h.ok.writeHeld hp page
  refine ⟨h'.ok, by rw [h'.view_eq]; exact h.edits, fun q hq hq' => ?_, h.keeps.trans h'.keeps⟩
  obtain ⟨hne, hq⟩ := Finset.mem_erase.mp hq
  exact (update_of_ne hne _ _).trans (h.frame q hq hq')

/-- A page just allocated is filled. -/
theorem Does.fill (h : Does ρ k roots held es k' roots' (insert pa held))
    (hnew : pa ∉ held) (page : Page) :
    Does ρ k roots held es { k' with mem := update k'.mem pa page } roots' (insert pa held) := by
  have h' := h.writeHeld (Finset.mem_insert_self pa held) page
  rwa [Finset.erase_eq_of_notMem hnew] at h'

/-! ## walk -/

/-- The path from the root to the table of `va` at a level. -/
def walkPath (va : Nat) : Nat → List (Fin 512)
  | 0 => [px 1 va, px 2 va]
  | 1 => [px 2 va]
  | _ => []

section
omit [KernelImage]

theorem walkPath_succ {level : Nat} (h : level < 2) (va : Nat) :
    walkPath va level = px (level + 1) va :: walkPath va (level + 1) := by
  have : level = 0 ∨ level = 1 := by omega
  rcases this with rfl | rfl <;> rfl

theorem length_walkPath {level : Nat} (h : level ≤ 2) (va : Nat) : (walkPath va level).length + level = 2 := by
  have : level = 0 ∨ level = 1 ∨ level = 2 := by omega
  rcases this with rfl | rfl | rfl <;> rfl

theorem has_dirPte (p : Nat) : has (pa2pte p ||| pteV) pteV ∧ isDir (pa2pte p ||| pteV) := by
  refine ⟨by simp, ?_⟩
  simp [isDir]

theorem pte2pa_dirPte (hp : p < 2 ^ 64) (ha : p % pgSize = 0) :
    pte2pa (pa2pte p ||| pteV) = p := pte2pa_pa2pte_or hp ha toNat_pte_lt.1

end

/-- `walk` with `alloc`, from a table of the path to `va` down. -/
theorem walkLevel_spec {va : Nat} (hva : va < maxVa) :
    ∀ {level d : Nat} {k : Kmem} {bs : List Block} {kind : Nat → Kind},
      Typed k bs roots held kind loose → level ≤ 2 → kind d = .table r (walkPath va level) →
      Returns (walkLevel va true level d) k fun res k' => ∃ bs' kind',
        Typed k' bs' roots held kind' loose ∧ view k' roots = view k roots ∧
        (∀ p ∈ held, k'.mem p = k.mem p) ∧
        (∀ p r' path, kind p = .table r' path → r' ≠ r → kind' p = kind p ∧ k'.mem p = k.mem p) ∧
        (nfree k' ≤ nfree k ∧ nfree k ≤ nfree k' + level) ∧
        (res = none → nfree k < level) ∧
        ∀ s, res = some s → kind' s.table = .table r (walkPath va 0) ∧ s.idx = px 0 va
  | 0, d, k, bs, kind, h, _, hd => by
      refine returns_pure ⟨bs, kind, h, rfl, fun _ _ => rfl, fun _ _ _ _ _ => ⟨rfl, rfl⟩,
        ⟨Nat.le_refl _, Nat.le_add_right _ _⟩, by simp, fun s hs => ?_⟩
      cases hs
      exact ⟨hd, rfl⟩
  | level + 1, d, k, bs, kind, h, hlevel, hd => by
      have hlen := length_walkPath hlevel va
      refine returns_bind (a := k.mem d (px (level + 1) va)) (t := k) rfl ?_
      by_cases hV : has (k.mem d (px (level + 1) va)) pteV
      · -- the table is there
        have hchild := (h.tree.entry d r _ hd (by omega) _ hV).2
        rw [← walkPath_succ (by omega)] at hchild
        rw [if_pos hV]
        refine (walkLevel_spec hva h (by omega) hchild).mono ?_
        rintro res k' ⟨bs', kind', ht, hview, hmem, hothers, hn, hnone, hslot⟩
        exact ⟨bs', kind', ht, hview, hmem, hothers, ⟨hn.1, by omega⟩,
          fun h => Nat.lt_succ_of_lt (hnone h), hslot⟩
      · rw [if_neg hV, if_pos rfl]
        rcases kalloc_spec h.rep with ⟨rfl, hk⟩ | ⟨pa, k₁, bs₁, hk, hg⟩
        · refine returns_bind hk ?_
          rw [if_pos rfl]
          exact returns_pure ⟨[], kind, h, rfl, fun _ _ => rfl, fun _ _ _ _ _ => ⟨rfl, rfl⟩,
            ⟨by omega, by omega⟩, fun _ => by rw [h.nfree_eq_zero]; omega, by simp⟩
        · -- a fresh page becomes the table
          obtain ⟨h₁, hview₁, hnew, hfree⟩ := h.got hg
          refine returns_bind hk ?_
          rw [if_neg (managed_ne_zero hg.managed)]
          have hin : pa ∈ insert pa held := Finset.mem_insert_self _ _
          have hdpa : d ≠ pa := by rintro rfl; rw [hfree] at hd; cases hd
          have hkind := ((h₁.held_iff pa).mp hin).2
          have h₂ := h₁.writePage (Or.inr hkind) zeroPage
          have hmemd : update k₁.mem pa zeroPage d = k.mem d := by
            rw [update_of_ne hdpa]
            exact hg.frame d (h.aligned (by rw [hd]; simp)) (h.not_free (by rw [hd]; simp))
          have hd₂ : update kind pa .held d = .table r (walkPath va (level + 1)) := by
            rw [update_of_ne hdpa, hd]
          obtain ⟨hVw, hdirw⟩ := has_dirPte pa
          have hpaw := pte2pa_dirPte (managed_lt hg.managed) hg.managed.1
          obtain ⟨h₃, hview₃⟩ := h₂.addTable hd₂ (i := px (level + 1) va) (by omega)
            (by simp only [hmemd]; simpa using hV) hin (update_self _ _ _) hpaw hVw hdirw
            (fun hnil => by
              have hl : level = 1 := by rw [hnil, List.length_nil] at hlen; omega
              subst hl
              simp only [px, maxVa] at *; omega)
          rw [Finset.erase_insert hnew, ← walkPath_succ (by omega)] at h₃
          refine returns_bind (a := ()) rfl (returns_bind (a := ()) rfl ?_)
          refine (walkLevel_spec hva h₃ (by omega) (update_self _ _ _)).mono ?_
          rintro res k' ⟨bs', kind', ht, hview, hmem, hothers, hn, hnone, hslot⟩
          have hnf : nfree k₁ + 1 = nfree k := nfree_take hg.managed hg.ref (by
            have := h.ref pa hg.managed
            rwa [hfree] at this) Nat.one_pos
          have hsame : ∀ m, nfree { k₁ with mem := m } = nfree k₁ := fun m => nfree_congr rfl
          rw [hsame] at hn hnone
          refine ⟨bs', kind', ht, ?_, fun p hp => ?_, fun p r' path hp hne => ?_, ⟨by omega, by omega⟩,
            fun h => by have := hnone h; omega, hslot⟩
          · rw [hview, hview₃, h₁.view_writeHeld hkind, hview₁]
          · have hppa : p ≠ pa := by rintro rfl; exact hnew hp
            obtain ⟨hmanp, hkindp⟩ := (h.held_iff p).mp hp
            have hpd : p ≠ d := by rintro rfl; rw [hkindp] at hd; cases hd
            rw [hmem p hp]
            simp only
            rw [setWord_of_ne hpd, update_of_ne hppa]
            exact hg.frame p hmanp.1 (h.not_free (by rw [hkindp]; simp))
          · have hppa : p ≠ pa := by rintro rfl; rw [hfree] at hp; cases hp
            have hpd : p ≠ d := by rintro rfl; rw [hd] at hp; cases hp; exact hne rfl
            have hkp : update (update kind pa .held) pa
                (.table r (walkPath va level)) p = kind p := by
              rw [update_of_ne hppa, update_of_ne hppa]
            obtain ⟨hk', hm'⟩ := hothers p r' path (hkp.trans hp) hne
            refine ⟨hk'.trans hkp, ?_⟩
            rw [hm']
            simp only
            rw [setWord_of_ne hpd, update_of_ne hppa]
            exact hg.frame p (h.aligned (by rw [hp]; simp)) (h.not_free (by rw [hp]; simp))

/-- `walk(pagetable, va, 1)`. -/
theorem Ok.walk_true (h : Ok k roots held) (hr : r ∈ roots) (hv : v < maxVpn) :
    Returns (walk r (v * pgSize) true) k fun res k' => Does r k roots held [] k' roots held ∧
      (nfree k' ≤ nfree k ∧ nfree k ≤ nfree k' + 2) ∧ (res = none → nfree k < 2) ∧
      ∀ s, res = some s → pteSlot k'.mem r (v * pgSize) = some s := by
  obtain ⟨bs, kind, h⟩ := h
  have hva : v * pgSize < maxVa := by simp only [maxVa, maxVpn, pgSize] at *; omega
  rw [walk, if_neg (by omega)]
  refine (walkLevel_spec hva h (Nat.le_refl 2) (h.tree.kind_root hr)).mono ?_
  rintro res k' ⟨bs', kind', ht, hview, hmem, hothers, hn, hnone, hslot⟩
  refine ⟨Does.of_view ⟨bs', kind', ht⟩ hview (fun p hp _ => hmem p hp) ?_, hn, hnone, fun s hs => ?_⟩
  · exact h.tree.keeps (fun _ hr _ => hr) fun p r' path hp _ hne => (hothers p r' path hp hne).2
  obtain ⟨hk, hidx⟩ := hslot s hs
  have := ht.tree.slot_of_table hk (px 0 (v * pgSize))
  rw [vpnOf_px (by simp only [maxVpn] at hv; omega)] at this
  rw [this, ← hidx]

/-! ## entries -/

section
omit [KernelImage]

/-- What the processes see of the entry at a slot. -/
theorem pte_of_slot (hr : r ∈ roots) (hv : v < maxVpn)
    (hs : pteSlot k.mem r (v * pgSize) = some s) :
    (view k roots).pte r v = if has (k.mem s.table s.idx) pteV then k.mem s.table s.idx else 0 := by
  rw [view_pte hr hv, leafPte, pteAt, hs]

theorem pte_of_no_slot (hr : r ∈ roots) (hv : v < maxVpn)
    (hs : pteSlot k.mem r (v * pgSize) = none) : (view k roots).pte r v = 0 := by
  rw [view_pte hr hv, leafPte, pteAt, hs]
  simp

theorem slot_of_valid (hr : r ∈ roots) (hv : v < maxVpn)
    (hV : has ((view k roots).pte r v) pteV) :
    ∃ s, pteSlot k.mem r (v * pgSize) = some s ∧ k.mem s.table s.idx = (view k roots).pte r v := by
  cases hs : pteSlot k.mem r (v * pgSize) with
  | none =>
    rw [pte_of_no_slot hr hv hs] at hV
    exact absurd hV (by simp)
  | some s =>
    refine ⟨s, rfl, ?_⟩
    have hpte := pte_of_slot hr hv hs
    by_cases hm : has (k.mem s.table s.idx) pteV
    · rw [hpte, if_pos hm]
    · rw [hpte, if_neg hm] at hV
      exact absurd hV (by simp)

theorem has_of_slot (hr : r ∈ roots) (hv : v < maxVpn)
    (hs : pteSlot k.mem r (v * pgSize) = some s) :
    has (k.mem s.table s.idx) pteV = has ((view k roots).pte r v) pteV := by
  rw [pte_of_slot hr hv hs]
  split
  next => rfl
  next hV => simp [hV]

end

/-- `*pte = PA2PTE(pa) | perm | PTE_V` of `mappages`, with its record in the
reverse map. -/
def mapPte (k : Kmem) (s : PteRef) (pa : Nat) (perm : Word) (r va : Nat) : Kmem :=
  let k := { k with mem := setWord k.mem s.table s.idx (pa2pte pa ||| perm ||| pteV) }
  if has perm pteU then recordRmap k pa r va else k

/-- `mappages` of one page: `walk`, then the entry. -/
theorem Ok.mappages (h : Ok k roots held) (hr : r ∈ roots) (hv : v < maxVpn)
    (hpte : (view k roots).pte r v = 0) (pa : Nat) (perm : Word) :
    Returns (mappages r (v * pgSize) pgSize pa perm) k fun ok k' => ∃ k₁,
      Does r k roots held [] k₁ roots held ∧ (nfree k₁ ≤ nfree k ∧ nfree k ≤ nfree k₁ + 2) ∧
      (ok = false → k' = k₁ ∧ nfree k < 2) ∧
      (ok = true → ∃ s, pteSlot k₁.mem r (v * pgSize) = some s ∧
        k' = mapPte k₁ s pa perm r (v * pgSize)) := by
  have hmod : ¬ v * pgSize % pgSize ≠ 0 := by simp only [pgSize]; omega
  rw [MiniOS.mappages, if_neg hmod, if_neg (by decide), if_neg (by decide),
    show pgSize / pgSize = 0 + 1 from rfl, mappagesLoop]
  refine (h.walk_true hr hv).bind ?_
  rintro res k₁ ⟨hdoes, hn, hnone, hslot⟩
  cases res with
  | none => exact returns_pure ⟨k₁, hdoes, hn, fun _ => ⟨rfl, hnone rfl⟩, nofun⟩
  | some s =>
    have hs := hslot s rfl
    have hV : ¬ has (k₁.mem s.table s.idx) pteV := by
      rw [has_of_slot hr hv hs, hdoes.view_eq, hpte]; simp
    simp only
    refine returns_bind (a := k₁.mem s.table s.idx) (t := k₁) rfl ?_
    rw [if_neg hV]
    refine returns_bind (a := ()) rfl ?_
    refine ⟨true, mapPte k₁ s pa perm r (v * pgSize), ?_,
      k₁, hdoes, hn, nofun, fun _ => ⟨s, hs, rfl⟩⟩
    unfold mapPte
    by_cases hU : has perm pteU <;> simp [hU, bind_apply, recordRmapK, mappagesLoop] <;> rfl

/-! ## the reverse map -/

theorem recordRmap_managed (hpa : Managed pa) (k : Kmem) (r va : Nat) :
    recordRmap k pa r va = { k with
      reverseMap := update k.reverseMap (rmapIdx pa)
        (View.recordEntry (k.reverseMap (rmapIdx pa)) r va) } := by
  rw [recordRmap, if_pos ⟨kernBase_le_of_managed hpa, hpa.2.2⟩, View.recordEntry]
  simp only
  split
  · rfl
  · split
    · rfl
    · rw [update_eq_self]

theorem Typed.record (h : Typed k bs roots held kind loose) (hkind : kind pa = .user) :
    Typed (recordRmap k pa r (v * pgSize)) bs roots held kind loose ∧
      view (recordRmap k pa r (v * pgSize)) roots = (view k roots).record pa r v := by
  have hman : Managed pa := h.managed pa (by rw [hkind]; nofun)
  rw [recordRmap_managed hman]
  refine ⟨h.setRmap fun q hq hu => update_of_ne ?_ _ _, rfl⟩
  refine rmapIdx_ne hq.1 hman.1 (kernBase_le_of_managed hq) (kernBase_le_of_managed hman) ?_
  rintro rfl
  exact hu hkind

/-! ## mapping and unmapping -/

omit [KernelImage] in
theorem pte2pa_mapped {perm : Word} (hpa : pa < 2 ^ 64) (ha : pa % pgSize = 0)
    (hperm : perm.toNat < 1024) : pte2pa (pa2pte pa ||| perm ||| pteV) = pa := by
  rw [pte2pa_or _ toNat_pte_lt.1, pte2pa_pa2pte_or hpa ha hperm]

/-- The page of a slot is a table, so it is neither held nor a user page. -/
theorem Typed.slot_ne (h : Typed k bs roots held kind loose)
    (hr : r ∈ roots) (hs : pteSlot k.mem r (v * pgSize) = some s) (hp : (kind p).isTable = false) :
    p ≠ s.table := by
  rintro rfl
  rw [(h.tree.slot hr hs).1] at hp
  cases hp

section mapPage
variable (ρ) {r v : Nat} {s : PteRef} {pa : Nat} {perm : Word} (h : Ok k roots held) (hr : r ∈ roots)
  (hs : pteSlot k.mem r (v * pgSize) = some s) (hpte : (view k roots).pte r v = 0)
  (hperm : perm.toNat < 1024)
include h hr hs hpte hperm

/-- A zeroed page of the kernel is given to a process. -/
theorem Ok.map (hv : v < userVpn) (hpa : pa ∈ held) (hzero : k.mem pa = zeroPage)
    (hcow : has perm pteCow = false) (hU : has perm pteU) :
    Does ρ k roots held [.map r v (pa2pte pa ||| perm ||| pteV)] (mapPte k s pa perm r (v * pgSize))
      roots (held.erase pa) := by
  have hfresh := h.fresh hpa
  have hroot := h.root_managed hr
  obtain ⟨bs, kind, h⟩ := h
  obtain ⟨hman, hkind⟩ := (h.held_iff pa).mp hpa
  have hvm : v < maxVpn := by simp only [userVpn, maxVpn] at *; omega
  have hw : pte2pa (pa2pte pa ||| perm ||| pteV) = pa := pte2pa_mapped (managed_lt hman) hman.1 hperm
  have hV : has (pa2pte pa ||| perm ||| pteV) pteV := by simp
  have hU' : has (pa2pte pa ||| perm ||| pteV) pteU := by simp [hU]
  have hleaf : leafPte k.mem r v = 0 := by rw [← view_pte hr hvm]; exact hpte
  have hne : pa ≠ s.table := h.slot_ne hr hs (by rw [hkind]; rfl)
  have hkind' : update kind pa .user pa = .user := update_self _ _ _
  have h₁ := h.toUser hpa
  have h₂ : Typed { k with mem := setWord k.mem s.table s.idx (pa2pte pa ||| perm ||| pteV) } bs roots
      (held.erase pa) (update kind pa .user) fun _ => 0 := by
    refine h₁.setLeaf hr hvm hs (Or.inl hV) _ (fun _ _ => by rw [hw]; exact hkind') (fun _ q => ?_)
      fun hc => absurd hv hc
    rw [hleaf]
    by_cases hq : q = pa
    · simp [Hits, hV, hw, hq]
    · simp [Hits, hw, hq, Ne.symm hq]
  have hview := h₁.view_setLeaf hr hvm hs (Or.inl hV)
  rw [if_pos ⟨hv, hV⟩, hw, setWord_of_ne hne, hzero] at hview
  have hframe : ∀ p ∈ held, p ∈ held.erase pa →
      setWord k.mem s.table s.idx (pa2pte pa ||| perm ||| pteV) p = k.mem p := fun p hp _ =>
    setWord_of_ne (h.slot_ne hr hs (by rw [((h.held_iff p).mp hp).2]; rfl)) _ _ _
  have hlegal : (view k roots).Legal (.map r v (pa2pte pa ||| perm ||| pteV)) :=
    ⟨hv, hpte, hV, by simp [hcow], by rw [hw]; exact hman, by rw [hw]; exact hfresh, hU', hroot⟩
  have hedit := Edits.one hlegal
  rw [View.edit, hw, ← hview, if_pos hU'] at hedit
  obtain ⟨h₃, hview₃⟩ := h₂.record (r := r) (v := v) hkind'
  rw [mapPte, if_pos hU]
  exact ⟨⟨bs, _, h₃⟩, by rw [hview₃]; exact hedit, by simpa using hframe, by
    rw [recordRmap_mem]; exact h.keeps_slot hr hs _⟩

omit hpte hperm in
/-- The kernel maps a page of its own above user memory. -/
theorem Ok.kmap (hv : v < maxVpn) (hv' : userVpn ≤ v) (hU : has perm pteU = false) :
    Does ρ k roots held [.kmap r v (pa2pte pa ||| perm ||| pteV)] (mapPte k s pa perm r (v * pgSize))
      roots held := by
  obtain ⟨bs, kind, h⟩ := h
  have hV : has (pa2pte pa ||| perm ||| pteV) pteV := by simp
  have h₂ := h.setLeaf hr hv hs (Or.inl hV) (fun _ => 0) (fun _ hc => by omega)
    (fun hc => by omega) fun _ => rfl
  have hview := h.view_setLeaf hr hv hs (Or.inl hV)
  rw [if_neg fun hc => by omega] at hview
  have hedit := Edits.one (V := view k roots) (e := .kmap r v (pa2pte pa ||| perm ||| pteV))
    ⟨hv', Or.inl hV⟩
  rw [mapPte, hU]
  exact ⟨⟨bs, _, h₂⟩, by rw [if_neg (by decide), hview]; exact hedit, fun p hp _ =>
    setWord_of_ne (h.slot_ne hr hs (by rw [((h.held_iff p).mp hp).2]; rfl)) _ _ _,
    h.keeps_slot hr hs _⟩

end mapPage

/-- The count of a page that is mapped. -/
theorem Typed.ref_user (h : Typed k bs roots held kind fun _ => 0)
    (hu : (view k roots).Uses r v pa) :
    kind pa = .user ∧ Managed pa ∧ k.refCount (pa2idx pa) = (users k.mem roots pa).card := by
  have hmem := uses_view.mp hu
  have hh := (mem_users.mp hmem).2
  have hkind : kind pa = .user := by
    rw [← hh.2]
    exact h.leaf_user (mem_users.mp hmem).1.1 hu.1 hh.1
  have hman : Managed pa := h.managed pa (by rw [hkind]; nofun)
  refine ⟨hkind, hman, ?_⟩
  have := h.ref pa hman
  rwa [hkind] at this

/-- The only user of a page holds its only reference. -/
theorem Typed.sole_iff (h : Typed k bs roots held kind fun _ => 0)
    (hu : (view k roots).Uses r v pa) :
    (view k roots).Sole r v pa ↔ k.refCount (pa2idx pa) = 1 := by
  have hmem := uses_view.mp hu
  rw [(h.ref_user hu).2.2, Finset.card_eq_one]
  constructor
  · intro hs
    refine ⟨(r, v), Finset.eq_singleton_iff_unique_mem.mpr ⟨hmem, fun ⟨r', v'⟩ hm => ?_⟩⟩
    obtain ⟨rfl, rfl⟩ := hs r' v' (uses_view.mpr hm)
    rfl
  · rintro ⟨a, ha⟩ r' v' hu'
    have h1 := uses_view.mp hu'
    rw [ha, Finset.mem_singleton] at h1 hmem
    rw [← hmem] at h1
    exact Prod.mk.inj h1

section setPte
variable {r v : Nat} {s : PteRef} {w : Word} (hr : r ∈ roots) (hv : v < userVpn)
  (hs : pteSlot k.mem r (v * pgSize) = some s)
include hr hv hs

/-- An entry is rewritten without changing the page it points to. -/
theorem Typed.setPte (h : Typed k bs roots held kind loose) (hold : has (k.mem s.table s.idx) pteV)
    (hw : has w pteV) (hpa : pte2pa w = pte2pa (k.mem s.table s.idx)) :
    Typed { k with mem := setWord k.mem s.table s.idx w } bs roots held kind loose ∧
      view { k with mem := setWord k.mem s.table s.idx w } roots = (view k roots).setPte r v w := by
  have hvm : v < maxVpn := by simp only [userVpn, maxVpn] at *; omega
  have hleaf : leafPte k.mem r v = k.mem s.table s.idx := by
    rw [← view_pte hr hvm, pte_of_slot hr hvm hs, if_pos hold]
  have hV : has (leafPte k.mem r v) pteV := by rw [hleaf]; exact hold
  have huser : kind (pte2pa w) = .user := by
    rw [hpa, ← hleaf]
    exact h.leaf_user hr hv hV
  refine ⟨h.setLeaf hr hvm hs (Or.inl hw) _ (fun _ _ => huser) (fun _ q => ?_) fun hc => absurd hv hc, ?_⟩
  · have hiff : Hits w q ↔ Hits (leafPte k.mem r v) q := by
      simp only [Hits, hw, hold, hpa, hleaf]
    simp only [hiff]
  · rw [h.view_setLeaf hr hvm hs (Or.inl hw), if_pos ⟨hv, hw⟩,
      setWord_of_ne (h.slot_ne hr hs (by rw [huser]; rfl)), View.setPte, view_sees hr hv hV, hleaf, hpa]

end setPte

omit [KernelImage] in
theorem incref_mapPte (k : Kmem) (s : PteRef) (pa : Nat) (perm : Word) (r va : Nat) :
    incref (mapPte k s pa perm r va) pa = mapPte (incref k pa) s pa perm r va := by
  unfold mapPte incref
  simp only [recordRmap]
  repeat' split
  all_goals simp_all

variable (ρ) in
/-- A page of one process is mapped into another page table as well. -/
theorem Ok.share (old : Nat) (perm : Word) (h : Ok k roots held) (hr : r ∈ roots)
    (hs : pteSlot k.mem r (v * pgSize) = some s) (hpte : (view k roots).pte r v = 0) (hv : v < userVpn)
    (hold : has ((view k roots).pte old v) pteV) (hne : old ≠ r)
    (hW : has ((view k roots).pte old v) pteW = false)
    (hperm : perm = cowFlags (pteFlags ((view k roots).pte old v))) :
    Does ρ k roots held [.share old r v]
      (incref (mapPte k s (pte2pa ((view k roots).pte old v)) perm r (v * pgSize))
        (pte2pa ((view k roots).pte old v))) roots held := by
  have hroot := h.root_managed hr
  obtain ⟨bs, kind, h⟩ := h
  have hvm : v < maxVpn := by simp only [userVpn, maxVpn] at *; omega
  have hu : (view k roots).Uses old v (pte2pa ((view k roots).pte old v)) := ⟨hv, hold, rfl⟩
  have hold_mem : old ∈ roots := (mem_users.mp (uses_view.mp hu)).1.1
  have hleafold : leafPte k.mem old v = (view k roots).pte old v := (view_pte hold_mem hvm).symm
  obtain ⟨hkind, hman, href⟩ := h.ref_user hu
  have hperm' : perm.toNat < 1024 := by rw [hperm]; exact toNat_cowFlags_lt _
  set pa := pte2pa ((view k roots).pte old v) with hpa
  have hw : pte2pa (pa2pte pa ||| perm ||| pteV) = pa := pte2pa_mapped (managed_lt hman) hman.1 hperm'
  have hV : has (pa2pte pa ||| perm ||| pteV) pteV := by simp
  have hU : has (pa2pte pa ||| perm ||| pteV) pteU = has perm pteU := by simp
  have hleaf : leafPte k.mem r v = 0 := by rw [← view_pte hr hvm]; exact hpte
  -- the new reference is loose until the entry is written
  have h₁ : Typed (incref k pa) bs roots held kind fun q => if q = pa then 1 else 0 :=
    h.setLoose _ hkind (by rw [href]; simp) (Nat.succ_pos _) fun q hq => by simp [hq]
  have h₂ := h₁.setLeaf hr hvm hs (Or.inl hV) (fun _ => 0)
    (fun _ _ => by rw [hw]; exact hkind) (fun _ q => by
      have hleaf' : leafPte (incref k pa).mem r v = 0 := hleaf
      rw [hleaf']
      by_cases hq : q = pa
      · simp [Hits, hV, hw, hq]
      · simp [Hits, hw, hq, Ne.symm hq]) fun hc => absurd hv hc
  have hview := h₁.view_setLeaf hr hvm hs (Or.inl hV)
  have hne' : pa ≠ s.table := h.slot_ne hr hs (by rw [hkind]; rfl)
  have hsees : (incref k pa).mem pa = (view k roots).sees old v := by
    rw [view_sees hold_mem hv (by rw [hleafold]; exact hold), hleafold]; rfl
  have hview' : view (incref k pa) roots = view k roots := rfl
  rw [if_pos ⟨hv, hV⟩, hw, setWord_of_ne hne', hsees, hview'] at hview
  have hframe : ∀ p ∈ held, p ∈ held →
      setWord k.mem s.table s.idx (pa2pte pa ||| perm ||| pteV) p = k.mem p := fun p hp _ =>
    setWord_of_ne (h.slot_ne hr hs (by rw [((h.held_iff p).mp hp).2]; rfl)) _ _ _
  have hshared : sharedPte ((view k roots).pte old v) = pa2pte pa ||| perm ||| pteV := by
    rw [sharedPte, hperm]
  have hedit := Edits.one (V := view k roots) (e := .share old r v) ⟨hv, hpte, hW, hne, hroot⟩
  rw [View.edit, if_pos hold, hshared, hw, hU, ← hview] at hedit
  rw [incref_mapPte, mapPte]
  by_cases hUp : has perm pteU
  · rw [if_pos hUp] at hedit ⊢
    obtain ⟨h₃, hview₃⟩ := h₂.record (r := r) (v := v) hkind
    exact ⟨⟨bs, _, h₃⟩, by rw [hview₃]; exact hedit, fun p hp hp' => by
      rw [recordRmap_mem]; exact hframe p hp hp', by rw [recordRmap_mem]; exact h.keeps_slot hr hs _⟩
  · rw [if_neg hUp] at hedit ⊢
    exact ⟨⟨bs, _, h₂⟩, hedit, hframe, h.keeps_slot hr hs _⟩

/-- Writing to a page that is not free commutes with `kfree`. -/
theorem PutPage.setWord {t : Nat} (h : PutPage k k' bs bs' pa) (ht : t % pgSize = 0)
    (hf : ¬ FreePage bs' t) (i : Fin 512) (w : Word) :
    PutPage { k with mem := MiniOS.setWord k.mem t i w } { k' with mem := MiniOS.setWord k'.mem t i w }
      bs bs' pa := by
  refine ⟨h.rep.congr rfl fun q hq => ?_, h.free_iff, h.ref, h.rmap, h.lock, fun q ha hq => ?_⟩
  · exact setWord_of_ne (by rintro rfl; exact hf hq) _ _ _
  · by_cases hqt : q = t
    · subst hqt
      simp only [MiniOS.setWord, update_self, h.frame q ha hq]
    · simp only [setWord_of_ne hqt, h.frame q ha hq]

section entry
variable (ρ) {r v : Nat} {s : PteRef} (h : Ok k roots held) (hr : r ∈ roots) (hv : v < userVpn)
  (hs : pteSlot k.mem r (v * pgSize) = some s) (hold : has (k.mem s.table s.idx) pteV)
include h hr hv hs hold

section
omit [KernelImage] h

theorem pte_of_valid : (view k roots).pte r v = k.mem s.table s.idx := by
  have hvm : v < maxVpn := by simp only [userVpn, maxVpn] at *; omega
  rw [pte_of_slot hr hvm hs, if_pos hold]

theorem uses_slot : (view k roots).Uses r v (pte2pa (k.mem s.table s.idx)) := by
  rw [View.Uses, pte_of_valid hr hv hs hold]
  exact ⟨hv, hold, rfl⟩

end

omit hv hold in
theorem Ok.frame_slot (w : Word) : ∀ p ∈ held, p ∈ held → setWord k.mem s.table s.idx w p = k.mem p := by
  obtain ⟨bs, kind, h⟩ := h
  exact fun p hp _ => setWord_of_ne (h.slot_ne hr hs (by rw [((h.held_iff p).mp hp).2]; rfl)) _ _ _

/-- The parent's side of `uvmcopy`. -/
theorem Ok.cow :
    Does ρ k roots held [.cow r v]
      (if has (k.mem s.table s.idx) pteW then
        { k with
          mem := setWord k.mem s.table s.idx
            (pa2pte (pte2pa (k.mem s.table s.idx)) ||| cowFlags (pteFlags (k.mem s.table s.idx))) }
      else k) roots held := by
  have hpte := pte_of_valid hr hv hs hold
  have hframe := h.frame_slot hr hs
  have hedit := Edits.one (V := view k roots) (e := .cow r v) hv
  rw [View.edit, hpte] at hedit
  by_cases hW : has (k.mem s.table s.idx) pteW
  · obtain ⟨bs, kind, h⟩ := h
    obtain ⟨h', hview⟩ := h.setPte (w := cowedPte (k.mem s.table s.idx)) hr hv hs hold
      (by rw [(has_cowedPte _).2.1]; exact hold) (pte2pa_cowedPte _)
    rw [cowedPte, if_pos hW] at h' hview hedit
    rw [if_pos hW]
    exact ⟨⟨bs, kind, h'⟩, by rw [hview]; exact hedit, hframe _, h.keeps_slot hr hs _⟩
  · rw [cowedPte, if_neg hW, ← hpte, View.setPte_self] at hedit
    rw [if_neg hW]
    exact ⟨h, hedit, fun _ _ _ => rfl, Keeps.refl ρ _ _⟩

/-- `uvmclear`. -/
theorem Ok.clear (hsole : (view k roots).Sole r v (pte2pa (k.mem s.table s.idx))) :
    Does ρ k roots held [.clear r v]
      { k with mem := setWord k.mem s.table s.idx (k.mem s.table s.idx &&& ~~~pteU) } roots held := by
  have hpte := pte_of_valid hr hv hs hold
  have hframe := h.frame_slot hr hs
  have hedit := Edits.one (V := view k roots) (e := .clear r v)
    ⟨hv, by rw [hpte]; exact hold, by rw [hpte]; exact hsole⟩
  rw [View.edit, hpte] at hedit
  obtain ⟨bs, kind, h⟩ := h
  obtain ⟨h', hview⟩ := h.setPte (w := k.mem s.table s.idx &&& ~~~pteU) hr hv hs hold (by simp [hold])
    (pte2pa_and_not _ toNat_pte_lt.2.2.2.2.1)
  exact ⟨⟨bs, kind, h'⟩, by rw [hview]; exact hedit, hframe _, h.keeps_slot hr hs _⟩

/-- The last user of a copy-on-write page takes it over. -/
theorem Ok.promote (hcow : has (k.mem s.table s.idx) pteCow) (hW : has (k.mem s.table s.idx) pteW = false)
    (href : getref k (pte2pa (k.mem s.table s.idx)) ≤ 1) :
    Does ρ k roots held [.promote r v]
      (recordRmap { k with mem := setWord k.mem s.table s.idx (promotedPte (k.mem s.table s.idx)) }
        (pte2pa (k.mem s.table s.idx)) r (v * pgSize)) roots held := by
  have hpte := pte_of_valid hr hv hs hold
  have hframe := h.frame_slot hr hs
  have hu := uses_slot hr hv hs hold
  have hroot := h.root_managed hr
  obtain ⟨bs, kind, h⟩ := h
  obtain ⟨hkind, hman, hcard⟩ := h.ref_user hu
  have hsole : (view k roots).Sole r v (pte2pa (k.mem s.table s.idx)) := by
    rw [h.sole_iff hu]
    have := Finset.card_pos.mpr ⟨_, uses_view.mp hu⟩
    rw [getref] at href; omega
  have hedit := Edits.one (V := view k roots) (e := .promote r v)
    ⟨hv, by rw [hpte]; exact hold, by rw [hpte]; exact hcow, by rw [hpte]; exact hW, by
      rw [hpte]; exact hsole, hroot⟩
  rw [View.edit, hpte] at hedit
  obtain ⟨h', hview⟩ := h.setPte (w := promotedPte (k.mem s.table s.idx)) hr hv hs hold
    (by simp [promotedPte, hold]) (pte2pa_promotedPte _)
  obtain ⟨h'', hview'⟩ := h'.record (r := r) (v := v) hkind
  exact ⟨⟨bs, kind, h''⟩, by rw [hview', hview]; exact hedit, fun p hp hp' => by
    rw [recordRmap_mem]; exact hframe _ p hp hp', by rw [recordRmap_mem]; exact h.keeps_slot hr hs _⟩

/-- The bytes of a page that one process alone uses change. -/
theorem Ok.write (hsole : (view k roots).Sole r v (pte2pa (k.mem s.table s.idx))) (page : Page) :
    Does ρ k roots held [.write r v page]
      { k with mem := update k.mem (pte2pa (k.mem s.table s.idx)) page } roots held := by
  have hpte := pte_of_valid hr hv hs hold
  have hu := uses_slot hr hv hs hold
  obtain ⟨bs, kind, h⟩ := h
  have hkind := (h.ref_user hu).1
  have hedit := Edits.one (V := view k roots) (e := .write r v page)
    ⟨hv, by rw [hpte]; exact hold, by rw [hpte]; exact hsole⟩
  rw [View.edit, hpte] at hedit
  refine ⟨⟨bs, kind, h.writePage (Or.inl hkind) page⟩, by
    rw [h.view_writePage (Or.inl hkind)]; exact hedit, fun p hp _ => update_of_ne ?_ _ _,
    h.keeps_page (by rw [hkind]; rfl) page⟩
  rintro rfl
  rw [((h.held_iff _).mp hp).2] at hkind
  cases hkind

/-- A shared page is replaced by a copy in the page `mem`. -/
theorem Ok.copy {mem : Nat} (hmem : mem ∈ held) (hcow : has (k.mem s.table s.idx) pteCow)
    (hW : has (k.mem s.table s.idx) pteW = false)
    (href : 1 < getref k (pte2pa (k.mem s.table s.idx))) :
    ∃ n k₁, decref { k with
        mem := setWord (update k.mem mem (k.mem (pte2pa (k.mem s.table s.idx))))
          s.table s.idx (copiedPte mem) } (pte2pa (k.mem s.table s.idx)) = some (n, k₁) ∧
      Does ρ k roots held [.copy r v mem] (recordRmap k₁ mem r (v * pgSize)) roots (held.erase mem) ∧
      nfree k₁ = nfree k := by
  have hpte := pte_of_valid hr hv hs hold
  have hu := uses_slot hr hv hs hold
  have hfresh := h.fresh hmem
  have hroot := h.root_managed hr
  obtain ⟨bs, kind, h⟩ := h
  have hvm : v < maxVpn := by simp only [userVpn, maxVpn] at *; omega
  obtain ⟨hkind, hman, hcard⟩ := h.ref_user hu
  obtain ⟨hmanm, hkindm⟩ := (h.held_iff mem).mp hmem
  set pa := pte2pa (k.mem s.table s.idx) with hpa
  have hpm : pa ≠ mem := by intro he; rw [he, hkindm] at hkind; cases hkind
  have hms : mem ≠ s.table := h.slot_ne hr hs (by rw [hkindm]; rfl)
  have hw : pte2pa (copiedPte mem) = mem := pte2pa_copiedPte (managed_lt hmanm) hmanm.1
  have hV : has (copiedPte mem) pteV := by simp [copiedPte]
  -- the copy is filled while the kernel still holds it
  have hs₁ : pteSlot (update k.mem mem (k.mem pa)) r (v * pgSize) = some s := by
    refine (h.tree.slot_congr (fun p r' path hp _ => update_of_ne ?_ _ _) hr _).trans hs
    rintro rfl
    rw [hkindm] at hp; cases hp
  have h₁ := h.writePage (Or.inr hkindm) (k.mem pa)
  have hview₁ := h.view_writeHeld hkindm (k.mem pa)
  have hleaf₁ : leafPte (update k.mem mem (k.mem pa)) r v = k.mem s.table s.idx := by
    rw [← view_pte (k := { k with mem := update k.mem mem (k.mem pa) }) hr hvm, hview₁, hpte]
  have h₂ := h₁.toUser hmem
  have hkind₂ : update kind mem .user pa = .user := by rw [update_of_ne hpm, hkind]
  -- the entry leaves a loose reference to the old page
  have h₃ := h₂.setLeaf hr hvm hs₁ (Or.inl hV) (fun q => if q = pa then 1 else 0)
    (fun _ _ => by rw [hw]; exact update_self _ _ _) (fun _ q => by
      simp only [hleaf₁, Hits, hV, hw, hold, ← hpa, true_and]
      by_cases hq : q = mem
      · subst hq; simp [hpm, Ne.symm hpm]
      · rw [update_of_ne hq]
        simp [Ne.symm hq, eq_comm]) fun hc => absurd hv hc
  have hview₃ := h₂.view_setLeaf hr hvm hs₁ (Or.inl hV)
  have hsees : (view k roots).sees r v = k.mem pa := by
    rw [view_sees hr hv (by rw [← view_pte hr hvm, hpte]; exact hold), ← view_pte hr hvm, hpte]
  have hcopy : setWord (update k.mem mem (k.mem pa)) s.table s.idx (copiedPte mem) mem =
      (view k roots).sees r v := by rw [setWord_of_ne hms, update_self, hsees]
  rw [if_pos ⟨hv, hV⟩, hw, hcopy, hview₁] at hview₃
  have hcard₃ := h₃.ref pa hman
  simp only [hkind₂, Kind.refs, if_true] at hcard₃
  have hcnt : getref k pa = k.refCount (pa2idx pa) := rfl
  have hcnt₃ : k.refCount (pa2idx pa) = (users (setWord (update k.mem mem (k.mem pa))
    s.table s.idx (copiedPte mem)) roots pa).card + 1 := hcard₃
  have h₄ := h₃.setLoose (c := k.refCount (pa2idx pa) - 1) (fun _ => 0) hkind₂
    (by simp only; omega) (by omega) fun q hq => by simp [hq]
  obtain ⟨h₅, hview₅⟩ := h₄.record (r := r) (v := v) (update_self mem _ _)
  refine ⟨k.refCount (pa2idx pa) - 1, _, ?_, ⟨⟨bs, _, h₅⟩, ?_, fun p hp hp' => ?_, ?_⟩, ?_⟩
  · rw [decref, if_neg (by simp only; omega)]
  · have hnotsole : ¬ (view k roots).Sole r v pa := by rw [h.sole_iff hu]; omega
    have hedit := Edits.one (V := view k roots) (e := .copy r v mem)
      ⟨hv, by rw [hpte]; exact hold, by rw [hpte]; exact hcow, by rw [hpte]; exact hW, by
        rw [hpte]; exact hnotsole, hmanm, hfresh, hroot⟩
    rw [View.edit, View.setPte, ← hview₃] at hedit
    rw [hview₅]
    refine Eq.mpr (congrArg (fun V => Edits _ _ (View.record V _ _ _)) (view_eq ?_ ?_)) hedit <;> rfl
  · have hkindp := ((h.held_iff p).mp hp).2
    rw [recordRmap_mem]
    simp only
    rw [setWord_of_ne (h.slot_ne hr hs (by rw [hkindp]; rfl)),
      update_of_ne (Finset.ne_of_mem_erase hp')]
  · rw [recordRmap_mem]
    exact (h.keeps_page (by rw [hkindm]; rfl) _).trans (h₁.keeps_slot hr hs₁ _)
  · have hrefs : ∀ k₁ : Kmem, k₁.refCount = update k.refCount (pa2idx pa)
        (k.refCount (pa2idx pa) - 1) → nfree k₁ = nfree k := fun _ hk =>
      nfree_keep hk (by omega) (by omega)
    exact hrefs _ rfl

/-- `uvmunmap` of a mapped page, which is freed with its last entry. -/
theorem Ok.unmap :
    ∃ k₁, kfree k (pte2pa (k.mem s.table s.idx)) = some k₁ ∧
      Does ρ k roots held [.unmap r v] { k₁ with mem := setWord k₁.mem s.table s.idx 0 } roots held := by
  have hpte := pte_of_valid hr hv hs hold
  have hu := uses_slot hr hv hs hold
  have hframe := h.frame_slot hr hs
  obtain ⟨bs, kind, h⟩ := h
  have hvm : v < maxVpn := by simp only [userVpn, maxVpn] at *; omega
  obtain ⟨hkind, hman, hcard⟩ := h.ref_user hu
  have hpos : 0 < (users k.mem roots (pte2pa (k.mem s.table s.idx))).card :=
    Finset.card_pos.mpr ⟨_, uses_view.mp hu⟩
  set pa := pte2pa (k.mem s.table s.idx) with hpa
  have hleaf : leafPte k.mem r v = k.mem s.table s.idx := by rw [← view_pte hr hvm, hpte]
  -- clearing the entry first leaves a loose reference
  have h₁ := h.setLeaf hr hvm hs (Or.inr rfl) (fun q => if q = pa then 1 else 0)
    (fun hc => absurd hc (by simp)) (fun _ q => by
      simp [hleaf, Hits, hold, ← hpa, eq_comm]) fun hc => absurd hv hc
  have hview₁ := h.view_setLeaf hr hvm hs (Or.inr rfl)
  rw [if_neg fun hc => absurd hc.2 (by simp)] at hview₁
  have hcard₁ := h₁.ref pa hman
  simp only [hkind, Kind.refs, if_true] at hcard₁
  have hcnt₁ : k.refCount (pa2idx pa) =
      (users (setWord k.mem s.table s.idx 0) roots pa).card + 1 := hcard₁
  have hedit := Edits.one (V := view k roots) (e := .unmap r v) hv
  rw [View.edit, hpte, if_pos hold, ← hpa, ← hview₁] at hedit
  by_cases hlast : k.refCount (pa2idx pa) = 1
  · -- the page goes to the free list
    obtain ⟨k₁, bs', hk, hput⟩ := kfree_last h.rep hman hlast (h.not_free (by rw [hkind]; simp))
    have htable := (h.tree.slot hr hs).1
    have hput' := hput.setWord (t := s.table) (h.aligned (by rw [htable]; simp)) (fun hf => by
      rcases (hput.free_iff _).mp hf with hf | hf
      · exact h.not_free (by rw [htable]; simp) hf
      · rw [hf, hkind] at htable; cases htable) s.idx 0
    have hempty : users (setWord k.mem s.table s.idx 0) roots pa = ∅ := by
      rw [← Finset.card_eq_zero]; omega
    obtain ⟨h₂, hview₂⟩ := h₁.putUser hkind hempty hput'
    have hloose : update (fun q => if q = pa then 1 else 0) pa 0 = fun _ => 0 := by
      funext q
      by_cases hq : q = pa
      · rw [hq, update_self]
      · rw [update_of_ne hq, if_neg hq]
    rw [hloose] at h₂
    refine ⟨k₁, hk, ⟨bs', _, h₂⟩, ?_, fun p hp hp' => ?_,
      (h.keeps_slot hr hs 0).trans (h₁.keeps_put (by rw [hkind]; rfl) hput')⟩
    · rw [hview₂]
      rw [if_pos ((h.sole_iff hu).mpr hlast)] at hedit
      exact hedit
    · obtain ⟨hmanp, hkindp⟩ := (h.held_iff p).mp hp
      refine (hput'.frame p hmanp.1 fun hf => ?_).trans (hframe _ p hp hp')
      rcases (hput.free_iff p).mp hf with hf | rfl
      · exact h.not_free (by rw [hkindp]; simp) hf
      · rw [hkind] at hkindp; cases hkindp
  · -- the others keep it
    have hk := kfree_shared hman (k := k) (by rw [getref]; omega)
    have h₂ := h₁.setLoose (c := k.refCount (pa2idx pa) - 1) (fun _ => 0) hkind
      (by simp only; omega) (by omega) fun q hq => by simp [hq]
    refine ⟨_, hk, ⟨bs, _, h₂⟩, ?_, hframe _, h.keeps_slot hr hs 0⟩
    rw [if_neg (by rw [h.sole_iff hu]; exact hlast)] at hedit
    exact hedit

end entry

/-! ## page tables -/

variable (ρ) in
/-- A zeroed page becomes a page table. -/
theorem Ok.addRoot (h : Ok k roots held) (hp : p ∈ held) (hzero : k.mem p = zeroPage) :
    Does ρ k roots held [] k (insert p roots) (held.erase p) := by
  obtain ⟨bs, kind, h⟩ := h
  obtain ⟨h', hview⟩ := h.addRoot hp hzero
  exact Does.of_view ⟨bs, _, h'⟩ hview (fun _ _ _ => rfl)
    (h.tree.keeps (fun _ hr _ => Finset.mem_insert_of_mem hr) fun _ _ _ _ _ _ => rfl)

variable (ρ) in
/-- A mapping of the kernel is removed. -/
theorem Ok.kunmap (h : Ok k roots held) (hr : r ∈ roots)
    (hs : pteSlot k.mem r (v * pgSize) = some s) (hv : v < maxVpn) (hv' : userVpn ≤ v) :
    Does ρ k roots held [.kmap r v 0] { k with mem := setWord k.mem s.table s.idx 0 } roots held := by
  have hframe := h.frame_slot hr hs
  obtain ⟨bs, kind, h⟩ := h
  have h₁ := h.setLeaf hr hv hs (Or.inr rfl) (fun _ => 0) (fun hc => absurd hc (by simp))
    (fun hc => by omega) fun _ => rfl
  have hview := h.view_setLeaf hr hv hs (Or.inr rfl)
  rw [if_neg fun hc => absurd hc.2 (by simp)] at hview
  exact ⟨⟨bs, _, h₁⟩, by
    rw [hview]; exact Edits.one (V := view k roots) (e := .kmap r v 0) ⟨hv', Or.inr rfl⟩, hframe _,
    h.keeps_slot hr hs 0⟩

end

end

end MiniOS
