import MiniOS.View
import Mathlib.Data.Finset.Card

/-!
# MiniOS.Frames

Ownership of physical pages.  `Typed k roots held ..` says that memory is
divided without overlap into the free list, the page tables `roots`, the
pages `held` by the rest of the kernel, and user pages, and that every
reference count is exact.  While a kernel function is at work it may own
references that no entry stands for yet, or no longer; they are `loose`.

Each lemma here is one elementary change of ownership.  The functions of
`vm.c` are sequences of these changes, and what they do to the processes is
read off the `View`: the valid entries of all page tables, the page behind
each user entry, and the reverse map.
-/

namespace MiniOS

open Extents
open Function (update update_self update_of_ne update_eq_self update_apply)

/-! ## users of a page -/

/-- The user entries that point to the page `q`. -/
def users (m : Mem) (roots : Finset Nat) (q : Nat) : Finset (Nat × Nat) :=
  (roots ×ˢ Finset.range userVpn).filter fun rv => Hits (leafPte m rv.1 rv.2) q

theorem mem_users {m : Mem} {roots : Finset Nat} {q r v : Nat} :
    (r, v) ∈ users m roots q ↔ (r ∈ roots ∧ v < userVpn) ∧ Hits (leafPte m r v) q := by
  simp only [users, Finset.mem_filter, Finset.mem_product, Finset.mem_range]

theorem users_congr {m m' : Mem} {roots : Finset Nat}
    (h : ∀ r ∈ roots, ∀ v < userVpn, leafPte m' r v = leafPte m r v) (q : Nat) :
    users m' roots q = users m roots q := by
  ext ⟨r, v⟩
  rw [mem_users, mem_users]
  exact and_congr_right fun hrv => by rw [h r hrv.1 v hrv.2]

/-- Changing one entry moves one user from the old page to the new one. -/
theorem card_users_set {m : Mem} (m' : Mem) {roots : Finset Nat} {r v : Nat} {w : Word} (hr : r ∈ roots)
    (hv : v < userVpn)
    (h : ∀ r' ∈ roots, ∀ v' < userVpn,
      leafPte m' r' v' = if r' = r ∧ v' = v then w else leafPte m r' v') (q : Nat) :
    (users m' roots q).card + (if Hits (leafPte m r v) q then 1 else 0) =
      (users m roots q).card + if Hits w q then 1 else 0 := by
  have herase : (users m' roots q).erase (r, v) = (users m roots q).erase (r, v) := by
    ext ⟨r', v'⟩
    simp only [Finset.mem_erase, mem_users]
    refine and_congr_right fun hne => and_congr_right fun hrv => ?_
    rw [h r' hrv.1 v' hrv.2, if_neg fun he => hne (by rw [he.1, he.2])]
  have hcard : ∀ {m : Mem}, (users m roots q).card =
      ((users m roots q).erase (r, v)).card + if Hits (leafPte m r v) q then 1 else 0 := by
    intro m
    by_cases hh : Hits (leafPte m r v) q
    · rw [if_pos hh]
      exact (Finset.card_erase_add_one (mem_users.mpr ⟨⟨hr, hv⟩, hh⟩)).symm
    · rw [if_neg hh, Finset.erase_eq_of_notMem fun hm => hh (mem_users.mp hm).2]
      rfl
  have hnew : leafPte m' r v = w := by rw [h r hr v hv, if_pos ⟨rfl, rfl⟩]
  rw [hcard (m := m'), hcard (m := m), herase, hnew]
  omega

/-! ## ownership -/

/-- The count of a page of a kind, given its users and loose references. -/
def Kind.refs : Kind → Nat → Nat
  | .free, _ => 0
  | .user, n => n
  | _, _ => 1

/-- The view of a memory with the page tables `roots`. -/
def view (k : Kmem) (roots : Finset Nat) : View where
  pte r v := if r ∈ roots ∧ v < maxVpn then leafPte k.mem r v else 0
  sees r v :=
    if (r ∈ roots ∧ v < userVpn) ∧ has (leafPte k.mem r v) pteV then
      k.mem (pte2pa (leafPte k.mem r v))
    else zeroPage
  rmap := k.reverseMap

theorem view_pte {k : Kmem} {roots : Finset Nat} {r v : Nat} (hr : r ∈ roots) (hv : v < maxVpn) :
    (view k roots).pte r v = leafPte k.mem r v := if_pos ⟨hr, hv⟩

theorem view_sees {k : Kmem} {roots : Finset Nat} {r v : Nat} (hr : r ∈ roots) (hv : v < userVpn)
    (hV : has (leafPte k.mem r v) pteV) :
    (view k roots).sees r v = k.mem (pte2pa (leafPte k.mem r v)) := if_pos ⟨⟨hr, hv⟩, hV⟩

theorem view_sees_invalid {k : Kmem} {roots : Finset Nat} {r v : Nat}
    (hV : has (leafPte k.mem r v) pteV = false) : (view k roots).sees r v = zeroPage :=
  if_neg fun h => by rw [hV] at h; exact absurd h.2 (by decide)

section
variable [KernelImage]

/-- Memory is divided into free pages, page tables, held pages and user
pages, and all counts are exact. -/
structure Typed (k : Kmem) (bs : List Block) (roots held : Finset Nat) (kind : Nat → Kind)
    (loose : Nat → Nat) : Prop where
  rep : FreeRep k bs
  tree : Tree k.mem roots kind
  free_iff : ∀ p, kind p = .free ↔ FreePage bs p
  managed : ∀ p, kind p ≠ .held → Managed p
  held_iff : ∀ p, p ∈ held ↔ Managed p ∧ kind p = .held
  ref : ∀ p, Managed p → getref k p = (kind p).refs ((users k.mem roots p).card + loose p)
  pos : ∀ p, kind p = .user → 0 < (users k.mem roots p).card + loose p
  out : ∀ x, ¬ Managed (x * pgSize) → k.refCount x = 0
  rmap : ∀ p, Managed p → kind p ≠ .user → k.reverseMap (rmapIdx p) = noRmap

/-- The kernel owns the page tables `roots` and the pages `held`. -/
def Ok (k : Kmem) (roots held : Finset Nat) : Prop :=
  ∃ bs kind, Typed k bs roots held kind fun _ => 0

section
variable {k k' : Kmem} {bs bs' : List Block} {roots held : Finset Nat} {kind : Nat → Kind}
  {loose : Nat → Nat}

variable {r p pa : Nat}

section
variable (h : Typed k bs roots held kind loose)
include h

theorem Typed.leaf_user {v : Nat} (hr : r ∈ roots)
    (hv : v < userVpn) (hV : has (leafPte k.mem r v) pteV) :
    kind (pte2pa (leafPte k.mem r v)) = .user := by
  rw [has_leafPte] at hV
  rw [leafPte_of_valid hV]
  exact h.tree.user hr hv hV

theorem Typed.aligned (hp : kind p ≠ .held) :
    p % pgSize = 0 := (h.managed p hp).1

theorem Typed.not_free (hp : kind p ≠ .free) :
    ¬ FreePage bs p := fun hf => hp ((h.free_iff p).mpr hf)

/-- A page without user entries. -/
theorem Typed.users_empty (hp : kind p ≠ .user) :
    users k.mem roots p = ∅ := by
  ext ⟨r, v⟩
  simp only [Finset.notMem_empty, iff_false, mem_users]
  rintro ⟨⟨hr, hv⟩, hV, rfl⟩
  exact hp (h.leaf_user hr hv hV)

/-- The view depends on the tables, the user pages and the reverse map. -/
theorem Typed.view_congr (hpte : ∀ r ∈ roots, ∀ v < maxVpn, leafPte k'.mem r v = leafPte k.mem r v)
    (huser : ∀ p, kind p = .user → k'.mem p = k.mem p)
    (hrmap : k'.reverseMap = k.reverseMap) : view k' roots = view k roots := by
  ext1
  · funext r v
    simp only [view]
    split
    next hrv => exact hpte r hrv.1 v hrv.2
    next => rfl
  · funext r v
    simp only [view]
    by_cases hrv : r ∈ roots ∧ v < userVpn
    · rw [hpte r hrv.1 v (by have := hrv.2; simp only [userVpn, maxVpn] at *; omega)]
      by_cases hV : has (leafPte k.mem r v) pteV
      · rw [if_pos ⟨hrv, hV⟩, if_pos ⟨hrv, hV⟩, huser _ (h.leaf_user hrv.1 hrv.2 hV)]
      · rw [if_neg fun hc => hV hc.2, if_neg fun hc => hV hc.2]
    · rw [if_neg fun hc => hrv hc.1, if_neg fun hc => hrv hc.1]
  · exact hrmap

end

/-! ## changing the use of a page -/

theorem getref_of_update {c : Nat} (hpa : Managed pa)
    (hk : k'.refCount = update k.refCount (pa2idx pa) c) (hp : Managed p) :
    getref k' p = if p = pa then c else getref k p := by
  unfold getref
  rw [hk]
  by_cases h : p = pa
  · rw [h, update_self, if_pos rfl]
  · rw [update_of_ne (pa2idx_ne hp.1 hpa.1 h), if_neg h]

theorem out_of_update {c : Nat} (hpa : Managed pa)
    (hk : k'.refCount = update k.refCount (pa2idx pa) c)
    (hout : ∀ x, ¬ Managed (x * pgSize) → k.refCount x = 0) (x : Nat)
    (hx : ¬ Managed (x * pgSize)) : k'.refCount x = 0 := by
  rw [hk, update_of_ne, hout x hx]
  rintro rfl
  rw [show pa2idx pa * pgSize = pa from managed_div hpa] at hx
  exact hx hpa

section
variable (h : Typed k bs roots held kind loose)
include h

/-- A page to which no user entry points takes another use outside the page
tables. -/
theorem Typed.retype {κ : Kind} {loose' : Nat → Nat} {held' : Finset Nat}
    (hman : Managed p) (hp : (kind p).isTable = false)
    (hκ : κ.isTable = false) (hempty : users k.mem roots p = ∅) (hrep : FreeRep k' bs')
    (hfree : ∀ q, FreePage bs' q ↔ if q = p then κ = .free else FreePage bs q)
    (hheld : ∀ q, q ∈ held' ↔ if q = p then κ = .held else q ∈ held)
    (htab : ∀ q, (kind q).isTable → k'.mem q = k.mem q)
    (href : k'.refCount = update k.refCount (pa2idx p) (κ.refs (loose' p)))
    (hloose : ∀ q, q ≠ p → loose' q = loose q) (hpos : κ = .user → 0 < loose' p)
    (hrmap : ∀ q, Managed q → q ≠ p → k'.reverseMap (rmapIdx q) = k.reverseMap (rmapIdx q))
    (hrmapp : κ ≠ .user → k'.reverseMap (rmapIdx p) = noRmap) :
    Typed k' bs' roots held' (update kind p κ) loose' := by
  have hat : ∀ r ∈ roots, ∀ v, pteAt k'.mem r v = pteAt k.mem r v := fun r hr v =>
    h.tree.pteAt_congr htab hr v
  have husers : ∀ q, users k'.mem roots q = users k.mem roots q :=
    users_congr fun r hr v _ => by rw [leafPte, leafPte, hat r hr v]
  have hkind : ∀ q, q ≠ p → update kind p κ q = kind q := fun q hq =>
    update_of_ne hq _ _
  refine ⟨hrep, (h.tree.congr htab).retype hp hκ ?_, fun q => ?_, fun q hq => ?_, fun q => ?_,
    fun q hq => ?_, fun q hq => ?_, out_of_update hman href h.out, fun q hq hu => ?_⟩
  · intro _ r hr v hv hV hvp
    rw [hat r hr v] at hV hvp
    have hmem : (r, v) ∈ users k.mem roots p :=
      mem_users.mpr ⟨⟨hr, hv⟩, by rw [has_leafPte]; exact hV, by rw [leafPte_of_valid hV]; exact hvp⟩
    rw [hempty] at hmem
    exact absurd hmem (Finset.notMem_empty _)
  · rw [hfree]
    by_cases hqp : q = p
    · rw [hqp, update_self, if_pos rfl]
    · rw [hkind q hqp, if_neg hqp, h.free_iff]
  · by_cases hqp : q = p
    · rw [hqp]; exact hman
    · rw [hkind q hqp] at hq
      exact h.managed q hq
  · rw [hheld]
    by_cases hqp : q = p
    · rw [hqp, update_self, if_pos rfl, and_iff_right hman]
    · rw [hkind q hqp, if_neg hqp, h.held_iff]
  · rw [getref_of_update hman href hq, husers]
    by_cases hqp : q = p
    · rw [hqp, update_self, if_pos rfl, hempty, Finset.card_empty, Nat.zero_add]
    · rw [hkind q hqp, if_neg hqp, hloose q hqp]
      exact h.ref q hq
  · rw [husers]
    by_cases hqp : q = p
    · rw [hqp, update_self] at hq
      have := hpos hq
      rw [hqp]; omega
    · rw [hkind q hqp] at hq
      rw [hloose q hqp]
      exact h.pos q hq
  · by_cases hqp : q = p
    · rw [hqp, update_self] at hu
      rw [hqp]; exact hrmapp hu
    · rw [hkind q hqp] at hu
      rw [hrmap q hq hqp]
      exact h.rmap q hq hu

/-- Tables and pages of users stay. -/
theorem Typed.frame (hmem : ∀ q, kind q ≠ .held → kind q ≠ .free → k'.mem q = k.mem q)
    (hrmap : k'.reverseMap = k.reverseMap) :
    (∀ q, (kind q).isTable → k'.mem q = k.mem q) ∧ view k' roots = view k roots := by
  have htab : ∀ q, (kind q).isTable → k'.mem q = k.mem q := fun q hq =>
    hmem q (by rintro he; rw [he] at hq; cases hq) (by rintro he; rw [he] at hq; cases hq)
  refine ⟨htab, h.view_congr (fun r hr v _ => ?_) (fun q hq => ?_) hrmap⟩
  · rw [leafPte, leafPte, h.tree.pteAt_congr htab hr]
  · exact hmem q (by rw [hq]; simp) (by rw [hq]; simp)

/-- `kalloc`: a free page becomes a held one. -/
theorem Typed.got (hg : GotPage k k' bs bs' pa) :
    Typed k' bs' roots (insert pa held) (update kind pa .held) loose ∧
      view k' roots = view k roots ∧ pa ∉ held ∧ kind pa = .free := by
  have hfree : kind pa = .free := (h.free_iff pa).mpr hg.was_free
  obtain ⟨htab, hview⟩ := h.frame (fun q hq hq' => hg.frame q (h.aligned hq) (h.not_free hq')) hg.rmap
  have hnotheld : pa ∉ held := fun hm => by
    have := ((h.held_iff pa).mp hm).2
    rw [hfree] at this; cases this
  refine ⟨?_, hview, hnotheld, hfree⟩
  refine h.retype hg.managed (by rw [hfree]; rfl) rfl (h.users_empty (by rw [hfree]; simp)) hg.rep
    (fun q => ?_) (fun q => ?_) htab hg.ref (fun _ _ => rfl) (by simp)
    (fun q _ _ => by rw [hg.rmap]) fun _ => ?_
  · rw [hg.free_iff]
    by_cases hq : q = pa <;> simp [hq]
  · by_cases hq : q = pa <;> simp [hq]
  · rw [hg.rmap]
    exact h.rmap pa hg.managed (by rw [hfree]; simp)

/-- `kfree` of a held page. -/
theorem Typed.put (hpa : pa ∈ held)
    (hput : PutPage k k' bs bs' pa) :
    Typed k' bs' roots (held.erase pa) (update kind pa .free) loose ∧
      view k' roots = view k roots := by
  obtain ⟨hman, hkind⟩ := (h.held_iff pa).mp hpa
  have hrmap : k'.reverseMap = k.reverseMap := by
    rw [hput.rmap, ← h.rmap pa hman (by rw [hkind]; simp), update_eq_self]
  obtain ⟨htab, hview⟩ := h.frame (fun q hq hq' => by
    refine hput.frame q (h.aligned hq) fun hf => ?_
    rcases (hput.free_iff q).mp hf with hf | rfl
    · exact h.not_free hq' hf
    · exact hq hkind) hrmap
  refine ⟨?_, hview⟩
  refine h.retype hman (by rw [hkind]; rfl) rfl (h.users_empty (by rw [hkind]; simp)) hput.rep
    (fun q => ?_) (fun q => ?_) htab hput.ref (fun _ _ => rfl) (by simp)
    (fun q _ _ => by rw [hrmap]) fun _ => ?_
  · rw [hput.free_iff]
    by_cases hq : q = pa <;> simp [hq]
  · by_cases hq : q = pa <;> simp [hq]
  · rw [hrmap]
    exact h.rmap pa hman (by rw [hkind]; simp)

theorem Typed.ref_held (hpa : pa ∈ held) :
    k.refCount (pa2idx pa) = 1 := by
  obtain ⟨hman, hkind⟩ := (h.held_iff pa).mp hpa
  have := h.ref pa hman
  rwa [hkind] at this

/-- A held page becomes a user page that no entry points to yet. -/
theorem Typed.toUser (hpa : pa ∈ held) :
    Typed k bs roots (held.erase pa) (update kind pa .user)
      (update loose pa 1) := by
  obtain ⟨hman, hkind⟩ := (h.held_iff pa).mp hpa
  refine h.retype hman (by rw [hkind]; rfl) rfl (h.users_empty (by rw [hkind]; nofun)) h.rep
    (fun q => ?_) (fun q => ?_) (fun _ _ => rfl) ?_ (fun q hq => update_of_ne hq _ _)
    (fun _ => by rw [update_self]; decide) (fun _ _ _ => rfl) fun hne => absurd rfl hne
  · by_cases hq : q = pa
    · rw [hq, if_pos rfl, ← h.free_iff, hkind]
      simp
    · rw [if_neg hq]
  · by_cases hq : q = pa <;> simp [hq]
  · rw [update_self]
    exact (Function.update_eq_self_iff.mpr (h.ref_held hpa).symm).symm

end

omit [KernelImage] in
theorem rmapIdx_ne {q : Nat} (hp : p % pgSize = 0) (hq : q % pgSize = 0) (hp' : kernBase ≤ p)
    (hq' : kernBase ≤ q) (h : p ≠ q) : rmapIdx p ≠ rmapIdx q := by
  simp only [rmapIdx, pgSize, kernBase] at *; omega

/-- `kfree` of a user page that no entry points to any more. -/
theorem Typed.putUser (h : Typed k bs roots held kind loose) (hkind : kind pa = .user)
    (hempty : users k.mem roots pa = ∅) (hput : PutPage k k' bs bs' pa) :
    Typed k' bs' roots held (update kind pa .free) (update loose pa 0) ∧
      view k' roots = { view k roots with
        rmap := update (view k roots).rmap (rmapIdx pa) noRmap } := by
  have hman : Managed pa := h.managed pa (by rw [hkind]; simp)
  have hmem : ∀ q, q ≠ pa → kind q ≠ .held → kind q ≠ .free → k'.mem q = k.mem q :=
    fun q hqp hq hq' => by
      refine hput.frame q (h.aligned hq) fun hf => ?_
      rcases (hput.free_iff q).mp hf with hf | rfl
      · exact h.not_free hq' hf
      · exact hqp rfl
  have htab : ∀ q, (kind q).isTable → k'.mem q = k.mem q := fun q hq =>
    hmem q (by rintro rfl; rw [hkind] at hq; cases hq) (by rintro he; rw [he] at hq; cases hq)
      (by rintro he; rw [he] at hq; cases hq)
  refine ⟨?_, ?_⟩
  · refine h.retype hman (by rw [hkind]; rfl) rfl hempty hput.rep
      (fun q => ?_) (fun q => ?_) htab hput.ref (fun q hq => update_of_ne hq _ _) (by simp)
      (fun q hq hqp => ?_) fun _ => ?_
    · rw [hput.free_iff]
      by_cases hq : q = pa <;> simp [hq]
    · by_cases hq : q = pa
      · simp [hq, h.held_iff, hkind]
      · simp [hq]
    · rw [hput.rmap, update_of_ne]
      exact rmapIdx_ne hq.1 hman.1 (kernBase_le_of_managed hq) (kernBase_le_of_managed hman) hqp
    · rw [hput.rmap, update_self]
  · have hleaf : ∀ r ∈ roots, ∀ v, leafPte k'.mem r v = leafPte k.mem r v := fun r hr v => by
      rw [leafPte, leafPte, h.tree.pteAt_congr htab hr]
    ext1
    · funext r v
      simp only [view]
      split
      next hrv => exact hleaf r hrv.1 v
      next => rfl
    · funext r v
      simp only [view]
      by_cases hrv : r ∈ roots ∧ v < userVpn
      · rw [hleaf r hrv.1 v]
        by_cases hV : has (leafPte k.mem r v) pteV
        · have hk := h.leaf_user hrv.1 hrv.2 hV
          have hne : pte2pa (leafPte k.mem r v) ≠ pa := by
            intro he
            have hm : (r, v) ∈ users k.mem roots pa := mem_users.mpr ⟨hrv, hV, he⟩
            rw [hempty] at hm
            exact absurd hm (Finset.notMem_empty _)
          rw [if_pos ⟨hrv, hV⟩, if_pos ⟨hrv, hV⟩,
            hmem _ hne (by rw [hk]; simp) (by rw [hk]; simp)]
        · rw [if_neg fun hc => hV hc.2, if_neg fun hc => hV hc.2]
      · rw [if_neg fun hc => hrv hc.1, if_neg fun hc => hrv hc.1]
    · exact hput.rmap

/-- `incref`, `decref` and the `kfree` of a shared page: a loose reference of
a user page more or less. -/
theorem Typed.setLoose {c : Nat} (loose' : Nat → Nat) (h : Typed k bs roots held kind loose)
    (hkind : kind pa = .user) (hc : c = (users k.mem roots pa).card + loose' pa) (hpos : 0 < c)
    (hloose : ∀ q, q ≠ pa → loose' q = loose q) :
    Typed { k with refCount := update k.refCount (pa2idx pa) c } bs roots held kind loose' := by
  have hman : Managed pa := h.managed pa (by rw [hkind]; nofun)
  refine ⟨h.rep.congr rfl fun _ _ => rfl, h.tree, h.free_iff, h.managed, h.held_iff, fun q hq => ?_,
    fun q hq => ?_, out_of_update hman rfl h.out, h.rmap⟩
  · rw [getref_of_update hman rfl hq]
    by_cases hqp : q = pa
    · rw [hqp, if_pos rfl, hkind]; exact hc
    · rw [if_neg hqp, hloose q hqp]; exact h.ref q hq
  · by_cases hqp : q = pa
    · rw [hqp]; simp only; omega
    · rw [hloose q hqp]; exact h.pos q hq

/-! ## entries -/

/-- A table that holds the entry of a page. -/
theorem Typed.slot (h : Typed k bs roots held kind loose) {v t : Nat} {l : Fin 512}
    (hr : r ∈ roots) (hv : v < maxVpn) (hs : pteSlot k.mem r (v * pgSize) = some ⟨t, l⟩) :
    ∃ i j, kind t = .table r [j, i] ∧ vpnOf i j l = v := by
  obtain ⟨hk, hl⟩ := h.tree.slot hr hs
  refine ⟨_, _, hk, ?_⟩
  simp only at hl
  rw [hl]
  exact vpnOf_px (by simp only [maxVpn] at hv; omega)

section setLeaf
variable {r v t : Nat} {l : Fin 512} {w : Word} (h : Typed k bs roots held kind loose)
  (hr : r ∈ roots) (hv : v < maxVpn) (hs : pteSlot k.mem r (v * pgSize) = some ⟨t, l⟩)
  (hw : has w pteV ∨ w = 0)
include h hr hv hs hw

theorem Typed.leafPte_setLeaf {r' v' : Nat} (hr' : r' ∈ roots) (hv' : v' < maxVpn) :
    leafPte (setWord k.mem t l w) r' v' = if r' = r ∧ v' = v then w else leafPte k.mem r' v' := by
  obtain ⟨i, j, hk, rfl⟩ := h.slot hr hv hs
  rw [leafPte, leafPte, h.tree.pteAt_setLeaf hk l w hr' hv']
  split
  · rcases hw with hw | rfl
    · rw [if_pos hw]
    · simp
  · rfl

/-- Writing an entry moves a reference between the entries and the loose ones. -/
theorem Typed.setLeaf (loose' : Nat → Nat)
    (huser : has w pteV → v < userVpn → kind (pte2pa w) = .user)
    (hloose : v < userVpn → ∀ q, loose' q + (if Hits w q then 1 else 0) =
      loose q + if Hits (leafPte k.mem r v) q then 1 else 0)
    (hloose' : ¬ v < userVpn → loose' = loose) :
    Typed { k with mem := setWord k.mem t l w } bs roots held kind loose' := by
  obtain ⟨i, j, hk, hvpn⟩ := h.slot hr hv hs
  have hnotfree : ¬ FreePage bs t := h.not_free (by rw [hk]; nofun)
  have hsum : ∀ q, (users (setWord k.mem t l w) roots q).card + loose' q =
      (users k.mem roots q).card + loose q := by
    intro q
    by_cases hvu : v < userVpn
    · have h1 := card_users_set (setWord k.mem t l w) hr hvu (fun r' hr' v' hv' =>
        h.leafPte_setLeaf hr hv hs hw hr' (by simp only [userVpn, maxVpn] at *; omega)) q
      have h2 := hloose hvu q
      omega
    · rw [hloose' hvu, users_congr fun r' hr' v' hv' => ?_]
      rw [h.leafPte_setLeaf hr hv hs hw hr' (by simp only [userVpn, maxVpn] at *; omega), if_neg]
      rintro ⟨-, rfl⟩
      exact hvu hv'
  refine ⟨h.rep.congr rfl fun q hq => ?_, h.tree.setLeaf hk fun hV hlt => huser hV (hvpn ▸ hlt),
    h.free_iff, h.managed, h.held_iff, fun q hq => ?_, fun q hq => ?_, h.out, h.rmap⟩
  · exact setWord_of_ne (by rintro rfl; exact hnotfree hq) _ _ _
  · simp only [hsum]; exact h.ref q hq
  · simp only [hsum]; exact h.pos q hq

theorem Typed.view_setLeaf :
    view { k with mem := setWord k.mem t l w } roots =
      (view k roots).set r v w
        (if v < userVpn ∧ has w pteV then setWord k.mem t l w (pte2pa w) else zeroPage) := by
  obtain ⟨i, j, hk, -⟩ := h.slot hr hv hs
  ext1
  · funext r' v'
    simp only [view, View.set]
    by_cases hrv : r' ∈ roots ∧ v' < maxVpn
    · rw [if_pos hrv, if_pos hrv, h.leafPte_setLeaf hr hv hs hw hrv.1 hrv.2]
    · rw [if_neg hrv, if_neg hrv, if_neg]
      rintro ⟨rfl, rfl⟩
      exact hrv ⟨hr, hv⟩
  · funext r' v'
    simp only [view, View.set]
    by_cases hrv : r' ∈ roots ∧ v' < userVpn
    · have hvm : v' < maxVpn := by have := hrv.2; simp only [userVpn, maxVpn] at *; omega
      rw [h.leafPte_setLeaf hr hv hs hw hrv.1 hvm]
      by_cases he : r' = r ∧ v' = v
      · simp only [if_pos he]
        have hvu : v < userVpn := he.2 ▸ hrv.2
        simp only [hrv, hvu, true_and, and_self]
      · simp only [if_neg he]
        by_cases hV : has (leafPte k.mem r' v') pteV
        · have hku := h.leaf_user hrv.1 hrv.2 hV
          rw [if_pos ⟨hrv, hV⟩, if_pos ⟨hrv, hV⟩, setWord_of_ne]
          rintro rfl
          rw [hk] at hku; cases hku
        · rw [if_neg fun hc => hV hc.2, if_neg fun hc => hV hc.2]
    · rw [if_neg fun hc : _ ∧ _ => hrv hc.1]
      by_cases he : r' = r ∧ v' = v
      · rw [if_pos he, if_neg]
        rintro ⟨hvu, -⟩
        exact hrv ⟨he.1 ▸ hr, he.2 ▸ hvu⟩
      · rw [if_neg he, if_neg fun hc => hrv hc.1]
  · rfl

end setLeaf

/-! ## tables -/

/-- A page of the kernel becomes a page table, or a page table any other page
of the kernel. -/
theorem Typed.rekind {κ : Kind} {roots' held' : Finset Nat}
    (h : Typed k bs roots held kind loose) (hman : Managed p) (hp : (kind p).refs = fun _ => 1)
    (hκ : κ.refs = fun _ => 1) (htree : Tree k'.mem roots' (update kind p κ))
    (hfree : ∀ q, FreePage bs q → k'.mem q = k.mem q) (hlist : k'.freelist = k.freelist)
    (href : k'.refCount = k.refCount) (hrmap : k'.reverseMap = k.reverseMap)
    (husers : ∀ q, users k'.mem roots' q = users k.mem roots q)
    (hheld : ∀ q, q ∈ held' ↔ if q = p then κ = .held else q ∈ held) :
    Typed k' bs roots' held' (update kind p κ) loose := by
  have hone : ∀ {c : Kind}, (c.refs = fun _ => 1) → c ≠ .free ∧ c ≠ .user := fun {c} hc => by
    constructor <;> rintro rfl <;> exact absurd (congrFun hc 0) (by decide)
  have hkq : ∀ q, q ≠ p → update kind p κ q = kind q := fun q hq =>
    update_of_ne hq _ _
  refine ⟨h.rep.congr hlist hfree, htree, fun q => ?_, fun q hq => ?_, fun q => ?_, fun q hq => ?_,
    fun q hq => ?_, fun x hx => by rw [href]; exact h.out x hx, fun q hq hu => ?_⟩
  · by_cases hqp : q = p
    · rw [hqp, update_self, ← h.free_iff]
      exact iff_of_false (hone hκ).1 (hone hp).1
    · rw [hkq q hqp]; exact h.free_iff q
  · by_cases hqp : q = p
    · rw [hqp]; exact hman
    · rw [hkq q hqp] at hq; exact h.managed q hq
  · rw [hheld]
    by_cases hqp : q = p
    · rw [hqp, update_self, if_pos rfl, and_iff_right hman]
    · rw [hkq q hqp, if_neg hqp, h.held_iff]
  · rw [husers, getref, href]
    by_cases hqp : q = p
    · have := h.ref p hman
      rw [hp] at this
      rw [hqp, update_self, hκ]; exact this
    · rw [hkq q hqp]; exact h.ref q hq
  · rw [husers]
    by_cases hqp : q = p
    · rw [hqp, update_self] at hq
      exact absurd hq (hone hκ).2
    · rw [hkq q hqp] at hq; exact h.pos q hq
  · rw [hrmap]
    by_cases hqp : q = p
    · rw [hqp]; exact h.rmap p hman (hone hp).2
    · rw [hkq q hqp] at hu; exact h.rmap q hq hu

/-- A zeroed held page becomes the table at an unused entry. -/
theorem Typed.addTable {d : Nat} {i : Fin 512} {path : List (Fin 512)} {w : Word}
    (h : Typed k bs roots held kind loose) (hd : kind d = .table r path) (hlen : path.length < 2)
    (hold : has (k.mem d i) pteV = false) (hp : p ∈ held) (hzero : k.mem p = zeroPage)
    (hpw : pte2pa w = p) (hV : has w pteV) (hdir : isDir w) (hi : path = [] → i.val < 256) :
    Typed { k with mem := setWord k.mem d i w } bs roots (held.erase p)
        (update kind p (.table r (i :: path))) loose ∧
      view { k with mem := setWord k.mem d i w } roots = view k roots := by
  obtain ⟨hman, hkind⟩ := (h.held_iff p).mp hp
  have hpd : p ≠ d := by rintro rfl; rw [hkind] at hd; cases hd
  have hd' : setWord k.mem d i w d = update (k.mem d) i w := setWord_self _ _ _ _
  have hp' : setWord k.mem d i w p = zeroPage := by rw [setWord_of_ne hpd, hzero]
  have hm : ∀ q, (kind q).isTable → q ≠ d → setWord k.mem d i w q = k.mem q := fun q _ hq =>
    setWord_of_ne hq _ _ _
  have hleaf : ∀ r' ∈ roots, ∀ v, leafPte (setWord k.mem d i w) r' v = leafPte k.mem r' v :=
    fun r' hr' v => by
      rw [leafPte, leafPte, h.tree.pteAt_addTable hd hlen hold hpw hd' hp' hm hr' v]
  refine ⟨h.rekind hman (by rw [hkind]; rfl) rfl
    (h.tree.addTable hd hlen hold hkind hpw hd' hp' hm hi hV hdir) (fun q hq => ?_) rfl rfl rfl
    (users_congr fun r' hr' v _ => hleaf r' hr' v) (fun q => ?_),
    h.view_congr (fun r' hr' v _ => hleaf r' hr' v) (fun q hq => ?_) rfl⟩
  · exact setWord_of_ne (by rintro rfl; exact h.not_free (by rw [hd]; simp) hq) _ _ _
  · by_cases hqp : q = p <;> simp [hqp]
  · exact setWord_of_ne (by rintro rfl; rw [hd] at hq; cases hq) _ _ _

section
omit [KernelImage]

/-- A page table that maps nothing is not seen. -/
theorem users_insert (roots : Finset Nat) (hleaf : ∀ v < maxVpn, leafPte k.mem p v = 0) (q : Nat) :
    users k.mem (insert p roots) q = users k.mem roots q := by
  ext ⟨r, v⟩
  simp only [mem_users, Finset.mem_insert]
  constructor
  · rintro ⟨⟨rfl | hr, hv⟩, hh⟩
    · rw [hleaf v (by simp only [userVpn, maxVpn] at *; omega)] at hh
      exact absurd hh.1 (by simp)
    · exact ⟨⟨hr, hv⟩, hh⟩
  · rintro ⟨⟨hr, hv⟩, hh⟩
    exact ⟨⟨Or.inr hr, hv⟩, hh⟩

theorem view_insert (roots : Finset Nat) (hleaf : ∀ v < maxVpn, leafPte k.mem p v = 0) :
    view k (insert p roots) = view k roots := by
  have hzero : ∀ v, (if v < maxVpn then leafPte k.mem p v else 0) = 0 := fun v => by
    split
    next hv => exact hleaf v hv
    next => rfl
  have hsees : ∀ v, ¬ (v < userVpn ∧ has (leafPte k.mem p v) pteV) := fun v ⟨hv, hV⟩ => by
    rw [hleaf v (by simp only [userVpn, maxVpn] at *; omega)] at hV
    exact absurd hV (by simp)
  ext1
  · funext r v
    simp only [view, Finset.mem_insert]
    by_cases hrp : r = p
    · subst hrp
      have := hzero v
      by_cases hr : r ∈ roots <;> simp_all
    · simp [hrp]
  · funext r v
    simp only [view, Finset.mem_insert]
    by_cases hrp : r = p
    · subst hrp
      rw [if_neg fun hc => hsees v ⟨hc.1.2, hc.2⟩, if_neg fun hc => hsees v ⟨hc.1.2, hc.2⟩]
    · simp [hrp]
  · rfl

end

section
variable (h : Typed k bs roots held kind loose)
include h

/-- A zeroed held page becomes an empty page table. -/
theorem Typed.addRoot (hp : p ∈ held)
    (hzero : k.mem p = zeroPage) :
    Typed k bs (insert p roots) (held.erase p) (update kind p (.table p [])) loose ∧
      view k (insert p roots) = view k roots := by
  obtain ⟨hman, hkind⟩ := (h.held_iff p).mp hp
  have hleaf : ∀ v < maxVpn, leafPte k.mem p v = 0 := fun v _ => by
    rw [leafPte, pteAt_zeroPage hzero]; simp
  refine ⟨h.rekind hman (by rw [hkind]; rfl) rfl (h.tree.addRoot hkind hzero fun _ _ => rfl)
    (fun _ _ => rfl) rfl rfl rfl (users_insert roots hleaf) (fun q => ?_), view_insert roots hleaf⟩
  by_cases hqp : q = p <;> simp [hqp]

/-- A table without valid entries is cut off from its parent. -/
theorem Typed.dropTable {d : Nat} {i : Fin 512} {path : List (Fin 512)}
    (hp : kind p = .table r (i :: path))
    (hd : kind d = .table r path) (hempty : ∀ l, has (k.mem p l) pteV = false) :
    Typed { k with mem := setWord k.mem d i 0 } bs roots (insert p held)
        (update kind p .held) loose ∧
      view { k with mem := setWord k.mem d i 0 } roots = view k roots := by
  have hman : Managed p := h.managed p (by rw [hp]; nofun)
  have hd' : setWord k.mem d i 0 d = update (k.mem d) i 0 := setWord_self _ _ _ _
  have hm : ∀ q, (kind q).isTable → q ≠ d → q ≠ p → setWord k.mem d i 0 q = k.mem q :=
    fun q _ hq _ => setWord_of_ne hq _ _ _
  have hleaf : ∀ r' ∈ roots, ∀ v, leafPte (setWord k.mem d i 0) r' v = leafPte k.mem r' v :=
    fun r' hr' v => h.tree.leafPte_dropTable hp hd hempty hd' hm hr' v
  refine ⟨h.rekind hman (by rw [hp]; rfl) rfl (h.tree.dropTable hp hd hempty hd' hm rfl)
    (fun q hq => ?_) rfl rfl rfl (users_congr fun r' hr' v _ => hleaf r' hr' v) (fun q => ?_),
    h.view_congr (fun r' hr' v _ => hleaf r' hr' v) (fun q hq => ?_) rfl⟩
  · exact setWord_of_ne (by rintro rfl; exact h.not_free (by rw [hd]; nofun) hq) _ _ _
  · by_cases hqp : q = p <;> simp [hqp]
  · exact setWord_of_ne (by rintro rfl; rw [hd] at hq; cases hq) _ _ _

/-- A root without valid entries is no longer a page table. -/
theorem Typed.dropRoot (hr : r ∈ roots)
    (hempty : ∀ l, has (k.mem r l) pteV = false) :
    Typed k bs (roots.erase r) (insert r held) (update kind r .held) loose ∧
      view k (roots.erase r) = view k roots := by
  have hkr := h.tree.kind_root hr
  have hleaf : ∀ v < maxVpn, leafPte k.mem r v = 0 := fun v _ => by
    simp [leafPte, pteAt, pteSlot, hempty]
  have hroots : insert r (roots.erase r) = roots := Finset.insert_erase hr
  have husers : ∀ q, users k.mem (roots.erase r) q = users k.mem roots q := fun q => by
    have := users_insert (roots.erase r) hleaf q
    rw [hroots] at this
    exact this.symm
  refine ⟨h.rekind (h.managed r (by rw [hkr]; simp)) (by rw [hkr]; rfl) rfl
    (h.tree.dropRoot hr hempty (fun _ _ _ => rfl) rfl).1 (fun _ _ => rfl) rfl rfl rfl husers
    (fun q => ?_), ?_⟩
  · by_cases hqp : q = r <;> simp [hqp]
  · have := view_insert (roots.erase r) hleaf
    rw [hroots] at this
    exact this.symm

end

/-! ## contents and reverse map -/

section
variable (h : Typed k bs roots held kind loose)
include h

/-- The bytes of a user page or of a held page change. -/
theorem Typed.writePage (hp : kind p = .user ∨ kind p = .held) (page : Page) :
    Typed { k with mem := update k.mem p page } bs roots held kind loose := by
  have htab : ∀ q, (kind q).isTable → update k.mem p page q = k.mem q := fun q hq =>
    update_of_ne (by rintro rfl; rcases hp with hp | hp <;> rw [hp] at hq <;> cases hq) _ _
  have husers : ∀ q, users (update k.mem p page) roots q = users k.mem roots q :=
    users_congr fun r hr v _ => by rw [leafPte, leafPte, h.tree.pteAt_congr htab hr]
  refine ⟨h.rep.congr rfl fun q hq => ?_, h.tree.congr htab, h.free_iff, h.managed, h.held_iff,
    fun q hq => ?_, fun q hq => ?_, h.out, h.rmap⟩
  · refine update_of_ne ?_ _ _
    rintro rfl
    rcases hp with hp | hp <;> exact h.not_free (by rw [hp]; simp) hq
  · simp only [husers]; exact h.ref q hq
  · simp only [husers]; exact h.pos q hq

theorem Typed.view_writePage (hp : kind p = .user ∨ kind p = .held) (page : Page) :
    view { k with mem := update k.mem p page } roots = { view k roots with
      sees := fun r v => if (view k roots).Uses r v p then page else (view k roots).sees r v } := by
  have htab : ∀ q, (kind q).isTable → update k.mem p page q = k.mem q := fun q hq =>
    update_of_ne (by rintro rfl; rcases hp with hp | hp <;> rw [hp] at hq <;> cases hq) _ _
  have hleaf : ∀ r ∈ roots, ∀ v, leafPte (update k.mem p page) r v = leafPte k.mem r v :=
    fun r hr v => by rw [leafPte, leafPte, h.tree.pteAt_congr htab hr]
  ext1
  · funext r v
    simp only [view]
    split
    next hrv => exact hleaf r hrv.1 v
    next => rfl
  · funext r v
    simp only [view, View.Uses, Hits]
    by_cases hrv : r ∈ roots ∧ v < userVpn
    · have hvm : v < maxVpn := by have := hrv.2; simp only [userVpn, maxVpn] at *; omega
      rw [hleaf r hrv.1 v]
      simp only [hrv, hvm, and_self, if_true, true_and]
      by_cases hV : has (leafPte k.mem r v) pteV
      · simp only [hV, true_and, if_true, update_apply]
      · simp [hV]
    · by_cases hv : v < userVpn
      · have hr : r ∉ roots := fun hr => hrv ⟨hr, hv⟩
        simp [hr]
      · simp [hv]
  · rfl

/-- The reverse map changes at user pages. -/
theorem Typed.setRmap {f : Nat → Rmap}
    (hf : ∀ q, Managed q → kind q ≠ .user → f (rmapIdx q) = k.reverseMap (rmapIdx q)) :
    Typed { k with reverseMap := f } bs roots held kind loose :=
  ⟨h.rep.congr rfl fun _ _ => rfl, h.tree, h.free_iff, h.managed, h.held_iff, h.ref, h.pos, h.out,
    fun q hq hu => (hf q hq hu).trans (h.rmap q hq hu)⟩

end

end

end

end MiniOS
