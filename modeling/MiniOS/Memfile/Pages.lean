import MiniOS.Kalloc.Invariant
import MiniOS.File
import Mathlib.Data.Finset.Erase

/-!
# MiniOS.Memfile.Pages

Who holds the pages of the allocator: the slots of `mftable`, each at most
one in its `data` field, and the rest of the kernel.  `Pages` says that no
page has two holders and that what is held is allocated; `NoLeak` says that
every allocated page has a holder.  The lemmas give what each call of
`file.c` and `gc.c` that moves a page does to the two.
-/

namespace MiniOS

open Function (update update_self update_of_ne update_idem)

section
variable [KernelImage]

/-- The slots have the pages `data`, other users of the allocator have `others`. -/
structure Pages (k : Kmem) (data : Fin nmemfile → Nat) (others : Finset Nat) : Prop where
  alloc : AllocInv k
  slot : ∀ m, data m ≠ 0 → Managed (data m) ∧ getref k (data m) = 1
  distinct : ∀ m m', data m ≠ 0 → data m = data m' → m = m'
  other : ∀ pa ∈ others, Managed pa ∧ 0 < getref k pa ∧ ∀ m, data m ≠ pa

/-- Every allocated page is held. -/
def NoLeak (k : Kmem) (data : Fin nmemfile → Nat) (others : Finset Nat) : Prop :=
  ∀ pa, Managed pa → 0 < getref k pa → pa ∉ others → ∃ m, data m = pa

variable {k k' : Kmem} {data : Fin nmemfile → Nat} {others : Finset Nat} {m : Fin nmemfile} {pa : Nat}

theorem getref_update {q n : Nat} (hr : k'.refCount = update k.refCount (pa2idx pa) n)
    (hp : Managed pa) (hq : Managed q) : getref k' q = if q = pa then n else getref k q := by
  rw [getref, hr]
  split
  · next h => rw [h, update_self]
  · next h => rw [update_of_ne (pa2idx_ne hq.1 hp.1 h), getref]

omit [KernelImage] in
theorem update_eq_iff {v q : Nat} (hq : q ≠ v) (m' : Fin nmemfile) :
    update data m v m' = q ↔ m' ≠ m ∧ data m' = q := by
  by_cases h : m' = m
  · subst h
    simp [hq.symm]
  · simp [h]

section
variable (h : Pages k data others)
include h

/-- The allocator's counts do not change. -/
theorem Pages.congr (hk : AllocInv k') (hr : k'.refCount = k.refCount) :
    Pages k' data others ∧ (NoLeak k' data others ↔ NoLeak k data others) := by
  have hg : ∀ q, getref k' q = getref k q := fun q => by rw [getref, hr, getref]
  refine ⟨⟨hk, fun m hm => ?_, h.distinct, fun q hq => ?_⟩, ?_⟩
  · rw [hg]
    exact h.slot m hm
  · rw [hg]
    exact h.other q hq
  · simp only [NoLeak, hg]

/-- A slot forgets its page: a page it had loses its holder. -/
theorem Pages.drop (m : Fin nmemfile) :
    Pages k (update data m 0) others ∧
      (NoLeak k (update data m 0) others ↔ NoLeak k data others ∧ data m = 0) := by
  have hkeep : ∀ m', update data m 0 m' ≠ 0 → m' ≠ m ∧ data m' = update data m 0 m' :=
    fun m' hm' => (update_eq_iff hm' m').mp rfl
  refine ⟨⟨h.alloc, fun m' hm' => ?_, fun m₁ m₂ h₁ he => ?_, fun q hq => ?_⟩, fun hn => ⟨?_, ?_⟩, ?_⟩
  · obtain ⟨-, hd⟩ := hkeep m' hm'
    rw [← hd] at hm' ⊢
    exact h.slot m' hm'
  · obtain ⟨-, hd₁⟩ := hkeep m₁ h₁
    obtain ⟨-, hd₂⟩ := hkeep m₂ (he ▸ h₁)
    exact h.distinct m₁ m₂ (hd₁ ▸ h₁) (by rw [hd₁, hd₂, he])
  · obtain ⟨hman, href, hd⟩ := h.other q hq
    exact ⟨hman, href, fun m' he => hd m' ((update_eq_iff (managed_ne_zero hman) m').mp he).2⟩
  · intro q hq href hno
    obtain ⟨m', hm'⟩ := hn q hq href hno
    exact ⟨m', ((update_eq_iff (managed_ne_zero hq) m').mp hm').2⟩
  · -- the page the slot had is allocated and nobody's
    by_contra hd
    obtain ⟨hman, href⟩ := h.slot m hd
    obtain ⟨m', hm'⟩ := hn (data m) hman (href ▸ Nat.one_pos) fun ho => (h.other _ ho).2.2 m rfl
    obtain ⟨hne, hm'⟩ := (update_eq_iff hd m').mp hm'
    exact hne (h.distinct m m' hd hm'.symm).symm
  · rintro ⟨hn, hd⟩ q hq href hno
    obtain ⟨m', hm'⟩ := hn q hq href hno
    refine ⟨m', (update_eq_iff (managed_ne_zero hq) m').mpr ⟨?_, hm'⟩⟩
    rintro rfl
    exact managed_ne_zero hq (hm'.symm.trans hd)

/-- A page with count 0 has no holder. -/
theorem Pages.unheld (hm : Managed pa) (hfree : getref k pa = 0) :
    (∀ m, data m ≠ pa) ∧ pa ∉ others := by
  refine ⟨fun m he => ?_, fun hp => ?_⟩
  · have := (h.slot m (he ▸ managed_ne_zero hm)).2
    rw [he] at this
    omega
  · have := (h.other pa hp).2.1
    omega

/-- A slot without a page takes a free one. -/
theorem Pages.fill (hd : data m = 0) (hk : AllocInv k') (hm : Managed pa)
    (hfree : getref k pa = 0) (hr : k'.refCount = update k.refCount (pa2idx pa) 1) :
    Pages k' (update data m pa) others ∧
      (NoLeak k' (update data m pa) others ↔ NoLeak k data others) := by
  obtain ⟨hnot, hother⟩ := h.unheld hm hfree
  have hself : getref k' pa = 1 := by rw [getref_update hr hm hm, if_pos rfl]
  have hsame : ∀ {q}, Managed q → q ≠ pa → getref k' q = getref k q := fun hq hne => by
    rw [getref_update hr hm hq, if_neg hne]
  refine ⟨⟨hk, fun m' hm' => ?_, fun m₁ m₂ h₁ he => ?_, fun q hq => ?_⟩, fun hn => ?_, fun hn => ?_⟩
  · by_cases hp : update data m pa m' = pa
    · rw [hp]
      exact ⟨hm, hself⟩
    · obtain ⟨-, hd'⟩ := (update_eq_iff hp m').mp rfl
      obtain ⟨hman, href⟩ := h.slot m' (hd' ▸ hm')
      rw [← hd']
      exact ⟨hman, by rw [hsame hman (hnot m'), href]⟩
  · by_cases hp : update data m pa m₁ = pa
    · have hm₁ : ∀ m', update data m pa m' = pa → m' = m := fun m' he => by
        by_contra hc
        rw [update_of_ne hc] at he
        exact hnot m' he
      rw [hm₁ m₁ hp, hm₁ m₂ (he ▸ hp)]
    · obtain ⟨-, hd₁⟩ := (update_eq_iff hp m₁).mp rfl
      obtain ⟨-, hd₂⟩ := (update_eq_iff (he ▸ hp) m₂).mp rfl
      exact h.distinct m₁ m₂ (hd₁ ▸ h₁) (by rw [hd₁, hd₂, he])
  · obtain ⟨hman, href, hd'⟩ := h.other q hq
    have hne : q ≠ pa := fun e => hother (e ▸ hq)
    exact ⟨hman, by rw [hsame hman hne]; exact href, fun m' he => hd' m' ((update_eq_iff hne m').mp he).2⟩
  · intro q hq href hno
    have hne : q ≠ pa := fun e => by rw [e] at href; omega
    obtain ⟨m', hm'⟩ := hn q hq (by rw [hsame hq hne]; exact href) hno
    exact ⟨m', ((update_eq_iff hne m').mp hm').2⟩
  · intro q hq href hno
    by_cases hne : q = pa
    · exact ⟨m, by rw [update_self, hne]⟩
    · rw [hsame hq hne] at href
      obtain ⟨m', hm'⟩ := hn q hq href hno
      refine ⟨m', (update_eq_iff hne m').mpr ⟨?_, hm'⟩⟩
      rintro rfl
      exact managed_ne_zero hq (hm'.symm.trans hd)

/-- A slot takes a free page in place of whatever it had. -/
theorem Pages.take (hk : AllocInv k') (hm : Managed pa)
    (hfree : getref k pa = 0) (hr : k'.refCount = update k.refCount (pa2idx pa) 1) :
    Pages k' (update data m pa) others ∧
      (NoLeak k' (update data m pa) others ↔ NoLeak k data others ∧ data m = 0) := by
  obtain ⟨hdrop, hleak⟩ := h.drop m
  have := hdrop.fill (update_self m 0 data) hk hm hfree hr
  rwa [update_idem, hleak] at this

/-- The page of a slot is freed. -/
theorem Pages.release (hd : data m ≠ 0) (hk : AllocInv k')
    (hr : k'.refCount = update k.refCount (pa2idx (data m)) 0) :
    Pages k' (update data m 0) others ∧
      (NoLeak k' (update data m 0) others ↔ NoLeak k data others) := by
  obtain ⟨hman, href⟩ := h.slot m hd
  have hsame : ∀ {q}, Managed q → q ≠ data m → getref k' q = getref k q := fun hq hne => by
    rw [getref_update hr hman hq, if_neg hne]
  have hself : getref k' (data m) = 0 := by rw [getref_update hr hman hman, if_pos rfl]
  have hdrop := (h.drop m).1
  refine ⟨⟨hk, fun m' hm' => ?_, hdrop.distinct, fun q hq => ?_⟩, fun hn => ?_, fun hn => ?_⟩
  · obtain ⟨hman', href'⟩ := hdrop.slot m' hm'
    obtain ⟨hne, hd'⟩ := (update_eq_iff hm' m').mp rfl
    refine ⟨hman', ?_⟩
    rw [hsame hman', href']
    rw [← hd']
    exact fun he => hne (h.distinct m m' hd he.symm).symm
  · obtain ⟨hman', href', hd'⟩ := hdrop.other q hq
    refine ⟨hman', ?_, hd'⟩
    rw [hsame hman']
    · exact href'
    · exact ((h.other q hq).2.2 m).symm
  · intro q hq href' hno
    by_cases hne : q = data m
    · exact ⟨m, hne.symm⟩
    · obtain ⟨m', hm'⟩ := hn q hq (by rw [hsame hq hne]; exact href') hno
      exact ⟨m', ((update_eq_iff (managed_ne_zero hq) m').mp hm').2⟩
  · intro q hq href' hno
    have hne : q ≠ data m := fun e => by rw [e] at href'; omega
    rw [hsame hq hne] at href'
    obtain ⟨m', hm'⟩ := hn q hq href' hno
    refine ⟨m', (update_eq_iff (managed_ne_zero hq) m').mpr ⟨?_, hm'⟩⟩
    rintro rfl
    exact hne hm'.symm

/-- Another user of the allocator takes a free page. -/
theorem Pages.otherTake (hk : AllocInv k') (hm : Managed pa)
    (hfree : getref k pa = 0) (hr : k'.refCount = update k.refCount (pa2idx pa) 1) :
    Pages k' data (insert pa others) ∧
      (NoLeak k' data (insert pa others) ↔ NoLeak k data others) := by
  obtain ⟨hnot, hother⟩ := h.unheld hm hfree
  have hself : getref k' pa = 1 := by rw [getref_update hr hm hm, if_pos rfl]
  have hsame : ∀ {q}, Managed q → q ≠ pa → getref k' q = getref k q := fun hq hne => by
    rw [getref_update hr hm hq, if_neg hne]
  refine ⟨⟨hk, fun m' hm' => ?_, h.distinct, fun q hq => ?_⟩, fun hn => ?_, fun hn => ?_⟩
  · obtain ⟨hman, href⟩ := h.slot m' hm'
    exact ⟨hman, by rw [hsame hman (hnot m'), href]⟩
  · rcases Finset.mem_insert.mp hq with rfl | hq
    · exact ⟨hm, by rw [hself]; exact Nat.one_pos, hnot⟩
    · obtain ⟨hman, href, hd⟩ := h.other q hq
      exact ⟨hman, by rw [hsame hman fun e => hother (e ▸ hq)]; exact href, hd⟩
  · intro q hq href hno
    have hne : q ≠ pa := fun e => by rw [e] at href; omega
    exact hn q hq (by rw [hsame hq hne]; exact href) (by simp [hne, hno])
  · intro q hq href hno
    have hne : q ≠ pa := fun e => hno (by simp [e])
    exact hn q hq (by rwa [hsame hq hne] at href) fun ho => hno (by simp [ho])

/-- Another user of the allocator frees a page. -/
theorem Pages.otherFree (hpa : pa ∈ others) (hk : AllocInv k')
    (hr : k'.refCount = update k.refCount (pa2idx pa) 0) :
    Pages k' data (others.erase pa) ∧
      (NoLeak k' data (others.erase pa) ↔ NoLeak k data others) := by
  obtain ⟨hm, -, hnot⟩ := h.other pa hpa
  have hself : getref k' pa = 0 := by rw [getref_update hr hm hm, if_pos rfl]
  have hsame : ∀ {q}, Managed q → q ≠ pa → getref k' q = getref k q := fun hq hne => by
    rw [getref_update hr hm hq, if_neg hne]
  refine ⟨⟨hk, fun m' hm' => ?_, h.distinct, fun q hq => ?_⟩, fun hn => ?_, fun hn => ?_⟩
  · obtain ⟨hman, href⟩ := h.slot m' hm'
    exact ⟨hman, by rw [hsame hman (hnot m'), href]⟩
  · obtain ⟨hne, hq⟩ := Finset.mem_erase.mp hq
    obtain ⟨hman, href, hd⟩ := h.other q hq
    exact ⟨hman, by rw [hsame hman hne]; exact href, hd⟩
  · intro q hq href hno
    have hne : q ≠ pa := fun e => hno (e ▸ hpa)
    exact hn q hq (by rw [hsame hq hne]; exact href) fun ho => hno (Finset.mem_erase.mp ho).2
  · intro q hq href hno
    have hne : q ≠ pa := fun e => by rw [e] at href; omega
    rw [hsame hq hne] at href
    exact hn q hq href fun ho => hno (Finset.mem_erase.mpr ⟨hne, ho⟩)

end

end

end MiniOS
