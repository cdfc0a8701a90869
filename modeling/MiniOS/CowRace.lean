import MiniOS.Vm
import MiniOS.Kalloc.Invariant
import MiniOS.Lib.RefLedger
import MiniOS.Lib.Runs

/-!
# MiniOS.CowRace

Processes that share a copy-on-write page and resolve it concurrently.  The
copy-on-write branch of `vmfault` and the `uvmunmap` of an exiting process
are cut into their atomic steps: each critical section of `kmem.lock` and
each update of a page-table entry.  Work outside the lock belongs to the step
it stands next to.

Every step is a move of `RefLedger`: counts stay exact in any interleaving.
`decref` is the one move that can lose a page: it drops a reference and never
frees.  Pages are lost exactly by the runs in which it finds a count of 1
(`countZero_iff_onFreelist_iff`), and two sharers that both read the count
before either drops its reference are enough (`exists_lost_page`).
-/

namespace MiniOS

open Extents RefLedger
open Function (update update_self update_of_ne update_eq_self)

/-- Where a process is in `vmfault` or in `uvmunmap`. -/
inductive Pc
  | idle
  /-- `getref` has returned the count -/
  | counted (ref : Nat)
  /-- `kalloc` has returned the page to copy to -/
  | copying (mem : Nat)
  /-- the entry maps the copy; `decref(pa)` is next -/
  | remapped (pa : Nat)
  /-- `PTE_W` is set; clearing `PTE_COW` is next -/
  | promoting
  /-- `kfree(pa)` has dropped the last reference; the list insertion is next -/
  | freeing (pa : Nat)
  /-- `kfree` is done; clearing the entry is next -/
  | unmapping
  | gone
deriving DecidableEq, Repr

/-- A process, with its entry for the page. -/
structure Thread where
  pc : Pc
  pte : Word
  pagetable : Nat
  va : Nat
deriving DecidableEq, Repr

/-- The processes `ι` and the allocator. -/
structure Race (ι : Type) where
  kmem : Kmem
  threads : ι → Thread

/-- A process starts to handle a write fault, starts to unmap the page on
exit, or does its next atomic step. -/
inductive RaceEvent (ι : Type)
  | fault (p : ι)
  | exit (p : ι)
  | go (p : ι)
deriving DecidableEq, Repr

section
variable [KernelImage] {ι : Type} [DecidableEq ι]

def Race.set (s : Race ι) (p : ι) (k : Kmem) (t : Thread) : Race ι :=
  ⟨k, update s.threads p t⟩

/-- The next atomic step of a process inside an operation. -/
def goStep (s : Race ι) (p : ι) (t : Thread) : Pc → Option (Race ι)
  | .idle | .gone => none
  | .counted ref =>
    if 1 < ref then
      (kalloc s.kmem).map fun (mem, k) =>
        -- out of memory: `vmfault` returns 0
        if mem = 0 then s.set p k { t with pc := .idle }
        else s.set p k { t with pc := .copying mem }
    else some (s.set p s.kmem { t with pte := t.pte ||| pteW, pc := .promoting })
  | .copying mem =>
    let pa := pte2pa t.pte
    some (s.set p { s.kmem with mem := update s.kmem.mem mem (s.kmem.mem pa) }
      { t with pte := copiedPte mem, pc := .remapped pa })
  | .remapped pa =>
    (decref s.kmem pa).map fun (_, k) =>
      s.set p (recordRmap k (pte2pa t.pte) t.pagetable t.va) { t with pc := .idle }
  | .promoting =>
    let pte := t.pte &&& ~~~pteCow
    some (s.set p (recordRmap s.kmem (pte2pa pte) t.pagetable t.va) { t with pte := pte, pc := .idle })
  | .freeing pa =>
    (kfreeInsert (kfreeScrub s.kmem pa 1) pa 1).map fun k => s.set p k { t with pc := .unmapping }
  | .unmapping => some (s.set p s.kmem { t with pte := 0, pc := .gone })

/-- One atomic step; `none` when the process cannot do it, or panics. -/
def raceStep (s : Race ι) : RaceEvent ι → Option (Race ι)
  | .fault p =>
    let t := s.threads p
    if t.pc = .idle ∧ has t.pte pteV ∧ has t.pte pteCow ∧ !has t.pte pteW then
      some (s.set p s.kmem { t with pc := .counted (getref s.kmem (pte2pa t.pte)) })
    else none
  | .exit p =>
    let t := s.threads p
    let pa := pte2pa t.pte
    if t.pc = .idle ∧ has t.pte pteV ∧ ¬ (pa < kernelEnd ∨ physTop < pa + pgSize) then
      (kfreeDecrement s.kmem pa 1).map fun (last, k) =>
        s.set p k { t with pc := if last then .freeing pa else .unmapping }
    else none
  | .go p => goStep s p (s.threads p) (s.threads p).pc

/-- No process is inside an operation. -/
def Quiescent (s : Race ι) : Prop := ∀ p, (s.threads p).pc = .idle ∨ (s.threads p).pc = .gone

/-- All processes map the page `pa` copy-on-write, and it has at least as
many references. -/
structure SharedCow [Fintype ι] (s : Race ι) (pa : Nat) : Prop where
  alloc : AllocInv s.kmem
  managed : Managed pa
  idle : ∀ p, (s.threads p).pc = .idle
  cow : ∀ p, has (s.threads p).pte pteV ∧ has (s.threads p).pte pteCow ∧
    ¬ has (s.threads p).pte pteW ∧ pte2pa (s.threads p).pte = pa
  refs : Fintype.card ι ≤ getref s.kmem pa

/-- A step that is a `decref` finds more than one reference. -/
def DecrefAbove (s : Race ι) (e : RaceEvent ι) : Prop :=
  ∀ p pa, e = .go p → (s.threads p).pc = .remapped pa → 1 < getref s.kmem pa

/-! ## references of a process -/

/-- `uvmunmap` has not yet given up the reference of the entry. -/
def Pc.mapped : Pc → Bool
  | .freeing _ | .unmapping | .gone => false
  | _ => true

/-- The entry is a reference to its page. -/
def Thread.maps (t : Thread) : Bool := has t.pte pteV && t.pc.mapped

/-- The page a process holds besides the one it maps. -/
def Pc.page : Pc → Option Nat
  | .copying mem => some mem
  | .remapped pa => some pa
  | _ => none

/-- The references of a process on the page with index `x`. -/
def Thread.refs (t : Thread) (x : Nat) : Nat :=
  (if t.maps ∧ pa2idx (pte2pa t.pte) = x then 1 else 0) +
    if t.pc.page.map pa2idx = some x then 1 else 0

/-- The page a process is about to put on the free list. -/
def Pc.freed : Pc → Option Nat
  | .freeing pa => some (pa2idx pa)
  | _ => none

/-- The reference ledger of a state. -/
def ledger (s : Race ι) : Ledger ι Nat where
  ref := s.kmem.refCount
  free := {x | OnFreelist s.kmem (x * pgSize)}
  held := fun p => (s.threads p).refs
  freeing := fun p => (s.threads p).pc.freed

/-- The pages of a process are pages of the allocator. -/
structure Thread.Wf (t : Thread) : Prop where
  mapped : t.maps → Managed (pte2pa t.pte)
  page : ∀ pa, t.pc.page = some pa → Managed pa
  freeing : ∀ pa, t.pc = .freeing pa → Managed pa
  valid : (∃ ref, t.pc = .counted ref) ∨ (∃ mem, t.pc = .copying mem) → has t.pte pteV

/-- The free list is well formed and so is every process. -/
def RaceWf (s : Race ι) : Prop := (∃ bs, FreeRep s.kmem bs) ∧ ∀ p, (s.threads p).Wf

variable {s s' : Race ι} {p : ι} {k : Kmem} {t : Thread} {pa : Nat} {ext : Nat → Nat}

omit [DecidableEq ι] in
theorem mem_ledger_free {bs : List Block} (h : FreeRep s.kmem bs) (x : Nat) :
    x ∈ (ledger s).free ↔ FreePage bs (x * pgSize) :=
  onFreelist_iff h (by simp only [pgSize]; omega)

section
omit [KernelImage]

/-- The ledger after a process has changed its own record. -/
theorem ledger_set (s : Race ι) (p : ι) (k : Kmem) (t : Thread) :
    ledger (s.set p k t) = {
      ref := k.refCount
      free := {x | OnFreelist k (x * pgSize)}
      held := update (ledger s).held p t.refs
      freeing := update (ledger s).freeing p t.pc.freed } := by
  ext q x
  · rfl
  · rfl
  · simp only [ledger, Race.set]
    by_cases hq : q = p
    · subst hq; simp
    · simp [hq]
  · simp only [ledger, Race.set]
    by_cases hq : q = p
    · subst hq; simp
    · simp [hq]

/-- A step that changes neither the counts nor the free list nor the
references of the process. -/
theorem move_still (href : k.refCount = s.kmem.refCount)
    (hfree : ∀ x, OnFreelist k (x * pgSize) ↔ OnFreelist s.kmem (x * pgSize))
    (ht : t.refs = (s.threads p).refs) (hf : t.pc.freed = (s.threads p).pc.freed) :
    Move false (ledger s) (ledger (s.set p k t)) := by
  have heq : ledger (s.set p k t) = ledger s := by
    rw [ledger_set]
    ext q x
    · exact congrFun href q
    · exact hfree _
    · simp only [ht]
      exact congrFun (congrFun (update_eq_self p (ledger s).held) q) x
    · simp only [hf]
      rw [show (s.threads p).pc.freed = (ledger s).freeing p from rfl, update_eq_self]
  rw [heq]
  exact .still

/-- A step in which the process gives up one reference and the count of the
page goes down with it. -/
theorem ledger_lose {x : Nat}
    (href : k.refCount = update s.kmem.refCount x (s.kmem.refCount x - 1))
    (hfree : ∀ x, OnFreelist k (x * pgSize) ↔ OnFreelist s.kmem (x * pgSize))
    (ht : ∀ y, t.refs y = if y = x then (s.threads p).refs x - 1 else (s.threads p).refs y) :
    ledger (s.set p k t) = { (ledger s).lose p x with
      freeing := update (ledger s).freeing p t.pc.freed } := by
  have hrefs : t.refs = update (s.threads p).refs x ((s.threads p).refs x - 1) := by
    funext y
    rw [ht y]
    by_cases hy : y = x
    · subst hy; simp
    · simp [hy]
  rw [ledger_set, hrefs, href]
  ext q y
  · rfl
  · exact hfree _
  · rfl
  · rfl

end

/-! ## each step is a move -/

theorem RaceWf.set (h : RaceWf s)
    (hk : ∃ bs, FreeRep k bs) (ht : t.Wf) : RaceWf (s.set p k t) := by
  refine ⟨hk, fun q => ?_⟩
  simp only [Race.set]
  by_cases hq : q = p
  · subst hq
    rwa [update_self]
  · rw [update_of_ne hq]
    exact h.2 q

/-- What a step gives: well-formedness, and a move that leaks only when the
step is a `decref` of a last reference. -/
def Moves (s s' : Race ι) (e : RaceEvent ι) : Prop :=
  RaceWf s' ∧ ∃ leak, Move leak (ledger s) (ledger s') ∧ (leak = false ↔ DecrefAbove s e)

omit [KernelImage] [DecidableEq ι] in
theorem decrefAbove_of_ne (h : ∀ pa, (s.threads p).pc ≠ .remapped pa) :
    DecrefAbove s (.go p) := by
  intro q pa hq hpc
  cases hq
  exact absurd hpc (h pa)

theorem moves_fault (hwf : RaceWf s)
    (h : raceStep s (.fault p) = some s') : Moves s s' (.fault p) := by
  simp only [raceStep] at h
  split at h
  next hc =>
    obtain ⟨hidle, hV, -, -⟩ := hc
    cases h
    have hmaps : (s.threads p).maps := by simp [Thread.maps, hidle, hV, Pc.mapped]
    refine ⟨hwf.set hwf.1 ⟨fun _ => (hwf.2 p).mapped hmaps, nofun, nofun, fun _ => hV⟩,
      false, move_still rfl (fun _ => Iff.rfl) ?_ ?_, by simp [DecrefAbove]⟩
    · funext x
      simp [Thread.refs, Thread.maps, hidle, Pc.mapped, Pc.page]
    · rw [hidle]; rfl
  next => cases h

omit [KernelImage] in
/-- The counting part of `kfree` on one page. -/
theorem kfreeDecrement_one {k' : Kmem} {last : Bool}
    (h : kfreeDecrement k pa 1 = some (last, k')) :
    0 < k.refCount (pa2idx pa) ∧ (last = true ↔ k.refCount (pa2idx pa) = 1) ∧
      k' = { k with
        refCount := update k.refCount (pa2idx pa) (k.refCount (pa2idx pa) - 1) } := by
  simp only [kfreeDecrement, decRefs, Option.bind_some, Nat.zero_mul, Nat.add_zero] at h
  split at h
  next => cases h
  next h0 =>
    simp only [Option.bind_some, update_self, true_and, Nat.lt_irrefl, false_and,
      if_false] at h
    split at h
    next hpos =>
      cases h
      exact ⟨by omega, by simp; omega, rfl⟩
    next hpos =>
      cases h
      exact ⟨by omega, by simp; omega, rfl⟩

omit [KernelImage] [DecidableEq ι] in
theorem refs_eq_one (hm : t.maps) (hp : t.pc.page = none) :
    t.refs (pa2idx (pte2pa t.pte)) = 1 := by
  simp [Thread.refs, hm, hp]

theorem moves_exit (hwf : RaceWf s)
    (h : raceStep s (.exit p) = some s') : Moves s s' (.exit p) := by
  simp only [raceStep] at h
  split at h
  next hc =>
    obtain ⟨hidle, hV, -⟩ := hc
    obtain ⟨⟨last, k⟩, hdec, hset⟩ := Option.map_eq_some_iff.mp h
    simp only at hset
    subst hset
    obtain ⟨hpos, hlast, hk⟩ := kfreeDecrement_one hdec
    have hmaps : (s.threads p).maps := by simp [Thread.maps, hidle, hV, Pc.mapped]
    have hman := (hwf.2 p).mapped hmaps
    have hone : 0 < (ledger s).held p (pa2idx (pte2pa (s.threads p).pte)) := by
      rw [show (ledger s).held p _ = _ from refs_eq_one hmaps (by rw [hidle]; rfl)]
      decide
    have hfr : (ledger s).freeing p = none := by simp [ledger, hidle, Pc.freed]
    -- after the decrement the process has no reference left on any page
    have hled : ∀ pc : Pc, pc.mapped = false → pc.page = none →
        ledger (s.set p k { s.threads p with pc := pc }) =
          { (ledger s).lose p (pa2idx (pte2pa (s.threads p).pte)) with
            freeing := update (ledger s).freeing p pc.freed } := by
      intro pc hm hp
      refine ledger_lose (by rw [hk]) (fun pa => by rw [hk]; rfl) fun y => ?_
      simp only [Thread.refs, Thread.maps, hm, hp, hV, hidle, show Pc.idle.mapped = true from rfl,
        show Pc.idle.page = none from rfl]
      by_cases hy : y = pa2idx (pte2pa (s.threads p).pte)
      · simp [hy]
      · simp [hy, Ne.symm hy]
    obtain ⟨bs, hrep⟩ := hwf.1
    have hrep' : FreeRep k bs := hrep.congr (by rw [hk]) fun _ _ => by rw [hk]
    cases last with
    | false =>
      refine ⟨hwf.set ⟨bs, hrep'⟩ ⟨by simp [Thread.maps, Pc.mapped], nofun, nofun, by simp⟩,
        false, ?_, by simp [DecrefAbove]⟩
      have hsame : ledger (s.set p k { s.threads p with pc := .unmapping }) =
          (ledger s).lose p (pa2idx (pte2pa (s.threads p).pte)) := by
        rw [hled .unmapping rfl rfl, show Pc.unmapping.freed = (ledger s).freeing p from hfr.symm,
          update_eq_self]
        rfl
      simp only [Bool.false_eq_true, if_false, hsame]
      exact .release p _ hone fun h1 => by simpa using hlast.mpr h1
    | true =>
      refine ⟨hwf.set ⟨bs, hrep'⟩ ⟨by simp [Thread.maps, Pc.mapped], nofun, ?_, by simp⟩,
        false, ?_, by simp [DecrefAbove]⟩
      · intro pa hpa
        simp only [if_true, Pc.freeing.injEq] at hpa
        rwa [← hpa]
      · simp only [if_true, hled (.freeing _) rfl rfl]
        exact .releaseLast p _ hone (hlast.mp rfl) hfr
  next => cases h

/-- The page `kalloc` returns is a new reference of the process. -/
theorem move_take {bs bs' : List Block}
    (hrep : FreeRep s.kmem bs) (hgot : GotPage s.kmem k bs bs' pa)
    (ht : ∀ y, t.refs y = (s.threads p).refs y + if y = pa2idx pa then 1 else 0)
    (hf : t.pc.freed = (s.threads p).pc.freed) :
    Move false (ledger s) (ledger (s.set p k t)) := by
  have hpa : pa2idx pa * pgSize = pa := managed_div hgot.managed
  have hfree : pa2idx pa ∈ (ledger s).free := by
    rw [mem_ledger_free hrep, hpa]; exact hgot.was_free
  have heq : ledger (s.set p k t) = { ledger s with
      ref := update (ledger s).ref (pa2idx pa) 1
      free := (ledger s).free \ {pa2idx pa}
      held := (ledger s).gain p (pa2idx pa) } := by
    rw [ledger_set]
    ext q x
    · exact congrFun hgot.ref q
    · have hx : q * pgSize = pa ↔ q = pa2idx pa := by
        have := hgot.managed.1
        simp only [pa2idx, pgSize] at *; omega
      simp only [Set.mem_ofPred_eq, Set.mem_sdiff, Set.mem_singleton_iff, mem_ledger_free hrep,
        onFreelist_iff hgot.rep (show q * pgSize % pgSize = 0 by simp only [pgSize]; omega),
        hgot.free_iff, hx, ne_eq]
    · have hrefs : t.refs = update (s.threads p).refs (pa2idx pa)
          ((s.threads p).refs (pa2idx pa) + 1) := by
        funext y
        rw [ht y]
        by_cases hy : y = pa2idx pa
        · subst hy; simp
        · simp [hy]
      rw [hrefs]; rfl
    · simp only [hf]
      rw [show (s.threads p).pc.freed = (ledger s).freeing p from rfl, update_eq_self]
  rw [heq]
  exact .take p _ hfree

/-- The list insertion of `kfree` puts the page back. -/
theorem move_put [Fintype ι]
    (hwf : RaceWf s) (hs : Sound ext (ledger s)) (hpc : (s.threads p).pc = .freeing pa)
    (hk : kfreeInsert (kfreeScrub s.kmem pa 1) pa 1 = some k) :
    (∃ bs, FreeRep k bs) ∧
      Move false (ledger s) (ledger (s.set p k { s.threads p with pc := .unmapping })) := by
  have hman := (hwf.2 p).freeing pa hpc
  obtain ⟨bs, hrep⟩ := hwf.1
  have hpa : pa2idx pa * pgSize = pa := managed_div hman
  have hfr : (ledger s).freeing p = some (pa2idx pa) := by simp [ledger, hpc, Pc.freed]
  have hnot : ¬ FreePage bs pa := fun hf => (hs.freeing_zero p _ hfr).2 (by
    rw [mem_ledger_free hrep, hpa]; exact hf)
  obtain ⟨k', hk', hrep', hins⟩ := kfreeInsert_spec (b := pageBlock pa) hrep Nat.one_pos
    fun x hx => by
      rw [has_pageBlock] at hx
      subst hx
      exact ⟨by rw [hpa]; exact hman, fun hc => hnot ⟨hman.1, hc⟩⟩
  rw [addr_pageBlock hman.1, show (pageBlock pa).len = 1 from rfl, hk] at hk'
  cases hk'
  refine ⟨⟨_, hrep'⟩, ?_⟩
  have heq : ledger (s.set p k { s.threads p with pc := .unmapping }) = { ledger s with
      free := insert (pa2idx pa) (ledger s).free
      freeing := update (ledger s).freeing p none } := by
    rw [ledger_set]
    ext q x
    · exact congrFun hins.ref q
    · have hx : q * pgSize = pa ↔ q = pa2idx pa := by
        have := hman.1
        simp only [pa2idx, pgSize] at *; omega
      simp only [Set.mem_ofPred_eq, Set.mem_insert_iff, mem_ledger_free hrep,
        onFreelist_iff hrep' (show q * pgSize % pgSize = 0 by simp only [pgSize]; omega),
        freePage_insert hman.1, hx]
      exact or_comm
    · have hrefs : ({ s.threads p with pc := .unmapping } : Thread).refs = (s.threads p).refs := by
        funext y
        simp [Thread.refs, Thread.maps, hpc, Pc.mapped, Pc.page]
      rw [hrefs, show (s.threads p).refs = (ledger s).held p from rfl, update_eq_self]
    · rfl
  rw [heq]
  exact .put p _ hfr

/-- A state change outside the free pages leaves the free list alone. -/
theorem onFreelist_congr {k' : Kmem} {bs : List Block} (h : FreeRep k bs) (h' : FreeRep k' bs)
    (x : Nat) : OnFreelist k' (x * pgSize) ↔ OnFreelist k (x * pgSize) := by
  have hx : x * pgSize % pgSize = 0 := by simp only [pgSize]; omega
  rw [onFreelist_iff h hx, onFreelist_iff h' hx]

section
variable (hwf : RaceWf s)
include hwf

theorem moves_counted {ref : Nat}
    (hpc : (s.threads p).pc = .counted ref)
    (h : goStep s p (s.threads p) (.counted ref) = some s') : Moves s s' (.go p) := by
  have hV : has (s.threads p).pte pteV := (hwf.2 p).valid (.inl ⟨ref, hpc⟩)
  have hman : Managed (pte2pa (s.threads p).pte) :=
    (hwf.2 p).mapped (by simp [Thread.maps, hpc, hV, Pc.mapped])
  have habove : DecrefAbove s (.go p) := decrefAbove_of_ne (by simp [hpc])
  rw [goStep] at h
  split at h
  · obtain ⟨⟨mem, k⟩, hk, hset⟩ := Option.map_eq_some_iff.mp h
    simp only at hset
    subst hset
    obtain ⟨bs, hrep⟩ := hwf.1
    rcases kalloc_spec hrep with ⟨-, hnone⟩ | ⟨pa, k', bs', hsome, hgot⟩
    · rw [hk] at hnone
      cases hnone
      simp only [if_true]
      refine ⟨hwf.set ⟨bs, hrep⟩ ⟨fun _ => hman, nofun, nofun, by simp⟩, false,
        move_still rfl (fun _ => Iff.rfl) ?_ (by rw [hpc]; rfl), by simp [habove]⟩
      funext x
      simp [Thread.refs, Thread.maps, hpc, Pc.mapped, Pc.page]
    · rw [hk] at hsome
      cases hsome
      simp only [if_neg (managed_ne_zero hgot.managed)]
      refine ⟨hwf.set ⟨bs', hgot.rep⟩ ⟨fun _ => hman, ?_, nofun, fun _ => hV⟩, false,
        move_take hrep hgot (fun y => ?_) (by rw [hpc]; rfl), by simp [habove]⟩
      · intro pa hpa
        rw [← Option.some.inj hpa]
        exact hgot.managed
      · simp only [Thread.refs, Thread.maps, hpc, Pc.mapped, Pc.page, Option.map_some,
          Option.some.injEq, Option.map_none, reduceCtorEq, if_false, Nat.add_zero,
          eq_comm (b := y)]
  · cases h
    have hpa : pte2pa ((s.threads p).pte ||| pteW) = pte2pa (s.threads p).pte :=
      pte2pa_or _ toNat_pte_lt.2.2.1
    refine ⟨hwf.set hwf.1 ⟨fun _ => by rw [hpa]; exact hman, nofun, nofun, by simp⟩, false,
      move_still rfl (fun _ => Iff.rfl) ?_ (by rw [hpc]; rfl), by simp [habove]⟩
    funext x
    simp [Thread.refs, Thread.maps, hpc, Pc.mapped, Pc.page, hpa]

theorem moves_copying [Fintype ι] {mem : Nat}
    (hs : Sound ext (ledger s)) (hpc : (s.threads p).pc = .copying mem)
    (h : goStep s p (s.threads p) (.copying mem) = some s') : Moves s s' (.go p) := by
  have hV : has (s.threads p).pte pteV := (hwf.2 p).valid (.inr ⟨mem, hpc⟩)
  have hman : Managed (pte2pa (s.threads p).pte) :=
    (hwf.2 p).mapped (by simp [Thread.maps, hpc, hV, Pc.mapped])
  have hmem : Managed mem := (hwf.2 p).page mem (by rw [hpc]; rfl)
  have hpa : pte2pa (copiedPte mem) = mem :=
    pte2pa_copiedPte (by have := hmem.2.2; simp only [physTop, kernBase] at this; omega) hmem.1
  have hVc : has (copiedPte mem) pteV := by simp [copiedPte]
  obtain ⟨bs, hrep⟩ := hwf.1
  -- the new page is referenced, so the copy does not touch the free list
  have hnot : ¬ FreePage bs mem := fun hf => by
    have hheld : 0 < (ledger s).held p (pa2idx mem) := by
      simp [ledger, Thread.refs, hpc, Pc.page]
    have hpos := hs.ref_pos hheld
    have hzero := hs.free_zero (pa2idx mem) (by
      rw [mem_ledger_free hrep, show pa2idx mem * pgSize = mem from managed_div hmem]; exact hf)
    omega
  simp only [goStep, Option.some.injEq] at h
  subst h
  have hrep' : FreeRep { s.kmem with
      mem := update s.kmem.mem mem (s.kmem.mem (pte2pa (s.threads p).pte)) } bs :=
    hrep.congr rfl fun q hq => update_of_ne (by rintro rfl; exact hnot hq) _ _
  refine ⟨hwf.set ⟨bs, hrep'⟩ ⟨fun _ => by rw [hpa]; exact hmem, ?_, by simp, by simp⟩, false,
    move_still rfl (onFreelist_congr hrep hrep') ?_ (by rw [hpc]; rfl),
    by simp [decrefAbove_of_ne, hpc]⟩
  · intro pa hpa
    rw [← Option.some.inj hpa]
    exact hman
  · funext x
    simp only [Thread.refs, Thread.maps, hpc, hV, hVc, hpa, Pc.mapped, Pc.page, Option.map_some,
      Option.some.injEq, Bool.true_and, true_and]
    exact Nat.add_comm _ _

theorem moves_remapped (hpc : (s.threads p).pc = .remapped pa)
    (h : goStep s p (s.threads p) (.remapped pa) = some s') : Moves s s' (.go p) := by
  have hmap : (s.threads p).maps = has (s.threads p).pte pteV := by
    simp [Thread.maps, hpc, Pc.mapped]
  obtain ⟨⟨c, k⟩, hdec, hset⟩ := Option.map_eq_some_iff.mp h
  simp only at hset
  subst hset
  rw [decref] at hdec
  split at hdec
  · cases hdec
  next h0 =>
    cases hdec
    obtain ⟨bs, hrep⟩ := hwf.1
    have hheld : 0 < (ledger s).held p (pa2idx pa) := by
      simp [ledger, Thread.refs, hpc, Pc.page]
    refine ⟨hwf.set ⟨bs, hrep.congr (by simp) fun _ _ => by simp⟩ ⟨fun hm => ?_, by rintro _ ⟨⟩, by simp, by simp⟩,
      decide (s.kmem.refCount (pa2idx pa) = 1), ?_, ?_⟩
    · exact (hwf.2 p).mapped (by simpa [Thread.maps, Pc.mapped, hpc] using hm)
    · rw [ledger_lose (x := pa2idx pa) (by simp) (fun x => by simp [OnFreelist, Kmem.blocks])]
      · have hfr : (ledger s).freeing p = none := by simp [ledger, hpc, Pc.freed]
        rw [show ({ s.threads p with pc := Pc.idle } : Thread).pc.freed = (ledger s).freeing p from
          hfr.symm, update_eq_self]
        exact .drop p _ hheld
      · intro y
        by_cases hy : y = pa2idx pa
        · simp [Thread.refs, Thread.maps, hpc, Pc.mapped, Pc.page, hy]
        · simp [Thread.refs, Thread.maps, hpc, Pc.mapped, Pc.page, hy, Ne.symm hy]
    · rw [decide_eq_false_iff_not]
      constructor
      · intro hne q pa' hq hpa'
        cases hq
        rw [hpc] at hpa'
        cases hpa'
        unfold getref; omega
      · intro hab h1
        have := hab p pa rfl hpc
        unfold getref at this; omega

theorem moves_promoting (hpc : (s.threads p).pc = .promoting)
    (h : goStep s p (s.threads p) .promoting = some s') : Moves s s' (.go p) := by
  simp only [goStep, Option.some.injEq] at h
  subst h
  have hpa : pte2pa ((s.threads p).pte &&& ~~~pteCow) = pte2pa (s.threads p).pte :=
    pte2pa_and_not _ toNat_pte_lt.2.2.2.2.2
  obtain ⟨bs, hrep⟩ := hwf.1
  refine ⟨hwf.set ⟨bs, hrep.congr (by simp) fun _ _ => by simp⟩ ⟨fun hm => ?_, nofun, nofun, by simp⟩,
    false, move_still (by simp) (fun x => by simp [OnFreelist, Kmem.blocks]) ?_ (by rw [hpc]; rfl),
    by simp [decrefAbove_of_ne, hpc]⟩
  · rw [hpa]
    exact (hwf.2 p).mapped (by simpa [Thread.maps, Pc.mapped, hpc] using hm)
  · funext x
    simp [Thread.refs, Thread.maps, hpc, Pc.mapped, Pc.page, hpa]

theorem moves_go [Fintype ι]
    (hs : Sound ext (ledger s)) (h : raceStep s (.go p) = some s') : Moves s s' (.go p) := by
  rw [raceStep] at h
  cases hpc : (s.threads p).pc with
  | idle => rw [hpc] at h; cases h
  | gone => rw [hpc] at h; cases h
  | counted ref => rw [hpc] at h; exact moves_counted hwf hpc h
  | copying mem => rw [hpc] at h; exact moves_copying hwf hs hpc h
  | remapped pa => rw [hpc] at h; exact moves_remapped hwf hpc h
  | promoting => rw [hpc] at h; exact moves_promoting hwf hpc h
  | freeing pa =>
    rw [hpc] at h
    obtain ⟨k, hk, rfl⟩ := Option.map_eq_some_iff.mp h
    obtain ⟨hrep, hmove⟩ := move_put hwf hs hpc hk
    exact ⟨hwf.set hrep ⟨by simp [Thread.maps, Pc.mapped], nofun, nofun, by simp⟩, false, hmove,
      by simp [decrefAbove_of_ne, hpc]⟩
  | unmapping =>
    rw [hpc] at h
    simp only [goStep, Option.some.injEq] at h
    subst h
    refine ⟨hwf.set hwf.1 ⟨by simp [Thread.maps, Pc.mapped], nofun, nofun, by simp⟩, false,
      move_still rfl (fun _ => Iff.rfl) ?_ (by rw [hpc]; rfl), by simp [decrefAbove_of_ne, hpc]⟩
    funext x
    simp [Thread.refs, Thread.maps, hpc, Pc.mapped, Pc.page]

/-- Every atomic step is a move of the reference ledger. -/
theorem raceStep_moves [Fintype ι] {e : RaceEvent ι}
    (hs : Sound ext (ledger s)) (h : raceStep s e = some s') : Moves s s' e := by
  cases e with
  | fault p => exact moves_fault hwf h
  | exit p => exact moves_exit hwf h
  | go p => exact moves_go hwf hs h

end

/-! ## lost pages -/

variable [Fintype ι]

/-- The references of the processes at the start; the rest are from outside. -/
def outside (s : Race ι) (x : Nat) : Nat := s.kmem.refCount x - ∑ p, (s.threads p).refs x

section
omit [DecidableEq ι]

theorem SharedCow.wf (h : SharedCow s pa) : RaceWf s := by
  obtain ⟨bs, hrep, -⟩ := h.alloc
  refine ⟨⟨bs, hrep⟩, fun p => ⟨fun _ => ?_, ?_, ?_, fun _ => (h.cow p).1⟩⟩
  · rw [(h.cow p).2.2.2]; exact h.managed
  · rw [h.idle p]; nofun
  · rw [h.idle p]; nofun

theorem SharedCow.sound (h : SharedCow s pa) :
    Sound (outside s) (ledger s) := by
  have hrefs : ∀ p x, (s.threads p).refs x = if x = pa2idx pa then 1 else 0 := by
    intro p x
    simp [Thread.refs, Thread.maps, h.idle p, (h.cow p).1, (h.cow p).2.2.2, Pc.mapped, Pc.page,
      eq_comm (b := x)]
  refine ⟨fun x => ?_, fun x hx => ?_, fun p x hx => ?_, fun p q x hx => ?_⟩
  · have hle : ∑ p, (s.threads p).refs x ≤ s.kmem.refCount x := by
      simp only [hrefs]
      by_cases hx : x = pa2idx pa
      · have := h.refs
        unfold getref at this
        simpa [hx] using this
      · simp [hx]
    exact (Nat.sub_add_cancel hle).symm
  · obtain ⟨bs, hrep, hex⟩ := h.alloc
    rw [mem_ledger_free hrep] at hx
    have hm := freePage_managed hrep hx
    have := (onFreelist_iff hrep hm.1).mpr hx
    rw [AllocInv.onFreelist_iff ⟨bs, hrep, hex⟩ hm] at this
    rwa [show pa2idx (x * pgSize) = x by simp only [pa2idx, pgSize]; omega] at this
  · simp [ledger, h.idle p, Pc.freed] at hx
  · simp [ledger, h.idle p, Pc.freed] at hx

end

/-- Counts that are 0 are exactly those of free pages. -/
def CountsExact (k : Kmem) : Prop :=
  ∀ pa, Managed pa → (getref k pa = 0 ↔ OnFreelist k pa)

/-- The pages of the allocator, by index. -/
def managedPages : Set Nat := {x | Managed (x * pgSize)}

section
omit [DecidableEq ι] [Fintype ι]

theorem RaceWf.held_managed (h : RaceWf s) (p : ι) (x : Nat)
    (hx : 0 < (ledger s).held p x) : x ∈ managedPages := by
  have hidx : ∀ {pa : Nat}, Managed pa → pa2idx pa = x → Managed (x * pgSize) := by
    intro pa hm hpx
    rwa [← hpx, show pa2idx pa * pgSize = pa from managed_div hm]
  simp only [ledger, Thread.refs] at hx
  by_cases hm : (s.threads p).maps ∧ pa2idx (pte2pa (s.threads p).pte) = x
  · exact hidx ((h.2 p).mapped hm.1) hm.2
  · rw [if_neg hm] at hx
    cases hpg : (s.threads p).pc.page with
    | none => simp [hpg] at hx
    | some pa =>
      refine hidx ((h.2 p).page pa hpg) ?_
      by_contra hne
      simp [hpg, hne] at hx

/-- With no operation under way, a clean ledger is one with exact counts. -/
theorem clean_iff_countsExact (hfree : ∀ x ∈ (ledger s).free, s.kmem.refCount x = 0) (hq : Quiescent s) :
    RefLedger.Clean managedPages (ledger s) ↔ CountsExact s.kmem := by
  have hfreeing : ∀ p, (ledger s).freeing p = none := fun p => by
    rcases hq p with h | h <;> simp [ledger, h, Pc.freed]
  have hpage : ∀ pa, Managed pa → pa2idx pa * pgSize = pa := fun pa hm => managed_div hm
  constructor
  · intro hc pa hm
    constructor
    · intro h0
      by_contra hnf
      refine hc (pa2idx pa) (by rw [managedPages, Set.mem_ofPred_eq, hpage pa hm]; exact hm)
        ⟨h0, ?_, fun p => by rw [hfreeing p]; nofun⟩
      rw [show ((ledger s).free) = {x | OnFreelist s.kmem (x * pgSize)} from rfl,
        Set.mem_ofPred_eq, hpage pa hm]
      exact hnf
    · intro hf
      refine hfree (pa2idx pa) ?_
      rw [show ((ledger s).free) = {x | OnFreelist s.kmem (x * pgSize)} from rfl,
        Set.mem_ofPred_eq, hpage pa hm]
      exact hf
  · intro hc x hx hlost
    have hx' : pa2idx (x * pgSize) = x := by simp only [pa2idx, pgSize]; omega
    refine hlost.2.1 ((hc (x * pgSize) hx).mp ?_)
    rw [getref, hx']
    exact hlost.1

end

/-- A step keeps the ledger clean exactly when it is not the `decref` of a
last reference. -/
theorem raceStep_clean (s : Race ι) (e : RaceEvent ι) (s' : Race ι)
    (h : RaceWf s ∧ Sound ext (ledger s)) (hs : raceStep s e = some s') :
    (RaceWf s' ∧ Sound ext (ledger s')) ∧
      (RefLedger.Clean managedPages (ledger s') ↔
        RefLedger.Clean managedPages (ledger s) ∧ DecrefAbove s e) := by
  obtain ⟨hwf', leak, hmove, hleak⟩ := raceStep_moves h.1 h.2 hs
  exact ⟨⟨hwf', h.2.move hmove⟩, by rw [clean_iff h.2 h.1.held_managed hmove, hleak]⟩

omit [DecidableEq ι] in
theorem SharedCow.clean (h : SharedCow s pa) :
    RefLedger.Clean managedPages (ledger s) := by
  refine (clean_iff_countsExact h.sound.free_zero fun p => .inl (h.idle p)).mpr fun pa hm => ?_
  exact (h.alloc.onFreelist_iff hm).symm

/-- In every state of every interleaving in which no process is inside an
operation: counts are 0 exactly for the free pages if and only if every
`decref` of the run has found more than one reference. -/
theorem countsExact_iff_decrefAbove {s s' : Race ι} {es : List (RaceEvent ι)} {pa : Nat}
    (h₀ : SharedCow s pa) (hr : Runs.run raceStep s es = some s') (hq : Quiescent s') :
    CountsExact s'.kmem ↔ Runs.Along raceStep DecrefAbove s es := by
  have hinv : RaceWf s' ∧ Sound (outside s) (ledger s') :=
    Runs.invariant_of_step (fun s e s' hs hst => (raceStep_clean s e s' hs hst).1)
      ⟨h₀.wf, h₀.sound⟩ hr
  have hrun := Runs.along_iff (P := fun t => RefLedger.Clean managedPages (ledger t))
    (fun t e t' => raceStep_clean t e t') ⟨h₀.wf, h₀.sound⟩ hr
  rw [← clean_iff_countsExact hinv.2.free_zero hq, hrun]
  exact and_iff_right h₀.clean

end

/-! ## two sharers -/

/-- The allocator of the sample kernel with one free block of four pages and
a user page with two references. -/
def twoSharersKmem : Kmem where
  mem := fun a => if a = 0x80500000 then fun i => if i = 1 then 4#64 else 0#64 else zeroPage
  refCount := fun x =>
    if 0x80500 ≤ x ∧ x < 0x80504 then 0 else if x = 0x80400 then 2 else 1
  reverseMap := fun _ => noRmap
  freelist := 0x80500000
  useLock := true

/-- Two processes that map the page at `0x80400000` copy-on-write. -/
def twoSharers : Race (Fin 2) where
  kmem := twoSharersKmem
  threads := fun p => {
    pc := .idle
    pte := pa2pte 0x80400000 ||| (pteV ||| pteR ||| pteU ||| pteCow)
    pagetable := 0x80600000 + p * pgSize
    va := 0x4000 }

local instance neZero_two : NeZero (2 : Nat) := ⟨by decide⟩

/-- Both processes read the count before either drops its reference. -/
def bothCopy : List (RaceEvent (Fin 2)) :=
  [.fault 0, .fault 1, .go 0, .go 1, .go 0, .go 1, .go 0, .go 1]

theorem allocInv_twoSharersKmem : @AllocInv sampleImage twoSharersKmem := by
  refine allocInv_of_block (b := ⟨0x80500, 4⟩) (by decide) (by decide) (by decide) ⟨rfl, rfl, rfl⟩ fun x => ?_
  simp only [Block.Has, Block.fin, twoSharersKmem]
  split
  next h => simp [h]
  next h => split <;> simp [h]

theorem sharedCow_twoSharers : @SharedCow sampleImage (Fin 2) _ twoSharers 0x80400000 := by
  let _ := sampleImage
  exact ⟨allocInv_twoSharersKmem, by decide, fun _ => rfl, by decide, by decide⟩

/-- The first process alone breaks its sharing. -/
theorem countsExact_iff_twoSharers : ∃ s',
    Runs.run (@raceStep sampleImage (Fin 2) _) twoSharers [.fault 0, .go 0, .go 0, .go 0] = some s' ∧
    Quiescent s' ∧ (@CountsExact sampleImage s'.kmem ↔
      Runs.Along (@raceStep sampleImage (Fin 2) _) DecrefAbove twoSharers
        [.fault 0, .go 0, .go 0, .go 0]) := by
  have hrun : ((Runs.run (@raceStep sampleImage (Fin 2) _) twoSharers
      [.fault 0, .go 0, .go 0, .go 0]).map fun s => ((s.threads 0).pc, (s.threads 1).pc)) =
      some (.idle, .idle) := by decide +kernel
  obtain ⟨s', hs', heq⟩ := Option.map_eq_some_iff.mp hrun
  simp only [Prod.mk.injEq] at heq
  have hq : Quiescent s' := Fin.forall_fin_two.mpr ⟨.inl heq.1, .inl heq.2⟩
  exact ⟨s', hs', hq, @countsExact_iff_decrefAbove sampleImage _ _ _ _ _ _ _ sharedCow_twoSharers hs' hq⟩

/-- After both copies the shared page has no references and is not on the
free list. -/
theorem exists_lost_page : ∃ s', Runs.run (@raceStep sampleImage (Fin 2) _) twoSharers bothCopy = some s' ∧
    @SharedCow sampleImage (Fin 2) _ twoSharers 0x80400000 ∧ Quiescent s' ∧
    @Managed sampleImage 0x80400000 ∧
    ¬ (getref s'.kmem 0x80400000 = 0 ↔ OnFreelist s'.kmem 0x80400000) := by
  have hrun : ((Runs.run (@raceStep sampleImage (Fin 2) _) twoSharers bothCopy).map fun s =>
      (getref s.kmem 0x80400000, s.kmem.blocks, (s.threads 0).pc, (s.threads 1).pc)) =
      some (0, some [(0x80502000, 2)], .idle, .idle) := by decide +kernel
  obtain ⟨s', hs', heq⟩ := Option.map_eq_some_iff.mp hrun
  simp only [Prod.mk.injEq] at heq
  obtain ⟨href, hblocks, h0, h1⟩ := heq
  refine ⟨s', hs', sharedCow_twoSharers, ?_, by decide, ?_⟩
  · exact Fin.forall_fin_two.mpr ⟨.inl h0, .inl h1⟩
  · intro hiff
    obtain ⟨bs, hbs, b, hb, hlo, hhi⟩ := hiff.mp href
    rw [hblocks, Option.some.injEq] at hbs
    rw [← hbs, List.mem_singleton] at hb
    rw [hb] at hlo
    omega

end MiniOS
