import MiniOS.PageTable
import MiniOS.Lib.Runs

/-!
# MiniOS.View

What processes see of memory, and the edits by which the kernel changes it.

A `View` forgets where page tables and free pages lie: it has the valid
entries of every page table, the page behind each user entry, and the
reverse map.  All that `vm.c` does to it is a sequence of the edits below,
each with the circumstances in which the kernel makes it (`Legal`).  The
properties of whole runs are proved once for each edit.
-/

namespace MiniOS

/-- A valid entry that points to the page `q`. -/
def Hits (w : Word) (q : Nat) : Prop := has w pteV ∧ pte2pa w = q

instance (w : Word) (q : Nat) : Decidable (Hits w q) := inferInstanceAs (Decidable (_ ∧ _))

/-- What processes see of memory: valid entries, the pages behind user
entries, and the reverse map. -/
@[ext]
structure View where
  pte : Nat → Nat → Word
  sees : Nat → Nat → Page
  rmap : Nat → Rmap

namespace View

/-- The user entry of page `v` in the table `r` points to `q`. -/
def Uses (V : View) (r v q : Nat) : Prop := v < userVpn ∧ Hits (V.pte r v) q

instance (V : View) (r v q : Nat) : Decidable (V.Uses r v q) :=
  inferInstanceAs (Decidable (_ ∧ _))

/-- The entry `(r, v)` is the only user of `q`. -/
def Sole (V : View) (r v q : Nat) : Prop := ∀ r' v', V.Uses r' v' q → r' = r ∧ v' = v

/-- No entry uses `q`, and the reverse map has nothing about it. -/
def Fresh (V : View) (q : Nat) : Prop :=
  (∀ r v, ¬ V.Uses r v q) ∧ V.rmap (rmapIdx q) = noRmap

/-- Replace the entry of one page and what is seen through it. -/
def set (V : View) (r v : Nat) (w : Word) (page : Page) : View where
  pte r' v' := if r' = r ∧ v' = v then w else V.pte r' v'
  sees r' v' := if r' = r ∧ v' = v then page else V.sees r' v'
  rmap := V.rmap

/-- Replace the entry of one page that stays as it is seen. -/
def setPte (V : View) (r v : Nat) (w : Word) : View := V.set r v w (V.sees r v)

/-- `record_rmap` on the entry of a page. -/
def recordEntry (e : Rmap) (pagetable va : Nat) : Rmap :=
  if e.pagetable = 0 then ⟨pagetable, va⟩
  else if e.pagetable ≠ pagetable then { e with pagetable := sharedRmap }
  else e

/-- `record_rmap`. -/
def record (V : View) (pa r v : Nat) : View :=
  { V with
    rmap := Function.update V.rmap (rmapIdx pa)
      (recordEntry (V.rmap (rmapIdx pa)) r (v * pgSize)) }

/-- `clear_rmap`. -/
def forget (V : View) (pa : Nat) : View :=
  { V with rmap := Function.update V.rmap (rmapIdx pa) noRmap }

@[simp] theorem set_pte (V : View) (r v : Nat) (w : Word) (page : Page) (r' v' : Nat) :
    (V.set r v w page).pte r' v' = if r' = r ∧ v' = v then w else V.pte r' v' := rfl
@[simp] theorem set_sees (V : View) (r v : Nat) (w : Word) (page : Page) (r' v' : Nat) :
    (V.set r v w page).sees r' v' = if r' = r ∧ v' = v then page else V.sees r' v' := rfl
@[simp] theorem set_rmap (V : View) (r v : Nat) (w : Word) (page : Page) :
    (V.set r v w page).rmap = V.rmap := rfl
@[simp] theorem setPte_pte (V : View) (r v : Nat) (w : Word) (r' v' : Nat) :
    (V.setPte r v w).pte r' v' = if r' = r ∧ v' = v then w else V.pte r' v' := rfl
@[simp] theorem setPte_sees (V : View) (r v : Nat) (w : Word) : (V.setPte r v w).sees = V.sees := by
  funext r' v'
  simp only [setPte, set_sees]
  split
  next he => rw [he.1, he.2]
  next => rfl
@[simp] theorem setPte_rmap (V : View) (r v : Nat) (w : Word) : (V.setPte r v w).rmap = V.rmap := rfl
theorem setPte_self (V : View) (r v : Nat) : V.setPte r v (V.pte r v) = V := by
  ext1
  · funext r' v'
    rw [setPte_pte]
    split
    next he => rw [he.1, he.2]
    next => rfl
  · exact setPte_sees V r v _
  · rfl
@[simp] theorem record_pte (V : View) (pa r v : Nat) : (V.record pa r v).pte = V.pte := rfl
@[simp] theorem record_sees (V : View) (pa r v : Nat) : (V.record pa r v).sees = V.sees := rfl
@[simp] theorem forget_pte (V : View) (pa : Nat) : (V.forget pa).pte = V.pte := rfl
@[simp] theorem forget_sees (V : View) (pa : Nat) : (V.forget pa).sees = V.sees := rfl

end View

/-- The entry by which `uvmcopy` shares the page of `pte` with the child. -/
def sharedPte (pte : Word) : Word := pa2pte (pte2pa pte) ||| cowFlags (pteFlags pte) ||| pteV

/-- The entry of a page once it is shared. -/
def cowedPte (pte : Word) : Word :=
  if has pte pteW then pa2pte (pte2pa pte) ||| cowFlags (pteFlags pte) else pte

theorem toNat_cowFlags_lt (w : Word) : (cowFlags (pteFlags w)).toNat < 1024 := by
  unfold cowFlags
  split
  · exact toNat_or_lt_1024 (toNat_and_lt_1024 _ (toNat_pteFlags_lt _)) toNat_pte_lt.2.2.2.2.2
  · exact toNat_pteFlags_lt _

/-- Sharing leaves all flags but `PTE_W` and `PTE_COW` alone. -/
@[simp] theorem has_cowFlags (f : Word) : has (cowFlags f) pteW = false ∧
    has (cowFlags f) pteV = has f pteV ∧ has (cowFlags f) pteR = has f pteR ∧
    has (cowFlags f) pteX = has f pteX ∧ has (cowFlags f) pteU = has f pteU := by
  unfold cowFlags
  by_cases hW : has f pteW <;> simp [hW]

theorem has_cowedPte (pte : Word) : has (cowedPte pte) pteW = false ∧
    has (cowedPte pte) pteV = has pte pteV ∧ has (cowedPte pte) pteR = has pte pteR ∧
    has (cowedPte pte) pteX = has pte pteX ∧ has (cowedPte pte) pteU = has pte pteU := by
  unfold cowedPte
  by_cases hW : has pte pteW <;> simp [hW]

@[simp] theorem pte2pa_cowedPte (pte : Word) : pte2pa (cowedPte pte) = pte2pa pte := by
  unfold cowedPte
  split
  · exact pte2pa_pa2pte_or (pte2pa_lt pte) (pte2pa_mod pte) (toNat_cowFlags_lt pte)
  · rfl

/-- The child gets the flags that the parent keeps. -/
theorem cowFlags_cowedPte (pte : Word) : cowFlags (pteFlags (cowedPte pte)) = cowFlags (pteFlags pte) := by
  unfold cowedPte
  split
  next hW =>
    rw [pteFlags_pa2pte_or _ (toNat_cowFlags_lt pte)]
    exact if_neg (by simp)
  next => rfl

theorem has_sharedPte (pte : Word) : has (sharedPte pte) pteW = false ∧ has (sharedPte pte) pteV ∧
    has (sharedPte pte) pteR = has pte pteR ∧ has (sharedPte pte) pteX = has pte pteX ∧
    has (sharedPte pte) pteU = has pte pteU := by
  simp [sharedPte]

@[simp] theorem pte2pa_sharedPte (pte : Word) : pte2pa (sharedPte pte) = pte2pa pte := by
  rw [sharedPte, pte2pa_or _ toNat_pte_lt.1,
    pte2pa_pa2pte_or (pte2pa_lt pte) (pte2pa_mod pte) (toNat_cowFlags_lt pte)]

/-- The changes the kernel makes to user memory. -/
inductive Edit
  /-- a zeroed page is mapped -/
  | map (r v : Nat) (w : Word)
  /-- the kernel's own mappings above user memory -/
  | kmap (r v : Nat) (w : Word)
  /-- a page is write-protected, to be shared -/
  | cow (r v : Nat)
  /-- a page of `old` is mapped into `new` -/
  | share (old new v : Nat)
  /-- a page is closed to user code -/
  | clear (r v : Nat)
  /-- a shared page is replaced by the copy `pa` -/
  | copy (r v pa : Nat)
  /-- a page that is no longer shared becomes writable again -/
  | promote (r v : Nat)
  /-- a page is unmapped, and freed with its last entry -/
  | unmap (r v : Nat)
  /-- the bytes of a page change -/
  | write (r v : Nat) (page : Page)

open View in
open Classical in
/-- The view after an edit.  Edits of unmapped pages change nothing. -/
noncomputable def View.edit (V : View) : Edit → View
  | .map r v w =>
    let V' := V.set r v w zeroPage
    if has w pteU then V'.record (pte2pa w) r v else V'
  | .kmap r v w => V.set r v w zeroPage
  | .cow r v => V.setPte r v (cowedPte (V.pte r v))
  | .share old new v =>
    let w := sharedPte (V.pte old v)
    if has (V.pte old v) pteV then
      let V' := V.set new v w (V.sees old v)
      if has w pteU then V'.record (pte2pa w) new v else V'
    else V
  | .clear r v => V.setPte r v (V.pte r v &&& ~~~pteU)
  | .copy r v pa => (V.setPte r v (copiedPte pa)).record pa r v
  | .promote r v => (V.setPte r v (promotedPte (V.pte r v))).record (pte2pa (V.pte r v)) r v
  | .unmap r v =>
    let pa := pte2pa (V.pte r v)
    if has (V.pte r v) pteV then
      let V' := V.set r v 0 zeroPage
      if V.Sole r v pa then V'.forget pa else V'
    else V
  | .write r v page =>
    { V with
      sees := fun r' v' =>
        if V.Uses r' v' (pte2pa (V.pte r v)) then page else V.sees r' v' }

/-- The entry that an edit writes, with its place. -/
def Edit.entry (V : View) : Edit → Option (Nat × Nat × Word)
  | .map r v w => some (r, v, w)
  | .kmap r v w => some (r, v, w)
  | .cow r v => some (r, v, cowedPte (V.pte r v))
  | .share old new v => if has (V.pte old v) pteV then some (new, v, sharedPte (V.pte old v)) else none
  | .clear r v => some (r, v, V.pte r v &&& ~~~pteU)
  | .copy r v pa => some (r, v, copiedPte pa)
  | .promote r v => some (r, v, promotedPte (V.pte r v))
  | .unmap r v => if has (V.pte r v) pteV then some (r, v, 0) else none
  | .write _ _ _ => none

/-- An edit writes at most one entry. -/
theorem View.edit_pte (V : View) (e : Edit) (r v : Nat) :
    (V.edit e).pte r v = match e.entry V with
      | some (r', v', w) => if r = r' ∧ v = v' then w else V.pte r v
      | none => V.pte r v := by
  cases e with
  | map r' v' w => by_cases hU : has w pteU <;> simp [View.edit, Edit.entry, hU]
  | share old new v' =>
    by_cases hV : has (V.pte old v') pteV
    · by_cases hU : has (sharedPte (V.pte old v')) pteU <;> simp [View.edit, Edit.entry, hV, hU]
    · simp [View.edit, Edit.entry, hV]
  | unmap r' v' =>
    by_cases hV : has (V.pte r' v') pteV
    · by_cases hs : V.Sole r' v' (pte2pa (V.pte r' v')) <;>
        simp [View.edit, Edit.entry, hV, hs]
    · simp [View.edit, Edit.entry, hV]
  | kmap | cow | clear | copy | promote | write => simp [View.edit, Edit.entry]

theorem View.edit_pte_some {V : View} {e : Edit} {r v : Nat} {w : Word}
    (h : e.entry V = some (r, v, w)) (r' v' : Nat) :
    (V.edit e).pte r' v' = if r' = r ∧ v' = v then w else V.pte r' v' := by
  rw [View.edit_pte, h]

theorem View.edit_pte_none {V : View} {e : Edit} (h : e.entry V = none) : (V.edit e).pte = V.pte := by
  funext r' v'
  rw [View.edit_pte, h]

/-- The page that an edit is about: the only one whose entry it changes. -/
def Edit.place : Edit → Nat × Nat
  | .map r v _ | .kmap r v _ | .cow r v | .clear r v | .copy r v _ | .promote r v | .unmap r v
  | .write r v _ => (r, v)
  | .share _ new v => (new, v)

theorem View.edit_pte_of_ne {V : View} {e : Edit} {r v : Nat} (h : e.place ≠ (r, v)) :
    (V.edit e).pte r v = V.pte r v := by
  rw [View.edit_pte]
  split
  next r' v' w he =>
    have hplace : e.place = (r', v') := by
      cases e <;> simp only [Edit.entry] at he <;> grind [Edit.place]
    rw [if_neg]
    rintro ⟨rfl, rfl⟩
    exact h hplace
  next => rfl

section
variable [KernelImage]

/-- The circumstances in which the kernel makes an edit. -/
def View.Legal (V : View) : Edit → Prop
  | .map r v w => v < userVpn ∧ V.pte r v = 0 ∧ has w pteV ∧ has w pteCow = false ∧
      Managed (pte2pa w) ∧ V.Fresh (pte2pa w) ∧ has w pteU ∧ Managed r
  | .kmap _ v w => userVpn ≤ v ∧ (has w pteV ∨ w = 0)
  | .cow _ v => v < userVpn
  | .share old new v => v < userVpn ∧ V.pte new v = 0 ∧ has (V.pte old v) pteW = false ∧ old ≠ new ∧
      Managed new
  | .clear r v => v < userVpn ∧ has (V.pte r v) pteV ∧ V.Sole r v (pte2pa (V.pte r v))
  | .copy r v pa => v < userVpn ∧ has (V.pte r v) pteV ∧ has (V.pte r v) pteCow ∧
      has (V.pte r v) pteW = false ∧ ¬ V.Sole r v (pte2pa (V.pte r v)) ∧ Managed pa ∧ V.Fresh pa ∧
      Managed r
  | .promote r v => v < userVpn ∧ has (V.pte r v) pteV ∧ has (V.pte r v) pteCow ∧
      has (V.pte r v) pteW = false ∧ V.Sole r v (pte2pa (V.pte r v)) ∧ Managed r
  | .unmap _ v => v < userVpn
  | .write r v _ => v < userVpn ∧ has (V.pte r v) pteV ∧ V.Sole r v (pte2pa (V.pte r v))

open Classical in
/-- One edit of the kernel. -/
noncomputable def View.step (V : View) (e : Edit) : Option View :=
  if V.Legal e then some (V.edit e) else none

/-- The edits `es` lead from one view to another. -/
def Edits (V : View) (es : List Edit) (V' : View) : Prop := Runs.run View.step V es = some V'

theorem Edits.nil (V : View) : Edits V [] V := rfl

variable {V V' : View} {es : List Edit}

theorem View.step_eq_some {e : Edit} : V.step e = some V' ↔ V.Legal e ∧ V' = V.edit e := by
  unfold View.step
  split <;> simp_all [eq_comm]

theorem Edits.one {e : Edit} (h : V.Legal e) : Edits V [e] (V.edit e) := by
  rw [Edits, Runs.run_cons_of_step (View.step_eq_some.mpr ⟨h, rfl⟩)]
  rfl

theorem Edits.cons_iff {e : Edit} :
    Edits V (e :: es) V' ↔ V.Legal e ∧ Edits (V.edit e) es V' := by
  rw [Edits, Runs.run_cons, Option.bind_eq_some_iff]
  constructor
  · rintro ⟨V₁, h, hr⟩
    obtain ⟨hl, rfl⟩ := View.step_eq_some.mp h
    exact ⟨hl, hr⟩
  · rintro ⟨hl, hr⟩
    exact ⟨_, View.step_eq_some.mpr ⟨hl, rfl⟩, hr⟩

theorem Edits.nil_iff : Edits V [] V' ↔ V' = V := by
  rw [Edits, Runs.run_nil, Option.some.injEq, eq_comm]

theorem Edits.append {V'' : View} {fs : List Edit} (h : Edits V es V') (h' : Edits V' fs V'') :
    Edits V (es ++ fs) V'' := by
  rw [Edits, Runs.run_append, h]
  exact h'

theorem Edits.split {V'' : View} {fs : List Edit} (h : Edits V (es ++ fs) V'') :
    ∃ V', Edits V es V' ∧ Edits V' fs V'' := by
  rw [Edits, Runs.run_append] at h
  exact Option.bind_eq_some_iff.mp h

/-- What every legal edit keeps, every sequence of them keeps. -/
theorem Edits.invariant {P : View → Prop} (hstep : ∀ V e, P V → V.Legal e → P (V.edit e))
    (h : Edits V es V') (hP : P V) : P V' :=
  Runs.invariant_of_step (fun V e V' hV he => by
    obtain ⟨hl, rfl⟩ := View.step_eq_some.mp he
    exact hstep V e hV hl) hP h

/-- Pages that no edit is about keep their entries. -/
theorem Edits.pte_of_ne {r v : Nat} : ∀ {es : List Edit} {V V' : View}, Edits V es V' →
    (∀ e ∈ es, e.place ≠ (r, v)) → V'.pte r v = V.pte r v
  | [], V, V', h, _ => by rw [Edits.nil_iff.mp h]
  | e :: es, V, V', h, hne => by
      obtain ⟨-, h⟩ := Edits.cons_iff.mp h
      rw [h.pte_of_ne fun e' he' => hne e' (List.mem_cons_of_mem _ he'),
        View.edit_pte_of_ne (hne e List.mem_cons_self)]

end

end MiniOS
