import Mathlib.Data.List.Chain
import Mathlib.Logic.Function.Basic

/-!
# MiniOS.Lib.DList

Doubly linked lists: nodes with a link in each direction.  `Linked` says that
the links lead through a list of nodes; a circular list is one that starts and
ends with the same node.
-/

namespace DList

open Function (update update_self update_of_ne)

variable {ν : Type*} [DecidableEq ν]

/-- The links of all nodes. -/
structure Links (ν : Type*) where
  next : ν → ν
  prev : ν → ν

namespace Links

/-- `x->next = y`. -/
def setNext (c : Links ν) (x y : ν) : Links ν := { c with next := update c.next x y }

/-- `x->prev = y`. -/
def setPrev (c : Links ν) (x y : ν) : Links ν := { c with prev := update c.prev x y }

/-- The neighbours of `b` are linked to each other. -/
def unlink (c : Links ν) (b : ν) : Links ν :=
  let c := c.setPrev (c.next b) (c.prev b)
  c.setNext (c.prev b) (c.next b)

/-- `b` is linked after `a`. -/
def insertAfter (c : Links ν) (a b : ν) : Links ν :=
  let c := c.setNext b (c.next a)
  let c := c.setPrev b a
  let c := c.setPrev (c.next a) b
  c.setNext a b

end Links

/-- Each node of the list is linked to the one after it, in both directions. -/
def Linked (c : Links ν) (l : List ν) : Prop := l.IsChain fun x y => c.next x = y ∧ c.prev y = x

variable {c c' : Links ν} {l A B : List ν} {a b n p : ν}

omit [DecidableEq ν] in
theorem Linked.congr (h : Linked c l) (hnext : ∀ x ∈ l.dropLast, c'.next x = c.next x)
    (hprev : ∀ y ∈ l.tail, c'.prev y = c.prev y) : Linked c' l := by
  unfold Linked at *
  induction l with
  | nil => exact .nil
  | cons x l ih =>
    cases l with
    | nil => exact .singleton _
    | cons y l =>
      simp only [List.isChain_cons_cons, List.dropLast_cons_cons, List.tail_cons, List.forall_mem_cons] at *
      refine ⟨⟨hnext.1.trans h.1.1, hprev.1.trans h.1.2⟩, ih h.2 hnext.2 fun z hz => hprev.2 z hz⟩

/-- A node is taken out of a list in which no link leads twice from or to the same node. -/
theorem Linked.unlink (h : Linked c (A ++ p :: b :: n :: B)) (hbn : b ≠ n)
    (hA : p ∉ A ∧ p ∉ (n :: B).dropLast) (hB : n ∉ B ∧ n ∉ (A ++ [p]).tail) :
    Linked (c.unlink b) (A ++ p :: n :: B) := by
  obtain ⟨hlow, ⟨hpb, hbp⟩, hhigh⟩ := List.isChain_append_cons_cons.mp h
  obtain ⟨⟨hbn', hnb⟩, hhigh⟩ := List.isChain_cons_cons.mp hhigh
  have hnext : (c.unlink b).next = update c.next p n := by
    simp only [Links.unlink, Links.setPrev, Links.setNext, hbn', hbp, update_of_ne hbn]
  have hprev : (c.unlink b).prev = update c.prev n p := by
    simp only [Links.unlink, Links.setPrev, Links.setNext, hbn', hbp]
  refine List.isChain_append_cons_cons.mpr ⟨?_, ⟨by rw [hnext, update_self], by rw [hprev, update_self]⟩, ?_⟩
  · refine Linked.congr (show Linked c _ from hlow) (fun x hx => ?_) fun y hy => ?_
    · rw [hnext, update_of_ne]
      rintro rfl
      exact hA.1 (by simpa using hx)
    · rw [hprev, update_of_ne]
      rintro rfl
      exact hB.2 hy
  · refine Linked.congr (show Linked c _ from hhigh) (fun x hx => ?_) fun y hy => ?_
    · rw [hnext, update_of_ne]
      rintro rfl
      exact hA.2 hx
    · rw [hprev, update_of_ne]
      rintro rfl
      exact hB.1 hy

/-- A new node after the first. -/
theorem Linked.insertAfter (h : Linked c (a :: n :: B)) (hab : b ≠ a) (ha : a ∉ (n :: B).dropLast)
    (hb : b ∉ n :: B) (hn : n ∉ B) : Linked (c.insertAfter a b) (a :: b :: n :: B) := by
  obtain ⟨⟨han, -⟩, hrest⟩ := List.isChain_cons_cons.mp h
  have hbn : b ≠ n := fun hbn => hb (by simp [hbn])
  have hnext : (c.insertAfter a b).next = update (update c.next b n) a b := by
    simp only [Links.insertAfter, Links.setPrev, Links.setNext, han]
  have hprev : (c.insertAfter a b).prev = update (update c.prev b a) n b := by
    simp only [Links.insertAfter, Links.setPrev, Links.setNext, han, update_of_ne hab.symm]
  refine List.isChain_cons_cons.mpr ⟨⟨?_, ?_⟩, List.isChain_cons_cons.mpr ⟨⟨?_, ?_⟩, ?_⟩⟩
  · rw [hnext, update_self]
  · rw [hprev, update_of_ne hbn, update_self]
  · rw [hnext, update_of_ne hab, update_self]
  · rw [hprev, update_self]
  · refine Linked.congr (show Linked c _ from hrest) (fun x hx => ?_) fun y hy => ?_
    · have hxa : x ≠ a := by rintro rfl; exact ha hx
      have hxb : x ≠ b := by rintro rfl; exact hb (List.dropLast_subset _ hx)
      rw [hnext, update_of_ne hxa, update_of_ne hxb]
    · have hyn : y ≠ n := by rintro rfl; exact hn hy
      have hyb : y ≠ b := by rintro rfl; exact hb (List.mem_cons_of_mem _ hy)
      rw [hprev, update_of_ne hyn, update_of_ne hyb]

end DList
