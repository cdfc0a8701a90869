import Mathlib.Logic.Function.Basic
import Mathlib.Data.Option.Basic

/-!
# MiniOS.Lib.Radix

Radix trees of a fixed depth that lie in memory.  A node is a table of
words; a valid word of an inner node names a node one level below.  A path is
the list of indices from the root to a node, last one first.

`Tree` says that no node is reached in two ways.  Under it a write to a lowest
node changes one entry, and an empty node that is hung in at an unused word
changes none.
-/

namespace MiniOS

open Function (update update_self update_of_ne)

namespace Radix

/-- How a word is read: whether it is valid, and which node it names. -/
structure Format (A W : Type) where
  valid : W → Bool
  target : W → A

variable {A I W : Type} {F : Format A W} {m m' : A → I → W} {r : A} {n : Nat}

/-- The node that a path leads to, if it is there. -/
def node (F : Format A W) (m : A → I → W) (r : A) : List I → Option A
  | [] => some r
  | i :: path =>
    (node F m r path).bind fun d => if F.valid (m d i) then some (F.target (m d i)) else none

/-- Nodes down to depth `n` are reached by one path only. -/
def Tree (F : Format A W) (n : Nat) (m : A → I → W) (r : A) : Prop :=
  ∀ p q t, p.length ≤ n → q.length ≤ n → node F m r p = some t → node F m r q = some t → p = q

/-- The word at the end of a path that is one longer than the tree is deep. -/
def entry (F : Format A W) (m : A → I → W) (r : A) : List I → Option W
  | [] => none
  | l :: path => (node F m r path).map (m · l)

/-- The inner nodes determine where the paths lead. -/
theorem node_congr (h : ∀ path d, path.length < n → node F m r path = some d → m' d = m d) {path : List I}
    (hp : path.length ≤ n) : node F m' r path = node F m r path := by
  induction path with
  | nil => rfl
  | cons i path ih =>
    rw [List.length_cons] at hp
    rw [node, node, ih (by omega)]
    cases hd : node F m r path with
    | none => rfl
    | some d => rw [Option.bind_some, Option.bind_some, h path d (by omega) hd]

theorem Tree.congr (ht : Tree F n m r) (h : ∀ path, path.length ≤ n → node F m' r path = node F m r path) :
    Tree F n m' r := fun p q t hp hq hpt hqt =>
  ht p q t hp hq (by rw [← h p hp, hpt]) (by rw [← h q hq, hqt])

/-! ## Writing to a lowest node -/

section
variable [DecidableEq A] [DecidableEq I] {path : List I} {t : A} (h : Tree F n m r)
  (ht : node F m r path = some t) (hlen : path.length = n) (l : I) (w : W)
include h ht hlen

theorem Tree.node_set {q : List I} (hq : q.length ≤ n) :
    node F (update m t (update (m t) l w)) r q = node F m r q := by
  refine node_congr (fun q d hq hd => update_of_ne ?_ _ _) hq
  rintro rfl
  rw [h q path d (Nat.le_of_lt hq) (Nat.le_of_eq hlen) hd ht, hlen] at hq
  exact Nat.lt_irrefl n hq

theorem Tree.entry_set {q : List I} (hq : q.length = n) (x : I) :
    entry F (update m t (update (m t) l w)) r (x :: q) =
      if x = l ∧ q = path then some w else entry F m r (x :: q) := by
  rw [entry, h.node_set ht hlen l w (Nat.le_of_eq hq), entry]
  cases hd : node F m r q with
  | none =>
    rw [if_neg]
    · rfl
    · rintro ⟨-, rfl⟩
      rw [hd] at ht
      cases ht
  | some d =>
    rw [Option.map_some, Option.map_some]
    by_cases hdt : d = t
    · subst hdt
      have hqp : q = path := h q path d (Nat.le_of_eq hq) (Nat.le_of_eq hlen) hd ht
      rw [update_self]
      by_cases hx : x = l
      · rw [if_pos ⟨hx, hqp⟩, hx, update_self]
      · rw [if_neg fun hc => hx hc.1, update_of_ne hx]
    · rw [update_of_ne hdt, if_neg]
      rintro ⟨-, rfl⟩
      rw [ht] at hd
      exact hdt (Option.some_inj.mp hd).symm

end

/-! ## Hanging in an empty node -/

/-- In `m'` the word `i` of the node `d` at the end of `path`, which was not valid, names the new node `p`,
which has no valid words. -/
structure Hung (F : Format A W) (n : Nat) (m m' : A → I → W) (r : A) (path : List I) (i : I)
    (d p : A) : Prop where
  parent : node F m r path = some d
  short : path.length < n
  unused : F.valid (m d i) = false
  fresh : ∀ q, q.length ≤ n → node F m r q ≠ some p
  valid : F.valid (m' d i) = true
  target : F.target (m' d i) = p
  siblings : ∀ j, j ≠ i → m' d j = m d j
  empty : ∀ j, F.valid (m' p j) = false
  others : ∀ q t, q.length ≤ n → node F m r q = some t → t ≠ d → m' t = m t

theorem Hung.node_none {path : List I} {i : I} {d p : A} (hh : Hung F n m m' r path i d p) :
    node F m r (i :: path) = none := by
  rw [node, hh.parent, Option.bind_some, hh.unused]
  rfl

section
variable [DecidableEq A] [DecidableEq I] {path : List I} {i : I} {d p : A} (h : Tree F n m r)
  (hh : Hung F n m m' r path i d p)
include h hh

theorem Hung.node_eq {q : List I} (hq : q.length ≤ n) :
    node F m' r q = if q = i :: path then some p else node F m r q := by
  induction q with
  | nil => rfl
  | cons x q ih =>
    rw [List.length_cons] at hq
    rw [node, ih (by omega)]
    by_cases hqp : q = i :: path
    · -- nothing is below the new node
      have hne : x :: q ≠ i :: path := fun he => by
        rw [← hqp] at he
        exact List.cons_ne_self x q he
      rw [if_pos hqp, if_neg hne, Option.bind_some, hh.empty, hqp, node, hh.node_none]
      rfl
    · rw [if_neg hqp]
      cases hd : node F m r q with
      | none =>
        have hne : x :: q ≠ i :: path := fun he => by
          rw [(List.cons.inj he).2, hh.parent] at hd
          cases hd
        rw [if_neg hne, node, hd]
        rfl
      | some e =>
        rw [Option.bind_some]
        by_cases hed : e = d
        · subst hed
          have hpath : q = path := h q path e (by omega) (Nat.le_of_lt hh.short) hd hh.parent
          by_cases hx : x = i
          · rw [hx, hpath, if_pos hh.valid, if_pos rfl, hh.target]
          · rw [hh.siblings x hx, if_neg fun he => hx (List.cons.inj he).1, node, hd, Option.bind_some]
        · have hne : x :: q ≠ i :: path := fun he => by
            rw [(List.cons.inj he).2, hh.parent] at hd
            exact hed (Option.some_inj.mp hd).symm
          rw [hh.others q e (by omega) hd hed, if_neg hne, node, hd, Option.bind_some]

theorem Hung.tree : Tree F n m' r := by
  intro q q' t hq hq' ht ht'
  rw [hh.node_eq h hq] at ht
  rw [hh.node_eq h hq'] at ht'
  split at ht
  next he =>
    cases ht
    split at ht'
    next he' => rw [he, he']
    next => exact absurd ht' (hh.fresh q' hq')
  next =>
    split at ht'
    next =>
      cases ht'
      exact absurd ht (hh.fresh q hq)
    next => exact h q q' t hq hq' ht ht'

theorem Hung.entry_eq {q : List I} (hq : q.length = n) (x : I) :
    entry F m' r (x :: q) = if q = i :: path then some (m' p x) else entry F m r (x :: q) := by
  rw [entry, hh.node_eq h (Nat.le_of_eq hq)]
  split
  next => rfl
  next =>
    rw [entry]
    cases ht : node F m r q with
    | none => rfl
    | some t =>
      rw [Option.map_some, Option.map_some, hh.others q t (Nat.le_of_eq hq) ht]
      rintro rfl
      have := h q path t (Nat.le_of_eq hq) (Nat.le_of_lt hh.short) ht hh.parent
      have := hh.short
      simp_all

end

end Radix

end MiniOS
