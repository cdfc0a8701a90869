import MiniOS.Bio
import MiniOS.Lib.DList
import Mathlib.Data.List.FinRange

/-!
# MiniOS.Bcache

The list of buffers of `kernel/bio.c` with its links, which `Bio` has as a list
`lru`.  A call is one section of `bcache.lock`.  `refcnt` is a `uint`; contents,
`valid` and the sleep lock of a buffer are left out.
-/

namespace MiniOS.Bcache

open DList Relation
open Function (update update_self update_apply)

/-- A buffer, or `bcache.head`. -/
abbrev Node := Option (Fin nbuf)

structure Cache where
  links : Links Node
  dev : Fin nbuf → Nat
  blockno : Fin nbuf → Nat
  refcnt : Fin nbuf → Nat

/-- `binit`: the head linked to itself, then every buffer after the head. -/
def binit (c : Cache) : Cache :=
  let l := (c.links.setPrev none none).setNext none none
  { c with links := (List.finRange nbuf).foldl (fun l b => l.insertAfter none (some b)) l }

/-- A loop along the list: the first buffer that passes the test, or the head. -/
def scan (step : Node → Node) (test : Fin nbuf → Bool) : Nat → Node → Option Node
  | 0, _ => none
  | _ + 1, none => some none
  | n + 1, some b => if test b then some (some b) else scan step test n (step (some b))

/-- The test of the first loop of `bget`. -/
def caches (c : Cache) (dev blockno : Nat) (b : Fin nbuf) : Bool := c.dev b = dev ∧ c.blockno b = blockno

/-- `bget` up to `acquiresleep`: a buffer, or a panic (`none` inside). -/
def bget (fuel dev blockno : Nat) (c : Cache) : Option (Option (Fin nbuf × Cache)) := do
  match ← scan c.links.next (caches c dev blockno) fuel (c.links.next none) with
  | some b => return some (b, { c with refcnt := update c.refcnt b ((c.refcnt b + 1) % 2 ^ 32) })
  | none =>
    match ← scan c.links.prev (fun b => c.refcnt b = 0) fuel (c.links.prev none) with
    | some b =>
      return some (b, { c with
        dev := update c.dev b dev, blockno := update c.blockno b blockno, refcnt := update c.refcnt b 1 })
    | none => return none -- bget: no buffers

/-- `b->refcnt--`. -/
def decRefcnt (c : Cache) (b : Fin nbuf) : Cache :=
  { c with refcnt := update c.refcnt b ((c.refcnt b + (2 ^ 32 - 1)) % 2 ^ 32) }

/-- `brelse`, after `releasesleep`. -/
def brelse (c : Cache) (b : Fin nbuf) : Cache :=
  let c := decRefcnt c b
  if c.refcnt b = 0 then { c with links := (c.links.unlink (some b)).insertAfter none (some b) } else c

def bpin (c : Cache) (b : Fin nbuf) : Cache :=
  { c with refcnt := update c.refcnt b ((c.refcnt b + 1) % 2 ^ 32) }

def bunpin (c : Cache) (b : Fin nbuf) : Cache := decRefcnt c b

/-! ## The list -/

/-- From the head through all buffers and back. -/
structure Ring (c : Cache) (L : List (Fin nbuf)) : Prop where
  linked : Linked c.links (none :: (L.map some ++ [none]))
  nodup : L.Nodup
  all : ∀ b, b ∈ L

section
variable {c : Cache} {L xs ys : List (Fin nbuf)} {b : Fin nbuf}

/-- A loop along links that lead through `L` and to the head. -/
theorem scan_eq {step : Node → Node} (test : Fin nbuf → Bool) {x : Node}
    (h : (x :: (L.map some ++ [none])).IsChain fun x y => step x = y) (fuel : Nat) :
    scan step test fuel (step x) = if L.findIdx test < fuel then some (L.find? test) else none := by
  induction L generalizing x fuel with
  | nil =>
    have hx : step x = none := (List.isChain_cons_cons.mp h).1
    rw [hx]
    cases fuel <;> rfl
  | cons b L ih =>
    obtain ⟨hx, h⟩ := List.isChain_cons_cons.mp h
    rw [hx]
    cases fuel with
    | zero => rfl
    | succ n =>
      rw [scan, List.findIdx_cons, List.find?_cons]
      by_cases hb : test b = true
      · simp [hb]
      · simp [hb, ih h n]

theorem Ring.forward (hr : Ring c L) (test : Fin nbuf → Bool) (fuel : Nat) :
    scan c.links.next test fuel (c.links.next none) =
      if L.findIdx test < fuel then some (L.find? test) else none :=
  scan_eq test (hr.linked.imp fun _ _ h => h.1) fuel

theorem Ring.backward (hr : Ring c L) (test : Fin nbuf → Bool) (fuel : Nat) :
    scan c.links.prev test fuel (c.links.prev none) =
      if L.reverse.findIdx test < fuel then some (L.reverse.find? test) else none := by
  refine scan_eq test ?_ fuel
  have h := List.isChain_reverse.mpr (hr.linked.imp fun _ _ h => h.2)
  simpa using h

theorem none_not_mem : none ∉ L.map some := by simp

/-- The links of the list without `b`. -/
theorem linked_unlink {l : Links Node} (h : Linked l (none :: ((xs ++ b :: ys).map some ++ [none])))
    (hnd : (xs ++ b :: ys).Nodup) : Linked (l.unlink (some b)) (none :: ((xs ++ ys).map some ++ [none])) := by
  obtain ⟨hb, hnd⟩ := List.nodup_middle.mp hnd |> List.nodup_cons.mp
  obtain ⟨A, p, hA⟩ : ∃ A p, none :: xs.map some = A ++ [p] :=
    ⟨_, _, (List.dropLast_append_getLast (by simp)).symm⟩
  obtain ⟨n, B, hB⟩ : ∃ n B, ys.map some ++ [none] = n :: B := by
    cases ys with
    | nil => exact ⟨_, _, rfl⟩
    | cons y ys => exact ⟨_, _, rfl⟩
  have hsplit : none :: ((xs ++ b :: ys).map some ++ [none]) = A ++ p :: some b :: n :: B := by
    rw [List.map_append, List.append_assoc, ← List.cons_append, hA, List.map_cons, List.cons_append, hB,
      List.append_assoc]
    rfl
  have hsplit' : none :: ((xs ++ ys).map some ++ [none]) = A ++ p :: n :: B := by
    rw [List.map_append, List.append_assoc, ← List.cons_append, hA, hB, List.append_assoc]
    rfl
  have hndA : (A ++ [p]).Nodup := by
    rw [← hA]
    simp only [List.nodup_cons, none_not_mem, not_false_iff, true_and]
    exact (List.nodup_append.mp hnd).1.map (Option.some_injective _)
  have hndB : (n :: B).Nodup := by
    rw [← hB, List.nodup_append]
    refine ⟨(List.nodup_append.mp hnd).2.1.map (Option.some_injective _), by simp, by simp⟩
  rw [hsplit] at h
  rw [hsplit']
  have hdis : ∀ x ∈ xs, x ∉ ys := fun x hx hy => (List.nodup_append.mp hnd).2.2 x hx x hy rfl
  have hp : p ∈ none :: xs.map some := by rw [hA]; simp
  have hn : n ∈ ys.map some ++ [none] := by rw [hB]; simp
  refine h.unlink ?_ ⟨?_, ?_⟩ ⟨(List.nodup_cons.mp hndB).1, ?_⟩
  · rintro rfl
    exact hb (by simpa using Or.inr hn)
  · exact fun hpA => (List.nodup_append.mp hndA).2.2 p hpA p (by simp) rfl
  · rw [← hB, List.dropLast_concat]
    intro hpy
    obtain ⟨y, hy, rfl⟩ := List.mem_map.mp hpy
    exact hdis y (by simpa using hp) hy
  · rw [← hA, List.tail_cons]
    intro hnx
    obtain ⟨x, hx, rfl⟩ := List.mem_map.mp hnx
    exact hdis x hx (by simpa using hn)

/-- The links of the list with a new first buffer. -/
theorem linked_insertAfter {l : Links Node} (h : Linked l (none :: (L.map some ++ [none]))) (hb : b ∉ L)
    (hnd : L.Nodup) : Linked (l.insertAfter none (some b)) (none :: ((b :: L).map some ++ [none])) := by
  have hnd' : (L.map some ++ [none] : List Node).Nodup := by
    rw [List.nodup_append]
    exact ⟨hnd.map (Option.some_injective _), by simp, by simp⟩
  have hlast : (L.map some ++ [none] : List Node).dropLast = L.map some := List.dropLast_concat
  have hb' : some b ∉ (L.map some ++ [none] : List Node) := by simpa using hb
  rw [List.map_cons, List.cons_append]
  generalize hM : (L.map some ++ [none] : List Node) = M at *
  cases M with
  | nil => simp at hM
  | cons n B =>
    exact h.insertAfter (by simp) (by rw [hlast]; simp) hb' (List.nodup_cons.mp hnd').1

/-- A buffer becomes the most recently used. -/
theorem Ring.moveFront (hr : Ring c L) (b : Fin nbuf) :
    Ring { c with links := (c.links.unlink (some b)).insertAfter none (some b) } (b :: L.erase b) := by
  obtain ⟨xs, ys, hb, hL, herase⟩ := List.exists_erase_eq (hr.all b)
  have hnd := hr.nodup
  have hlinked := hr.linked
  rw [hL] at hnd hlinked
  obtain ⟨hb', hnd'⟩ := List.nodup_cons.mp (List.nodup_middle.mp hnd)
  rw [herase]
  refine ⟨linked_insertAfter (linked_unlink hlinked hnd) hb' hnd', List.nodup_cons.mpr ⟨hb', hnd'⟩, fun x => ?_⟩
  have := hr.all x
  rw [hL] at this
  simp only [List.mem_append, List.mem_cons] at this ⊢
  tauto

theorem linked_foldl {l : Links Node} (h : Linked l (none :: (L.map some ++ [none]))) (hnd : (xs.reverse ++ L).Nodup) :
    Linked (xs.foldl (fun l b => l.insertAfter none (some b)) l) (none :: ((xs.reverse ++ L).map some ++ [none])) := by
  induction xs generalizing l L with
  | nil => exact h
  | cons b xs ih =>
    rw [List.reverse_cons, List.append_assoc] at hnd ⊢
    obtain ⟨hb, hL⟩ := List.nodup_cons.mp (List.nodup_append.mp hnd).2.1
    exact ih (linked_insertAfter h hb hL) hnd

theorem ring_binit (c : Cache) : Ring (binit c) (List.finRange nbuf).reverse := by
  have hnd : (List.finRange nbuf).reverse.Nodup := List.nodup_reverse.mpr (List.nodup_finRange nbuf)
  refine ⟨?_, hnd, fun b => by simp⟩
  have hself : Linked ((c.links.setPrev none none).setNext none none)
      (none :: (([] : List (Fin nbuf)).map some ++ [none])) := by
    simp [Linked, Links.setPrev, Links.setNext]
  simpa [binit] using linked_foldl hself (by simpa using hnd)

end

/-! ## Runs -/

/-- The cache with the calls of `bget` and `bpin` that are outstanding. -/
structure Use where
  cache : Cache
  gets : Fin nbuf → Nat
  pins : Fin nbuf → Nat

/-- The memory of the kernel before `binit`, and then. -/
def Use.init (links : Links Node) : Use :=
  ⟨binit ⟨links, fun _ => 0, fun _ => 0, fun _ => 0⟩, fun _ => 0, fun _ => 0⟩

/-- A call that returns; `brelse` and `bunpin` match an earlier `bget` and `bpin`. -/
inductive Step (u : Use) : Use → Prop
  | bget {fuel dev blockno : Nat} {b : Fin nbuf} {c : Cache} (hdev : dev ≠ 0)
      (h : bget fuel dev blockno u.cache = some (some (b, c))) :
      Step u ⟨c, update u.gets b (u.gets b + 1), u.pins⟩
  | brelse {b : Fin nbuf} (h : 0 < u.gets b) : Step u ⟨brelse u.cache b, update u.gets b (u.gets b - 1), u.pins⟩
  | bpin {b : Fin nbuf} : Step u ⟨bpin u.cache b, u.gets, update u.pins b (u.pins b + 1)⟩
  | bunpin {b : Fin nbuf} (h : 0 < u.pins b) : Step u ⟨bunpin u.cache b, u.gets, update u.pins b (u.pins b - 1)⟩

structure Inv (u : Use) : Prop where
  ring : ∃ L, Ring u.cache L
  count : ∀ b, u.cache.refcnt b = u.gets b + u.pins b
  unique : ∀ a b, u.cache.dev a ≠ 0 → u.cache.dev a = u.cache.dev b → u.cache.blockno a = u.cache.blockno b → a = b

/-- The references to each buffer fit in a `uint`. -/
def Fits (u : Use) : Prop := ∀ b, u.gets b + u.pins b < 2 ^ 32

section
variable {u u' : Use} {c : Cache} {L : List (Fin nbuf)} {fuel dev blockno : Nat} {b : Fin nbuf}

theorem caches_iff : caches c dev blockno b = true ↔ c.dev b = dev ∧ c.blockno b = blockno := by
  simp [caches]

/-- What `bget` does, with fuel for a whole round. -/
theorem Ring.bget (hr : Ring c L) (hfuel : nbuf < fuel) : Bcache.bget fuel dev blockno c =
    some (match L.find? (caches c dev blockno) with
      | some b => some (b, { c with refcnt := update c.refcnt b ((c.refcnt b + 1) % 2 ^ 32) })
      | none => (L.reverse.find? fun b => c.refcnt b = 0).map fun b => (b, { c with
          dev := update c.dev b dev, blockno := update c.blockno b blockno, refcnt := update c.refcnt b 1 })) := by
  have hlen : L.length ≤ nbuf := by simpa using hr.nodup.length_le_card
  have hidx : ∀ test : Fin nbuf → Bool, L.findIdx test < fuel := fun test =>
    Nat.lt_of_le_of_lt (List.findIdx_le_length) (by omega)
  have hidx' : ∀ test : Fin nbuf → Bool, L.reverse.findIdx test < fuel := fun test =>
    Nat.lt_of_le_of_lt (List.findIdx_le_length) (by rw [List.length_reverse]; omega)
  rw [Bcache.bget, hr.forward, if_pos (hidx _), hr.backward, if_pos (hidx' _)]
  cases L.find? (caches c dev blockno) with
  | some b => rfl
  | none => cases L.reverse.find? fun b => c.refcnt b = 0 <;> rfl

/-- A loop that ends with less fuel ends in the same way. -/
theorem Ring.bget_mono (hr : Ring c L) {r : Option (Fin nbuf × Cache)}
    (h : Bcache.bget fuel dev blockno c = some r) : Bcache.bget (nbuf + 1) dev blockno c = some r := by
  rw [hr.bget (Nat.lt_succ_self _)]
  rw [Bcache.bget, hr.forward, hr.backward] at h
  split_ifs at h
  · cases hf : L.find? (caches c dev blockno) with
    | some b => simpa [hf] using h
    | none =>
      cases hg : L.reverse.find? fun b => c.refcnt b = 0 <;> simpa [hf, hg] using h
  · cases hf : L.find? (caches c dev blockno) with
    | some b => simpa [hf] using h
    | none => simp [hf] at h
  all_goals simp at h

/-- The counts after a change at `b`. -/
theorem count_update {r g p : Fin nbuf → Nat} (h : ∀ a, r a = g a + p a) {v x : Nat} (hv : v = x + p b) (a : Fin nbuf) :
    update r b v a = update g b x a + p a := by
  by_cases hab : a = b
  · subst hab
    simpa using hv
  · simpa [hab] using h a

theorem count_update_right {r g p : Fin nbuf → Nat} (h : ∀ a, r a = g a + p a) {v x : Nat} (hv : v = g b + x)
    (a : Fin nbuf) : update r b v a = g a + update p b x a := by
  rw [Nat.add_comm]
  exact count_update (fun a => (h a).trans (Nat.add_comm ..)) (hv.trans (Nat.add_comm ..)) a

theorem Inv.decRefcnt (h : Inv u) (hfits : Fits u) (hpos : 0 < u.gets b + u.pins b) :
    (u.cache.refcnt b + (2 ^ 32 - 1)) % 2 ^ 32 = u.gets b + u.pins b - 1 := by
  have := h.count b
  have := hfits b
  omega

theorem Inv.step (h : Inv u) (hfits : Fits u) (hs : Step u u') (hfits' : Fits u') : Inv u' := by
  obtain ⟨⟨L, hr⟩, hcount, hunique⟩ := id h
  cases hs with
  | bget hdev hget =>
    next dev blockno b c =>
    have hget := (hr.bget (Nat.lt_succ_self _)).symm.trans (hr.bget_mono hget)
    cases hfind : L.find? (caches u.cache dev blockno) with
    | some b' =>
      simp only [hfind, Option.some.injEq, Prod.mk.injEq] at hget
      obtain ⟨rfl, rfl⟩ := hget
      refine ⟨⟨L, hr.linked, hr.nodup, hr.all⟩, count_update hcount ?_, hunique⟩
      have hlt := hfits' b'
      have := hcount b'
      simp only [update_self] at hlt
      omega
    | none =>
      simp only [hfind, Option.some.injEq, Option.map_eq_some_iff, Prod.mk.injEq] at hget
      obtain ⟨b', hfree, rfl, rfl⟩ := hget
      have hzero : u.cache.refcnt b' = 0 := by simpa using List.find?_some hfree
      have hnot : ∀ a, u.cache.dev a = dev → u.cache.blockno a ≠ blockno := fun a hd hb =>
        List.find?_eq_none.mp hfind a (hr.all a) (caches_iff.mpr ⟨hd, hb⟩)
      refine ⟨⟨L, hr.linked, hr.nodup, hr.all⟩, count_update hcount ?_, fun a a' hd hdd hbb => ?_⟩
      · have := hcount b'
        omega
      · -- the requested block was in no other buffer
        simp only [update_apply] at hd hdd hbb
        split_ifs at hd hdd hbb with h₁ h₂ h₂
        · rw [h₁, h₂]
        · exact absurd hbb.symm (hnot a' hdd.symm)
        · exact absurd hbb (hnot a hdd)
        · exact hunique a a' hd hdd hbb
  | brelse hpos =>
    next b =>
    have hdec := h.decRefcnt hfits (b := b) (by omega)
    have hcount' : ∀ a, (Bcache.decRefcnt u.cache b).refcnt a = update u.gets b (u.gets b - 1) a + u.pins a :=
      count_update hcount (hdec.trans (by omega))
    have hr' : Ring (Bcache.decRefcnt u.cache b) L := ⟨hr.linked, hr.nodup, hr.all⟩
    unfold Bcache.brelse
    dsimp only
    split
    · exact ⟨⟨_, hr'.moveFront b⟩, hcount', hunique⟩
    · exact ⟨⟨L, hr'⟩, hcount', hunique⟩
  | bpin =>
    next b =>
    refine ⟨⟨L, hr.linked, hr.nodup, hr.all⟩, count_update_right hcount ?_, hunique⟩
    have hlt := hfits' b
    have := hcount b
    simp only [update_self] at hlt
    omega
  | bunpin hpos =>
    next b =>
    have hdec := h.decRefcnt hfits (b := b) (by omega)
    exact ⟨⟨L, hr.linked, hr.nodup, hr.all⟩, count_update_right hcount (hdec.trans (by omega)), hunique⟩

theorem inv_init (links : Links Node) : Inv (Use.init links) :=
  ⟨⟨_, ring_binit _⟩, fun _ => rfl, fun _ _ h => absurd rfl h⟩

theorem Inv.run {links : Links Node} (hrun : ReflTransGen (fun u u' => Step u u' ∧ Fits u') (Use.init links) u) :
    Inv u ∧ Fits u := by
  induction hrun with
  | refl => exact ⟨inv_init links, fun _ => Nat.two_pow_pos 32⟩
  | tail _ hs ih => exact ⟨ih.1.step ih.2 hs.1 hs.2, hs.2⟩

end

end MiniOS.Bcache
