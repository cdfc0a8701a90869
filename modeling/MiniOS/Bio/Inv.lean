import MiniOS.Bio

/-!
# MiniOS.Bio.Inv

The link between buffers, pins, the log and the disk, and what each call of
`bio.c` does to it.  A block in the log has a pinned buffer with what was last
stored in it; every other home block is on disk.
-/

namespace MiniOS

open Total
open Function (update update_self update_of_ne)

namespace Bio

/-- What a read of block `b` should give: the log area is what is on disk, any
other block what was last stored in it. -/
def view (start : Nat) (stored : Disk) (s : Bio) (b : Nat) : BlockData :=
  if InLog start b then s.disk b else stored b

/-- The blocks `pins` are pinned in the cache. -/
structure Inv (start : Nat) (stored : Disk) (pins : List Nat) (s : Bio) : Prop where
  lru : ∀ i, i ∈ s.lru
  unique : ∀ b i j, s.caches b i → s.caches b j → i = j
  refcnt : ∀ i, (s.buf i).refcnt =
    (s.buf i).locked.toNat + if (s.buf i).dev = rootdev ∧ (s.buf i).blockno ∈ pins then 1 else 0
  pinned : ∀ b ∈ pins, ∃ i, s.caches b i ∧ (s.buf i).valid
  data : ∀ b i, s.caches b i → (s.buf i).valid → (s.buf i).data = s.view start stored b
  home : ∀ b, ¬ InLog start b → b ∉ pins → s.disk b = stored b
  outside : ∀ b ∈ pins, ¬ InLog start b

variable {start : Nat} {stored : Disk} {pins : List Nat} {s s' : Bio} {i : Fin nbuf} {b : Nat}

theorem caches_iff : s.caches b i ↔ (s.buf i).dev = rootdev ∧ (s.buf i).blockno = b := by
  simp [caches]

@[simp] theorem setBuf_self (x : Buf) : (s.setBuf i x).buf i = x := update_self ..

@[simp] theorem setBuf_log (x : Buf) : (s.setBuf i x).log = s.log := rfl

theorem setBuf_of_ne (x : Buf) {j : Fin nbuf} (h : j ≠ i) : (s.setBuf i x).buf j = s.buf j :=
  update_of_ne h ..

/-- A change of a buffer that keeps its block. -/
theorem caches_setBuf {x : Buf} (hdev : x.dev = (s.buf i).dev) (hno : x.blockno = (s.buf i).blockno)
    (j : Fin nbuf) : (s.setBuf i x).caches b j = s.caches b j := by
  by_cases hj : j = i
  · subst hj
    simp only [caches, setBuf_self, hdev, hno]
  · simp only [caches, setBuf_of_ne x hj]

theorem caches_setBuf_self {x : Buf} (hdev : x.dev = rootdev) (hno : x.blockno = b) :
    (s.setBuf i x).caches b i := by
  rw [caches_iff, setBuf_self]
  exact ⟨hdev, hno⟩

namespace Inv

section
variable (h : s.Inv start stored pins)
include h

/-- The pin that a buffer's reference count includes. -/
theorem refcnt_eq_zero (hz : (s.buf i).refcnt = 0) :
    (s.buf i).locked = false ∧ ∀ b ∈ pins, ¬ s.caches b i := by
  have hcount := h.refcnt i
  rw [hz] at hcount
  constructor
  · cases hl : (s.buf i).locked with
    | false => rfl
    | true => rw [hl, Bool.toNat_true] at hcount; omega
  · intro b hb hc
    obtain ⟨hdev, rfl⟩ := caches_iff.mp hc
    rw [if_pos ⟨hdev, hb⟩] at hcount
    omega

theorem withLog (log : Log) :
    Inv start stored pins { s with log := log } :=
  ⟨h.lru, h.unique, h.refcnt, h.pinned, h.data, h.home, h.outside⟩

/-- A change of a buffer other than of its block, with a change of the pins and
of what is stored that concerns this block only. -/
theorem setPins {stored' : Disk} {pins' : List Nat} {x : Buf}
    (hdev : x.dev = (s.buf i).dev) (hno : x.blockno = (s.buf i).blockno)
    (hcnt : x.refcnt = x.locked.toNat + if x.dev = rootdev ∧ x.blockno ∈ pins' then 1 else 0)
    (hval : ∀ b ∈ pins', s.caches b i → x.valid)
    (hdata : s.caches x.blockno i → x.valid → x.data = s.view start stored' x.blockno)
    (hpins : ∀ b, ¬ s.caches b i → (b ∈ pins' ↔ b ∈ pins) ∧ stored' b = stored b)
    (hhome : ∀ b, ¬ InLog start b → b ∉ pins' → s.disk b = stored' b)
    (hout : ∀ b ∈ pins', ¬ InLog start b) :
    (s.setBuf i x).Inv start stored' pins' where
  lru := h.lru
  unique b j k hj hk := by
    rw [caches_setBuf hdev hno] at hj hk
    exact h.unique b j k hj hk
  refcnt j := by
    by_cases hj : j = i
    · subst hj
      rw [setBuf_self]
      exact hcnt
    · rw [setBuf_of_ne x hj, h.refcnt j]
      congr 1
      refine if_congr (and_congr_right fun hroot => (hpins _ fun hc => hj ?_).1.symm) rfl rfl
      exact h.unique _ j i (caches_iff.mpr ⟨hroot, rfl⟩) hc
  pinned b hb := by
    by_cases hc : s.caches b i
    · refine ⟨i, by rwa [caches_setBuf hdev hno], ?_⟩
      rw [setBuf_self]
      exact hval b hb hc
    · obtain ⟨j, hj, hv⟩ := h.pinned b ((hpins b hc).1.mp hb)
      have hji : j ≠ i := fun e => hc (e ▸ hj)
      exact ⟨j, by rwa [caches_setBuf hdev hno], by rwa [setBuf_of_ne x hji]⟩
  data b j hj hv := by
    rw [caches_setBuf hdev hno] at hj
    by_cases hji : j = i
    · subst hji
      rw [setBuf_self] at hv ⊢
      have hb : x.blockno = b := hno.trans (caches_iff.mp hj).2
      subst hb
      exact hdata hj hv
    · have hc : ¬ s.caches b i := fun hc => hji (h.unique b j i hj hc)
      rw [setBuf_of_ne x hji] at hv ⊢
      rw [h.data b j hj hv]
      dsimp only [view, Bio.setBuf]
      rw [(hpins b hc).2]
  home := hhome
  outside := hout

/-- A change of reference count, lock, valid bit or contents of a buffer. -/
theorem setBuf {x : Buf} (hdev : x.dev = (s.buf i).dev)
    (hno : x.blockno = (s.buf i).blockno)
    (hcnt : x.refcnt = x.locked.toNat + if x.dev = rootdev ∧ x.blockno ∈ pins then 1 else 0)
    (hval : (s.buf i).valid → x.valid)
    (hdata : s.caches x.blockno i → x.valid → x.data = s.view start stored x.blockno) :
    (s.setBuf i x).Inv start stored pins := by
  refine h.setPins hdev hno hcnt (fun b hb hc => ?_) hdata (fun _ _ => ⟨Iff.rfl, rfl⟩) h.home h.outside
  obtain ⟨j, hj, hv⟩ := h.pinned b hb
  exact hval (h.unique b j i hj hc ▸ hv)

/-- An unused buffer is given to a block that no buffer holds. -/
theorem recycle (hz : (s.buf i).refcnt = 0)
    (hnone : ∀ j, ¬ s.caches b j) :
    (s.setBuf i ⟨true, rootdev, b, true, 1, s.disk b⟩).Inv start stored pins := by
  have hb : b ∉ pins := fun hm => by
    obtain ⟨j, hj, _⟩ := h.pinned b hm
    exact hnone j hj
  have hother : ∀ {c j}, (s.setBuf i ⟨true, rootdev, b, true, 1, s.disk b⟩).caches c j →
      (j = i ∧ c = b) ∨ (j ≠ i ∧ s.caches c j) := by
    intro c j hc
    by_cases hj : j = i
    · subst hj
      rw [caches_iff, setBuf_self] at hc
      exact .inl ⟨rfl, hc.2.symm⟩
    · rw [caches_iff, setBuf_of_ne _ hj] at hc
      exact .inr ⟨hj, caches_iff.mpr hc⟩
  refine ⟨h.lru, fun c j k hj hk => ?_, fun j => ?_, fun c hc => ?_, fun c j hj hv => ?_, h.home,
    h.outside⟩
  · rcases hother hj with ⟨rfl, rfl⟩ | ⟨_, hj'⟩ <;> rcases hother hk with ⟨rfl, hcb⟩ | ⟨_, hk'⟩
    · rfl
    · exact absurd hk' (hnone k)
    · subst hcb; exact absurd hj' (hnone j)
    · exact h.unique c j k hj' hk'
  · by_cases hj : j = i
    · subst hj
      rw [setBuf_self, if_neg fun hm => hb hm.2]
      rfl
    · rw [setBuf_of_ne _ hj]
      exact h.refcnt j
  · obtain ⟨j, hj, hv⟩ := h.pinned c hc
    have hji : j ≠ i := fun e => (h.refcnt_eq_zero hz).2 c hc (e ▸ hj)
    refine ⟨j, ?_, by rwa [setBuf_of_ne _ hji]⟩
    rw [caches_iff, setBuf_of_ne _ hji]
    exact caches_iff.mp hj
  · rcases hother hj with ⟨rfl, rfl⟩ | ⟨hji, hj⟩
    · rw [setBuf_self, view]
      split
      · rfl
      · next hl => exact h.home c hl hb
    · rw [setBuf_of_ne _ hji] at hv ⊢
      exact h.data c j hj hv

end

end Inv

/-! ## bread and brelse -/

/-- `s'` differs from `s` in the buffer `i` only. -/
structure Only (i : Fin nbuf) (s s' : Bio) : Prop where
  others : ∀ j, j ≠ i → s'.buf j = s.buf j
  disk : s'.disk = s.disk
  log : s'.log = s.log
  trace : s'.trace = s.trace

/-- `i` is a locked buffer with the contents of block `b`. -/
structure Holds (s : Bio) (b : Nat) (i : Fin nbuf) : Prop where
  caches : s.caches b i
  locked : (s.buf i).locked = true
  valid : (s.buf i).valid = true

theorem only_setBuf (x : Buf) : Only i s (s.setBuf i x) :=
  ⟨fun _ hj => setBuf_of_ne x hj, rfl, rfl, rfl⟩

theorem Only.trans {s'' : Bio} (h : Only i s s') (h' : Only i s' s'') : Only i s s'' :=
  ⟨fun j hj => (h'.others j hj).trans (h.others j hj), h'.disk.trans h.disk, h'.log.trans h.log,
    h'.trace.trans h.trace⟩

theorem Holds.congr {j : Fin nbuf} (hb : s.Holds b j) (h : s'.buf j = s.buf j) : s'.Holds b j := by
  refine ⟨?_, by rw [h]; exact hb.locked, by rw [h]; exact hb.valid⟩
  rw [caches_iff, h]
  exact caches_iff.mp hb.caches

theorem Only.holds (h : Only i s s') {j : Fin nbuf} (hj : j ≠ i) (hb : s.Holds b j) : s'.Holds b j :=
  hb.congr (h.others j hj)

theorem setBuf_setBuf (x y : Buf) : (s.setBuf i x).setBuf i y = s.setBuf i y := by
  simp [Bio.setBuf]

section
variable (h : s.Inv start stored pins)
include h

/-- `bget` finds the block's buffer, or takes an unused one if there is none. -/
theorem Inv.bget (b : Nat) :
    Ensures (bget b) s fun i s' => (s.buf i).locked = false ∧
      (s.caches b i ∧ s' = s.setBuf i { s.buf i with refcnt := (s.buf i).refcnt + 1, locked := true } ∨
        (∀ j, ¬ s.caches b j) ∧ (s.buf i).refcnt = 0 ∧
          s' = s.setBuf i ⟨false, rootdev, b, true, 1, (s.buf i).data⟩) := by
  unfold MiniOS.bget
  refine ensures_bind rfl ?_
  split
  · next i hfind =>
      dsimp only
      split
      · exact ensures_failure_bind
      · next hl =>
          refine ensures_bind rfl (ensures_pure ⟨by simpa using hl, .inl ⟨?_, rfl⟩⟩)
          exact List.find?_some hfind
  · next hnone =>
      split
      · next i hfind =>
          dsimp only
          split
          · exact ensures_failure_bind
          · next hl =>
              refine ensures_bind rfl (ensures_pure ⟨by simpa using hl, .inr ⟨fun j => ?_, ?_, rfl⟩⟩)
              · exact List.find?_eq_none.mp hnone j (h.lru j)
              · simpa using List.find?_some hfind
      · exact ensures_failure

/-- `bread` returns an unlocked buffer, now locked and with the block's contents. -/
theorem Inv.bread (b : Nat) :
    Ensures (bread b) s fun i s' =>
      s'.Inv start stored pins ∧ s'.Holds b i ∧ (s.buf i).locked = false ∧ Only i s s' := by
  refine (h.bget b).bind ?_
  rintro i s' ⟨hl, ⟨hc, rfl⟩ | ⟨hnone, hz, rfl⟩⟩
  · obtain ⟨hdev, rfl⟩ := caches_iff.mp hc
    have hcnt := h.refcnt i
    rw [hl, Bool.toNat_false] at hcnt
    have hinv : (s.setBuf i { s.buf i with refcnt := (s.buf i).refcnt + 1, locked := true }).Inv
        start stored pins := by
      refine h.setBuf rfl rfl ?_ id fun hc hv => h.data _ i hc hv
      dsimp only [Bool.toNat_true]
      omega
    refine ensures_bind rfl ?_
    dsimp only
    split
    · next hv =>
        -- a pinned block has a valid buffer, so this one is not pinned
        have hpin : (s.buf i).blockno ∉ pins := fun hm => by
          obtain ⟨j, hj, hjv⟩ := h.pinned _ hm
          rw [h.unique _ j i hj hc] at hjv
          simp [hjv] at hv
        refine ensures_bind rfl (ensures_pure ?_)
        refine ⟨hinv.setBuf rfl rfl ?_ (fun _ => rfl) fun _ _ => ?_,
          ⟨caches_setBuf_self ?_ ?_, by simp, by simp⟩, hl, (only_setBuf _).trans (only_setBuf _)⟩
        · simp only [setBuf_self, Bool.toNat_true]
          omega
        · simp only [setBuf_self, Bio.view]
          split
          · rfl
          · next hout => exact h.home _ hout hpin
        · simpa using hdev
        · simp
    · next hv =>
        exact ensures_pure ⟨hinv, ⟨caches_setBuf_self hdev rfl, by simp, by simpa using hv⟩, hl,
          only_setBuf _⟩
  · refine ensures_bind rfl ?_
    simp only [setBuf_self, Bool.not_false, if_true]
    refine ensures_bind rfl (ensures_pure ?_)
    dsimp only [MiniOS.setBuf]
    rw [setBuf_setBuf]
    exact ⟨h.recycle hz hnone, ⟨caches_setBuf_self rfl rfl, by simp, by simp⟩, hl, only_setBuf _⟩

/-- The data of a held buffer. -/
theorem Inv.holds_data (hi : s.Holds b i) :
    (s.buf i).data = s.view start stored b :=
  h.data b i hi.caches hi.valid

/-- `brelse` of a held buffer unlocks it. -/
theorem Inv.brelse (hl : (s.buf i).locked = true) :
    Ensures (brelse i) s fun _ s' =>
      s'.Inv start stored pins ∧ (s'.buf i).locked = false ∧ Only i s s' := by
  have hcnt := h.refcnt i
  rw [hl, Bool.toNat_true] at hcnt
  have hinv : (s.setBuf i { s.buf i with locked := false, refcnt := (s.buf i).refcnt - 1 }).Inv
      start stored pins := by
    refine h.setBuf rfl rfl ?_ id fun hc hv => h.data _ i hc hv
    dsimp only [Bool.toNat_false]
    omega
  unfold MiniOS.brelse
  refine ensures_bind rfl ?_
  dsimp only
  rw [hl]
  refine ensures_bind rfl ?_
  split
  · intro _ s' hs'
    cases hs'
    refine ⟨⟨fun j => ?_, hinv.unique, hinv.refcnt, hinv.pinned, hinv.data, hinv.home, hinv.outside⟩,
      by simp, ⟨fun j hj => setBuf_of_ne _ hj, rfl, rfl, rfl⟩⟩
    by_cases hj : j = i
    · subst hj
      exact List.mem_cons_self
    · exact List.mem_cons_of_mem _ ((List.mem_erase_of_ne hj).mpr (h.lru j))
  · exact ensures_pure ⟨hinv, by simp, only_setBuf _⟩

end

/-! ## Writes to the disk -/

/-- A store into a buffer, written through to the disk. -/
def put (s : Bio) (i : Fin nbuf) (x : BlockData) : Bio :=
  { s.setBuf i { s.buf i with data := x } with
    disk := update s.disk (s.buf i).blockno x
    trace := s.trace ++ [((s.buf i).blockno, x)] }

theorem bwrite_eq (hl : (s.buf i).locked = true) :
    bwrite i s = some ((), { s with
      disk := update s.disk (s.buf i).blockno (s.buf i).data
      trace := s.trace ++ [((s.buf i).blockno, (s.buf i).data)] }) := by
  unfold bwrite
  rw [bind_apply]
  dsimp only [get, getThe, MonadStateOf.get, StateT.get, Option.pure_def, Option.bind_some]
  rw [hl]
  rfl

theorem bwrite_setBuf (hl : (s.buf i).locked = true) (x : BlockData) :
    bwrite i (s.setBuf i { s.buf i with data := x }) = some ((), s.put i x) := by
  rw [bwrite_eq (by rwa [setBuf_self]), setBuf_self]
  rfl

@[simp] theorem put_self (x : BlockData) : (s.put i x).buf i = { s.buf i with data := x } :=
  setBuf_self _

theorem put_of_ne (x : BlockData) {j : Fin nbuf} (h : j ≠ i) : (s.put i x).buf j = s.buf j :=
  setBuf_of_ne _ h

theorem caches_put (x : BlockData) (j : Fin nbuf) : (s.put i x).caches b j = s.caches b j :=
  caches_setBuf (s := s) (i := i) (x := { s.buf i with data := x }) rfl rfl j

/-- A write to the log area, or of what is then stored in a home block. -/
theorem Inv.put (h : s.Inv start stored pins) (hi : s.caches b i) {stored' : Disk} {x : BlockData}
    (hst : ∀ c, c ≠ b → stored' c = stored c) (hx : InLog start b ∨ x = stored' b) :
    (s.put i x).Inv start stored' pins := by
  obtain ⟨hdev, rfl⟩ := caches_iff.mp hi
  refine ⟨h.lru, fun c j k hj hk => ?_, fun j => ?_, fun c hc => ?_, fun c j hj hv => ?_,
    fun c hc hp => ?_, h.outside⟩
  · rw [caches_put] at hj hk
    exact h.unique c j k hj hk
  · by_cases hj : j = i
    · subst hj
      rw [put_self]
      exact h.refcnt j
    · rw [put_of_ne x hj]
      exact h.refcnt j
  · obtain ⟨j, hj, hv⟩ := h.pinned c hc
    refine ⟨j, by rwa [caches_put], ?_⟩
    by_cases hji : j = i
    · subst hji
      rwa [put_self]
    · rwa [put_of_ne x hji]
  · rw [caches_put] at hj
    by_cases hji : j = i
    · subst hji
      obtain ⟨_, rfl⟩ := caches_iff.mp hj
      rw [put_self]
      dsimp only [view, Bio.put]
      split
      · rw [update_self]
      · next hout => exact hx.resolve_left hout
    · have hne : c ≠ (s.buf i).blockno := fun e => hji (h.unique c j i hj (e ▸ hi))
      rw [put_of_ne x hji] at hv ⊢
      rw [h.data c j hj hv]
      dsimp only [view, Bio.put]
      rw [update_of_ne hne, hst c hne]
  · dsimp only [Bio.put]
    by_cases hcb : c = (s.buf i).blockno
    · subst hcb
      rw [update_self]
      exact hx.resolve_left hc
    · rw [update_of_ne hcb, hst c hcb]
      exact h.home c hc hp

/-- From `s` to `s'` the writes `ws` were made. -/
structure Wrote (s : Bio) (ws : List (Nat × BlockData)) (s' : Bio) : Prop where
  disk : s'.disk = Crash.apply s.disk ws
  trace : s'.trace = s.trace ++ ws

theorem Wrote.append {s'' : Bio} {ws vs : List (Nat × BlockData)} (h : Wrote s ws s')
    (h' : Wrote s' vs s'') : Wrote s (ws ++ vs) s'' :=
  ⟨by rw [h'.disk, h.disk, Crash.apply_append], by rw [h'.trace, h.trace, List.append_assoc]⟩

/-- Buffers that were locked are as before, and the others are unlocked. -/
def Quiet (s s' : Bio) : Prop :=
  ∀ k, s'.buf k = s.buf k ∨ ((s.buf k).locked = false ∧ (s'.buf k).locked = false)

theorem Quiet.refl (s : Bio) : Quiet s s := fun _ => .inl rfl

theorem Quiet.trans {s'' : Bio} (h : Quiet s s') (h' : Quiet s' s'') : Quiet s s'' := by
  intro k
  rcases h k with hk | ⟨hk, hk'⟩
  · rw [← hk]
    exact h' k
  · rcases h' k with he | ⟨_, he⟩
    · exact .inr ⟨hk, by rw [he]; exact hk'⟩
    · exact .inr ⟨hk, he⟩

end Bio

end MiniOS
