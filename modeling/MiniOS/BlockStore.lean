import MiniOS.Bio.Commit

/-!
# MiniOS.BlockStore

The cache and the log behave as one block store: in every reachable state a
`bread` of a block outside the log area returns what was last stored in it
(`bread_eq_lastStored`).
-/

namespace MiniOS

open Total Runs
open Function (update update_self update_of_ne)

/-- What was last stored in each block, or was on the disk `d` at the start. -/
def lastStored (d : Disk) : List BioOp → Disk
  | [] => d
  | .store b x :: ops => lastStored (update d b x) ops
  | _ :: ops => lastStored d ops

/-- A call on a block of the file system, outside the log area. -/
def OutsideLog (start : Nat) (_ : BlockStore) : BioOp → Prop
  | .bread b => ¬ InLog start b
  | _ => True

namespace Bio

variable {start : Nat} {stored : Disk} {pins : List Nat} {s s' : Bio} {b : Nat} {i : Fin nbuf}

theorem update_of_not_caches (hi : s.caches b i) (x : BlockData) {c : Nat} (hc : ¬ s.caches c i) :
    update stored b x c = stored c :=
  update_of_ne (by rintro rfl; exact hc hi) ..

/-- A store into a held buffer whose block is already in the log. -/
theorem Inv.storeLogged (h : s.Inv start stored pins) (hi : s.Holds b i) (hb : ¬ InLog start b)
    (hold : b ∈ pins) (x : BlockData) :
    (s.setBuf i { s.buf i with data := x }).Inv start (update stored b x) pins := by
  obtain ⟨hdev, rfl⟩ := caches_iff.mp hi.caches
  refine h.setPins rfl rfl (h.refcnt i) (fun _ _ _ => hi.valid)
    (fun _ _ => ((view_home hb).trans (update_self ..)).symm)
    (fun c hc => ⟨Iff.rfl, update_of_not_caches hi.caches x hc⟩) (fun c hc hp => ?_) h.outside
  rw [update_of_ne (by rintro rfl; exact hp hold)]
  exact h.home c hc hp

/-- A store into a held buffer whose block is new to the log, and is pinned. -/
theorem Inv.storeNew (h : s.Inv start stored pins) (hi : s.Holds b i) (hb : ¬ InLog start b)
    (hnew : b ∉ pins) (x : BlockData) :
    (s.setBuf i { s.buf i with data := x, refcnt := (s.buf i).refcnt + 1 }).Inv start
      (update stored b x) (pins ++ [b]) := by
  obtain ⟨hdev, rfl⟩ := caches_iff.mp hi.caches
  refine h.setPins rfl rfl ?_ (fun _ _ _ => hi.valid)
    (fun _ _ => ((view_home hb).trans (update_self ..)).symm)
    (fun c hc => ⟨?_, update_of_not_caches hi.caches x hc⟩) (fun c hc hp => ?_) fun c hc => ?_
  · have hcnt := h.refcnt i
    rw [if_neg fun hm => hnew hm.2] at hcnt
    rw [if_pos ⟨hdev, by simp⟩, ← Nat.add_zero (Bool.toNat _), ← hcnt]
  · rw [List.mem_append, List.mem_singleton, or_iff_left]
    rintro rfl
    exact hc hi.caches
  · rw [List.mem_append, List.mem_singleton, not_or] at hp
    rw [update_of_ne hp.2]
    exact h.home c hc hp.1
  · rcases List.mem_append.mp hc with hc | hc
    · exact h.outside c hc
    · rw [List.mem_singleton.mp hc]
      exact hb

/-- A store into a held buffer, with its `log_write`. -/
theorem Inv.store (h : s.Inv start stored s.log.lh) (hi : s.Holds b i) (hb : ¬ InLog start b)
    (x : BlockData) :
    Ensures (storeBuf i x) s fun _ s' =>
      s'.Inv start (update stored b x) s'.log.lh ∧ s'.Holds b i ∧
        (∀ j, j ≠ i → s'.buf j = s.buf j) ∧ s.log.logWrite b = some s'.log := by
  obtain ⟨hdev, rfl⟩ := caches_iff.mp hi.caches
  refine ensures_bind rfl (ensures_bind rfl ?_)
  simp only [setBuf_self, setBuf_log]
  refine ensures_liftM_bind fun log hlog => ensures_bind rfl ?_
  obtain ⟨_, hlh⟩ := Log.logWrite_eq_some hlog
  by_cases hold : (s.buf i).blockno ∈ s.log.lh
  · have hinv := (h.storeLogged hi hb hold x).withLog log
    rw [← Log.absorb_of_mem hold, show Log.absorb _ _ = log.lh by rw [hlh]] at hinv
    rw [if_neg (not_not.mpr hold)]
    exact ensures_pure ⟨hinv, ⟨caches_setBuf_self hdev rfl, by simp [hi.locked], by simp [hi.valid]⟩,
      fun j hj => setBuf_of_ne _ hj, hlog⟩
  · have hinv := (h.storeNew hi hb hold x).withLog log
    rw [← Log.absorb_of_not_mem hold, show Log.absorb _ _ = log.lh by rw [hlh]] at hinv
    rw [if_pos hold]
    refine ensures_bind rfl ?_
    intro _ s' hs'
    cases hs'
    simp only [setBuf_self]
    have hset : ∀ y z : Buf, Bio.setBuf { s.setBuf i y with log := log } i z =
        { s.setBuf i z with log := log } := fun y z => by simp [Bio.setBuf]
    rw [hset]
    exact ⟨hinv, ⟨caches_setBuf_self hdev rfl, by simp [hi.locked], by simp [hi.valid]⟩,
      fun j hj => setBuf_of_ne _ hj, hlog⟩

theorem Quiet.holds (h : Quiet s s') (hi : s.Holds b i) : s'.Holds b i := by
  rcases h i with he | ⟨hf, _⟩
  · exact hi.congr he
  · rw [hi.locked] at hf
    cases hf

end Bio

namespace BlockStore

open Bio

/-- The cache is linked to the log, and clients hold locked buffers. -/
structure Inv (start : Nat) (s : BlockStore) : Prop where
  bio : s.bio.Inv start s.stored s.bio.log.lh
  nodup : s.bio.log.lh.Nodup
  length : s.bio.log.lh.length ≤ logBlocks
  held : ∀ b i, s.held b = some i → s.bio.Holds b i ∧ ¬ InLog start b

variable {start : Nat} {s s' : BlockStore} {b : Nat}

section
variable (h : s.Inv start)
include h

/-- Two held buffers are buffers of different blocks. -/
theorem Inv.held_ne {i j : Fin nbuf} {c : Nat} (hi : s.held b = some i)
    (hj : s.held c = some j) (hne : c ≠ b) : j ≠ i := by
  rintro rfl
  have hb := caches_iff.mp (h.held b j hi).1.caches
  have hc := caches_iff.mp (h.held c j hj).1.caches
  exact hne (hc.2.symm.trans hb.2)

theorem Inv.bread (hb : ¬ InLog start b) (hs : s.step start (.bread b) = some s') :
    s'.Inv start := by
  obtain ⟨⟨i, bio⟩, hr, rfl⟩ := Option.map_eq_some_iff.mp hs
  obtain ⟨hinv, hi, hf, ho⟩ := h.bio.bread b i bio hr
  refine ⟨by rw [ho.log]; exact hinv, by rw [ho.log]; exact h.nodup, by rw [ho.log]; exact h.length,
    fun c j hc => ?_⟩
  by_cases hcb : c = b
  · subst hcb
    simp only [update_self, Option.some.injEq] at hc
    subst hc
    exact ⟨hi, hb⟩
  · simp only [update_of_ne hcb] at hc
    obtain ⟨hj, hout⟩ := h.held c j hc
    refine ⟨ho.holds (fun e => ?_) hj, hout⟩
    rw [← e, hj.locked] at hf
    cases hf

theorem Inv.brelse (hs : s.step start (.brelse b) = some s') : s'.Inv start := by
  obtain ⟨i, hi, hs⟩ := Option.bind_eq_some_iff.mp hs
  obtain ⟨⟨_, bio⟩, hr, rfl⟩ := Option.map_eq_some_iff.mp hs
  obtain ⟨hinv, _, ho⟩ := h.bio.brelse (h.held b i hi).1.locked () bio hr
  refine ⟨by rw [ho.log]; exact hinv, by rw [ho.log]; exact h.nodup, by rw [ho.log]; exact h.length,
    fun c j hc => ?_⟩
  by_cases hcb : c = b
  · simp [hcb] at hc
  · simp only [update_of_ne hcb] at hc
    exact ⟨ho.holds (h.held_ne hi hc hcb) (h.held c j hc).1, (h.held c j hc).2⟩

theorem Inv.beginOp (hs : s.step start .beginOp = some s') : s'.Inv start := by
  obtain ⟨⟨_, bio⟩, hr, rfl⟩ := Option.map_eq_some_iff.mp hs
  have key : Ensures bioBeginOp s.bio fun _ bio => ∃ log, bio = { s.bio with log := log } ∧
      log.lh = s.bio.log.lh := by
    refine ensures_bind rfl (ensures_liftM_bind fun log hlog => ?_)
    intro _ t ht
    cases ht
    exact ⟨log, rfl, Log.lh_of_beginOp hlog⟩
  obtain ⟨log, rfl, hlh⟩ := key () bio hr
  exact ⟨by rw [hlh]; exact h.bio.withLog log, by rw [hlh]; exact h.nodup, by rw [hlh]; exact h.length,
    fun c j hc => ⟨(h.held c j hc).1.congr rfl, (h.held c j hc).2⟩⟩

theorem Inv.store {x : BlockData} (hs : s.step start (.store b x) = some s') :
    s'.Inv start := by
  obtain ⟨i, hi, hs⟩ := Option.bind_eq_some_iff.mp hs
  obtain ⟨⟨_, bio⟩, hr, rfl⟩ := Option.map_eq_some_iff.mp hs
  obtain ⟨hhold, hb⟩ := h.held b i hi
  obtain ⟨hinv, hi', hothers, hlog⟩ := h.bio.store hhold hb x () bio hr
  obtain ⟨hlt, hlh⟩ := Log.logWrite_eq_some hlog
  refine ⟨hinv, ?_, ?_, fun c j hc => ?_⟩
  · rw [hlh]
    exact Log.nodup_absorb h.nodup
  · rw [hlh]
    exact (Log.length_absorb_le b _).trans hlt
  · by_cases hcb : c = b
    · subst hcb
      rw [hi] at hc
      cases hc
      exact ⟨hi', hb⟩
    · have hne := h.held_ne hi hc hcb
      obtain ⟨hj, hout⟩ := h.held c j hc
      exact ⟨hj.congr (hothers j hne), hout⟩

theorem Inv.endOp (hs : s.step start .endOp = some s') : s'.Inv start := by
  obtain ⟨⟨_, bio⟩, hr, rfl⟩ := Option.map_eq_some_iff.mp hs
  have key : Ensures (bioEndOp start) s.bio fun _ bio => Bio.Quiet s.bio bio ∧
      bio.Inv start s.stored bio.log.lh ∧ (bio.log.lh = s.bio.log.lh ∨ bio.log.lh = []) := by
    refine ensures_bind rfl (ensures_liftM_bind fun (doCommit, log) hlog => ensures_bind rfl ?_)
    have hlh := Log.lh_of_endOp hlog
    have hinv : Bio.Inv start s.stored log.lh { s.bio with log := log } := by
      rw [hlh]
      exact h.bio.withLog log
    split
    · refine (hinv.commit (by rw [hlh]; exact h.nodup) (by rw [hlh]; exact h.length)).bind ?_
      rintro _ bio ⟨hinv', hq, hlog', _⟩
      intro _ t ht
      cases ht
      have hnil : bio.log.lh = [] := by rw [hlog']
      exact ⟨hq, by rw [hnil]; exact hinv'.withLog _, .inr hnil⟩
    · exact ensures_pure ⟨fun _ => .inl rfl, hinv, .inl hlh⟩
  obtain ⟨hq, hinv, hlh⟩ := key () bio hr
  refine ⟨hinv, ?_, ?_, fun c j hc => ⟨hq.holds (h.held c j hc).1, (h.held c j hc).2⟩⟩
  · rcases hlh with e | e <;> rw [e]
    · exact h.nodup
    · exact List.nodup_nil
  · rcases hlh with e | e <;> rw [e]
    · exact h.length
    · exact Nat.zero_le _

end

/-- Every call keeps the link, on blocks outside the log area. -/
theorem Inv.step (s : BlockStore) (op : BioOp) (s' : BlockStore) (h : s.Inv start)
    (hop : OutsideLog start s op) (hs : s.step start op = some s') : s'.Inv start := by
  cases op with
  | bread b => exact h.bread hop hs
  | brelse b => exact h.brelse hs
  | beginOp => exact h.beginOp hs
  | store b x => exact h.store hs
  | endOp => exact h.endOp hs

theorem Inv.init (start : Nat) (d : Disk) : (BlockStore.init d).Inv start where
  bio :=
    { lru := fun i => List.mem_reverse.mpr (List.mem_finRange i)
      unique := nofun
      refcnt := fun _ => rfl
      pinned := nofun
      data := nofun
      home := fun _ _ _ => rfl
      outside := nofun }
  nodup := List.nodup_nil
  length := Nat.zero_le _
  held := nofun

/-- The ghost record of stores is what the calls say. -/
theorem stored_eq_lastStored {ops : List BioOp} (hr : run (step start) s ops = some s') :
    s'.stored = lastStored s.stored ops := by
  induction ops generalizing s with
  | nil => cases hr; rfl
  | cons op ops ih =>
    obtain ⟨t, ht, hr⟩ := Option.bind_eq_some_iff.mp hr
    rw [ih hr]
    cases op with
    | bread b =>
      obtain ⟨_, _, rfl⟩ := Option.map_eq_some_iff.mp ht
      rfl
    | brelse b =>
      obtain ⟨_, _, ht⟩ := Option.bind_eq_some_iff.mp ht
      obtain ⟨_, _, rfl⟩ := Option.map_eq_some_iff.mp ht
      rfl
    | beginOp =>
      obtain ⟨_, _, rfl⟩ := Option.map_eq_some_iff.mp ht
      rfl
    | store b x =>
      obtain ⟨_, _, ht⟩ := Option.bind_eq_some_iff.mp ht
      obtain ⟨_, _, rfl⟩ := Option.map_eq_some_iff.mp ht
      rfl
    | endOp =>
      obtain ⟨_, _, rfl⟩ := Option.map_eq_some_iff.mp ht
      rfl

end BlockStore

open BlockStore in
/-- After any calls on blocks outside the log area, a `bread` of such a block
returns what was last stored in it, committed or not, cached or evicted. -/
theorem bread_eq_lastStored {start : Nat} {d : Disk} {ops : List BioOp} {s : BlockStore}
    (hr : run (step start) (init d) ops = some s)
    (hout : Along (step start) (OutsideLog start) (init d) ops) {b : Nat} (hb : ¬ InLog start b)
    {i : Fin nbuf} {bio : Bio} (hread : bread b s.bio = some (i, bio)) :
    (bio.buf i).data = lastStored d ops b := by
  have h := invariant Inv.step (Inv.init start d) hout hr
  obtain ⟨hinv, hi, _, _⟩ := h.bio.bread b i bio hread
  rw [hinv.holds_data hi, Bio.view_home hb, stored_eq_lastStored hr]
  rfl

/-- One transaction that stores 1 in byte 0 of block 100. -/
def storeBlock100 : List BioOp :=
  [.beginOp, .bread 100, .store 100 (zeroBlock.setByte 0 1), .brelse 100, .endOp]

open BlockStore in
/-- The stored block is read back after its commit. -/
theorem bread_eq_lastStored_block_100 :
    ∃ s i bio, run (step 2) (init fun _ => zeroBlock) storeBlock100 = some s ∧
      bread 100 s.bio = some (i, bio) ∧
      (bio.buf i).data = lastStored (fun _ => zeroBlock) storeBlock100 100 := by
  have hsome : ((run (step 2) (init fun _ => zeroBlock) storeBlock100).bind fun s =>
      bread 100 s.bio).isSome := by decide +kernel
  obtain ⟨⟨i, bio⟩, hread⟩ := Option.isSome_iff_exists.mp hsome
  obtain ⟨s, hr, hread⟩ := Option.bind_eq_some_iff.mp hread
  refine ⟨s, i, bio, hr, hread, bread_eq_lastStored hr ?_ (by decide) hread⟩
  simp [storeBlock100, Along, OutsideLog, InLog, logBlocks]

open BlockStore in
/-- A block of the log area reads back what a commit logged there, though
nothing was stored in it. -/
theorem bread_log_block_ne_lastStored :
    (((run (step 2) (init fun _ => zeroBlock) storeBlock100).bind fun s => bread 3 s.bio).map
      fun r => (r.2.buf r.1).data 0) = some 1 ∧
    lastStored (fun _ => zeroBlock) storeBlock100 3 0 = 0 := by
  decide +kernel

end MiniOS
