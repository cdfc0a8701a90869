import MiniOS.Bio.Inv

/-!
# MiniOS.Bio.Commit

`commit` through the buffer cache makes exactly the disk writes of
`MiniOS.commit`, taking each logged block from its pinned buffer, and leaves
every home block on disk with nothing pinned.
-/

namespace MiniOS

open Total Crash

namespace Bio

variable {start : Nat} {stored : Disk} {pins : List Nat} {s s' : Bio} {i j : Fin nbuf} {b : Nat}

theorem Quiet.pair (hi : (s.buf i).locked = false) (hj : (s.buf j).locked = false)
    (hi' : (s'.buf i).locked = false) (hj' : (s'.buf j).locked = false)
    (hk : ∀ k, k ≠ i → k ≠ j → s'.buf k = s.buf k) : Quiet s s' := by
  intro k
  by_cases hki : k = i
  · subst hki
    exact .inr ⟨hi, hi'⟩
  · by_cases hkj : k = j
    · subst hkj
      exact .inr ⟨hj, hj'⟩
    · exact .inl (hk k hki hkj)

theorem view_home (hb : ¬ InLog start b) : s.view start stored b = stored b := if_neg hb

theorem view_log (hb : InLog start b) : s.view start stored b = s.disk b := if_pos hb

theorem wrote_put (hi : s.caches b i) (x : BlockData) : Wrote s [(b, x)] (s.put i x) := by
  obtain ⟨_, rfl⟩ := caches_iff.mp hi
  exact ⟨rfl, rfl⟩

theorem Only.wrote (h : Only i s s') : Wrote s [] s' := ⟨h.disk, by rw [h.trace, List.append_nil]⟩

theorem Wrote.seq {p q : Prog Nat BlockData} {s'' : Bio} (h : Wrote s (p s.disk) s')
    (h' : Wrote s' (q s'.disk) s'') : Wrote s (p.seq q s.disk) s'' := by
  rw [h.disk] at h'
  exact h.append h'

/-- `write_log` copies the pinned buffers to the log. -/
theorem Inv.writeLog (h : s.Inv start stored pins) {tail : Nat} {bs : List Nat}
    (hn : tail + bs.length ≤ logBlocks) (hbs : ∀ b ∈ bs, ¬ InLog start b) :
    Ensures (bioWriteLog start tail bs) s fun _ s' =>
      s'.Inv start stored pins ∧ Quiet s s' ∧ s'.log = s.log ∧
        Wrote s (writeLogFrom start stored tail bs) s' := by
  induction bs generalizing s tail with
  | nil => exact ensures_pure ⟨h, Quiet.refl s, rfl, rfl, by simp [writeLogFrom]⟩
  | cons b bs ih =>
    rw [List.length_cons] at hn
    have hb := hbs b List.mem_cons_self
    have hin : InLog start (start + tail + 1) := ⟨by omega, by omega⟩
    refine (h.bread _).bind ?_
    rintro i s₁ ⟨h₁, hi, fi, o₁⟩
    refine (h₁.bread b).bind ?_
    rintro j s₂ ⟨h₂, hj, fj, o₂⟩
    have hij : i ≠ j := by
      rintro rfl
      rw [hi.locked] at fj
      cases fj
    have hi₂ := o₂.holds hij hi
    have hx : (s₂.buf j).data = stored b := (h₂.holds_data hj).trans (view_home hb)
    refine ensures_bind rfl (ensures_bind rfl (ensures_bind (bwrite_setBuf hi₂.locked _) ?_))
    have h₄ := h₂.put hi₂.caches (x := (s₂.buf j).data) (fun _ _ => rfl) (.inl hin)
    refine (h₄.brelse (i := j) (by rw [put_of_ne _ hij.symm]; exact hj.locked)).bind ?_
    rintro _ s₅ ⟨h₅, uj, o₅⟩
    have li : (s₅.buf i).locked = true := by
      rw [o₅.others i hij, put_self]
      exact hi₂.locked
    refine (h₅.brelse li).bind ?_
    rintro _ s₆ ⟨h₆, ui, o₆⟩
    have hquiet : Quiet s s₆ := by
      refine .pair fi (by rw [← o₁.others j hij.symm]; exact fj) ui
        (by rw [o₆.others j hij.symm]; exact uj) fun k hki hkj => ?_
      rw [o₆.others k hki, o₅.others k hkj, put_of_ne _ hki, o₂.others k hkj, o₁.others k hki]
    have hwrote : Wrote s [(start + tail + 1, stored b)] s₆ := by
      have := ((o₁.wrote.append o₂.wrote).append (wrote_put hi₂.caches (s₂.buf j).data)).append
        (o₅.wrote.append o₆.wrote)
      rwa [hx] at this
    refine (ih h₆ (by omega) fun c hc => hbs c (List.mem_cons_of_mem _ hc)).mono ?_
    rintro _ s' ⟨h', hq', hl', hw'⟩
    refine ⟨h', hquiet.trans hq', ?_, hwrote.append hw'⟩
    rw [hl', o₆.log, o₅.log]
    exact o₂.log.trans o₁.log

/-- `write_head` writes `log.lh` over the header. -/
theorem Inv.writeHead (h : s.Inv start stored pins) :
    Ensures (bioWriteHead start) s fun _ s' =>
      s'.Inv start stored pins ∧ Quiet s s' ∧ s'.log = s.log ∧
        Wrote s (MiniOS.writeHead start s.log.lh s.disk) s' := by
  have hin : InLog start start := ⟨Nat.le_refl _, Nat.le_add_right _ _⟩
  refine ensures_bind rfl ((h.bread start).bind ?_)
  rintro i s₁ ⟨h₁, hi, fi, o₁⟩
  have hx : (s₁.buf i).data = s.disk start := by
    rw [h₁.holds_data hi, view_log hin, o₁.disk]
  refine ensures_bind rfl (ensures_bind rfl (ensures_bind (bwrite_setBuf hi.locked _) ?_))
  refine ((h₁.put hi.caches (fun _ _ => rfl) (.inl hin)).brelse (i := i) (by rw [put_self]; exact hi.locked)).mono ?_
  rintro _ s' ⟨h', ui, o'⟩
  refine ⟨h', .pair fi fi ui ui fun k hk _ => ?_, o'.log.trans o₁.log, ?_⟩
  · rw [o'.others k hk, put_of_ne _ hk, o₁.others k hk]
  · have := (o₁.wrote.append (wrote_put hi.caches (headerBlock (s₁.buf i).data s.log.lh))).append o'.wrote
    rwa [hx] at this

/-- The pin of a block that is on disk can be dropped. -/
theorem Inv.unpin {bs : List Nat} (h : s.Inv start stored (b :: bs)) (hb : b ∉ bs)
    (hi : s.caches b i) (hd : s.disk b = stored b) :
    (s.setBuf i { s.buf i with refcnt := (s.buf i).refcnt - 1 }).Inv start stored bs := by
  obtain ⟨hdev, rfl⟩ := caches_iff.mp hi
  have hcnt := h.refcnt i
  rw [if_pos ⟨hdev, List.mem_cons_self⟩] at hcnt
  refine h.setPins rfl rfl ?_ (fun c hc hci => ?_) (fun hc hv => h.data _ i hc hv) (fun c hc => ?_)
    (fun c hc hp => ?_) fun c hc => h.outside c (List.mem_cons_of_mem _ hc)
  · rw [if_neg fun hm => hb hm.2]
    dsimp only
    omega
  · obtain ⟨_, rfl⟩ := caches_iff.mp hci
    exact absurd hc hb
  · refine ⟨?_, rfl⟩
    rw [List.mem_cons, or_iff_right]
    rintro rfl
    exact hc hi
  · by_cases hcb : c = (s.buf i).blockno
    · rw [hcb]
      exact hd
    · exact h.home c hc fun hm => hp ((List.mem_cons.mp hm).resolve_left hcb)

/-- `install_trans` after a commit: each pinned block goes home and is unpinned. -/
theorem Inv.install {tail : Nat} {bs : List Nat} (h : s.Inv start stored bs) (hnd : bs.Nodup)
    (hn : tail + bs.length ≤ logBlocks)
    (hlog : ∀ k (hk : k < bs.length), s.disk (start + (tail + k) + 1) = stored bs[k]) :
    Ensures (bioInstallTrans start false tail bs) s fun _ s' =>
      s'.Inv start stored [] ∧ Quiet s s' ∧ s'.log = s.log ∧
        Wrote s (installFrom start tail bs s.disk) s' := by
  induction bs generalizing s tail with
  | nil => exact ensures_pure ⟨h, Quiet.refl s, rfl, rfl, by simp [installFrom]⟩
  | cons b bs ih =>
    rw [List.length_cons] at hn
    obtain ⟨hnb, hnd⟩ := List.nodup_cons.mp hnd
    have hb := h.outside b List.mem_cons_self
    have hin : InLog start (start + tail + 1) := ⟨by omega, by omega⟩
    refine (h.bread _).bind ?_
    rintro i s₁ ⟨h₁, hi, fi, o₁⟩
    refine (h₁.bread b).bind ?_
    rintro j s₂ ⟨h₂, hj, fj, o₂⟩
    have hij : i ≠ j := by
      rintro rfl
      rw [hi.locked] at fj
      cases fj
    have hi₂ := o₂.holds hij hi
    have hl : (s₂.buf i).data = s.disk (start + tail + 1) := by
      rw [h₂.holds_data hi₂, view_log hin, o₂.disk, o₁.disk]
    have hx : (s₂.buf i).data = stored b := hl.trans (hlog 0 (Nat.succ_pos _))
    refine ensures_bind rfl (ensures_bind rfl (ensures_bind (bwrite_setBuf hj.locked _) ?_))
    -- not recovering: `bunpin`
    refine ensures_bind rfl ?_
    have h₄ := h₂.put hj.caches (x := (s₂.buf i).data) (fun _ _ => rfl) (.inr hx)
    have hw₄ := wrote_put hj.caches (s₂.buf i).data
    have h₅ := h₄.unpin hnb (i := j) (by rw [caches_put]; exact hj.caches) (by
      rw [hw₄.disk]
      exact (Function.update_self ..).trans hx)
    refine (h₅.brelse (i := i) (by rw [setBuf_of_ne _ hij, put_of_ne _ hij]; exact hi₂.locked)).bind ?_
    rintro _ s₆ ⟨h₆, ui, o₆⟩
    have lj : (s₆.buf j).locked = true := by
      rw [o₆.others j hij.symm, setBuf_self, put_self]
      exact hj.locked
    refine (h₆.brelse lj).bind ?_
    rintro _ s₇ ⟨h₇, uj, o₇⟩
    have hquiet : Quiet s s₇ := by
      refine .pair fi (by rw [← o₁.others j hij.symm]; exact fj) (by rw [o₇.others i hij]; exact ui)
        uj fun k hki hkj => ?_
      rw [o₇.others k hkj, o₆.others k hki, setBuf_of_ne _ hkj, put_of_ne _ hkj, o₂.others k hkj,
        o₁.others k hki]
    have hwrote : Wrote s [(b, s.disk (start + tail + 1))] s₇ := by
      have := ((o₁.wrote.append o₂.wrote).append hw₄).append
        (((only_setBuf _).wrote.append o₆.wrote).append o₇.wrote)
      rwa [hl] at this
    have hlog' : ∀ k (hk : k < bs.length), s₇.disk (start + (tail + 1 + k) + 1) = stored bs[k] := by
      intro k hk
      have hidx : start + (tail + 1 + k) + 1 = start + (tail + (k + 1)) + 1 := by omega
      rw [hwrote.disk, hidx]
      exact (Function.update_of_ne (by unfold InLog at hb; omega) ..).trans
        (hlog (k + 1) (Nat.succ_lt_succ hk))
    refine (ih h₇ hnd (by omega) hlog').mono ?_
    rintro _ s' ⟨h', hq', hl', hw'⟩
    rw [hwrote.disk] at hw'
    refine ⟨h', hquiet.trans hq', ?_, hwrote.append hw'⟩
    rw [hl', o₇.log, o₆.log]
    exact o₂.log.trans o₁.log

/-- `commit` makes the writes of the log's `commit` and leaves nothing pinned. -/
theorem Inv.commit (h : s.Inv start stored s.log.lh) (hnd : s.log.lh.Nodup)
    (hn : s.log.lh.length ≤ logBlocks) :
    Ensures (bioCommit start) s fun _ s' =>
      s'.Inv start stored [] ∧ Quiet s s' ∧ s'.log = { s.log with lh := [] } ∧
        Wrote s (MiniOS.commit start stored s.log.lh s.disk) s' := by
  unfold MiniOS.commit
  refine ensures_bind rfl ?_
  dsimp only
  split
  · refine (h.writeLog (by omega) h.outside).bind ?_
    rintro _ s₁ ⟨h₁, q₁, l₁, w₁⟩
    refine h₁.writeHead.bind ?_
    rintro _ s₂ ⟨h₂, q₂, l₂, w₂⟩
    have hlog : ∀ k (hk : k < s.log.lh.length),
        s₂.disk (start + (0 + k) + 1) = stored s.log.lh[k] := by
      intro k hk
      rw [w₂.disk, w₁.disk]
      exact (Function.update_of_ne (by dsimp only; omega) ..).trans
        (apply_writeLogFrom start stored s.disk 0 s.log.lh k hk)
    refine (h₂.install hnd (by omega) hlog).bind ?_
    rintro _ s₃ ⟨h₃, q₃, l₃, w₃⟩
    refine ensures_bind rfl ?_
    refine (h₃.withLog { s₃.log with lh := [] }).writeHead.mono ?_
    rintro _ s' ⟨h', q', l', w'⟩
    refine ⟨h', ((q₁.trans q₂).trans q₃).trans q', ?_, ?_⟩
    · rw [l', l₃, l₂, l₁]
    · rw [l₁] at w₂
      have w'' : Wrote s₃ (MiniOS.writeHead start [] s₃.disk) s' := ⟨w'.disk, w'.trace⟩
      have w₁' : Wrote s (MiniOS.writeLog start stored s.log.lh s.disk) s₁ := w₁
      have w₃' : Wrote s₂ (installTrans start s.log.lh s₂.disk) s₃ := w₃
      exact w₁'.seq (w₂.seq (w₃'.seq w''))
  · next hz =>
      have hnil : s.log.lh = [] := List.length_eq_zero_iff.mp (by omega)
      rw [hnil] at h
      refine ensures_pure ⟨h, Quiet.refl s, ?_, rfl, by simp⟩
      rw [← hnil]

/-! ## Recovery -/

/-- `install_trans` of a recovery, when nothing is pinned. -/
theorem Inv.reinstall {tail : Nat} {bs : List Nat} (h : s.Inv start stored [])
    (hn : tail + bs.length ≤ logBlocks) (hbs : ∀ b ∈ bs, ¬ InLog start b) :
    Ensures (bioInstallTrans start true tail bs) s fun _ s' =>
      (∃ stored', s'.Inv start stored' []) ∧ s'.log = s.log ∧
        Wrote s (installFrom start tail bs s.disk) s' := by
  induction bs generalizing s stored tail with
  | nil => exact ensures_pure ⟨⟨stored, h⟩, rfl, rfl, by simp [installFrom]⟩
  | cons b bs ih =>
    rw [List.length_cons] at hn
    have hin : InLog start (start + tail + 1) := ⟨by omega, by omega⟩
    refine (h.bread _).bind ?_
    rintro i s₁ ⟨h₁, hi, fi, o₁⟩
    refine (h₁.bread b).bind ?_
    rintro j s₂ ⟨h₂, hj, fj, o₂⟩
    have hij : i ≠ j := by
      rintro rfl
      rw [hi.locked] at fj
      cases fj
    have hi₂ := o₂.holds hij hi
    have hl : (s₂.buf i).data = s.disk (start + tail + 1) := by
      rw [h₂.holds_data hi₂, view_log hin, o₂.disk, o₁.disk]
    refine ensures_bind rfl (ensures_bind rfl (ensures_bind (bwrite_setBuf hj.locked _) ?_))
    have h₄ := h₂.put hj.caches (x := (s₂.buf i).data)
      (fun c hc => Function.update_of_ne hc (s₂.buf i).data stored)
      (.inr (Function.update_self b (s₂.buf i).data stored).symm)
    refine (h₄.brelse (i := i) (by rw [put_of_ne _ hij]; exact hi₂.locked)).bind ?_
    rintro _ s₆ ⟨h₆, ui, o₆⟩
    have lj : (s₆.buf j).locked = true := by
      rw [o₆.others j hij.symm, put_self]
      exact hj.locked
    refine (h₆.brelse lj).bind ?_
    rintro _ s₇ ⟨h₇, uj, o₇⟩
    have hwrote : Wrote s [(b, s.disk (start + tail + 1))] s₇ := by
      have := ((o₁.wrote.append o₂.wrote).append (wrote_put hj.caches (s₂.buf i).data)).append
        (o₆.wrote.append o₇.wrote)
      rwa [hl] at this
    refine (ih h₇ (by omega) fun c hc => hbs c (List.mem_cons_of_mem _ hc)).mono ?_
    rintro _ s' ⟨h', hl', hw'⟩
    rw [hwrote.disk] at hw'
    refine ⟨h', ?_, hwrote.append hw'⟩
    rw [hl', o₇.log, o₆.log]
    exact o₂.log.trans o₁.log

/-- `recover_from_log` makes the writes of the log's recovery. -/
theorem Inv.recover (h : s.Inv start stored []) (hn : (readHead start s.disk).length ≤ logBlocks)
    (hout : ∀ b ∈ readHead start s.disk, ¬ InLog start b) :
    Ensures (bioRecover start) s fun _ s' =>
      (∃ stored', s'.Inv start stored' []) ∧ s'.log.lh = [] ∧
        Wrote s (recoverFromLog start s.disk) s' := by
  have hin : InLog start start := ⟨Nat.le_refl _, Nat.le_add_right _ _⟩
  refine (h.bread start).bind ?_
  rintro i s₁ ⟨h₁, hi, _, o₁⟩
  have hx : headerBlocks (s₁.buf i).data = readHead start s.disk := by
    rw [h₁.holds_data hi, view_log hin, o₁.disk, readHead]
  refine ensures_bind rfl (ensures_bind rfl (ensures_bind rfl ?_))
  refine ((h₁.withLog { s₁.log with lh := headerBlocks (s₁.buf i).data }).brelse hi.locked).bind ?_
  rintro _ s₂ ⟨h₂, _, o₂⟩
  have hd₂ : s₂.disk = s.disk := o₂.disk.trans o₁.disk
  simp only [hx]
  refine (h₂.reinstall (by omega) hout).bind ?_
  rintro _ s₃ ⟨⟨stored', h₃⟩, _, w₃⟩
  refine ensures_bind rfl ((h₃.withLog { s₃.log with lh := [] }).writeHead.mono ?_)
  rintro _ s' ⟨h', _, l', w'⟩
  refine ⟨⟨stored', h'⟩, by rw [l'], ?_⟩
  have w₂ : Wrote s (installTrans start (readHead start s.disk) s.disk) s₃ := by
    have hsame : Wrote s [] s₂ := ⟨hd₂, by rw [o₂.trace, List.append_nil]; exact o₁.trace⟩
    rw [hd₂] at w₃
    exact hsame.append w₃
  have w'' : Wrote s₃ (MiniOS.writeHead start [] s₃.disk) s' := ⟨w'.disk, w'.trace⟩
  exact w₂.seq w''

end Bio

end MiniOS
