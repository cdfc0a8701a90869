import MiniOS.Disk
import MiniOS.Lib.Crash

/-!
# MiniOS.Log

The on-disk redo log: `commit` and `recover_from_log` as the disk writes they
make, in order.  `bwrite` is synchronous, so a crash leaves the disk after a
prefix of these writes.
-/

namespace MiniOS

open Crash
open Function (update update_self update_of_ne)

/-- `LOGBLOCKS`. -/
abbrev logBlocks : Nat := 30

/-- The blocks of the log: its header at `start` and `LOGBLOCKS` blocks after it. -/
def InLog (start b : Nat) : Prop := start ≤ b ∧ b ≤ start + logBlocks

instance (start b : Nat) : Decidable (InLog start b) := inferInstanceAs (Decidable (_ ∧ _))

/-- The loop of `write_head` that copies `lh.block` to the header. -/
def putBlocks (hb : BlockData) : Nat → List Nat → BlockData
  | _, [] => hb
  | i, b :: bs => putBlocks (hb.setWord (i + 1) b) (i + 1) bs

/-- The header block that `write_head` writes over `hb` for `log.lh = lh`. -/
def headerBlock (hb : BlockData) (lh : List Nat) : BlockData := putBlocks (hb.setWord 0 lh.length) 0 lh

/-- `write_head`. -/
def writeHead (start : Nat) (lh : List Nat) : Prog Nat BlockData :=
  fun d => [(start, headerBlock (d start) lh)]

/-- The block numbers `read_head` finds in a header block: `n` is an `int`,
and a negative one ends the loops over the log at once. -/
def headerBlocks (hb : BlockData) : List Nat :=
  if hb.word 0 < 2 ^ 31 then (List.range (hb.word 0)).map fun i => hb.word (i + 1) else []

/-- `read_head`. -/
def readHead (start : Nat) (d : Disk) : List Nat := headerBlocks (d start)

/-- `write_log` from `tail` on; `cache b` is what `bread` returns for block `b`. -/
def writeLogFrom (start : Nat) (cache : Disk) : Nat → List Nat → List (Nat × BlockData)
  | _, [] => []
  | tail, b :: bs => (start + tail + 1, cache b) :: writeLogFrom start cache (tail + 1) bs

/-- `write_log`. -/
def writeLog (start : Nat) (cache : Disk) (lh : List Nat) : Prog Nat BlockData :=
  fun _ => writeLogFrom start cache 0 lh

/-- `install_trans` from `tail` on. -/
def installFrom (start : Nat) : Nat → List Nat → Prog Nat BlockData
  | _, [], _ => []
  | tail, b :: bs, d =>
    let lbuf := d (start + tail + 1)
    (b, lbuf) :: installFrom start (tail + 1) bs (update d b lbuf)

/-- `install_trans`. -/
def installTrans (start : Nat) (lh : List Nat) : Prog Nat BlockData := installFrom start 0 lh

/-- `commit` of the blocks `lh`, whose contents the cache holds. -/
def commit (start : Nat) (cache : Disk) (lh : List Nat) : Prog Nat BlockData :=
  if lh.length > 0 then
    (writeLog start cache lh).seq <|
      (writeHead start lh).seq <| (installTrans start lh).seq <| writeHead start []
  else fun _ => []

/-- `recover_from_log`. -/
def recoverFromLog (start : Nat) : Prog Nat BlockData := fun d =>
  (installTrans start (readHead start d)).seq (writeHead start []) d

/-! ## The header -/

theorem word_putBlocks_of_le (hb : BlockData) (bs : List Nat) (i j : Nat) (hi : i + bs.length < 256)
    (hj : j ≤ i) : (putBlocks hb i bs).word j = hb.word j := by
  induction bs generalizing hb i with
  | nil => rfl
  | cons b bs ih =>
    rw [List.length_cons] at hi
    rw [putBlocks, ih _ _ (by omega) (by omega),
      BlockData.word_setWord_of_ne _ (by omega) (by omega) (by omega)]

theorem word_putBlocks (hb : BlockData) (bs : List Nat) (i j : Nat) (hi : i + bs.length < 256)
    (hbs : ∀ b ∈ bs, b < 2 ^ 32) (hj : j < bs.length) :
    (putBlocks hb i bs).word (i + j + 1) = bs[j] := by
  induction bs generalizing hb i j with
  | nil => cases hj
  | cons b bs ih =>
    rw [List.length_cons] at hi hj
    cases j with
    | zero =>
      rw [putBlocks, word_putBlocks_of_le _ _ _ _ (by omega) (by omega),
        BlockData.word_setWord _ (by omega) (hbs b List.mem_cons_self)]
      rfl
    | succ j =>
      have := ih (hb.setWord (i + 1) b) (i + 1) j (by omega)
        (fun c hc => hbs c (List.mem_cons_of_mem _ hc)) (by omega)
      rw [putBlocks, List.getElem_cons_succ, ← this]
      congr 1
      omega

variable {start : Nat}

/-- What `write_head` wrote, `read_head` reads back. -/
theorem readHead_headerBlock {d : Disk} {hb : BlockData} {lh : List Nat}
    (hd : d start = headerBlock hb lh) (hn : lh.length ≤ logBlocks) (hlt : ∀ b ∈ lh, b < 2 ^ 32) :
    readHead start d = lh := by
  simp only [logBlocks] at hn
  have h0 : (d start).word 0 = lh.length := by
    rw [hd, headerBlock, word_putBlocks_of_le _ _ _ _ (by omega) (Nat.le_refl _),
      BlockData.word_setWord _ (by omega) (by omega)]
  rw [readHead, headerBlocks, h0, if_pos (by omega)]
  refine List.ext_getElem (by simp) fun i hi hi' => ?_
  rw [List.getElem_map, List.getElem_range, hd]
  have := word_putBlocks (hb.setWord 0 lh.length) lh 0 i (by omega) hlt hi'
  rwa [Nat.zero_add] at this

theorem word_headerBlock_nil (hb : BlockData) : (headerBlock hb []).word 0 = 0 :=
  BlockData.word_setWord _ (by decide) (by decide)

theorem readHead_congr {d e : Disk} (h : d start = e start) :
    readHead start d = readHead start e := by rw [readHead, readHead, h]

/-! ## The writes of a commit -/

theorem mem_writeLogFrom {cache : Disk} {tail : Nat} {bs : List Nat} {w : Nat × BlockData}
    (h : w ∈ writeLogFrom start cache tail bs) :
    start + tail + 1 ≤ w.1 ∧ w.1 ≤ start + tail + bs.length := by
  induction bs generalizing tail with
  | nil => cases h
  | cons b bs ih =>
    rw [List.length_cons]
    rcases List.mem_cons.mp h with rfl | h
    · simp only
      omega
    · have := ih h
      omega

/-- After `write_log` the log blocks hold what the cache holds for the logged blocks. -/
theorem apply_writeLogFrom (start : Nat) (cache d : Disk) (tail : Nat) (bs : List Nat) (i : Nat)
    (hi : i < bs.length) :
    apply d (writeLogFrom start cache tail bs) (start + (tail + i) + 1) = cache bs[i] := by
  induction bs generalizing d tail i with
  | nil => cases hi
  | cons b bs ih =>
    rw [List.length_cons] at hi
    cases i with
    | zero =>
      have hlate : ∀ w ∈ writeLogFrom start cache (tail + 1) bs, w.1 ≠ start + (tail + 0) + 1 := by
        intro w hw
        have := mem_writeLogFrom hw
        omega
      rw [writeLogFrom, apply, apply_of_forall_ne hlate]
      exact update_self ..
    | succ i =>
      have hidx : start + (tail + (i + 1)) + 1 = start + (tail + 1 + i) + 1 := by omega
      rw [writeLogFrom, apply, hidx]
      exact ih _ (tail + 1) i (by omega)

/-- If the log blocks hold `f` of the blocks they are for, `install_trans` writes `f`. -/
theorem installFrom_eq {f d : Disk} {tail : Nat} {bs : List Nat}
    (hn : tail + bs.length ≤ logBlocks) (hout : ∀ b ∈ bs, ¬ InLog start b)
    (hlog : ∀ i (hi : i < bs.length), d (start + (tail + i) + 1) = f bs[i]) :
    installFrom start tail bs d = bs.map fun b => (b, f b) := by
  induction bs generalizing d tail with
  | nil => rfl
  | cons b bs ih =>
    simp only [List.length_cons] at hn hlog
    have h0 : d (start + tail + 1) = f b := hlog 0 (by omega)
    rw [installFrom, h0, List.map_cons, ih (by omega) fun c hc => hout c (List.mem_cons_of_mem _ hc)]
    intro i hi
    -- the home block written first is no log block
    have hb := hout b List.mem_cons_self
    have hidx : start + (tail + 1 + i) + 1 = start + (tail + (i + 1)) + 1 := by omega
    rw [update_of_ne (by unfold InLog at hb; omega), hidx]
    exact hlog (i + 1) (by omega)

section Atomicity

variable {start : Nat} {d cache : Disk} {lh : List Nat}

/-- The disk `e` has an empty log and the home blocks of `d`. -/
structure Clean (start : Nat) (d e : Disk) : Prop where
  header : (e start).word 0 = 0
  home : ∀ b, ¬ InLog start b → e b = d b

/-- The log of `e` holds the transaction; no home block outside it has changed. -/
structure Committed (start : Nat) (d cache : Disk) (lh : List Nat) (e : Disk) : Prop where
  header : readHead start e = lh
  logged : ∀ i (hi : i < lh.length), e (start + (0 + i) + 1) = cache lh[i]
  home : ∀ b, ¬ InLog start b → b ∉ lh → e b = d b

/-- The home blocks as the transaction writes them. -/
def installed (d cache : Disk) (lh : List Nat) : Disk := fun b => if b ∈ lh then cache b else d b

variable {e : Disk}

theorem Clean.readHead (h : Clean start d e) : readHead start e = [] := by
  rw [MiniOS.readHead, headerBlocks, h.header, if_pos (by decide)]
  rfl

/-- A write of the empty header leaves a clean disk. -/
theorem Clean.writeHead (h : ∀ b, ¬ InLog start b → e b = d b) :
    Clean start d (apply e (writeHead start [] e)) where
  header := by
    rw [MiniOS.writeHead, apply, apply, update_self]
    exact word_headerBlock_nil _
  home b hb := by
    rw [MiniOS.writeHead, apply, apply, update_of_ne, h b hb]
    rintro rfl
    exact hb ⟨Nat.le_refl _, Nat.le_add_right _ _⟩

/-- Every write of `install_trans`, and so every prefix of them, keeps the transaction in the log. -/
theorem Committed.install (h : Committed start d cache lh e)
    (hout : ∀ b ∈ lh, ¬ InLog start b) (hn : lh.length ≤ logBlocks) (k : Nat) :
    Committed start d cache lh (apply e ((installTrans start lh e).take k)) := by
  have hw : (installTrans start lh e).take k = (lh.take k).map fun b => (b, cache b) := by
    rw [installTrans, installFrom_eq (by omega) hout h.logged, List.map_take]
  have hkeep : ∀ b, InLog start b → apply e ((installTrans start lh e).take k) b = e b := by
    intro b hb
    rw [hw, apply_map, if_neg fun hm => hout b (List.mem_of_mem_take hm) hb]
  refine ⟨?_, fun i hi => ?_, fun b hb hm => ?_⟩
  · rw [readHead_congr (hkeep start ⟨Nat.le_refl _, Nat.le_add_right _ _⟩), h.header]
  · rw [hkeep _ ⟨by omega, by omega⟩, h.logged i hi]
  · rw [hw, apply_map, if_neg fun hm' => hm (List.mem_of_mem_take hm'), h.home b hb hm]

/-- The whole of `install_trans` brings the home blocks to their new contents. -/
theorem Committed.installed (h : Committed start d cache lh e)
    (hout : ∀ b ∈ lh, ¬ InLog start b) (hn : lh.length ≤ logBlocks) (b : Nat)
    (hb : ¬ InLog start b) :
    apply e (installTrans start lh e) b = MiniOS.installed d cache lh b := by
  rw [installTrans, installFrom_eq (by omega) hout h.logged, apply_map, MiniOS.installed]
  by_cases hm : b ∈ lh
  · rw [if_pos hm, if_pos hm]
  · rw [if_neg hm, if_neg hm, h.home b hb hm]

/-- The disks between the first write of a commit and the end of its recovery. -/
def Midway (start : Nat) (d cache : Disk) (lh : List Nat) (e : Disk) : Prop :=
  Clean start d e ∨ Committed start d cache lh e ∨ Clean start (MiniOS.installed d cache lh) e

/-- The writes of `write_log` touch neither the header nor a home block. -/
theorem Clean.writeLog (cache : Disk) (hd : (d start).word 0 = 0) (hn : lh.length ≤ logBlocks) (k : Nat) :
    Clean start d (apply d ((writeLogFrom start cache 0 lh).take k)) := by
  have hin : ∀ w ∈ (writeLogFrom start cache 0 lh).take k, InLog start w.1 ∧ w.1 ≠ start := by
    intro w hw
    have := mem_writeLogFrom (List.mem_of_mem_take hw)
    exact ⟨⟨by omega, by omega⟩, by omega⟩
  refine ⟨?_, fun b hb => apply_of_forall_ne fun w hw h => hb (h ▸ (hin w hw).1)⟩
  rw [apply_of_forall_ne fun w hw => (hin w hw).2, hd]

/-- The header write of a commit makes the transaction the log's. -/
theorem Committed.writeHead (hn : lh.length ≤ logBlocks) (hlt : ∀ b ∈ lh, b < 2 ^ 32) :
    Committed start d cache lh
      (apply (apply d (writeLogFrom start cache 0 lh))
        (writeHead start lh (apply d (writeLogFrom start cache 0 lh)))) := by
  rw [MiniOS.writeHead, apply, apply]
  refine ⟨readHead_headerBlock (update_self ..) hn hlt, fun i hi => ?_, fun b hb _ => ?_⟩
  · rw [update_of_ne (by omega)]
    exact apply_writeLogFrom start cache d 0 lh i hi
  · rw [update_of_ne, apply_of_forall_ne]
    · intro w hw h
      have := mem_writeLogFrom hw
      exact hb ⟨by omega, by omega⟩
    · rintro rfl
      exact hb ⟨Nat.le_refl _, Nat.le_add_right _ _⟩

variable (hn : lh.length ≤ logBlocks) (hlt : ∀ b ∈ lh, b < 2 ^ 32)
  (hout : ∀ b ∈ lh, ¬ InLog start b)
include hn hout

/-- Installing a committed transaction and clearing the log, crash points included. -/
theorem Committed.finish (h : Committed start d cache lh e) (k : Nat) :
    Midway start d cache lh
      (apply e (((installTrans start lh).seq (MiniOS.writeHead start []) e).take k)) := by
  have hend := h.install hout hn (installTrans start lh e).length
  rw [List.take_length] at hend
  exact forall_take_append (fun k => .inr (.inl (h.install hout hn k)))
    (forall_take_singleton (.inr (.inl hend)) (.inr (.inr (.writeHead (h.installed hout hn))))) k

include hlt in
/-- A crash of `commit` leaves the old home blocks, the transaction in the
log, or the new home blocks. -/
theorem Midway.commit (cache : Disk) (hd : (d start).word 0 = 0) (k : Nat) :
    Midway start d cache lh (apply d ((commit start cache lh d).take k)) := by
  unfold MiniOS.commit
  split
  · have hlog := Clean.writeLog cache hd hn
    have hfull := hlog (writeLogFrom start cache 0 lh).length
    rw [List.take_length] at hfull
    have hhead : Committed start d cache lh _ := .writeHead hn hlt
    exact forall_take_append (fun k => .inl (hlog k))
      (forall_take_append (forall_take_singleton (.inl hfull) (.inr (.inl hhead)))
        (hhead.finish hn hout)) k
  · rw [List.take_nil]
    exact .inl ⟨hd, fun _ _ => rfl⟩

omit hn hout in
theorem Clean.recover {d' : Disk} (h : Clean start d' e) :
    recoverFromLog start e = MiniOS.writeHead start [] e := by
  rw [recoverFromLog, h.readHead]
  rfl

/-- A crash of recovery leads from one such disk to another. -/
theorem Midway.recover (h : Midway start d cache lh e) (k : Nat) :
    Midway start d cache lh (apply e ((recoverFromLog start e).take k)) := by
  rcases h with h | h | h
  · rw [h.recover]
    exact forall_take_singleton (.inl h) (.inl (.writeHead h.home)) k
  · rw [recoverFromLog, h.header]
    exact h.finish hn hout k
  · rw [h.recover]
    exact forall_take_singleton (.inr (.inr h)) (.inr (.inr (.writeHead h.home))) k

/-- A completed recovery leaves the old or the new home blocks. -/
theorem Midway.recovered (h : Midway start d cache lh e) :
    Clean start d (apply e (recoverFromLog start e)) ∨
      Clean start (MiniOS.installed d cache lh) (apply e (recoverFromLog start e)) := by
  rcases h with h | h | h
  · rw [h.recover]
    exact .inl (.writeHead h.home)
  · rw [recoverFromLog, h.header, Prog.seq, apply_append]
    exact .inr (.writeHead (h.installed hout hn))
  · rw [h.recover]
    exact .inr (.writeHead h.home)

end Atomicity

/-- Crash atomicity: however often `commit` and then recovery are interrupted,
the first completed recovery leaves all home blocks as before the transaction
or all as it wrote them, and an empty log. -/
theorem commit_crash_atomic {start : Nat} {d cache d₁ d₂ : Disk} {lh : List Nat}
    (hn : lh.length ≤ logBlocks) (hlt : ∀ b ∈ lh, b < 2 ^ 32) (hout : ∀ b ∈ lh, ¬ InLog start b)
    (hd : (d start).word 0 = 0) (hc : Interrupted (commit start cache lh) d d₁)
    (hr : Recovered (recoverFromLog start) d₁ d₂) :
    ((∀ b, ¬ InLog start b → d₂ b = d b) ∨
      (∀ b, ¬ InLog start b → d₂ b = if b ∈ lh then cache b else d b)) ∧
    (d₂ start).word 0 = 0 ∧ readHead start d₂ = [] := by
  obtain ⟨k, rfl⟩ := hc
  have hmid := Midway.commit hn hlt hout cache hd k
  have hend : Clean start d d₂ ∨ Clean start (installed d cache lh) d₂ :=
    Recovered.of_invariant (Q := fun e => Clean start d e ∨ Clean start (installed d cache lh) e)
      (fun e he => he.recover hn hout) (fun e he => he.recovered hn hout) hmid hr
  rcases hend with h | h
  · exact ⟨.inl h.home, h.header, h.readHead⟩
  · exact ⟨.inr h.home, h.header, h.readHead⟩

/-- BlockData 100 logged, a crash after the header write, and one interrupted recovery. -/
theorem commit_crash_atomic_block_100 :
    let d : Disk := fun _ => zeroBlock
    let cache : Disk := fun _ => zeroBlock.setByte 0 1
    let d₁ := apply d ((commit 2 cache [100] d).take 2)
    let d₂ := apply d₁ ((recoverFromLog 2 d₁).take 1)
    let d₃ := apply d₂ (recoverFromLog 2 d₂)
    ((∀ b, ¬ InLog 2 b → d₃ b = d b) ∨
      (∀ b, ¬ InLog 2 b → d₃ b = if b ∈ [100] then cache b else d b)) ∧
    (d₃ 2).word 0 = 0 ∧ readHead 2 d₃ = [] := by
  intro d cache d₁ d₂ d₃
  refine commit_crash_atomic (by decide) (by decide) (by decide) rfl ⟨2, rfl⟩
    ⟨d₂, .single ⟨1, rfl⟩, rfl⟩

end MiniOS
