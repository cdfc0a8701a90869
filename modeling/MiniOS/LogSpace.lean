import MiniOS.Log
import MiniOS.Lib.Budget
import MiniOS.Lib.Runs

/-!
# MiniOS.LogSpace

The in-memory log: `begin_op`, `log_write` and `end_op` of concurrent
file-system operations, one critical section of `log.lock` a step, and the
commit of the last operation to end.

`begin_op` admits an operation only if the log has room for `MAXOPBLOCKS`
more blocks of every operation (`Budget`).  So a block that is not in the log
always finds room.  `log_write` makes its check before it looks for the block
in the log, and panics exactly when the log is full and has the block
(`logWrite_panics_iff`).
-/

namespace MiniOS

open Budget Runs

/-- `MAXOPBLOCKS`. -/
abbrev maxOpBlocks : Nat := 10

/-- `struct log`; `lh` holds `lh.block[0..n)`. -/
structure Log where
  lh : List Nat
  outstanding : Nat
  committing : Bool
deriving DecidableEq, Repr

namespace Log

/-- `begin_op`; `none` when it sleeps. -/
def beginOp (log : Log) : Option Log :=
  if log.committing then none
  else if log.lh.length + (log.outstanding + 1) * maxOpBlocks > logBlocks then none
  else some { log with outstanding := log.outstanding + 1 }

/-- The loop of `log_write`, and the store to `lh.block[i]` after it. -/
def absorb (b : Nat) : List Nat → List Nat
  | [] => [b]
  | x :: xs => if x = b then b :: xs else x :: absorb b xs

/-- `log_write` of a buffer for block `b`; `none` when it panics. -/
def logWrite (log : Log) (b : Nat) : Option Log :=
  if log.lh.length ≥ logBlocks then none -- too big a transaction
  else if log.outstanding < 1 then none -- log_write outside of trans
  else some { log with lh := absorb b log.lh }

/-- The critical section of `end_op`, with `do_commit`; `none` when it panics. -/
def endOp (log : Log) : Option (Bool × Log) :=
  let outstanding := log.outstanding - 1
  if log.committing then none
  else if outstanding = 0 then some (true, { log with outstanding := outstanding, committing := true })
  else some (false, { log with outstanding := outstanding })

variable {b : Nat}

theorem absorb_of_mem {lh : List Nat} (h : b ∈ lh) : absorb b lh = lh := by
  induction lh with
  | nil => cases h
  | cons x xs ih =>
    rw [absorb]
    split
    · next hx => rw [hx]
    · next hx => rw [ih ((List.mem_cons.mp h).resolve_left (Ne.symm hx))]

theorem absorb_of_not_mem {lh : List Nat} (h : b ∉ lh) : absorb b lh = lh ++ [b] := by
  induction lh with
  | nil => rfl
  | cons x xs ih =>
    rw [List.mem_cons, not_or] at h
    rw [absorb, if_neg (Ne.symm h.1), ih h.2, List.cons_append]

theorem length_absorb_le (b : Nat) (lh : List Nat) : (absorb b lh).length ≤ lh.length + 1 := by
  by_cases hb : b ∈ lh
  · rw [absorb_of_mem hb]
    exact Nat.le_succ _
  · rw [absorb_of_not_mem hb, List.length_append, List.length_singleton]

theorem nodup_absorb {lh : List Nat} (h : lh.Nodup) : (absorb b lh).Nodup := by
  by_cases hb : b ∈ lh
  · rwa [absorb_of_mem hb]
  · rw [absorb_of_not_mem hb]
    exact List.nodup_append.mpr ⟨h, List.nodup_singleton b, fun x hx y hy e =>
      hb (List.mem_singleton.mp hy ▸ e ▸ hx)⟩

theorem lh_of_beginOp {log log' : Log} (h : log.beginOp = some log') : log'.lh = log.lh := by
  unfold beginOp at h
  split at h
  · cases h
  · split at h
    · cases h
    · cases h; rfl

theorem lh_of_endOp {log log' : Log} {doCommit : Bool} (h : log.endOp = some (doCommit, log')) :
    log'.lh = log.lh := by
  simp only [endOp] at h
  split at h
  · cases h
  · split at h <;> (cases h; rfl)

theorem logWrite_eq_some {log log' : Log} (h : log.logWrite b = some log') :
    log.lh.length < logBlocks ∧ log' = { log with lh := absorb b log.lh } := by
  unfold logWrite at h
  split at h
  · cases h
  · next hlt =>
      split at h
      · cases h
      · cases h
        exact ⟨Nat.lt_of_not_le hlt, rfl⟩

end Log

/-- Where a process is: outside the file system, inside an operation that has
logged some blocks, in the `commit` of its `end_op`, or after it. -/
inductive OpPc
  | idle
  | running (logged : Finset Nat)
  | committing
  | committed
deriving DecidableEq

/-- The blocks an operation has logged. -/
def OpPc.asked : OpPc → Option (Finset Nat)
  | .running logged => some logged
  | _ => none

/-- The process is past the critical section of an `end_op` that commits. -/
def OpPc.ending : OpPc → Bool
  | .committing | .committed => true
  | _ => false

/-- The log and the processes `ι` that use it. -/
structure LogSys (ι : Type) where
  log : Log
  ops : ι → OpPc

inductive LogEvent (ι : Type)
  | beginOp (p : ι)
  | logWrite (p : ι) (b : Nat)
  | endOp (p : ι)
  | commit (p : ι)
  | finish (p : ι)

variable {ι : Type} [DecidableEq ι]

def LogSys.set (s : LogSys ι) (p : ι) (log : Log) (pc : OpPc) : LogSys ι :=
  ⟨log, Function.update s.ops p pc⟩

/-- One step.  An operation logs at most `MAXOPBLOCKS` distinct blocks. -/
def logStep (s : LogSys ι) : LogEvent ι → Option (LogSys ι)
  | .beginOp p =>
    match s.ops p with
    | .idle => s.log.beginOp.map fun log => s.set p log (.running ∅)
    | _ => none
  | .logWrite p b =>
    match s.ops p with
    | .running logged =>
      if (insert b logged).card ≤ maxOpBlocks then
        (s.log.logWrite b).map fun log => s.set p log (.running (insert b logged))
      else none
    | _ => none
  | .endOp p =>
    match s.ops p with
    | .running _ =>
      s.log.endOp.map fun (doCommit, log) =>
        s.set p log (if doCommit then .committing else .idle)
    | _ => none
  | .commit p =>
    match s.ops p with
    | .committing => some (s.set p { s.log with lh := [] } .committed)
    | _ => none
  | .finish p =>
    match s.ops p with
    | .committed => some (s.set p { s.log with committing := false } .idle)
    | _ => none

/-- The log after `initlog`, with no operation begun. -/
def LogSys.init : LogSys ι := ⟨⟨[], 0, false⟩, fun _ => .idle⟩

/-! ## The reservation -/

/-- The account that the log keeps of its operations. -/
def LogSys.account (s : LogSys ι) : Account ι Nat := ⟨s.log.lh, fun p => (s.ops p).asked⟩

variable [Fintype ι]

structure LogSys.Inv (s : LogSys ι) : Prop where
  within : Within maxOpBlocks logBlocks s.account
  outstanding : s.log.outstanding = admitted s.account.party
  ending : ∀ p, (s.ops p).ending → s.log.committing = true
  unique : ∀ p q, (s.ops p).ending → (s.ops q).ending → p = q
  quiet : s.log.committing = true → s.log.outstanding = 0

namespace LogSys

variable {s : LogSys ι} {p : ι}

section
omit [Fintype ι]

theorem account_set (log : Log) (pc : OpPc) :
    (s.set p log pc).account = ⟨log.lh, Function.update s.account.party p pc.asked⟩ := by
  unfold account set
  congr 1
  exact Function.comp_update OpPc.asked s.ops p pc

/-- The account of a process that is outside an operation before and after. -/
theorem account_set_of_none {log : Log} {pc : OpPc} (hp : (s.ops p).asked = none)
    (hpc : pc.asked = none) : (s.set p log pc).account = ⟨log.lh, s.account.party⟩ := by
  rw [account_set, hpc]
  congr 1
  exact Function.update_eq_self_iff.mpr hp.symm

theorem ops_set_of_ne (log : Log) (pc : OpPc) {q : ι} (h : q ≠ p) :
    (s.set p log pc).ops q = s.ops q := Function.update_of_ne h ..

@[simp] theorem ops_set_self (log : Log) (pc : OpPc) : (s.set p log pc).ops p = pc :=
  Function.update_self ..

/-- A process that does not end an operation adds nobody to those that do. -/
theorem ending_of_set {log : Log} {pc : OpPc} (hpc : pc.ending = false) {q : ι}
    (h : ((s.set p log pc).ops q).ending) : q ≠ p ∧ (s.ops q).ending := by
  by_cases hq : q = p
  · subst hq
    rw [ops_set_self, hpc] at h
    cases h
  · rw [ops_set_of_ne log pc hq] at h
    exact ⟨hq, h⟩

end

namespace Inv

variable {logged : Finset Nat}

/-- An operation that runs is counted, so nobody is committing. -/
theorem not_committing (h : s.Inv) (hp : s.ops p = .running logged) :
    s.log.committing = false ∧ 1 ≤ s.log.outstanding := by
  have hparty : s.account.party p = some logged := by simp only [account, hp, OpPc.asked]
  have hone : 1 ≤ s.log.outstanding := by
    have := admitted_none s.account.party hparty
    rw [h.outstanding]
    omega
  refine ⟨?_, hone⟩
  by_contra hc
  have := h.quiet (by simpa using hc)
  omega

theorem beginOp (h : s.Inv) (hp : s.ops p = .idle) {log : Log} (hb : s.log.beginOp = some log) :
    (s.set p log (.running ∅)).Inv := by
  have hparty : s.account.party p = none := by simp only [account, hp, OpPc.asked]
  unfold Log.beginOp at hb
  split at hb
  · cases hb
  · next hc =>
      split at hb
      · cases hb
      · next hroom =>
          cases hb
          have hnot : ∀ q, ¬ (s.ops q).ending := fun q hq => hc (h.ending q hq)
          refine ⟨?_, ?_, fun q hq => ?_, fun q _ hq => ?_, fun hq => absurd hq hc⟩
          · rw [account_set]
            refine h.within.enter hparty ?_
            rw [← h.outstanding]
            exact Nat.le_of_not_lt hroom
          · rw [account_set]
            exact (congrArg (· + 1) h.outstanding).trans (admitted_some _ _ hparty).symm
          · exact absurd (ending_of_set rfl hq).2 (hnot q)
          · exact absurd (ending_of_set rfl hq).2 (hnot q)

theorem logWrite (h : s.Inv) {b : Nat} (hp : s.ops p = .running logged)
    (hq : (insert b logged).card ≤ maxOpBlocks) {log : Log} (hw : s.log.logWrite b = some log) :
    (s.set p log (.running (insert b logged))).Inv := by
  have hparty : s.account.party p = some logged := by simp only [account, hp, OpPc.asked]
  obtain ⟨_, rfl⟩ := Log.logWrite_eq_some hw
  refine ⟨?_, ?_, fun q hq => h.ending q (ending_of_set rfl hq).2, fun q r hq hr =>
    h.unique q r (ending_of_set rfl hq).2 (ending_of_set rfl hr).2, h.quiet⟩
  · rw [account_set]
    by_cases hb : b ∈ s.log.lh
    · simp only [Log.absorb_of_mem hb]
      exact h.within.absorb hparty hb
    · simp only [Log.absorb_of_not_mem hb]
      exact h.within.add hparty hq hb
  · rw [account_set]
    exact h.outstanding.trans (admitted_again _ _ hparty).symm

theorem endOp (h : s.Inv) (hp : s.ops p = .running logged) {doCommit : Bool}
    {log : Log} (he : s.log.endOp = some (doCommit, log)) :
    (s.set p log (if doCommit then .committing else .idle)).Inv := by
  have hparty : s.account.party p = some logged := by simp only [account, hp, OpPc.asked]
  obtain ⟨hnc, hone⟩ := h.not_committing hp
  have hnot : ∀ q, ¬ (s.ops q).ending := fun q hq => by
    have := h.ending q hq
    rw [hnc] at this
    cases this
  have hcount : s.log.outstanding - 1 = admitted (Function.update s.account.party p none) := by
    have := admitted_none s.account.party hparty
    rw [h.outstanding]
    omega
  simp only [Log.endOp, hnc, Bool.false_eq_true, if_false] at he
  split at he
  · next hzero =>
      cases he
      have honly : ∀ q, ((s.set p ⟨s.log.lh, s.log.outstanding - 1, true⟩ .committing).ops q).ending →
          q = p := by
        intro q hq
        by_contra hne
        rw [ops_set_of_ne _ _ hne] at hq
        exact hnot q hq
      refine ⟨?_, ?_, fun _ _ => rfl, fun q r hq hr => (honly q hq).trans (honly r hr).symm,
        fun _ => hzero⟩
      · rw [account_set]
        exact h.within.leave p
      · rw [account_set]
        exact hcount
  · cases he
    refine ⟨?_, ?_, fun q hq => absurd (ending_of_set rfl hq).2 (hnot q),
      fun q _ hq => absurd (ending_of_set rfl hq).2 (hnot q), fun hc => ?_⟩
    · rw [account_set]
      exact h.within.leave p
    · rw [account_set]
      exact hcount
    · cases hc

theorem commit (h : s.Inv) (hp : s.ops p = .committing) :
    (s.set p { s.log with lh := [] } .committed).Inv := by
  have hend : (s.ops p).ending := by rw [hp]; rfl
  have hzero := h.quiet (h.ending p hend)
  have hnot : (s.ops p).asked = none := by rw [hp]; rfl
  have hends : ∀ q, ((s.set p { s.log with lh := [] } .committed).ops q).ending → (s.ops q).ending := by
    intro q hq
    by_cases hqp : q = p
    · rw [hqp]
      exact hend
    · rwa [ops_set_of_ne _ _ hqp] at hq
  refine ⟨?_, ?_, fun q hq => h.ending q (hends q hq),
    fun q r hq hr => h.unique q r (hends q hq) (hends r hr), h.quiet⟩
  · rw [account_set_of_none hnot rfl]
    exact h.within.clear (h.outstanding ▸ hzero)
  · rw [account_set_of_none hnot rfl]
    exact h.outstanding

theorem finish (h : s.Inv) (hp : s.ops p = .committed) :
    (s.set p { s.log with committing := false } .idle).Inv := by
  have hend : (s.ops p).ending := by rw [hp]; rfl
  have hnot : (s.ops p).asked = none := by rw [hp]; rfl
  -- the committing process was the only one, so none is left
  have hnone : ∀ q, ¬ ((s.set p { s.log with committing := false } .idle).ops q).ending := by
    intro q hq
    obtain ⟨hne, hq⟩ := ending_of_set rfl hq
    exact hne (h.unique q p hq hend)
  refine ⟨?_, ?_, fun q hq => absurd hq (hnone q), fun q _ hq => absurd hq (hnone q), nofun⟩
  · rw [account_set_of_none hnot rfl]
    exact h.within
  · rw [account_set_of_none hnot rfl]
    exact h.outstanding

/-- Every step keeps the reservation. -/
theorem step (s : LogSys ι) (e : LogEvent ι) (s' : LogSys ι) (h : s.Inv)
    (he : logStep s e = some s') : s'.Inv := by
  cases e with
  | beginOp p =>
    simp only [logStep] at he
    split at he
    · next hp =>
        obtain ⟨log, hb, rfl⟩ := Option.map_eq_some_iff.mp he
        exact h.beginOp hp hb
    · cases he
  | logWrite p b =>
    simp only [logStep] at he
    split at he
    · next logged hp =>
        split at he
        · next hq =>
            obtain ⟨log, hw, rfl⟩ := Option.map_eq_some_iff.mp he
            exact h.logWrite hp hq hw
        · cases he
    · cases he
  | endOp p =>
    simp only [logStep] at he
    split at he
    · next logged hp =>
        obtain ⟨⟨doCommit, log⟩, hw, rfl⟩ := Option.map_eq_some_iff.mp he
        exact h.endOp hp hw
    · cases he
  | commit p =>
    simp only [logStep] at he
    split at he
    · next hp => cases he; exact h.commit hp
    · cases he
  | finish p =>
    simp only [logStep] at he
    split at he
    · next hp => cases he; exact h.finish hp
    · cases he

omit [DecidableEq ι] in
theorem init : (LogSys.init : LogSys ι).Inv where
  within := ⟨List.nodup_nil, nofun, by simp [account, LogSys.init, OpPc.asked]⟩
  outstanding := by simp [account, LogSys.init, OpPc.asked, admitted]
  ending := nofun
  unique := nofun
  quiet := nofun

/-- A new block finds room, and only a repeated block can find the log full. -/
theorem logWrite_eq_none_iff (h : s.Inv) {b : Nat}
    (hp : s.ops p = .running logged) (hq : (insert b logged).card ≤ maxOpBlocks) :
    s.log.logWrite b = none ↔ b ∈ s.log.lh ∧ s.log.lh.length = logBlocks := by
  have hparty : s.account.party p = some logged := by simp only [account, hp, OpPc.asked]
  have hlen : s.log.lh.length ≤ logBlocks := Nat.le_of_add_right_le h.within.room
  obtain ⟨_, hone⟩ := h.not_committing hp
  have hfull : s.log.logWrite b = none ↔ logBlocks ≤ s.log.lh.length := by
    unfold Log.logWrite
    split
    · next hge => exact iff_of_true rfl hge
    · next hlt => rw [if_neg (by omega)]; exact iff_of_false nofun hlt
  rw [hfull]
  constructor
  · intro hge
    refine ⟨?_, Nat.le_antisymm hlen hge⟩
    by_contra hb
    exact absurd (h.within.lt_of_new hparty hq hb) (Nat.not_lt.mpr hge)
  · exact fun hb => hb.2.ge

end Inv

end LogSys

/-- In every reachable state the log has at most `LOGBLOCKS` blocks, all
distinct, and commits only when no operation is outstanding; `log_write` of an
operation within its quota panics exactly when the log is full and already has
the block. -/
theorem logWrite_panics_iff {es : List (LogEvent ι)} {s : LogSys ι}
    (hr : run logStep LogSys.init es = some s) :
    s.log.lh.length ≤ logBlocks ∧ s.log.lh.Nodup ∧
    (∀ p, s.ops p = .committing →
      s.log.outstanding = 0 ∧ ∀ q logged, s.ops q ≠ .running logged) ∧
    (∀ p logged, s.ops p = .running logged → s.log.endOp ≠ none) ∧
    (∀ p b logged, s.ops p = .running logged → (insert b logged).card ≤ maxOpBlocks →
      (s.log.logWrite b ≠ none ↔ (b ∈ s.log.lh → s.log.lh.length < logBlocks))) := by
  have h := invariant_of_step LogSys.Inv.step LogSys.Inv.init hr
  have hlen : s.log.lh.length ≤ logBlocks := Nat.le_of_add_right_le h.within.room
  refine ⟨hlen, h.within.nodup, fun p hp => ?_, fun p logged hp => ?_, fun p b logged hp hq => ?_⟩
  · have hcom := h.ending p (by rw [hp]; rfl)
    refine ⟨h.quiet hcom, fun q logged hq => ?_⟩
    rw [(h.not_committing hq).1] at hcom
    cases hcom
  · simp only [Log.endOp, (h.not_committing hp).1, Bool.false_eq_true, if_false]
    split <;> nofun
  · rw [Ne, h.logWrite_eq_none_iff hp hq, not_and]
    exact forall_congr' fun _ => ⟨fun hne => Nat.lt_of_le_of_ne hlen hne, Nat.ne_of_lt⟩

/-- Three operations that together log `10 * 3` distinct blocks. -/
def fillLog : List (LogEvent (Fin 3)) :=
  [.beginOp 0, .beginOp 1, .beginOp 2] ++
    (List.range 10).map (fun i => .logWrite 0 (100 + i)) ++
    (List.range 10).map (fun i => .logWrite 1 (200 + i)) ++
    (List.range 10).map (fun i => .logWrite 2 (300 + i))

/-- One operation has logged block 100 and may log it again. -/
theorem logWrite_panics_iff_one_block :
    ∃ s : LogSys (Fin 3),
      run logStep LogSys.init [.beginOp 0, .logWrite 0 100] = some s ∧
      s.ops 0 = .running {100} ∧ (insert 100 {100} : Finset Nat).card ≤ maxOpBlocks ∧
      (s.log.logWrite 100 ≠ none ↔ (100 ∈ s.log.lh → s.log.lh.length < logBlocks)) := by
  have hr : run logStep LogSys.init [.beginOp (0 : Fin 3), .logWrite 0 100] = some
      ⟨⟨[100], 1, false⟩, Function.update (Function.update (fun _ => .idle) 0 (.running ∅)) 0
        (.running {100})⟩ := rfl
  exact ⟨_, hr, rfl, by decide, (logWrite_panics_iff hr).2.2.2.2 0 100 {100} rfl (by decide)⟩

/-- The log is full, and the first operation logs its block 100 again. -/
theorem logWrite_full_log_panics :
    ((run logStep LogSys.init fillLog).map fun s => (s.log.lh.length, s.log.outstanding)) =
      some (30, 3) ∧
    run logStep LogSys.init (fillLog ++ [.logWrite 0 100]) = none ∧
    ((run logStep LogSys.init fillLog).bind fun s => s.log.logWrite 100) = none := by
  decide +kernel

end MiniOS
