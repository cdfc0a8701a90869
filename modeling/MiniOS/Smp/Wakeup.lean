import MiniOS.Smp.Wait

/-!
# MiniOS.Smp.Wakeup

No wakeup of `kwait` is lost.  A process releases `wait_lock` in `kwait` only
after it has seen, under that lock, that none of its children is `ZOMBIE`, and
with its own `p->lock` held until it sleeps; `kexit` holds `wait_lock` while it
wakes the parent, and until it is `ZOMBIE` itself (`Waits`).
-/

namespace MiniOS

open Runs

namespace PC

/-- The loop of `wakeup`: the channel, the entry it is at, and where it returns to. -/
def loop : PC → Option (Nat × Nat × WakeRet)
  | .wakeLoop chan j k => some (chan, j, k)
  | .want i (.wake chan k) | .inside i (.wake chan k) => some (chan, i, k)
  | _ => none

/-- How many entries `kwait` has found not to be `ZOMBIE` children. -/
def scanned : PC → Nat
  | .waitScan j _ => j
  | .want i .reap | .inside i .reap => i
  | .want _ .waitKilled | .inside _ .waitKilled | .sleepAcq _ .wait | .sleepRel _ .wait => nproc
  | _ => 0

/-- How many entries `kexit` has been through to wake its parent. -/
def woken : PC → Nat
  | .wakeLoop _ j (.parent _) => j
  | .want i (.wake _ (.parent _)) | .inside i (.wake _ (.parent _)) => i
  | .exitOwn _ | .exitZombie _ => nproc
  | _ => 0

/-- The channel that `kwait` is going to sleep on. -/
def dozes : PC → Option Nat
  | .sleepAcq chan .wait | .sleepRel chan .wait | .sleepSw chan .wait => some chan
  | _ => none

variable {t : Tab} {me p : Fin nproc} {ok : Bool} {x : Instr} {k k' : PC} {chan j : Nat} {r : WakeRet}

section
variable (h : k.fetch t me ok = some x) (hn : x.next = .pc k' ∨ x.next = .swtch k')
include h hn

theorem scanned_fetch {i : Fin nproc}
    (hi : i < k'.scanned) :
    x.act = .none ∧ (i < k.scanned ∨ (t.procs i).parent ≠ some me ∨ (t.procs i).state ≠ .zombie) := by
  cases k with
  | want i job | inside i job => cases job <;> grind [PC.fetch, Job.fetch, scanned]
  | sleepLk lk | sleepRel chan lk | sleepAcq chan lk => cases lk <;> grind [PC.fetch, scanned]
  | wakeLoop chan i k => cases k <;> grind [PC.fetch, scanned]
  | _ => grind [PC.fetch, scanned]

theorem dozes_fetch (hd : k'.dozes = some chan) : k.dozes = some chan ∨ chan = procChan me := by
  cases k with
  | want i job | inside i job => cases job <;> grind [PC.fetch, Job.fetch, dozes]
  | sleepLk lk | sleepRel chan lk | sleepAcq chan lk => cases lk <;> grind [PC.fetch, dozes]
  | wakeLoop chan i k => cases k <;> grind [PC.fetch, dozes]
  | _ => grind [PC.fetch, dozes]

theorem sleepSw_fetch (hk' : k' = .sleepSw chan .wait) : k = .sleepRel chan .wait ∧ x.act = .none := by
  cases k with
  | want i job | inside i job => cases job <;> grind [PC.fetch, Job.fetch]
  | sleepLk lk => cases lk <;> grind [PC.fetch]
  | wakeLoop chan i k => cases k <;> grind [PC.fetch]
  | _ => grind [PC.fetch]

theorem sleepTidy_fetch
    (hk' : k' = .sleepTidy .wait) : ∃ chan, k = .sleepSw chan .wait ∧ x.act = .sleep me chan := by
  cases k with
  | want i job | inside i job => cases job <;> grind [PC.fetch, Job.fetch]
  | sleepLk lk => cases lk <;> grind [PC.fetch]
  | wakeLoop chan i k => cases k <;> grind [PC.fetch]
  | _ => grind [PC.fetch]

/-- The loop goes on until it has been to `p`, or skips its caller. -/
theorem loop_next (hl : k.loop = some (chan, j, r)) (hj : j ≤ p) :
    (∃ j' ≤ p.val, k'.loop = some (chan, j', r)) ∨ p = me ∨ k = .inside p (.wake chan r) ∧ x.act = .wake p chan := by
  cases k with
  | want i job => cases job <;> grind [PC.fetch, loop]
  | inside i job => cases job <;> grind [PC.fetch, Job.fetch, loop]
  | wakeLoop chan i k =>
    cases hl
    have hlt : j < nproc := Nat.lt_of_le_of_lt hj p.isLt
    simp only [PC.fetch, dif_pos hlt] at h
    split at h <;> cases h <;> rcases hn with hn | hn <;> cases hn
    · next hme =>
      rcases Nat.eq_or_lt_of_le hj with heq | hlt'
      · exact .inr (.inl (Fin.ext (heq.symm.trans hme)))
      · exact .inl ⟨j + 1, hlt', rfl⟩
    · exact .inl ⟨j, hj, rfl⟩
  | _ => cases hl

theorem woken_fetch (hp : p < k'.woken) :
    x.act.heir = none ∧ (p < k.woken ∨ p = me ∧ k.loop ≠ none ∨
      ∃ chan status, k = .inside p (.wake chan (.parent status)) ∧ x.act = .wake p chan) := by
  cases k with
  | want i job | inside i job =>
    cases job with
    | wake chan k => cases k <;> grind [PC.fetch, Job.fetch, woken, loop, Act.heir]
    | _ => grind [PC.fetch, Job.fetch, woken, loop, Act.heir]
  | sleepLk lk => cases lk <;> grind [PC.fetch, woken]
  | wakeLoop chan i k => cases k <;> grind [PC.fetch, woken, loop, Act.heir]
  | reparent st i =>
    simp only [PC.fetch] at h
    split at h
    · split at h <;> cases h <;> rcases hn with hn | hn <;> cases hn <;> cases hp
    · cases h
      rcases hn with hn | hn <;> cases hn
      cases hp
  | _ => grind [PC.fetch, woken, Act.heir]

theorem target_fetch {status : BitVec 32}
    (hl : k'.loop = some (chan, j, .parent status)) :
    x.act.heir = none ∧
      ((∃ j', k.loop = some (chan, j', .parent status)) ∨ chan = parentChan (t.procs me).parent) := by
  cases k with
  | want i job | inside i job => cases job <;> grind [PC.fetch, Job.fetch, loop, Act.heir]
  | sleepLk lk => cases lk <;> grind [PC.fetch, loop]
  | wakeLoop chan i k => cases k <;> grind [PC.fetch, loop, Act.heir]
  | reparent st i =>
    simp only [PC.fetch] at h
    split at h
    · split at h <;> cases h <;> rcases hn with hn | hn <;> cases hn <;> cases hl
    · cases h
      rcases hn with hn | hn <;> cases hn
      cases hl
      exact ⟨rfl, .inr rfl⟩
  | _ => grind [PC.fetch, loop, Act.heir]

end

/-- After a child is handed to `init`, `init` is woken. -/
theorem reparent_fetch {status : BitVec 32} {i : Fin nproc} (h : (reparent status i).fetch t me ok = some x)
    (hn : x.next = .pc k' ∨ x.next = .swtch k') (ha : x.act ≠ .none) :
    k'.loop = some (procChan initproc, 0, .reparent status (i + 1)) := by
  simp only [PC.fetch, dif_pos i.isLt] at h
  split at h <;> cases h
  · rcases hn with hn | hn <;> cases hn
    rfl
  · exact absurd rfl ha

theorem scanned_held (h : j < k.scanned) : .wait ∈ k.held me := by
  cases k with
  | want i job | inside i job =>
    cases job with
    | reap | waitKilled => simp [held, Job.outer]
    | _ => cases h
  | sleepAcq chan lk | sleepRel chan lk =>
    cases lk with
    | wait => simp [held, SleepLock.locks]
    | other => cases h
  | waitScan => simp [held]
  | _ => cases h

theorem loop_held (h : k.loop = some (chan, j, r)) (hr : r ≠ .done) : .wait ∈ k.held me := by
  cases k with
  | want i job | inside i job =>
    cases job with
    | wake =>
      cases h
      cases r with
      | done => exact absurd rfl hr
      | reparent | parent => simp [held, Job.outer]
    | _ => cases h
  | wakeLoop =>
    cases h
    cases r with
    | done => exact absurd rfl hr
    | reparent | parent => simp [held]
  | _ => cases h

theorem woken_held (h : j < k.woken) : .wait ∈ k.held me := by
  cases k with
  | want i job | inside i job =>
    cases job with
    | wake chan r =>
      cases r with
      | parent => exact loop_held rfl nofun
      | done | reparent => cases h
    | _ => cases h
  | wakeLoop chan i r =>
    cases r with
    | parent => exact loop_held rfl nofun
    | done | reparent => cases h
  | exitOwn | exitZombie => simp [held]
  | _ => cases h

end PC

/-- A call starts outside of what the last definitions are about. -/
theorem ProcCall.quiet_fetch {me : Fin nproc} {nested : Bool} {x : Instr} {k : ProcCall} {k' : PC}
    (h : k.fetch me nested = some x) (hn : x.next = .pc k') :
    k'.scanned = 0 ∧ k'.woken = 0 ∧ k'.dozes = none ∧ (∀ chan j r, k'.loop = some (chan, j, r) → r = .done) ∧
      k' ≠ .sleepTidy .wait ∧ ∀ chan, k' ≠ .sleepSw chan .wait := by
  cases k with
  | fork | wait | files o w | exit status =>
    simp only [ProcCall.fetch] at h
    split at h
    · cases h
    · cases h
      cases hn
      exact ⟨rfl, rfl, rfl, by rintro _ _ _ ⟨⟩, by rintro ⟨⟩, by rintro _ ⟨⟩⟩
  | wakeup a =>
    cases h
    cases hn
    refine ⟨rfl, rfl, rfl, fun chan j r hl => ?_, by rintro ⟨⟩, by rintro _ ⟨⟩⟩
    cases hl
    rfl
  | yield timer | sleep a | kill pid | setkilled | killed =>
    cases h
    cases hn
    exact ⟨rfl, rfl, rfl, by rintro _ _ _ ⟨⟩, by rintro ⟨⟩, by rintro _ ⟨⟩⟩

/-- The entry whose channel an action changes. -/
def Act.sleeper : Act → Option (Fin nproc)
  | .sleep i _ | .tidy i | .free i | .reap _ i => some i
  | _ => Option.none

theorem Tab.chan_act {t : Tab} {a : Act} {i : Fin nproc} (h : a.sleeper ≠ some i) :
    ((t.act a).procs i).chan = (t.procs i).chan := by
  by_cases hs : a.subject = some i
  · cases a with
    | sleep j chan | tidy j | free j | reap p j => exact absurd hs h
    | files j o w | close j fd | dropCwd j => rfl
    | adopt j q | setkilled j | alloc j | copy p j =>
      cases hs
      simp [act, alloc, copy, upd, Proc.inherit]
    | kill j pid =>
      cases hs
      simp only [act, kill, upd]
      split
      · simp only [Function.update_self, Proc.kill]
        split <;> rfl
      · rfl
    | _ => cases hs
  · exact congrArg ProcEntry.chan (entry_act hs)

namespace Smp

variable {n : Nat} {s s' : Smp n} {c : Fin n} {ch : Choice} {x : Instr} {i p q : Fin nproc}

/-! ## Processes that are on no CPU -/

/-- Where a process can be that is on no CPU. -/
def Parked (t : KThread) : Prop :=
  t.top = .forkret ∨ t.top = .yielded ∨ (∃ lk, t.top = .sleepTidy lk) ∨ t.top = .dead

/-- Only processes on a CPU are elsewhere in their code. -/
def Parks (s : Smp n) : Prop := ∀ p, (∀ c, s.cpu c ≠ .inProc p) → Parked (s.tab.thread p)

theorem parks_boot : (boot : Smp n).Parks := fun _ _ => .inl rfl

section
variable (hp : s.Parks)
include hp

theorem Parks.perform (hinv : s.Inv) (h : s.fetch c ch = some x) : (s.perform c x).Parks := by
  intro p hoff
  by_cases hc : s.cpu c = .inProc p
  · have hcpu := hoff c
    have hth := hinv.thread_self h hc
    rw [cpu_perform_self, hc] at hcpu
    rw [fetch_inProc hc] at h
    rcases goes_of_fetch (hinv.thread p) h with ⟨k, hn, -, -⟩ | ⟨k, hn, -, hact⟩ | ⟨hn, -, -⟩ | ⟨hn, -, -, -⟩ <;>
      rw [hn] at hcpu hth
    · exact absurd rfl hcpu
    · rw [hth, Next.toThread, Parked, KThread.top_setTop]
      rcases hact with ⟨-, rfl⟩ | ⟨-, lk, -, rfl⟩ | ⟨-, -, rfl⟩
      · exact .inr (.inl rfl)
      · exact .inr (.inr (.inl ⟨lk, rfl⟩))
      · exact .inr (.inr (.inr rfl))
    · exact absurd rfl hcpu
    · exact absurd rfl hcpu
  · by_cases ha : x.act = .alloc p
    · rw [thread_perform_alloc hc ha]
      exact .inl rfl
    · rw [thread_perform_of_ne hc fun i hi e => ha (e ▸ hi)]
      refine hp p fun a hk => ?_
      by_cases hac : a = c
      · exact hc (hac ▸ hk)
      · exact hoff a (by rw [cpu_perform_of_ne hac, hk])

/-- A process that is elsewhere in its code is on a CPU. -/
theorem Parks.exists_cpu (h : ¬Parked (s.tab.thread p)) : ∃ c, s.cpu c = .inProc p := by
  by_contra hne
  exact h (hp p fun c hc => hne ⟨c, hc⟩)

/-- One process at a time holds a lock. -/
theorem Parks.locked_unique (hinv : s.Inv) {l : Lock} (hl : l ∈ (s.tab.thread p).top.held p)
    (hl' : l ∈ (s.tab.thread q).top.held q) (hoff : ¬Parked (s.tab.thread p)) (hoff' : ¬Parked (s.tab.thread q)) :
    p = q := by
  obtain ⟨a, ha⟩ := hp.exists_cpu hoff
  obtain ⟨b, hb⟩ := hp.exists_cpu hoff'
  have hab : a = b := hinv.lock.unique (l := l) (by rwa [held_inProc ha]) (by rwa [held_inProc hb])
  subst hab
  rw [ha] at hb
  cases hb
  rfl

/-- Where the first level of a process holds `wait_lock`, it runs, on a CPU that holds it. -/
theorem Parks.base_wait (hinv : s.Inv) (hl : .wait ∈ (s.base p).held p) :
    (s.tab.thread p).nested = [] ∧ ∃ c, s.cpu c = .inProc p ∧ .wait ∈ s.held c := by
  have hn : (s.tab.thread p).nested = [] := by
    by_contra hne
    rw [base, (hinv.thread p).base hne] at hl
    cases hl
  have htop : (s.tab.thread p).top = s.base p := by simp [KThread.top, base, hn]
  obtain ⟨c, hc⟩ := hp.exists_cpu (p := p) <| by
    rintro (h | h | ⟨lk, h⟩ | h) <;> rw [← htop, h] at hl <;> simp [PC.held] at hl
  exact ⟨hn, c, hc, by rwa [held_inProc hc, htop]⟩

theorem Parks.wait_self (hinv : s.Inv) (hl : .wait ∈ (s.base p).held p) (hc : .wait ∈ s.held c) :
    s.cpu c = .inProc p := by
  obtain ⟨-, a, ha, hla⟩ := hp.base_wait hinv hl
  rwa [hinv.lock.unique hc hla]

theorem Parks.wait_unique (hinv : s.Inv) (hl : .wait ∈ (s.base p).held p)
    (hl' : .wait ∈ (s.base q).held q) : p = q := by
  obtain ⟨-, a, ha, hla⟩ := hp.base_wait hinv hl
  cases ha.symm.trans (hp.wait_self hinv hl' hla)
  rfl

/-- While a process holds `wait_lock`, no other exits, and no other changes who is the parent of whom
except by a failed fork. -/
theorem Parks.family_self (hinv : s.Inv) (h : s.fetch c ch = some x)
    (hl : .wait ∈ (s.base p).held p)
    (ha : (∃ i r, x.act = .adopt i r) ∨ (∃ i status, x.act = .zombie i status) ∨ ∃ r i, x.act = .reap r i) :
    s.cpu c = .inProc p := by
  refine hp.wait_self hinv hl ?_
  have hg := guard_of_fetch h
  rcases ha with ⟨i, r, ha⟩ | ⟨i, status, ha⟩ | ⟨r, i, ha⟩ <;> rw [ha] at hg
  · obtain ⟨q, hc, ⟨hk, -⟩ | ⟨status, hk, -, -⟩⟩ := hg <;> rw [held_inProc hc, hk] <;> simp [PC.held]
  · rw [held_inProc hg.1, hg.2]
    simp [PC.held]
  · rw [held_inProc hg.1, hg.2.1]
    simp [PC.held, Job.outer]

theorem Parks.parent_stays (hinv : s.Inv) (h : s.fetch c ch = some x)
    (hl : .wait ∈ (s.base p).held p) (hself : s.cpu c = .inProc p → (s.tab.thread p).nested ≠ [] ∨ x.act = .none)
    (i : Fin nproc) :
    (s.perform c x).parent i = s.parent i ∨ (s.perform c x).parent i = none ∧ s.base i = .forkret := by
  have hfalse (q : Fin nproc) (hc : s.cpu c = .inProc q) (hn : (s.tab.thread q).nested = [])
      (ha : (∃ i r, x.act = .adopt i r) ∨ (∃ i status, x.act = .zombie i status) ∨ ∃ r i, x.act = .reap r i) :
      False := by
    cases hc.symm.trans (hp.family_self hinv h hl ha)
    rcases hself hc with hne | hact
    · exact hne hn
    · simp [hact] at ha
  have hh := hinv.heirs h i
  generalize (s.perform c x).parent i = o at hh
  cases hh with
  | same _ => exact .inl rfl
  | fork r ha hc hb hn => exact (hfalse r hc hn (.inl ⟨_, _, ha⟩)).elim
  | exit r status ha hc hb hn hold => exact (hfalse r hc hn (.inl ⟨_, _, ha⟩)).elim
  | free r ha hc hb hn =>
    have hchild := (hinv.child r i (by rw [← base, hb]; rfl)).2
    exact .inr ⟨rfl, by rw [base, hchild]⟩
  | reap r ha hc hb hn => exact (hfalse r hc hn (.inr (.inr ⟨_, _, ha⟩))).elim

end

/-! ## No lost wakeup -/

/-- In the `sleep` of `kwait`, after `wait_lock` is released and before the process is woken. -/
def Dozing (s : Smp n) (p : Fin nproc) : Prop :=
  (∃ chan, s.base p = .sleepSw chan .wait) ∨ s.base p = .sleepTidy .wait ∧ s.state p = .sleeping

/-- A process that exits has just made `i` a child of `p` and is about to wake `p`. -/
def Handing (s : Smp n) (p i : Fin nproc) : Prop :=
  ∃ q j status, (s.base q).loop = some (procChan p, j, .reparent status (i + 1)) ∧ j ≤ p.val

structure Waits (s : Smp n) : Prop where
  scanned : ∀ p i, i.val < (s.base p).scanned → s.parent i = some p → s.state i ≠ .zombie
  chan : ∀ p chan, (s.base p).dozes = some chan → chan = procChan p
  asleep : ∀ p, s.base p = .sleepTidy .wait → s.state p = .sleeping → (s.tab.procs p).chan = procChan p
  target : ∀ q chan j status, (s.base q).loop = some (chan, j, .parent status) → chan = parentChan (s.parent q)
  woken : ∀ q p, s.parent q = some p → p.val < (s.base q).woken → ¬s.Dozing p
  zombie : ∀ p i, s.Dozing p → s.parent i = some p → s.state i = .zombie → s.Handing p i

theorem waits_boot : (boot : Smp n).Waits where
  scanned := fun _ _ h => absurd h (Nat.not_lt_zero _)
  chan := fun _ _ h => by cases h
  asleep := fun _ h => by cases h
  target := fun _ _ _ _ h => by cases h
  woken := fun _ _ _ h => absurd h (Nat.not_lt_zero _)
  zombie := fun p _ h => by rcases h with ⟨_, h⟩ | ⟨h, -⟩ <;> cases h

section
variable (hinv : s.Inv) (h : s.fetch c ch = some x)
include hinv h

/-- A process falls asleep by its own step. -/
theorem Inv.sleeping_cases (hst : (s.perform c x).state p = .sleeping) :
    s.state p = .sleeping ∨ s.cpu c = .inProc p ∧ ∃ chan, x.act = .sleep p chan := by
  have hm := hinv.moves h p
  have hg := guard_of_fetch h
  rw [hst] at hm
  generalize hold : s.state p = st at hm ⊢
  cases hm with
  | same => exact .inl rfl
  | sleep chan ha =>
    rw [ha] at hg
    exact .inr ⟨hg.1, chan, ha⟩

/-- A process that sleeps in `kwait` and is not on its way out of it falls asleep there. -/
theorem Inv.asleep_stays (hb : ((s.perform c x).tab.thread p).base = (s.tab.thread p).base)
    (hself : s.cpu c = .inProc p → (s.tab.thread p).nested ≠ [] ∨ x.act = .none)
    (htidy : (s.perform c x).base p = .sleepTidy .wait) (hst : (s.perform c x).state p = .sleeping) :
    s.base p = .sleepTidy .wait ∧ s.state p = .sleeping := by
  have hold : s.base p = .sleepTidy .wait := hb.symm.trans htidy
  refine ⟨hold, (hinv.sleeping_cases h hst).resolve_right fun ⟨hc, chan, ha⟩ => ?_⟩
  rcases hself hc with hne | hact
  · have hheld := (hinv.thread p).base hne
    rw [← base, hold] at hheld
    cases hheld
  · cases ha.symm.trans hact

/-- Who dozes did so, or has just released `wait_lock` in `kwait`. -/
theorem Inv.dozing_cases (hd : (s.perform c x).Dozing p) :
    s.Dozing p ∨ ∃ chan, s.base p = .sleepRel chan .wait ∧ x.act = .none := by
  rcases hinv.base_cases h p with ⟨hb, hself⟩ | ⟨-, hb⟩ | ⟨hc, hn, hadv⟩
  · rcases hd with ⟨chan, hd⟩ | ⟨hd, hst⟩
    · exact .inl (.inl ⟨chan, hb.symm.trans hd⟩)
    · exact .inl (.inr (hinv.asleep_stays h hb hself hd hst))
  · rcases hd with ⟨chan, hd⟩ | ⟨hd, -⟩ <;> rw [base, hb] at hd <;> cases hd
  · cases hadv with
    | code ok hk hnext =>
      rcases hd with ⟨chan, hd⟩ | ⟨hd, hst⟩
      · exact .inr ⟨chan, PC.sleepSw_fetch hk hnext hd⟩
      · obtain ⟨chan, hold, -⟩ := PC.sleepTidy_fetch hk hnext hd
        exact .inl (.inl ⟨chan, hold⟩)
    | call kc hidle hk hnext =>
      obtain ⟨-, -, -, -, htidy, hsw⟩ := ProcCall.quiet_fetch hk hnext
      rcases hd with ⟨chan, hd⟩ | ⟨hd, -⟩
      · exact absurd hd (hsw chan)
      · exact absurd hd htidy

end

namespace Waits

section
variable (hw : s.Waits)
include hw

theorem scanned_step (hp : s.Parks) (hinv : s.Inv) (h : s.fetch c ch = some x) (p i : Fin nproc)
    (hi : i.val < ((s.perform c x).base p).scanned) (hpar : (s.perform c x).parent i = some p) :
    (s.perform c x).state i ≠ .zombie := by
  intro hz
  rcases hinv.base_cases h p with ⟨hb, hself⟩ | ⟨-, hb⟩ | ⟨hc, hn, hadv⟩
  · rw [base, hb] at hi
    -- nobody else exits or changes parents meanwhile
    have hl : .wait ∈ (s.base p).held p := PC.scanned_held hi
    have hst : s.state i = .zombie := by
      refine (hinv.zombie_cases h hz).resolve_right ?_
      rintro ⟨status, ha⟩
      have hg := guard_of_fetch h
      rw [ha] at hg
      cases hg.1.symm.trans (hp.family_self hinv h hl (.inr (.inl ⟨i, status, ha⟩)))
      rw [(hinv.base_of_top hg.2 rfl).1] at hi
      cases hi
    rcases hp.parent_stays hinv h hl hself i with he | ⟨he, -⟩
    · exact hw.scanned p i hi (he.symm.trans hpar) hst
    · cases he.symm.trans hpar
  · rw [base, hb] at hi
    cases hi
  · cases hadv with
    | code ok hk hnext =>
      obtain ⟨ha, hor⟩ := PC.scanned_fetch hk hnext hi
      rw [parent_perform, ha] at hpar
      rw [state_perform, ha] at hz
      rcases hor with hlt | hne | hne
      · exact hw.scanned p i hlt hpar hz
      · exact hne hpar
      · exact hne hz
    | call kc hidle hk hnext =>
      rw [base, (ProcCall.quiet_fetch hk hnext).1] at hi
      cases hi

theorem chan_step (hinv : s.Inv) (h : s.fetch c ch = some x) (p : Fin nproc) (chan : Nat)
    (hd : ((s.perform c x).base p).dozes = some chan) : chan = procChan p := by
  rcases hinv.base_cases h p with ⟨hb, -⟩ | ⟨-, hb⟩ | ⟨hc, hn, hadv⟩
  · rw [base, hb] at hd
    exact hw.chan p chan hd
  · rw [base, hb] at hd
    cases hd
  · cases hadv with
    | code ok hk hnext => exact (PC.dozes_fetch hk hnext hd).elim (hw.chan p chan) id
    | call kc hidle hk hnext =>
      rw [base, (ProcCall.quiet_fetch hk hnext).2.2.1] at hd
      cases hd

theorem asleep_step (hinv : s.Inv) (h : s.fetch c ch = some x) (p : Fin nproc)
    (hd : (s.perform c x).base p = .sleepTidy .wait) (hst : (s.perform c x).state p = .sleeping) :
    ((s.perform c x).tab.procs p).chan = procChan p := by
  have hproc : ((s.perform c x).tab.procs p).chan = ((s.tab.act x.act).procs p).chan := by simp [Smp.perform]
  rw [hproc]
  rcases hinv.base_cases h p with ⟨hb, hself⟩ | ⟨-, hb⟩ | ⟨hc, hn, hadv⟩
  · obtain ⟨hb', hold⟩ := hinv.asleep_stays h hb hself hd hst
    rw [Tab.chan_act, hw.asleep p hb' hold]
    -- the channel of a process that sleeps does not change
    intro ha
    have hg := guard_of_fetch h
    have hrun {k : PC} (hc : s.cpu c = .inProc p) (hk : (s.tab.thread p).top = k) (hne : k ≠ .exitSw) : False := by
      have := hinv.state_inProc hc
      rw [hk, if_neg hne, hold] at this
      cases this
    generalize x.act = a at ha hg
    cases a with
    | sleep q chan =>
      cases ha
      obtain ⟨hc, lk, hk⟩ := hg
      exact hrun hc hk (by simp)
    | tidy q =>
      cases ha
      obtain ⟨hc, lk, hk⟩ := hg
      exact hrun hc hk (by simp)
    | free q =>
      cases ha
      obtain ⟨r, hc, hk⟩ := hg
      cases hold.symm.trans (hinv.state_child hk rfl rfl).1
    | reap r q =>
      cases ha
      cases hold.symm.trans hg.2.2
    | _ => cases ha
  · rw [base, hb] at hd
    cases hd
  · cases hadv with
    | code ok hk hnext =>
      obtain ⟨chan, hold, ha⟩ := PC.sleepTidy_fetch hk hnext hd
      rw [ha]
      simp only [Tab.act, Tab.upd, Function.update_self]
      exact hw.chan p chan (by rw [base, hold]; rfl)
    | call kc hidle hk hnext => exact absurd hd (ProcCall.quiet_fetch hk hnext).2.2.2.2.1

theorem target_step (hp : s.Parks) (hinv : s.Inv) (h : s.fetch c ch = some x) (q : Fin nproc)
    (chan j : Nat) (status : BitVec 32) (hl : ((s.perform c x).base q).loop = some (chan, j, .parent status)) :
    chan = parentChan ((s.perform c x).parent q) := by
  rcases hinv.base_cases h q with ⟨hb, hself⟩ | ⟨-, hb⟩ | ⟨hc, hn, hadv⟩
  · rw [base, hb] at hl
    rw [hw.target q chan j status hl]
    rcases hp.parent_stays hinv h (PC.loop_held hl (by simp)) hself q with he | ⟨-, he⟩
    · rw [he]
    · rw [← base, he] at hl
      cases hl
  · rw [base, hb] at hl
    cases hl
  · cases hadv with
    | code ok hk hnext =>
      obtain ⟨ha, hor⟩ := PC.target_fetch hk hnext hl
      rw [parent_perform, Tab.parent_act (by simp [ha])]
      rcases hor with ⟨j', hl'⟩ | he
      · exact hw.target q chan j' status hl'
      · exact he
    | call kc hidle hk hnext => cases (ProcCall.quiet_fetch hk hnext).2.2.2.1 _ _ _ hl

/-- When the loop of `wakeup` has been to `p`, `p` is not asleep in `kwait`. -/
theorem passes (hp : s.Parks) (hinv : s.Inv) (h : s.fetch c ch = some x) {r : WakeRet}
    (hc : s.cpu c = .inProc q) (hn : (s.tab.thread q).nested = []) (hq : s.base q = .inside p (.wake (procChan p) r))
    (ha : x.act = .wake p (procChan p)) : ¬(s.perform c x).Dozing p := by
  intro hd
  by_cases hpq : p = q
  · subst hpq
    rcases hinv.dozing_cases h hd with (⟨chan, hb⟩ | ⟨hb, -⟩) | ⟨chan, hb, -⟩ <;> cases hq.symm.trans hb
  · have hb : (s.perform c x).base p = s.base p := by
      rcases hinv.base_cases h p with ⟨hb, -⟩ | ⟨he, -⟩ | ⟨hc', -, -⟩
      · exact hb
      · cases ha.symm.trans he
      · cases hc.symm.trans hc'
        exact absurd rfl hpq
    have htop : (s.tab.thread q).top = .inside p (.wake (procChan p) r) := by
      rw [KThread.top, hn]
      exact hq
    rcases hd with ⟨chan, hd⟩ | ⟨hd, hst⟩
    · -- `p` holds its lock until it sleeps
      rw [hb] at hd
      have hnp : (s.tab.thread p).nested = [] := by
        by_contra hne
        have := (hinv.thread p).base hne
        rw [← base, hd] at this
        cases this
      have htopp : (s.tab.thread p).top = .sleepSw chan .wait := by
        rw [KThread.top, hnp]
        exact hd
      refine hpq (hp.locked_unique hinv (l := .proc p) ?_ ?_ ?_ ?_)
      · simp [htopp, PC.held]
      · simp [htop, PC.held]
      · simp [Parked, htopp]
      · simp [Parked, htop]
    · rw [hb] at hd
      rw [state_perform, ha] at hst
      simp only [Tab.act, Tab.upd, Function.update_self, Proc.wake] at hst
      split at hst
      · cases hst
      · next hne => exact hne ⟨hst, hw.asleep p hd hst⟩

theorem woken_step (hp : s.Parks) (hinv : s.Inv) (h : s.fetch c ch = some x) (q p : Fin nproc)
    (hpar : (s.perform c x).parent q = some p) (hlt : p.val < ((s.perform c x).base q).woken) :
    ¬(s.perform c x).Dozing p := by
  intro hd
  -- nobody else goes to sleep in `kwait` meanwhile
  have hstill (hpar : s.parent q = some p) (hlt : p.val < (s.base q).woken) : False := by
    rcases hinv.dozing_cases h hd with hold | ⟨chan, hb, -⟩
    · exact hw.woken q p hpar hlt hold
    · obtain rfl := hp.wait_unique hinv (p := p) (by rw [hb]; simp [PC.held, SleepLock.locks]) (PC.woken_held hlt)
      rw [hb] at hlt
      cases hlt
  rcases hinv.base_cases h q with ⟨hb, hself⟩ | ⟨-, hb⟩ | ⟨hc, hn, hadv⟩
  · rw [base, hb] at hlt
    rcases hp.parent_stays hinv h (PC.woken_held hlt) hself q with he | ⟨he, -⟩
    · exact hstill (he.symm.trans hpar) hlt
    · cases he.symm.trans hpar
  · rw [base, hb] at hlt
    cases hlt
  · cases hadv with
    | code ok hk hnext =>
      obtain ⟨ha, hor⟩ := PC.woken_fetch hk hnext hlt
      rw [parent_perform, Tab.parent_act (by simp [ha])] at hpar
      rcases hor with hlt' | ⟨rfl, -⟩ | ⟨chan, status, hb, hact⟩
      · exact hstill hpar hlt'
      · rcases hd with ⟨chan, hd⟩ | ⟨hd, -⟩ <;> rw [hd] at hlt <;> cases hlt
      · have hchan : chan = procChan p := by
          have := hw.target q chan p status (by rw [base, hb]; rfl)
          rwa [show s.parent q = some p from hpar] at this
        subst hchan
        exact hw.passes hp hinv h hc hn hb hact hd
    | call kc hidle hk hnext =>
      rw [base, (ProcCall.quiet_fetch hk hnext).2.1] at hlt
      cases hlt

/-- Until it has been to `p`, the loop goes on. -/
theorem handing_step (hp : s.Parks) (hinv : s.Inv) (h : s.fetch c ch = some x)
    (hd : s.Dozing p) (hd' : (s.perform c x).Dozing p) (hh : s.Handing p i) : (s.perform c x).Handing p i := by
  obtain ⟨q, j, status, hl, hj⟩ := hh
  rcases hinv.base_cases h q with ⟨hb, -⟩ | ⟨ha, -⟩ | ⟨hc, hn, hadv⟩
  · exact ⟨q, j, status, by rwa [base, hb], hj⟩
  · obtain ⟨-, a, hc, -⟩ := hp.base_wait hinv (PC.loop_held hl (by simp))
    exact absurd rfl (alloc_ne h (hinv.inProc_ne_unused hc) q ha)
  · cases hadv with
    | code ok hk hnext =>
      rcases PC.loop_next hk hnext hl hj with ⟨j', hj', hl'⟩ | rfl | ⟨hb, ha⟩
      · exact ⟨q, j', status, hl', hj'⟩
      · rcases hd with ⟨chan, hd⟩ | ⟨hd, -⟩ <;> rw [hd] at hl <;> cases hl
      · exact absurd hd' (hw.passes hp hinv h hc hn hb ha)
    | call kc hidle hk hnext =>
      rw [base, hidle] at hl
      cases hl

theorem zombie_step (hp : s.Parks) (hinv : s.Inv) (h : s.fetch c ch = some x) (p i : Fin nproc)
    (hd' : (s.perform c x).Dozing p) (hpar : (s.perform c x).parent i = some p)
    (hz : (s.perform c x).state i = .zombie) : (s.perform c x).Handing p i := by
  rcases hinv.dozing_cases h hd' with hd | ⟨chan, hb, ha⟩
  · have hh := hinv.heirs h i
    rw [hpar] at hh
    generalize hq : some p = o at hh
    cases hh with
    | same _ =>
      rcases hinv.zombie_cases h hz with hold | ⟨status, ha⟩
      · exact hw.handing_step hp hinv h hd hd' (hw.zombie p i hd hq.symm hold)
      · -- `i` has woken `p` before it became `ZOMBIE`
        have hg := guard_of_fetch h
        rw [ha] at hg
        refine absurd hd (hw.woken i p hq.symm ?_)
        rw [base, (hinv.base_of_top hg.2 rfl).1]
        exact p.isLt
    | fork r ha hc hb hn =>
      cases hq
      rcases hd with ⟨chan, hd⟩ | ⟨hd, -⟩ <;> cases hb.symm.trans hd
    | exit r status ha hc hb hn hold =>
      cases hq
      rcases hinv.base_cases h r with ⟨-, hself⟩ | ⟨he, -⟩ | ⟨-, -, hadv⟩
      · rcases hself hc with hne | hact
        · exact absurd hn hne
        · cases ha.symm.trans hact
      · cases ha.symm.trans he
      · rw [← base, hb] at hadv
        cases hadv with
        | code ok hk hnext => exact ⟨r, 0, status, PC.reparent_fetch hk hnext (by simp [ha]), Nat.zero_le _⟩
        | call kc hidle hk hnext => cases hidle
    | free | reap => cases hq
  · -- `p` has just seen that no child of it is `ZOMBIE`
    rw [parent_perform, ha] at hpar
    rw [state_perform, ha] at hz
    exact absurd hz (hw.scanned p i (by rw [hb]; exact i.isLt) hpar)

theorem perform (hp : s.Parks) (hinv : s.Inv) (h : s.fetch c ch = some x) : (s.perform c x).Waits where
  scanned := hw.scanned_step hp hinv h
  chan := hw.chan_step hinv h
  asleep := hw.asleep_step hinv h
  target := hw.target_step hp hinv h
  woken := hw.woken_step hp hinv h
  zombie := hw.zombie_step hp hinv h

end

end Waits

/-- What `kexit` and `kwait` rely on. -/
structure Kin (s : Smp n) : Prop where
  inv : s.Inv
  parks : s.Parks
  ledger : s.Ledger
  family : s.Family
  waits : s.Waits

theorem Kin.step {e : Fin n × Choice} (hk : s.Kin) (h : s.step e = some s') : s'.Kin := by
  obtain ⟨x, hx, hacq, rfl⟩ := step_eq_some h
  refine ⟨hk.inv.perform hx hacq, hk.parks.perform hk.inv hx, hk.ledger.perform hk.inv hx fun p j ha => ?_,
    hk.family.perform hk.inv hx, hk.waits.perform hk.parks hk.inv hx⟩
  have hg := guard_of_fetch hx
  rw [ha] at hg
  exact hk.family.looks p j (by rw [base, (hk.inv.base_of_top hg.2.1 rfl).1]; rfl)

theorem kin_run {es : List (Fin n × Choice)} (h : run step boot es = some s) : s.Kin :=
  invariant_of_step (fun _ _ _ hs h => hs.step h) ⟨inv_boot, parks_boot, ledger_boot, family_boot, waits_boot⟩ h

end Smp

/-- Exit and wait lose nobody.  Each process that exits is recorded once, and its exit is returned by at
most one wait, with its pid and status, to the parent that its entry had then; and if a process sleeps in
`kwait` while a child of it is `ZOMBIE`, the exit that made it a child of that process still holds
`wait_lock` and is going through the entries to wake that process. -/
theorem wait_loses_nobody (n : Nat) (es : List (Fin n × Choice)) (s : Smp n)
    (h : run Smp.step Smp.boot es = some s) :
    ((∀ i, (s.tab.procs i).state = .zombie → s.tab.exited i ∈ s.tab.exits) ∧ (s.tab.exits.map (·.birth)).Nodup ∧
        (s.tab.reaps.map (·.exited.birth)).Nodup ∧
        ∀ r ∈ s.tab.reaps, r.exited ∈ s.tab.exits ∧ r.parent = some r.caller) ∧
      ∀ p i, (s.tab.procs p).state = .sleeping → (s.tab.thread p).top = .sleepTidy .wait →
        (s.tab.procs i).parent = some p → (s.tab.procs i).state = .zombie →
        ∃ c q j status, s.cpu c = .inProc q ∧ s.holder .wait = some c ∧
          (s.tab.thread q).top.loop = some (procChan p, j, .reparent status (i + 1)) := by
  have hk := Smp.kin_run h
  refine ⟨⟨hk.ledger.zombie, hk.ledger.exits_nodup, hk.ledger.reaps_nodup, hk.ledger.reaps⟩,
    fun p i hst htop hpar hz => ?_⟩
  have hd : s.Dozing p := .inr ⟨(hk.inv.base_of_top htop rfl).1, hst⟩
  obtain ⟨q, j, status, hl, -⟩ := hk.waits.zombie p i hd hpar hz
  obtain ⟨hn, c, hc, hheld⟩ := hk.parks.base_wait hk.inv (PC.loop_held hl nofun)
  refine ⟨c, q, j, status, hc, (hk.inv.lock .wait c).mpr hheld, ?_⟩
  rw [KThread.top, hn]
  exact hl

/-- `init` forks on one CPU, the child exits with status 7 on another, and `init` waits. -/
def initWaits : List (Fin 2 × Choice) :=
  List.replicate 260 (0, .go) ++ (0, .call .fork) :: List.replicate 9 (0, .go) ++ List.replicate 260 (1, .go) ++
    (1, .call (.exit 7)) :: List.replicate 278 (1, .go) ++ (0, .call .wait) :: List.replicate 5 (0, .go)

/-- The exit of the child is returned to `init`. -/
theorem wait_loses_nobody_init :
    ∃ s, run Smp.step Smp.boot initWaits = some s ∧ ∃ r ∈ s.tab.reaps, r.exited = ⟨1, 2, 7⟩ ∧
      r.parent = some r.caller := by
  have hend : ((run Smp.step Smp.boot initWaits).map fun s => s.tab.reaps) = some [⟨⟨1, 2, 7⟩, some 0, 0⟩] := by
    decide +kernel
  obtain ⟨s, hrun, hs⟩ := Option.map_eq_some_iff.mp hend
  have hmem : ⟨⟨1, 2, 7⟩, some 0, 0⟩ ∈ s.tab.reaps := by simp [hs]
  exact ⟨s, hrun, _, hmem, rfl, ((wait_loses_nobody 2 initWaits s hrun).1.2.2.2 _ hmem).2⟩

end MiniOS
