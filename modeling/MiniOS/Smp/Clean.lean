import MiniOS.Smp.Locks

/-!
# MiniOS.Smp.Clean

Entries of the process table are recycled: `freeproc` clears some fields and
`allocproc` sets others.  An `UNUSED` entry is `Blank` as long as `kkill(0)` does
not come to one: it takes it for a process with pid 0, and the next child that
gets the entry starts as killed.
-/

namespace MiniOS

open Runs

/-- The fields of an entry that allocation relies on. -/
structure ProcEntry where
  killed : Bool
  chan : Nat
  pid : Nat
  parent : Option (Fin nproc)
  ofile : Nat → Option Nat
  cwd : Option Nat
  named : Bool

def Tab.entry (t : Tab) (i : Fin nproc) : ProcEntry :=
  ⟨(t.procs i).killed, (t.procs i).chan, (t.procs i).pid, (t.procs i).parent, t.ofile i, t.cwd i, t.named i⟩

namespace ProcEntry

/-- No open files and no current directory. -/
def NoFiles (e : ProcEntry) : Prop := (∀ fd < nofiles, e.ofile fd = none) ∧ e.cwd = none

/-- As `freeproc` and `kexit` leave it. -/
structure Blank (e : ProcEntry) : Prop where
  killed : e.killed = false
  chan : e.chan = 0
  pid : e.pid = 0
  parent : e.parent = none
  files : e.NoFiles

end ProcEntry

/-- The entry that an action changes in these fields. -/
def Act.subject : Act → Option (Fin nproc)
  | .sleep i _ | .tidy i | .kill i _ | .setkilled i | .alloc i | .free i | .copy _ i | .adopt i _ | .files i _ _
  | .close i _ | .dropCwd i | .reap _ i => some i
  | _ => Option.none

theorem Tab.entry_act {t : Tab} {a : Act} {i : Fin nproc} (h : a.subject ≠ some i) :
    (t.act a).entry i = t.entry i := by
  cases a with
  | sleep j chan | tidy j | setkilled j | alloc j | free j | copy p j | adopt j p | files j o w | close j fd | dropCwd j
  | reap p j =>
    have hij : i ≠ j := fun e => h (e ▸ rfl)
    simp [entry, act, alloc, copy, reap, upd, hij]
  | kill j pid =>
    have hij : i ≠ j := fun e => h (e ▸ rfl)
    simp only [act, kill]
    split <;> simp [entry, upd, hij]
  | none | windowReset => rfl
  | age j =>
    simp only [entry, act, upd, Function.update_apply]
    split
    · next hij =>
      subst hij
      unfold Proc.age
      split <;> rfl
    · rfl
  | wake j chan =>
    simp only [entry, act, upd, Function.update_apply]
    split
    · next hij =>
      subst hij
      unfold Proc.wake
      split <;> rfl
    · rfl
  | dispatch j | account j | clearTicks j | tick j | yield j | start j | zombie j status =>
    by_cases hij : i = j
    · subst hij
      simp [entry, act, zombie, upd, Proc.account]
    · simp [entry, act, zombie, upd, hij]

/-- The entry whose files an action changes. -/
def Act.filer : Act → Option (Fin nproc)
  | .copy _ i | .files i _ _ | .close i _ | .dropCwd i => some i
  | _ => Option.none

theorem Tab.files_act {t : Tab} {a : Act} {i : Fin nproc} (h : a.filer ≠ some i) :
    (t.act a).ofile i = t.ofile i ∧ (t.act a).cwd i = t.cwd i := by
  cases a with
  | copy p j | files j o w | close j fd | dropCwd j =>
    have hij : i ≠ j := fun e => h (e ▸ rfl)
    simp [act, copy, upd, hij]
  | kill j pid =>
    simp only [act, kill]
    split <;> exact ⟨rfl, rfl⟩
  | _ => exact ⟨rfl, rfl⟩

@[simp] theorem Tab.entry_rethread (t : Tab) (f : KThread → KThread) (k : Code) (i : Fin nproc) :
    (t.rethread f k).entry i = t.entry i := by
  cases k <;> rfl

/-- `kexit` has closed its files and dropped its current directory, and not switched away. -/
def PC.exiting : PC → Bool
  | .exitAcq _ | .reparent .. | .exitOwn _ | .exitZombie _ => true
  | .wakeLoop _ _ k | .want _ (.wake _ k) | .inside _ (.wake _ k) => k ≠ .done
  | _ => false

/-- How many files the code of `kexit` has closed. -/
def PC.closed : PC → Nat
  | .closing _ fd => fd
  | k => if k.exiting then nofiles else 0

/-- What a step of `kexit` does to the files; other code does not get into `kexit`. -/
def PC.Closes (me : Fin nproc) (x : Instr) (k k' : PC) : Prop :=
  (k'.closed ≤ k.closed ∨ x.act = .close me k.closed ∧ k'.closed = k.closed + 1) ∧
    (k'.exiting → k.exiting ∨ x.act = .dropCwd me)

theorem Job.closes_fetch {t : Tab} {me i : Fin nproc} {ok : Bool} {job : Job} {k' : PC}
    (hn : (job.fetch t me i ok).next = .pc k' ∨ (job.fetch t me i ok).next = .swtch k') :
    (PC.inside i job).Closes me (job.fetch t me i ok) k' := by
  unfold PC.Closes
  cases job with
  | wake chan k => cases k <;> grind [Job.fetch, PC.closed, PC.exiting]
  | _ => grind [Job.fetch, PC.closed, PC.exiting]

theorem PC.closed_fetch {t : Tab} {me : Fin nproc} {ok : Bool} {x : Instr} {k k' : PC}
    (h : k.fetch t me ok = some x) (hn : x.next = .pc k' ∨ x.next = .swtch k') : k.Closes me x k' := by
  cases k with
  | want i job =>
    cases h
    rcases hn with hn | hn <;> cases hn
    cases job <;> exact ⟨.inl (Nat.le_refl _), .inl⟩
  | inside i job =>
    cases h
    exact Job.closes_fetch hn
  | exitAcq status | exitOwn status =>
    cases h
    rcases hn with hn | hn <;> cases hn
    exact ⟨.inl (Nat.le_refl _), .inl⟩
  | sleepLk lk => cases lk <;> grind [PC.fetch, PC.closed, PC.exiting, PC.Closes]
  | wakeLoop chan i k => cases k <;> grind [PC.fetch, PC.closed, PC.exiting, PC.Closes]
  | _ => grind [PC.fetch, PC.closed, PC.exiting, PC.Closes]

theorem ProcCall.closed_fetch {me : Fin nproc} {nested : Bool} {x : Instr} {k : ProcCall} {k' : PC}
    (h : k.fetch me nested = some x) (hn : x.next = .pc k') : k'.closed = 0 ∧ k'.exiting = false := by
  cases k <;> grind [ProcCall.fetch, PC.closed, PC.exiting]

namespace Smp

variable {n : Nat} {s s' : Smp n} {c : Fin n} {ch : Choice} {x : Instr} {i p : Fin nproc}

theorem entry_perform (s : Smp n) (c : Fin n) (x : Instr) (i : Fin nproc) :
    (s.perform c x).tab.entry i = (s.tab.act x.act).entry i := by
  simp [perform]

theorem files_perform (s : Smp n) (c : Fin n) (x : Instr) (p : Fin nproc) :
    (s.perform c x).tab.ofile p = (s.tab.act x.act).ofile p ∧ (s.perform c x).tab.cwd p = (s.tab.act x.act).cwd p :=
  ⟨congrArg ProcEntry.ofile (entry_perform s c x p), congrArg ProcEntry.cwd (entry_perform s c x p)⟩

structure Clean (s : Smp n) : Prop where
  unused : ∀ i, s.state i = .unused → (s.tab.entry i).Blank
  zombie : ∀ i, s.state i = .zombie → (s.tab.entry i).NoFiles
  closed : ∀ p fd, fd < (s.tab.thread p).base.closed → s.tab.ofile p fd = none
  exiting : ∀ p, (s.tab.thread p).base.exiting → s.tab.cwd p = none
  setup : ∀ p np, (s.tab.thread p).base = .setup np → (s.tab.entry np).NoFiles
  named : ∀ i, s.state i ≠ .unused → (s.tab.entry i).killed → (s.tab.entry i).named

/-- The entry that a `kkill(0)` of CPU `c` has come to. -/
def killsZero (s : Smp n) (c : Fin n) : Option (Fin nproc) :=
  match s.cpu c with
  | .inProc p =>
    match (s.tab.thread p).top with
    | .inside i (.kill pid) => if pid = 0 then some i else none
    | _ => none
  | _ => none

/-- `kkill(0)` does not come to an `UNUSED` entry. -/
def KillsProcess (s : Smp n) (e : Fin n × Choice) : Prop := ∀ i ∈ s.killsZero e.1, s.state i ≠ .unused

instance (s : Smp n) (e : Fin n × Choice) : Decidable (s.KillsProcess e) :=
  inferInstanceAs (Decidable (∀ i ∈ s.killsZero e.1, s.state i ≠ .unused))

theorem clean_boot : (boot : Smp n).Clean where
  unused := fun i h => by
    have hi : i ≠ initproc := fun e => by simp [state, boot, e] at h
    have hproc : (boot : Smp n).tab.procs i = Proc.fresh := by simp [boot, hi]
    refine ⟨?_, ?_, ?_, ?_, fun _ _ => rfl, ?_⟩ <;> simp [Tab.entry, hproc, Proc.fresh]
    simp [boot, hi]
  zombie := fun i h => by
    simp only [state, boot] at h
    split at h <;> cases h
  closed := fun p fd h => absurd h (by simp [boot, PC.closed, PC.exiting])
  exiting := fun p h => by cases h
  setup := fun p np h => by cases h
  named := fun i _ h => by
    simp only [Tab.entry, boot] at h
    split at h <;> cases h

/-- Files change on the process's own CPU, or are copied to the entry that a fork has taken. -/
theorem Inv.filer_cases (hinv : s.Inv) (h : s.fetch c ch = some x) (hi : x.act.filer = some i) :
    (s.cpu c = .inProc i ∧ s.state i = .running ∧
        (s.tab.thread i = ⟨.idle, []⟩ ∨ (∃ fd, x.act = .close i fd) ∨ x.act = .dropCwd i)) ∨
      (∃ p, x.act = .copy p i ∧ s.cpu c = .inProc p ∧ (s.tab.thread p).base = .setup i ∧ s.state i = .used) := by
  have hg := guard_of_fetch h
  have hrun {p : Fin nproc} {k : PC} (hc : s.cpu c = .inProc p) (hk : (s.tab.thread p).top = k) (hne : k ≠ .exitSw) :
      s.state p = .running := by
    have := hinv.state_inProc hc
    rwa [hk, if_neg hne] at this
  cases ha : x.act with
  | copy p j =>
    rw [ha] at hi hg
    cases hi
    exact .inr ⟨p, rfl, hg.1, (hinv.base_of_top hg.2 rfl).1, (hinv.state_child hg.2 rfl rfl).1⟩
  | files j o w =>
    rw [ha] at hi hg
    cases hi
    exact .inl ⟨hg.1, hrun hg.1 (k := .idle) (by rw [hg.2]; rfl) (by simp), .inl hg.2⟩
  | close j fd =>
    rw [ha] at hi hg
    cases hi
    obtain ⟨hc, status, hk⟩ := hg
    exact .inl ⟨hc, hrun hc hk (by simp), .inr (.inl ⟨fd, rfl⟩)⟩
  | dropCwd j =>
    rw [ha] at hi hg
    cases hi
    obtain ⟨hc, status, fd, hk, -⟩ := hg
    exact .inl ⟨hc, hrun hc hk (by simp), .inr (.inr rfl)⟩
  | _ =>
    rw [ha] at hi
    cases hi

/-- The files of an entry that is neither running nor being set up stay. -/
theorem Inv.files_stay (hinv : s.Inv) (h : s.fetch c ch = some x) (hrun : s.state i ≠ .running)
    (hcopy : ∀ p, x.act ≠ .copy p i) :
    (s.perform c x).tab.ofile i = s.tab.ofile i ∧ (s.perform c x).tab.cwd i = s.tab.cwd i := by
  have hfiles : (s.tab.act x.act).ofile i = s.tab.ofile i ∧ (s.tab.act x.act).cwd i = s.tab.cwd i := by
    refine Tab.files_act fun hi => ?_
    rcases hinv.filer_cases h hi with ⟨-, hst, -⟩ | ⟨p, ha, -⟩
    · exact hrun hst
    · exact hcopy p ha
  have hentry := entry_perform s c x i
  simp only [Tab.entry, ProcEntry.mk.injEq] at hentry
  exact ⟨hentry.2.2.2.2.1.trans hfiles.1, hentry.2.2.2.2.2.1.trans hfiles.2⟩

theorem Inv.not_inProc_of_unused (hinv : s.Inv) (hst : s.state i = .unused) : s.cpu c ≠ .inProc i :=
  fun hc => hinv.inProc_ne_unused hc hst

/-- Only a fork that fails and a wait free an entry. -/
theorem Inv.unused_cases (hinv : s.Inv) (h : s.fetch c ch = some x) (hst : (s.perform c x).state i = .unused) :
    s.state i = .unused ∨ (x.act = .free i ∧ s.state i = .used) ∨ ∃ p, x.act = .reap p i ∧ s.state i = .zombie := by
  have hm := hinv.moves h i
  rw [hst] at hm
  generalize hold : s.state i = st at hm ⊢
  cases hm with
  | same => exact .inl rfl
  | free ha => exact .inr (.inl ⟨ha, rfl⟩)
  | reap p ha => exact .inr (.inr ⟨p, ha, rfl⟩)

/-- A freed entry is blank if its files are closed. -/
theorem blank_freed {t : Tab} (h : (t.entry i).NoFiles) :
    ({ t.upd i Proc.freed with reaps := reaps } : Tab).entry i |>.Blank := by
  refine ⟨?_, ?_, ?_, ?_, h⟩ <;> simp [Tab.entry, Tab.upd, Proc.freed]

section
variable (hcl : s.Clean) (hinv : s.Inv) (h : s.fetch c ch = some x)
include hcl hinv h

/-- What a step does to an `UNUSED` entry that stays so. -/
theorem Clean.entry_unused (hok : s.KillsProcess (c, ch))
    (hst : s.state i = .unused) (hst' : (s.perform c x).state i = .unused) :
    (s.perform c x).tab.entry i = s.tab.entry i := by
  rw [entry_perform]
  have hne := hinv.not_inProc_of_unused (c := c) hst
  have hg := guard_of_fetch h
  cases ha : x.act with
  | kill j pid =>
    by_cases hj : j = i
    · subst hj
      rw [ha] at hg
      obtain ⟨p, hc, hk⟩ := hg
      have hpid : ((s.tab.procs j).pid : Int) ≠ pid := by
        have hzero : (s.tab.procs j).pid = 0 := (hcl.unused j hst).pid
        rintro rfl
        refine hok j ?_ hst
        simp [killsZero, hc, hk, hzero]
      simp [Tab.act, Tab.kill, hpid]
    · exact Tab.entry_act fun e => hj (Option.some.inj e)
  | setkilled j =>
    refine Tab.entry_act fun e => ?_
    cases e
    rw [ha] at hg
    exact hne hg
  | sleep j chan | tidy j | files j o w | close j fd | dropCwd j =>
    refine Tab.entry_act fun e => ?_
    cases e
    rw [ha] at hg
    exact hne hg.1
  | alloc j =>
    refine Tab.entry_act fun e => ?_
    cases e
    rw [state_perform, ha] at hst'
    simp [Tab.act, Tab.alloc, Tab.upd] at hst'
  | free j =>
    refine Tab.entry_act fun e => ?_
    cases e
    rw [ha] at hg
    obtain ⟨p, -, hk⟩ := hg
    exact absurd (hst.symm.trans (hinv.state_child hk rfl rfl).1) (by simp)
  | copy p j =>
    refine Tab.entry_act fun e => ?_
    cases e
    rw [ha] at hg
    exact absurd (hst.symm.trans (hinv.state_child hg.2 rfl rfl).1) (by simp)
  | adopt j q =>
    refine Tab.entry_act fun e => ?_
    cases e
    rw [ha] at hg
    obtain ⟨p, -, ⟨hk, -⟩ | ⟨status, -, -, hparent⟩⟩ := hg
    · exact absurd (hst.symm.trans (hinv.state_child hk rfl rfl).1) (by simp)
    · exact absurd (hparent.symm.trans (hcl.unused i hst).parent) (by simp)
  | reap p j =>
    refine Tab.entry_act fun e => ?_
    cases e
    rw [ha] at hg
    exact absurd (hst.symm.trans hg.2.2) (by simp)
  | _ => exact Tab.entry_act (by simp [Act.subject])

theorem Clean.unused_step (hok : s.KillsProcess (c, ch))
    (i : Fin nproc) (hst : (s.perform c x).state i = .unused) : ((s.perform c x).tab.entry i).Blank := by
  rcases hinv.unused_cases h hst with hold | ⟨ha, -⟩ | ⟨p, ha, hold⟩
  · rw [hcl.entry_unused hinv h hok hold hst]
    exact hcl.unused i hold
  · have hg := guard_of_fetch h
    rw [ha] at hg
    obtain ⟨p, -, hk⟩ := hg
    rw [entry_perform, ha]
    exact blank_freed (hcl.setup p i (hinv.base_of_top hk rfl).1)
  · rw [entry_perform, ha]
    exact blank_freed (hcl.zombie i hold)

/-- Files that `kexit` has closed stay closed. -/
theorem Clean.closed_stays {p : Fin nproc} {fd : Nat}
    (hfd : fd < (s.tab.thread p).base.closed) : (s.perform c x).tab.ofile p fd = none := by
  have hold := hcl.closed p fd hfd
  rw [(files_perform s c x p).1]
  by_cases hi : x.act.filer = some p
  · rcases hinv.filer_cases h hi with ⟨-, -, hth | ⟨fd', ha⟩ | ha⟩ | ⟨q, ha, hc, hb, hst⟩
    · rw [hth] at hfd
      exact absurd hfd (Nat.not_lt_zero _)
    · rw [ha]
      simp only [Tab.act, Function.update_self, Function.update_apply]
      split
      · rfl
      · exact hold
    · rw [ha]
      exact hold
    · -- an entry that is being set up has not run
      have := (hinv.child q p (by rw [hb]; rfl)).2
      rw [this] at hfd
      exact absurd hfd (Nat.not_lt_zero _)
  · rw [(Tab.files_act hi).1]
    exact hold

theorem Clean.exiting_stays {p : Fin nproc}
    (hex : (s.tab.thread p).base.exiting) : (s.perform c x).tab.cwd p = none := by
  have hold := hcl.exiting p hex
  rw [(files_perform s c x p).2]
  by_cases hi : x.act.filer = some p
  · rcases hinv.filer_cases h hi with ⟨-, -, hth | ⟨fd', ha⟩ | ha⟩ | ⟨q, ha, hc, hb, hst⟩
    · rw [hth] at hex
      cases hex
    · rw [ha]
      exact hold
    · rw [ha]
      exact Function.update_self _ _ _
    · have := (hinv.child q p (by rw [hb]; rfl)).2
      rw [this] at hex
      cases hex
  · rw [(Tab.files_act hi).2]
    exact hold

theorem Clean.closed_step (p : Fin nproc) (fd : Nat)
    (hfd : fd < ((s.perform c x).tab.thread p).base.closed) : (s.perform c x).tab.ofile p fd = none := by
  rcases hinv.base_cases h p with ⟨hb, -⟩ | ⟨-, hb⟩ | ⟨-, -, ⟨ok, hf, hn⟩ | ⟨kc, -, hf, hn⟩⟩
  · exact hcl.closed_stays hinv h (hb ▸ hfd)
  · rw [hb] at hfd
    exact absurd hfd (Nat.not_lt_zero _)
  · rcases (PC.closed_fetch hf hn).1 with hle | ⟨ha, heq⟩
    · exact hcl.closed_stays hinv h (Nat.lt_of_lt_of_le hfd hle)
    · rcases Nat.lt_or_ge fd (s.tab.thread p).base.closed with hlt | hge
      · exact hcl.closed_stays hinv h hlt
      · obtain rfl : fd = (s.tab.thread p).base.closed := by omega
        rw [(files_perform s c x p).1, ha]
        simp [Tab.act]
  · rw [(ProcCall.closed_fetch hf hn).1] at hfd
    exact absurd hfd (Nat.not_lt_zero _)

theorem Clean.exiting_step (p : Fin nproc)
    (hex : ((s.perform c x).tab.thread p).base.exiting) : (s.perform c x).tab.cwd p = none := by
  rcases hinv.base_cases h p with ⟨hb, -⟩ | ⟨-, hb⟩ | ⟨-, -, ⟨ok, hf, hn⟩ | ⟨kc, -, hf, hn⟩⟩
  · exact hcl.exiting_stays hinv h (hb ▸ hex)
  · rw [hb] at hex
    cases hex
  · rcases (PC.closed_fetch hf hn).2 hex with hold | ha
    · exact hcl.exiting_stays hinv h hold
    · rw [(files_perform s c x p).2, ha]
      exact Function.update_self _ _ _
  · rw [(ProcCall.closed_fetch hf hn).2] at hex
    cases hex

theorem Clean.zombie_step (i : Fin nproc)
    (hst : (s.perform c x).state i = .zombie) : ((s.perform c x).tab.entry i).NoFiles := by
  have hm := hinv.moves h i
  rw [hst] at hm
  generalize hold : s.state i = st at hm
  cases hm with
  | same =>
    obtain ⟨hof, hcwd⟩ := hinv.files_stay h (i := i) (by simp [hold]) fun p ha => by
      have hg := guard_of_fetch h
      rw [ha] at hg
      exact absurd (hold.symm.trans (hinv.state_child hg.2 rfl rfl).1) (by simp)
    simpa only [ProcEntry.NoFiles, Tab.entry, hof, hcwd] using hcl.zombie i hold
  | zombie status ha =>
    have hg := guard_of_fetch h
    rw [ha] at hg
    have hb := (hinv.base_of_top hg.2 rfl).1
    rw [entry_perform, ha]
    exact ⟨fun fd hfd => hcl.closed i fd (by rw [hb]; exact hfd), hcl.exiting i (by rw [hb]; rfl)⟩

end

/-- A fork that has taken an entry and goes on has not copied its files yet, or has just taken it. -/
theorem setup_cases {t : Tab} {ok : Bool} {k : PC} {np : Fin nproc} (h : k.fetch t p ok = some x)
    (hn : x.next = .pc (.setup np) ∨ x.next = .swtch (.setup np)) : x.act = .alloc np := by
  cases k with
  | inside i job => cases job <;> grind [PC.fetch, Job.fetch]
  | sleepLk lk => cases lk <;> grind [PC.fetch]
  | wakeLoop chan i k => cases k <;> grind [PC.fetch]
  | _ => grind [PC.fetch]

section
variable (hcl : s.Clean) (hinv : s.Inv) (h : s.fetch c ch = some x)
include hcl hinv h

theorem Clean.setup_step (p np : Fin nproc)
    (hb : ((s.perform c x).tab.thread p).base = .setup np) : ((s.perform c x).tab.entry np).NoFiles := by
  have hfiles (hrun : s.state np ≠ .running) (hcopy : ∀ q, x.act ≠ .copy q np) (hold : (s.tab.entry np).NoFiles) :
      ((s.perform c x).tab.entry np).NoFiles := by
    obtain ⟨hof, hcwd⟩ := hinv.files_stay h hrun hcopy
    simpa only [ProcEntry.NoFiles, Tab.entry, hof, hcwd] using hold
  rcases hinv.base_cases h p with ⟨hb', hact⟩ | ⟨-, hb'⟩ | ⟨-, -, ⟨ok, hf, hn⟩ | ⟨kc, -, hf, hn⟩⟩
  · rw [hb'] at hb
    have hused := (hinv.child p np (by rw [hb]; rfl)).1
    refine hfiles (by simp [hused]) (fun q ha => ?_) (hcl.setup p np hb)
    -- the files are copied by this very fork, which goes on then
    have hg := guard_of_fetch h
    rw [ha] at hg
    obtain ⟨hbase, hnil⟩ := hinv.base_of_top hg.2 rfl
    obtain rfl := hinv.children p q np (by rw [hb]; rfl) (by rw [hbase]; rfl)
    exact (hact hg.1).elim (fun hne => hne hnil) fun hnone => by simp [ha] at hnone
  · rw [hb'] at hb
    cases hb
  · rw [hb] at hn
    have ha := setup_cases hf hn
    have hg := guard_of_fetch h
    rw [ha] at hg
    obtain ⟨-, -, -, hst⟩ := hg
    exact hfiles (by simp [hst]) (by simp [ha]) (hcl.unused np hst).files
  · rw [hb] at hn
    cases kc <;> grind [ProcCall.fetch]

theorem Clean.named_step (i : Fin nproc)
    (hst : (s.perform c x).state i ≠ .unused) (hk : ((s.perform c x).tab.entry i).killed) :
    ((s.perform c x).tab.entry i).named := by
  have hg := guard_of_fetch h
  have hm := hinv.moves h i
  rw [entry_perform] at hk ⊢
  have hsame (hne : x.act ≠ .alloc i) (hkilled : ((s.tab.act x.act).entry i).killed = (s.tab.entry i).killed)
      (hnamed : ((s.tab.act x.act).entry i).named = (s.tab.entry i).named) :
      ((s.tab.act x.act).entry i).named := by
    rw [hnamed]
    refine hcl.named i (fun hold => hst ?_) (hkilled ▸ hk)
    rw [hold] at hm
    generalize (s.perform c x).state i = st' at hm ⊢
    cases hm with
    | same => rfl
    | alloc ha => exact absurd ha hne
  by_cases hsub : x.act.subject = some i
  · cases ha : x.act with
    | alloc j =>
      rw [ha] at hsub hg hk
      cases hsub
      obtain ⟨-, -, -, hold⟩ := hg
      have := (hcl.unused i hold).killed
      simp [Tab.entry, Tab.act, Tab.alloc, Tab.upd] at hk this
      simp [hk] at this
    | free j | reap p j =>
      rw [ha] at hsub hk
      cases hsub
      simp [Tab.entry, Tab.act, Tab.reap, Tab.upd, Proc.freed] at hk
    | setkilled j =>
      rw [ha] at hsub
      cases hsub
      simp [Tab.entry, Tab.act]
    | kill j pid =>
      rw [ha] at hsub hsame
      cases hsub
      simp only [Tab.act, Tab.kill] at hsame ⊢
      split
      · simp [Tab.entry]
      · next hpid => simpa [hpid] using hsame
    | sleep j chan | tidy j | copy p j | adopt j q | files j o w | close j fd | dropCwd j =>
      rw [ha] at hsub hsame
      cases hsub
      refine hsame (by simp) ?_ rfl
      simp [Tab.entry, Tab.act, Tab.copy, Tab.upd, Proc.inherit]
    | _ =>
      rw [ha] at hsub
      cases hsub
  · rw [Tab.entry_act hsub] at hsame ⊢
    exact hsame (fun ha => hsub (by rw [ha]; rfl)) rfl rfl

theorem Clean.perform (hok : s.KillsProcess (c, ch)) :
    (s.perform c x).Clean where
  unused := hcl.unused_step hinv h hok
  zombie := hcl.zombie_step hinv h
  closed := hcl.closed_step hinv h
  exiting := hcl.exiting_step hinv h
  setup := hcl.setup_step hinv h
  named := hcl.named_step hinv h

end

theorem clean_run {es : List (Fin n × Choice)} (h : run step boot es = some s)
    (hok : Along step KillsProcess boot es) : s.Clean := by
  have hboth : s.Inv ∧ s.Clean := by
    refine invariant (P := fun s => s.Inv ∧ s.Clean) (fun s e s' hs hok h => ?_) ⟨inv_boot, clean_boot⟩ hok h
    obtain ⟨x, hx, hacq, rfl⟩ := step_eq_some h
    exact ⟨hs.1.perform hx hacq, hs.2.perform hs.1 hx hok⟩
  exact hboth.2

end Smp

/-- As long as `kkill(0)` does not come to an `UNUSED` entry, such entries are clean, and no process is
killed that was not named since its entry was allocated. -/
theorem unused_entries_clean (n : Nat) (es : List (Fin n × Choice)) (s : Smp n)
    (h : run Smp.step Smp.boot es = some s) (hok : Along Smp.step Smp.KillsProcess Smp.boot es) (i : Fin nproc) :
    ((s.tab.procs i).state = .unused →
        (s.tab.procs i).killed = false ∧ (s.tab.procs i).chan = 0 ∧ (s.tab.procs i).pid = 0 ∧
          (s.tab.procs i).parent = none ∧ (∀ fd < nofiles, s.tab.ofile i fd = none) ∧ s.tab.cwd i = none) ∧
      ((s.tab.procs i).state ≠ .unused → (s.tab.procs i).killed = true → s.tab.named i = true) := by
  have hcl := Smp.clean_run h hok
  refine ⟨fun hst => ?_, hcl.named i⟩
  obtain ⟨hkilled, hchan, hpid, hparent, hfiles, hcwd⟩ := hcl.unused i hst
  exact ⟨hkilled, hchan, hpid, hparent, hfiles, hcwd⟩

/-- The steps of `init` up to its return from `forkret`, on one CPU. -/
def initRuns : List (Fin 1 × Choice) := List.replicate 260 (0, .go)

/-- `init` forks; the child is not killed. -/
theorem unused_entries_clean_fork :
    ∃ s, run Smp.step Smp.boot (initRuns ++ (0, .call .fork) :: List.replicate 9 (0, .go)) = some s ∧
      (s.tab.procs 1).state = .runnable ∧ (s.tab.procs 1).killed = false := by
  have hend : ((run Smp.step Smp.boot (initRuns ++ (0, .call .fork) :: List.replicate 9 (0, .go))).map
      fun s => ((s.tab.procs 1).state, s.tab.named 1)) = some (.runnable, false) := by
    decide +kernel
  have hok : Along Smp.step Smp.KillsProcess Smp.boot
      (initRuns ++ (0, .call .fork) :: List.replicate 9 (0, .go)) := by
    decide +kernel
  obtain ⟨s, hrun, hs⟩ := Option.map_eq_some_iff.mp hend
  obtain ⟨hst, hnamed⟩ := Prod.mk.injEq .. ▸ hs
  have hkilled := (unused_entries_clean 1 _ s hrun hok 1).2 (by simp [hst])
  exact ⟨s, hrun, hst, by simpa [hnamed] using hkilled⟩

/-- `init` calls `kkill(0)` and forks: the `UNUSED` entry is marked, and the child that gets it is killed
without having been named. -/
theorem kill_zero_marks_unused :
    ((run Smp.step Smp.boot (initRuns ++ (0, .call (.kill 0)) :: List.replicate 6 (0, .go))).map
        fun s => ((s.tab.procs 1).state, (s.tab.procs 1).killed)) = some (.unused, true) ∧
      ((run Smp.step Smp.boot (initRuns ++ (0, .call (.kill 0)) :: List.replicate 6 (0, .go) ++
          (0, .call .fork) :: List.replicate 9 (0, .go))).map
        fun s => ((s.tab.procs 1).state, (s.tab.procs 1).killed, s.tab.named 1)) =
          some (.runnable, true, false) := by
  decide +kernel

end MiniOS
