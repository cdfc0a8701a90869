import MiniOS.Smp

/-!
# MiniOS.Smp.Fetch

What `Smp.fetch` can give, point by point: the locks that are acquired and
released fit those held (`held_fetch`), an entry changes its state under its
lock (`held_of_moved`), and each action is issued at its own points of the code
(`Guard`).  The rest of the development cites these and does not unfold `fetch`.
-/

namespace MiniOS

/-! ## The locks that a step acquires and releases -/

/-- The locks held where the code of `me` goes on. -/
def Next.heldProc (me : Fin nproc) : Next → List Lock
  | .pc k => k.held me
  | .swtch _ => [.proc me]
  | _ => []

/-- The locks held where `scheduler()` goes on. -/
def Next.heldCode : Next → List Lock
  | .code k => k.held
  | .run b | .enter b => [.proc b]
  | _ => []

section
variable {t : Tab} {me : Fin nproc} {ok : Bool} {x : Instr}

theorem Job.held_fetch (i : Fin nproc) (job : Job) (l : Lock) :
    l ∈ (job.fetch t me i ok).next.heldProc me ↔
      (job.fetch t me i ok).rel ≠ some l ∧
        ((job.fetch t me i ok).acq = some l ∨ l ∈ (PC.inside i job).held me) := by
  cases job with
  | wake chan k => cases k <;> grind [PC.held, Job.fetch, Job.outer, Next.heldProc]
  | _ => grind [PC.held, Job.fetch, Job.outer, SleepLock.locks, Next.heldProc]

theorem PC.held_fetch {k : PC} (h : k.fetch t me ok = some x) (l : Lock) :
    l ∈ x.next.heldProc me ↔ x.rel ≠ some l ∧ (x.acq = some l ∨ l ∈ k.held me) := by
  cases k with
  | inside i job =>
    cases h
    exact job.held_fetch i l
  | want i job => grind [PC.fetch, PC.held, Next.heldProc]
  | sleepAcq chan lk => grind [PC.fetch, PC.held, Next.heldProc]
  | sleepRel chan lk => cases lk <;> grind [PC.fetch, PC.held, SleepLock.locks, Next.heldProc]
  | sleepLk lk => cases lk <;> grind [PC.fetch, PC.held, Next.heldProc]
  | wakeLoop chan i k => cases k <;> grind [PC.fetch, PC.held, Job.outer, Next.heldProc]
  | _ => grind [PC.fetch, PC.held, Job.outer, SleepLock.locks, Next.heldProc]

theorem PC.rel_held {k : PC} (h : k.fetch t me ok = some x) {l : Lock} (hl : x.rel = some l) :
    l ∈ k.held me := by
  cases k with
  | inside i job => cases job <;> grind [PC.fetch, PC.held, Job.fetch]
  | sleepRel chan lk | sleepLk lk => cases lk <;> grind [PC.fetch, PC.held, SleepLock.locks]
  | wakeLoop chan i k => cases k <;> grind [PC.fetch, PC.held]
  | _ => grind [PC.fetch, PC.held]

/-- Whoever waits for a lock holds none, or `wait_lock` and waits for the lock of an entry. -/
theorem PC.acq_held {k : PC} (h : k.fetch t me ok = some x) {l m : Lock} (hl : x.acq = some l)
    (hm : m ∈ k.held me) : m ≠ l ∧ .wait ∈ k.held me := by
  cases k with
  | inside i job => cases job <;> grind [PC.fetch, Job.fetch]
  | want i job =>
    cases job with
    | wake chan k => cases k <;> grind [PC.fetch, PC.held, Job.outer]
    | _ => grind [PC.fetch, PC.held, Job.outer]
  | sleepAcq chan lk | sleepLk lk => cases lk <;> grind [PC.fetch, PC.held, SleepLock.locks]
  | wakeLoop chan i k => cases k <;> grind [PC.fetch]
  | _ => grind [PC.fetch, PC.held]

/-- A call starts where no lock is held. -/
theorem ProcCall.fetch_held {nested : Bool} {k : ProcCall} (h : k.fetch me nested = some x) :
    x.acq = none ∧ x.rel = none ∧ ∃ k', x.next = .pc k' ∧ k'.held me = [] := by
  cases k <;> grind [ProcCall.fetch, PC.held, Job.outer, SleepLock.locks]

end

/-! ## Code on top of other code -/

/-- Code that does not fork, exit or wait. -/
def Job.leaf : Job → Bool
  | .wake _ .done | .kill _ | .setkilled | .killed => true
  | _ => false

@[inherit_doc Job.leaf]
def PC.leaf : PC → Bool
  | .idle | .yieldAcq | .yieldSw | .yielded | .killLoop .. => true
  | .want _ job | .inside _ job => job.leaf
  | .sleepAcq _ lk | .sleepRel _ lk | .sleepSw _ lk | .sleepTidy lk | .sleepLk lk => lk = .other
  | .wakeLoop _ _ k => k = .done
  | _ => false

/-- Code that was interrupted holds no lock, and only code of the first level forks, exits or waits. -/
structure KThread.Ok (me : Fin nproc) (t : KThread) : Prop where
  base : t.nested ≠ [] → t.base.held me = []
  leaf : ∀ k ∈ t.nested, k.leaf
  below : ∀ k ∈ t.nested.tail, k.held me = []

namespace KThread

variable {me : Fin nproc} {t : KThread} {k : PC}

@[simp] theorem top_setTop (t : KThread) (k : PC) : (t.setTop k).top = k := by
  unfold setTop top
  split <;> simp_all

@[simp] theorem top_push (t : KThread) : t.push.top = .idle := rfl

theorem Ok.setTop (h : t.Ok me) (hk : t.nested ≠ [] → k.leaf) : (t.setTop k).Ok me := by
  unfold KThread.setTop
  split
  · next hn => exact ⟨fun hne => absurd hn hne, by simp [hn], by simp [hn]⟩
  · next k₀ ks hn =>
    refine ⟨fun _ => h.base (by simp [hn]), ?_, fun k' hk' => h.below k' (by simpa [hn] using hk')⟩
    intro k' hk'
    rcases List.mem_cons.mp hk' with rfl | hk'
    · exact hk (by simp [hn])
    · exact h.leaf k' (by simp [hn, hk'])

theorem Ok.push (h : t.Ok me) (htop : t.top.held me = []) : t.push.Ok me := by
  refine ⟨fun _ => ?_, ?_, ?_⟩
  · change t.base.held me = []
    by_cases hn : t.nested = []
    · simpa [top, hn] using htop
    · exact h.base hn
  · intro k' hk'
    rcases List.mem_cons.mp hk' with rfl | hk'
    · rfl
    · exact h.leaf k' hk'
  · intro k' hk'
    change k' ∈ t.nested at hk'
    cases hn : t.nested with
    | nil => simp [hn] at hk'
    | cons k₀ ks =>
      rw [hn] at hk'
      rcases List.mem_cons.mp hk' with rfl | hk'
      · simpa [top, hn] using htop
      · exact h.below k' (by simpa [hn] using hk')

/-- What was interrupted goes on without a lock. -/
theorem Ok.pop (h : t.Ok me) (hn : t.nested ≠ []) : t.pop.Ok me ∧ t.pop.top.held me = [] := by
  obtain ⟨k₀, ks, hn'⟩ := List.exists_cons_of_ne_nil hn
  refine ⟨⟨fun _ => h.base hn, fun k' hk' => h.leaf k' (List.mem_of_mem_tail hk'), fun k' hk' => ?_⟩, ?_⟩
  · exact h.below k' (List.mem_of_mem_tail hk')
  · unfold KThread.pop top
    simp only [hn', List.tail_cons]
    cases ks with
    | nil => exact h.base hn
    | cons k₁ ks => exact h.below k₁ (by simp [hn'])

end KThread

/-- Nested code stays nested code. -/
theorem PC.leaf_fetch {t : Tab} {me : Fin nproc} {ok : Bool} {x : Instr} {k : PC}
    (h : k.fetch t me ok = some x) (hk : k.leaf) :
    (∃ k', x.next = .pc k' ∧ k'.leaf) ∨ ∃ k', x.next = .swtch k' ∧ k'.leaf := by
  cases k with
  | inside i job =>
    cases job with
    | wake chan k => cases k <;> grind [PC.fetch, PC.leaf, Job.fetch, Job.leaf]
    | _ => grind [PC.fetch, PC.leaf, Job.fetch, Job.leaf]
  | sleepLk lk => cases lk <;> grind [PC.fetch, PC.leaf]
  | _ => grind [PC.fetch, PC.leaf, Job.leaf]

theorem ProcCall.leaf_fetch {me : Fin nproc} {x : Instr} {k : ProcCall} (h : k.fetch me true = some x) :
    ∃ k', x.next = .pc k' ∧ k'.leaf := by
  cases k <;> grind [ProcCall.fetch, PC.leaf, Job.leaf]

/-- A process that was switched away from goes on with its own lock held. -/
def KThread.ready (t : KThread) : Bool :=
  match t.top with
  | .forkret | .yielded | .sleepTidy _ => true
  | _ => false

/-- The entry that a fork in progress has taken. -/
def PC.child : PC → Option (Fin nproc)
  | .setup np | .forkWait np | .forkParent np | .want np .start | .inside np .start => some np
  | _ => none

/-! ## What a step changes -/

/-- The entry whose state an action may change. -/
def Act.moved : Act → Option (Fin nproc)
  | .dispatch i | .yield i | .sleep i _ | .wake i _ | .kill i _ | .alloc i | .free i | .start i | .zombie i _
  | .reap _ i => some i
  | _ => Option.none

namespace Tab

variable {t : Tab} {i j : Fin nproc}

theorem state_act {a : Act} (h : a.moved ≠ some i) : ((t.act a).procs i).state = (t.procs i).state := by
  have hage (q : Proc) : q.age.state = q.state := by
    unfold Proc.age
    split <;> rfl
  cases a with
  | dispatch j | yield j | sleep j chan | wake j chan | alloc j | free j | start j | zombie j status | reap p j =>
    have hij : i ≠ j := fun e => h (e ▸ rfl)
    simp [act, alloc, zombie, reap, upd, hij]
  | kill j pid =>
    have hij : i ≠ j := fun e => h (e ▸ rfl)
    simp only [act, kill]
    split <;> simp [upd, hij]
  | none | windowReset | files p o c | close p fd | dropCwd p => rfl
  | age j | account j | clearTicks j | tick j | tidy j | setkilled j | adopt j p | copy p j =>
    by_cases hij : i = j
    · subst hij
      simp [act, copy, upd, hage, Proc.account, Proc.inherit]
    · simp [act, copy, upd, hij]

theorem thread_act {a : Act} (h : ∀ i, a = .alloc i → j ≠ i) : (t.act a).thread j = t.thread j := by
  cases a with
  | alloc i => exact Function.update_of_ne (h i rfl) _ _
  | kill i pid =>
    simp only [act, kill]
    split <;> rfl
  | _ => rfl

@[simp] theorem rethread_procs (t : Tab) (f : KThread → KThread) (k : Code) : (t.rethread f k).procs = t.procs := by
  cases k <;> rfl

theorem rethread_thread_of_ne {f : KThread → KThread} {k : Code} (h : k ≠ .inProc j) :
    (t.rethread f k).thread j = t.thread j := by
  cases k with
  | inProc p => exact Function.update_of_ne (fun e : j = p => h (e ▸ rfl)) _ _
  | _ => rfl

end Tab

namespace Smp

variable {n : Nat} {s : Smp n} {c : Fin n} {ch : Choice} {x : Instr} {i p : Fin nproc}

/-- The state of an entry. -/
def state (s : Smp n) (i : Fin nproc) : ProcState := (s.tab.procs i).state

theorem held_inProc {p : Fin nproc} (h : s.cpu c = .inProc p) : s.held c = (s.tab.thread p).top.held p := by
  rw [held, h]

theorem held_code {k : Code} (h : s.cpu c = k) (hk : ∀ p, k ≠ .inProc p) : s.held c = k.held := by
  rw [held, h]
  split
  · next p => exact absurd rfl (hk p)
  · rfl

theorem fetch_inProc (hc : s.cpu c = .inProc p) : s.fetch c ch = s.tab.fetch p ch := by
  rw [fetch, hc, Code.fetch]

/-- An entry changes its state under its lock. -/
theorem held_of_moved (h : s.fetch c ch = some x) (hi : x.act.moved = some i) : .proc i ∈ s.held c := by
  cases hc : s.cpu c with
  | inProc p =>
    rw [held_inProc hc]
    rw [fetch_inProc hc] at h
    have hpc {ok : Bool} (h : (s.tab.thread p).top.fetch s.tab p ok = some x) :
        .proc i ∈ (s.tab.thread p).top.held p := by
      cases hk : (s.tab.thread p).top with
      | inside j job => cases job <;> grind [PC.fetch, PC.held, Job.fetch, Act.moved]
      | sleepLk lk => cases lk <;> grind [PC.fetch, Act.moved]
      | wakeLoop chan j k => cases k <;> grind [PC.fetch, Act.moved]
      | _ => grind [PC.fetch, PC.held, Act.moved]
    cases ch with
    | go | fail => exact hpc h
    | call k => cases k <;> grind [Tab.fetch, ProcCall.fetch, Act.moved]
    | nest | ret => grind [Tab.fetch, Act.moved]
  | scan j best => cases best <;> grind [Smp.fetch, Code.fetch, Act.moved]
  | _ =>
    rw [held_code hc (by simp)]
    grind [Smp.fetch, Code.fetch, Code.held, Act.moved]

/-- Where the code of a CPU is when it issues an action. -/
def Guard (s : Smp n) (c : Fin n) : Act → Prop
  | .none | .age _ | .windowReset | .clearTicks _ | .wake .. => True
  | .dispatch b => ∃ i, s.cpu c = .age b i
  | .account b => s.cpu c = .back b
  | .tick p | .setkilled p => s.cpu c = .inProc p
  | .files p _ _ => s.cpu c = .inProc p ∧ s.tab.thread p = ⟨.idle, []⟩
  | .tidy p => s.cpu c = .inProc p ∧ ∃ lk, (s.tab.thread p).top = .sleepTidy lk
  | .yield p => s.cpu c = .inProc p ∧ (s.tab.thread p).top = .yieldSw
  | .sleep p chan => s.cpu c = .inProc p ∧ ∃ lk, (s.tab.thread p).top = .sleepSw chan lk
  | .kill i pid => ∃ p, s.cpu c = .inProc p ∧ (s.tab.thread p).top = .inside i (.kill pid)
  | .alloc i => ∃ p, s.cpu c = .inProc p ∧ (s.tab.thread p).top = .allocIn i ∧ s.state i = .unused
  | .free np => ∃ p, s.cpu c = .inProc p ∧ (s.tab.thread p).top = .setup np
  | .copy p np => s.cpu c = .inProc p ∧ (s.tab.thread p).top = .setup np
  | .start np => ∃ p, s.cpu c = .inProc p ∧ (s.tab.thread p).top = .inside np .start
  | .adopt i q => ∃ p, s.cpu c = .inProc p ∧
      ((s.tab.thread p).top = .forkParent i ∧ q = p ∨
        ∃ status, (s.tab.thread p).top = .reparent status i ∧ q = initproc ∧ (s.tab.procs i).parent = some p)
  | .close p fd => s.cpu c = .inProc p ∧ ∃ status, (s.tab.thread p).top = .closing status fd
  | .dropCwd p => s.cpu c = .inProc p ∧ ∃ status fd, (s.tab.thread p).top = .closing status fd ∧ nofiles ≤ fd
  | .zombie p status => s.cpu c = .inProc p ∧ (s.tab.thread p).top = .exitZombie status
  | .reap p i => s.cpu c = .inProc p ∧ (s.tab.thread p).top = .inside i .reap ∧ s.state i = .zombie

theorem guard_of_fetch (h : s.fetch c ch = some x) : s.Guard c x.act := by
  cases hc : s.cpu c with
  | inProc p =>
    rw [fetch_inProc hc] at h
    have hpc {ok : Bool} (h : (s.tab.thread p).top.fetch s.tab p ok = some x) : s.Guard c x.act := by
      cases hk : (s.tab.thread p).top with
      | inside j job => cases job <;> grind [PC.fetch, Job.fetch, Guard, state]
      | sleepLk lk => cases lk <;> grind [PC.fetch, Guard]
      | wakeLoop chan j k => cases k <;> grind [PC.fetch, Guard]
      | _ => grind [PC.fetch, Guard, state]
    cases ch with
    | go | fail => exact hpc h
    | call k =>
      have hidle (htop : (s.tab.thread p).top = .idle) (hn : (s.tab.thread p).nested = []) :
          s.tab.thread p = ⟨.idle, []⟩ := by
        unfold KThread.top at htop
        cases hth : s.tab.thread p
        simp_all
      cases k <;> grind [Tab.fetch, ProcCall.fetch, Guard]
    | nest | ret => grind [Tab.fetch, Guard]
  | scan j best => cases best <;> grind [Smp.fetch, Code.fetch, Guard]
  | _ => grind [Smp.fetch, Code.fetch, Guard]

/-- The locks that the code of a process acquires and releases. -/
theorem held_fetch_proc {t : Tab} (h : t.fetch p ch = some x) (l : Lock) :
    (l ∈ x.next.heldProc p ↔ x.rel ≠ some l ∧ (x.acq = some l ∨ l ∈ (t.thread p).top.held p)) ∧
      (x.rel = some l → l ∈ (t.thread p).top.held p) := by
  cases ch with
  | go | fail => exact ⟨PC.held_fetch h l, PC.rel_held h⟩
  | call k =>
    simp only [Tab.fetch] at h
    split at h
    · next htop =>
      obtain ⟨hacq, hrel, k', hnext, hk'⟩ := ProcCall.fetch_held h
      have hidle : PC.idle.held p = [] := rfl
      simp [hacq, hrel, hnext, hk', htop, hidle, Next.heldProc]
    · cases h
  | nest =>
    simp only [Tab.fetch] at h
    split at h
    · next hheld =>
      cases h
      simp [hheld, Next.heldProc]
    · cases h
  | ret =>
    simp only [Tab.fetch] at h
    split at h
    · next hret =>
      cases h
      simp [hret.1, Next.heldProc, PC.held]
    · cases h

/-- How the code of a process goes on to `k'`. -/
def Continues (me : Fin nproc) (k : PC) (a : Act) (k' : PC) : Prop :=
  k ≠ .exitSw ∧ (k' = .exitSw ↔ ∃ status, a = .zombie me status) ∧ (a ≠ .yield me ∧ ∀ chan, a ≠ .sleep me chan) ∧
    ∀ np, k'.child = some np → a = .alloc np ∨ k.child = some np ∧ a ≠ .free np ∧ a ≠ .start np

/-- How the code of a process leaves the CPU, to go on at `k'`. -/
def Leaves (me : Fin nproc) (k : PC) (a : Act) (k' : PC) : Prop :=
  (a = .yield me ∧ k' = .yielded) ∨ (∃ chan lk, a = .sleep me chan ∧ k' = .sleepTidy lk) ∨
    a = .none ∧ k = .exitSw ∧ k' = .dead

theorem next_of_fetch {t : Tab} {me : Fin nproc} {ok : Bool} {k : PC} (h : k.fetch t me ok = some x) :
    (∃ k', x.next = .pc k' ∧ Continues me k x.act k') ∨ ∃ k', x.next = .swtch k' ∧ Leaves me k x.act k' := by
  cases k with
  | want i job | inside i job => cases job <;> grind [PC.fetch, Job.fetch, Continues, PC.child]
  | sleepLk lk => cases lk <;> grind [PC.fetch, Continues, PC.child]
  | wakeLoop chan i k => cases k <;> grind [PC.fetch, Continues, PC.child]
  | _ => grind [PC.fetch, Continues, Leaves, PC.child]

/-- Where the code of `p` goes on. -/
inductive Goes (t : Tab) (p : Fin nproc) (x : Instr) : Prop
  | pc (k : PC) (next : x.next = .pc k) (leaf : (t.thread p).nested ≠ [] → k.leaf)
      (act : Continues p (t.thread p).top x.act k)
  | swtch (k : PC) (next : x.next = .swtch k) (leaf : (t.thread p).nested ≠ [] → k.leaf)
      (act : Leaves p (t.thread p).top x.act k)
  | push (next : x.next = .push) (act : x.act = .none) (held : (t.thread p).top.held p = [])
  | pop (next : x.next = .pop) (act : x.act = .none) (idle : (t.thread p).top = .idle)
      (nested : (t.thread p).nested ≠ [])

theorem goes_of_fetch {t : Tab} (hok : (t.thread p).Ok p) (h : t.fetch p ch = some x) : Goes t p x := by
  have hleaf (hn : (t.thread p).nested ≠ []) : (t.thread p).top.leaf := by
    obtain ⟨k, ks, hks⟩ := List.exists_cons_of_ne_nil hn
    exact hok.leaf _ (by simp [KThread.top, hks])
  have hpc {ok : Bool} (h : (t.thread p).top.fetch t p ok = some x) : Goes t p x := by
    obtain ⟨k', hnext, hact⟩ | ⟨k', hnext, hact⟩ := next_of_fetch h
    · refine .pc k' hnext (fun hn => ?_) hact
      rcases PC.leaf_fetch h (hleaf hn) with ⟨k, hk, hkl⟩ | ⟨k, hk, -⟩ <;> simp_all
    · refine .swtch k' hnext (fun hn => ?_) hact
      rcases PC.leaf_fetch h (hleaf hn) with ⟨k, hk, -⟩ | ⟨k, hk, hkl⟩ <;> simp_all
  cases ch with
  | go | fail => exact hpc h
  | call k =>
    simp only [Tab.fetch] at h
    split at h
    · next htop =>
      obtain ⟨k', hnext, hact⟩ : ∃ k', x.next = .pc k' ∧ Continues p .idle x.act k' := by
        cases k <;> grind [ProcCall.fetch, Continues, PC.child]
      refine .pc k' hnext (fun hn => ?_) (htop ▸ hact)
      rw [show (!(t.thread p).nested.isEmpty) = true by simpa using hn] at h
      obtain ⟨k₁, hk₁, hl⟩ := ProcCall.leaf_fetch h
      simp_all
    · cases h
  | nest =>
    simp only [Tab.fetch] at h
    split at h
    · next hheld =>
      cases h
      exact .push rfl rfl hheld
    · cases h
  | ret =>
    simp only [Tab.fetch] at h
    split at h
    · next hret =>
      cases h
      exact .pop rfl rfl hret.1 hret.2
    · cases h

end Smp

end MiniOS
