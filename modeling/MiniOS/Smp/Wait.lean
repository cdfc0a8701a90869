import MiniOS.Smp.Clean

/-!
# MiniOS.Smp.Wait

`kexit` and `kwait`.  A process that exits hands its children to `init`, wakes
its parent and becomes `ZOMBIE`, all under `wait_lock`; a wait frees the entry,
once, and gets its pid and status (`Ledger`).  Parents are alive, and a wait
frees only children of its caller (`Family`).
-/

namespace MiniOS

namespace Tab

variable {t : Tab} {a : Act} {i : Fin nproc}

/-- What is recorded of the past. -/
structure Past where
  birth : Fin nproc → Nat
  births : Nat
  exits : List Exited
  reaps : List Reaped

def past (t : Tab) : Past := ⟨t.birth, t.births, t.exits, t.reaps⟩

theorem past_act (halloc : ∀ i, a ≠ .alloc i) (hzombie : ∀ i status, a ≠ .zombie i status)
    (hreap : ∀ p i, a ≠ .reap p i) : (t.act a).past = t.past := by
  cases a with
  | alloc i => exact absurd rfl (halloc i)
  | zombie i status => exact absurd rfl (hzombie i status)
  | reap p i => exact absurd rfl (hreap p i)
  | kill i pid =>
    simp only [act, kill]
    split <;> rfl
  | _ => rfl

@[simp] theorem past_rethread (t : Tab) (f : KThread → KThread) (k : Code) : (t.rethread f k).past = t.past := by
  cases k <;> rfl

/-- The pid and the status of an entry change only when it is allocated, freed or exits. -/
theorem pid_act (halloc : a ≠ .alloc i) (hfree : a ≠ .free i) (hzombie : ∀ status, a ≠ .zombie i status)
    (hreap : ∀ p, a ≠ .reap p i) :
    ((t.act a).procs i).pid = (t.procs i).pid ∧ ((t.act a).procs i).xstate = (t.procs i).xstate := by
  cases a with
  | none | windowReset | files p o w | close p fd | dropCwd p => exact ⟨rfl, rfl⟩
  | alloc j | free j =>
    have hij : i ≠ j := fun e => by simp [e] at halloc hfree
    simp [act, alloc, upd, hij]
  | zombie j status =>
    have hij : i ≠ j := fun e => hzombie status (e ▸ rfl)
    simp [act, zombie, upd, hij]
  | reap p j =>
    have hij : i ≠ j := fun e => hreap p (e ▸ rfl)
    simp [act, reap, upd, hij]
  | kill j pid =>
    simp only [act, kill, upd]
    split
    · simp only [Function.update_apply]
      split
      · next hij =>
        subst hij
        unfold Proc.kill
        dsimp only
        split <;> exact ⟨rfl, rfl⟩
      · exact ⟨rfl, rfl⟩
    · exact ⟨rfl, rfl⟩
  | age j | wake j chan =>
    simp only [act, upd, Function.update_apply]
    split
    · next hij =>
      subst hij
      simp only [Proc.age, Proc.wake]
      split <;> exact ⟨rfl, rfl⟩
    · exact ⟨rfl, rfl⟩
  | dispatch j | account j | clearTicks j | tick j | yield j | sleep j chan | tidy j | setkilled j | copy p j
  | adopt j p | start j =>
    by_cases hij : i = j
    · subst hij
      simp [act, copy, upd, Proc.account, Proc.inherit]
    · simp [act, copy, upd, hij]

theorem birth_act (h : a ≠ .alloc i) : (t.act a).birth i = t.birth i := by
  cases a with
  | alloc j => exact Function.update_of_ne (fun e : i = j => h (e ▸ rfl)) _ _
  | kill j pid =>
    simp only [act, kill]
    split <;> rfl
  | _ => rfl

end Tab

namespace Smp

variable {n : Nat} {s s' : Smp n} {c : Fin n} {ch : Choice} {x : Instr} {i p q : Fin nproc}

/-! ## Exits and waits -/

/-- Each allocation of an entry is told apart, ends with at most one exit, and is freed by at most one
wait. -/
structure Ledger (s : Smp n) : Prop where
  birth_lt : ∀ i, s.state i ≠ .unused → s.tab.birth i < s.tab.births
  birth_inj : ∀ i j, s.state i ≠ .unused → s.state j ≠ .unused → s.tab.birth i = s.tab.birth j → i = j
  zombie : ∀ i, s.state i = .zombie → s.tab.exited i ∈ s.tab.exits
  exits_lt : ∀ e ∈ s.tab.exits, e.birth < s.tab.births
  exits_dead : ∀ e ∈ s.tab.exits, ∀ i, s.tab.birth i = e.birth → s.state i = .unused ∨ s.state i = .zombie
  exits_nodup : (s.tab.exits.map (·.birth)).Nodup
  reaps_dead : ∀ r ∈ s.tab.reaps, ∀ i, s.tab.birth i = r.exited.birth → s.state i = .unused
  reaps : ∀ r ∈ s.tab.reaps, r.exited ∈ s.tab.exits ∧ r.parent = some r.caller
  reaps_nodup : (s.tab.reaps.map (·.exited.birth)).Nodup

theorem ledger_boot : (boot : Smp n).Ledger where
  birth_lt := fun _ _ => Nat.one_pos
  birth_inj := fun i j hi hj _ => by
    have key (i : Fin nproc) (hi : (boot : Smp n).state i ≠ .unused) : i = initproc := by
      by_contra hne
      exact hi (by simp [state, boot, hne, Proc.fresh])
    rw [key i hi, key j hj]
  zombie := fun i h => by
    simp only [state, boot] at h
    split at h <;> cases h
  exits_lt := fun _ h => by cases h
  exits_dead := fun _ h => by cases h
  exits_nodup := List.nodup_nil
  reaps_dead := fun _ h => by cases h
  reaps := fun _ h => by cases h
  reaps_nodup := List.nodup_nil

theorem past_perform (s : Smp n) (c : Fin n) (x : Instr) :
    (s.perform c x).tab.past = (s.tab.act x.act).past := by
  simp [perform]

theorem exited_perform (s : Smp n) (c : Fin n) (x : Instr) (i : Fin nproc) :
    (s.perform c x).tab.exited i = (s.tab.act x.act).exited i := by
  unfold perform
  cases s.cpu c <;> rfl

section
variable (hinv : s.Inv) (h : s.fetch c ch = some x)
include hinv h

/-- An entry that was `UNUSED` is so after a step that does not allocate it. -/
theorem Inv.unused_stays (ha : x.act ≠ .alloc i) (hst : s.state i = .unused) :
    (s.perform c x).state i = .unused := by
  have hm := hinv.moves h i
  rw [hst] at hm
  generalize (s.perform c x).state i = st' at hm ⊢
  cases hm with
  | same => rfl
  | alloc he => exact absurd he ha

/-- An entry that was `ZOMBIE` is so after a step that does not free it. -/
theorem Inv.zombie_stays (ha : ∀ p, x.act ≠ .reap p i)
    (hst : s.state i = .zombie) : (s.perform c x).state i = .zombie := by
  have hm := hinv.moves h i
  rw [hst] at hm
  generalize (s.perform c x).state i = st' at hm ⊢
  cases hm with
  | same => rfl
  | reap p he => exact absurd he (ha p)

/-- Who is `ZOMBIE` was so, or exits in this step. -/
theorem Inv.zombie_cases (hst : (s.perform c x).state i = .zombie) :
    s.state i = .zombie ∨ ∃ status, x.act = .zombie i status := by
  have hm := hinv.moves h i
  rw [hst] at hm
  generalize hold : s.state i = st at hm ⊢
  cases hm with
  | same => exact .inl rfl
  | zombie status he => exact .inr ⟨status, he⟩

/-- What is known of an entry that stays `ZOMBIE` stays the same. -/
theorem Inv.exited_stays (hold : s.state i = .zombie)
    (hzombie : ∀ status, x.act ≠ .zombie i status) (hreap : ∀ p, x.act ≠ .reap p i) :
    (s.perform c x).tab.exited i = s.tab.exited i := by
  have hg := guard_of_fetch h
  have halloc : x.act ≠ .alloc i := fun ha => by
    rw [ha] at hg
    obtain ⟨-, -, -, hst⟩ := hg
    exact absurd (hold.symm.trans hst) (by simp)
  have hfree : x.act ≠ .free i := fun ha => by
    rw [ha] at hg
    obtain ⟨p, -, hk⟩ := hg
    exact absurd (hold.symm.trans (hinv.state_child hk rfl rfl).1) (by simp)
  obtain ⟨hpid, hx⟩ := Tab.pid_act (t := s.tab) halloc hfree hzombie hreap
  rw [exited_perform, Tab.exited, Tab.exited, hpid, hx, Tab.birth_act halloc]

end

namespace Ledger

section
variable (hl : s.Ledger) (hinv : s.Inv) (h : s.fetch c ch = some x)
include hl hinv h

/-- A step that neither allocates nor ends a process. -/
theorem perform_other (halloc : ∀ i, x.act ≠ .alloc i)
    (hzombie : ∀ i status, x.act ≠ .zombie i status) (hreap : ∀ p i, x.act ≠ .reap p i) :
    (s.perform c x).Ledger := by
  have hpast := (past_perform s c x).trans (Tab.past_act halloc hzombie hreap)
  simp only [Tab.past, Tab.Past.mk.injEq] at hpast
  obtain ⟨hbirth, hbirths, hexits, hreaps⟩ := hpast
  have hused (i : Fin nproc) (hi : (s.perform c x).state i ≠ .unused) : s.state i ≠ .unused :=
    fun hst => hi (hinv.unused_stays h (halloc i) hst)
  refine ⟨fun i hi => ?_, fun i j hi hj => ?_, fun i hi => ?_, ?_, fun e he i hi => ?_, ?_, fun r hr i hi => ?_, ?_, ?_⟩
  · rw [hbirth, hbirths]
    exact hl.birth_lt i (hused i hi)
  · rw [hbirth]
    exact hl.birth_inj i j (hused i hi) (hused j hj)
  · have hold : s.state i = .zombie := (hinv.zombie_cases h hi).resolve_right fun ⟨status, ha⟩ => hzombie i status ha
    rw [hinv.exited_stays h hold (hzombie i) fun p => hreap p i, hexits]
    exact hl.zombie i hold
  · rw [hexits, hbirths]
    exact hl.exits_lt
  · rw [hexits] at he
    rw [hbirth] at hi
    exact (hl.exits_dead e he i hi).imp (hinv.unused_stays h (halloc i)) (hinv.zombie_stays h fun p => hreap p i)
  · rw [hexits]
    exact hl.exits_nodup
  · rw [hreaps] at hr
    rw [hbirth] at hi
    exact hinv.unused_stays h (halloc i) (hl.reaps_dead r hr i hi)
  · rw [hreaps, hexits]
    exact hl.reaps
  · rw [hreaps]
    exact hl.reaps_nodup

/-- An entry is allocated. -/
theorem perform_alloc {j : Fin nproc}
    (ha : x.act = .alloc j) : (s.perform c x).Ledger := by
  have hpast := past_perform s c x
  rw [ha] at hpast
  simp only [Tab.past, Tab.act, Tab.alloc, Tab.upd, Tab.Past.mk.injEq] at hpast
  obtain ⟨hbirth, hbirths, hexits, hreaps⟩ := hpast
  have hold : s.state j = .unused := by
    have hg := guard_of_fetch h
    rw [ha] at hg
    obtain ⟨-, -, -, hst⟩ := hg
    exact hst
  have hused (i : Fin nproc) (hij : i ≠ j) (hi : (s.perform c x).state i ≠ .unused) : s.state i ≠ .unused :=
    fun hst => hi (hinv.unused_stays h (by rw [ha]; exact fun e => hij (Act.alloc.inj e).symm) hst)
  have hj : (s.perform c x).tab.birth j = s.tab.births := by rw [hbirth, Function.update_self]
  have hne (i : Fin nproc) (hij : i ≠ j) : (s.perform c x).tab.birth i = s.tab.birth i := by
    rw [hbirth, Function.update_of_ne hij]
  refine ⟨fun i hi => ?_, fun i k hi hk => ?_, fun i hi => ?_, fun e he => ?_, fun e he i hi => ?_, ?_, fun r hr i hi => ?_,
    ?_, ?_⟩
  · rw [hbirths]
    by_cases hij : i = j
    · rw [hij, hj]
      exact Nat.lt_succ_self _
    · rw [hne i hij]
      exact Nat.lt_succ_of_lt (hl.birth_lt i (hused i hij hi))
  · by_cases hij : i = j <;> by_cases hkj : k = j
    · rw [hij, hkj]
      exact fun _ => rfl
    · rw [hij, hj, hne k hkj]
      exact fun e => absurd (hl.birth_lt k (hused k hkj hk)) (by omega)
    · rw [hkj, hj, hne i hij]
      exact fun e => absurd (hl.birth_lt i (hused i hij hi)) (by omega)
    · rw [hne i hij, hne k hkj]
      exact hl.birth_inj i k (hused i hij hi) (hused k hkj hk)
  · have hz : s.state i = .zombie := (hinv.zombie_cases h hi).resolve_right (by simp [ha])
    rw [hinv.exited_stays h hz (by simp [ha]) (by simp [ha]), hexits]
    exact hl.zombie i hz
  · rw [hexits] at he
    rw [hbirths]
    exact Nat.lt_succ_of_lt (hl.exits_lt e he)
  · rw [hexits] at he
    by_cases hij : i = j
    · rw [hij, hj] at hi
      exact absurd (hl.exits_lt e he) (by omega)
    · rw [hne i hij] at hi
      refine (hl.exits_dead e he i hi).imp (hinv.unused_stays h ?_) (hinv.zombie_stays h (by simp [ha]))
      rw [ha]
      exact fun e => hij (Act.alloc.inj e).symm
  · rw [hexits]
    exact hl.exits_nodup
  · rw [hreaps] at hr
    have hlt := hl.exits_lt _ (hl.reaps r hr).1
    by_cases hij : i = j
    · rw [hij, hj] at hi
      omega
    · rw [hne i hij] at hi
      refine hinv.unused_stays h ?_ (hl.reaps_dead r hr i hi)
      rw [ha]
      exact fun e => hij (Act.alloc.inj e).symm
  · rw [hreaps, hexits]
    exact hl.reaps
  · rw [hreaps]
    exact hl.reaps_nodup

/-- A process exits. -/
theorem perform_zombie {j : Fin nproc} {status : BitVec 32}
    (ha : x.act = .zombie j status) : (s.perform c x).Ledger := by
  have hpast := past_perform s c x
  rw [ha] at hpast
  simp only [Tab.past, Tab.act, Tab.zombie, Tab.upd, Tab.Past.mk.injEq] at hpast
  obtain ⟨hbirth, hbirths, hexits, hreaps⟩ := hpast
  have hold : s.state j = .running := by
    have hg := guard_of_fetch h
    rw [ha] at hg
    have := hinv.state_inProc hg.1
    rwa [hg.2, if_neg (by simp)] at this
  have hnew : (s.perform c x).state j = .zombie := by
    rw [state_perform, ha]
    simp [Tab.act, Tab.zombie, Tab.upd]
  have hused (i : Fin nproc) (hi : (s.perform c x).state i ≠ .unused) : s.state i ≠ .unused :=
    fun hst => hi (hinv.unused_stays h (by simp [ha]) hst)
  have hfresh (e : Exited) (he : e ∈ s.tab.exits) : e.birth ≠ s.tab.birth j := fun heq =>
    (hl.exits_dead e he j heq.symm).elim (fun hst => by cases hold.symm.trans hst) fun hst => by
      cases hold.symm.trans hst
  refine ⟨fun i hi => ?_, fun i k hi hk => ?_, fun i hi => ?_, fun e he => ?_, fun e he i hi => ?_, ?_, fun r hr i hi => ?_,
    fun r hr => ?_, ?_⟩
  · rw [hbirth, hbirths]
    exact hl.birth_lt i (hused i hi)
  · rw [hbirth]
    exact hl.birth_inj i k (hused i hi) (hused k hk)
  · rw [hexits]
    by_cases hij : i = j
    · refine List.mem_append_right _ (List.mem_singleton.mpr ?_)
      rw [hij, exited_perform, ha]
      simp [Tab.exited, Tab.act, Tab.zombie, Tab.upd]
    · have hne : ∀ st, x.act ≠ .zombie i st := fun st e => hij (by rw [ha] at e; exact (Act.zombie.inj e).1.symm)
      have hz : s.state i = .zombie := (hinv.zombie_cases h hi).resolve_right (not_exists.mpr hne)
      rw [hinv.exited_stays h hz hne (by simp [ha])]
      exact List.mem_append_left _ (hl.zombie i hz)
  · rw [hexits, List.mem_append, List.mem_singleton] at he
    rw [hbirths]
    rcases he with he | rfl
    · exact hl.exits_lt e he
    · exact hl.birth_lt j (by simp [hold])
  · rw [hexits, List.mem_append, List.mem_singleton] at he
    rw [hbirth] at hi
    rcases he with he | rfl
    · exact (hl.exits_dead e he i hi).imp (hinv.unused_stays h (by simp [ha])) (hinv.zombie_stays h (by simp [ha]))
    · by_cases hst : s.state i = .unused
      · exact .inl (hinv.unused_stays h (by simp [ha]) hst)
      · obtain rfl := hl.birth_inj i j hst (by simp [hold]) hi
        exact .inr hnew
  · rw [hexits, List.map_append, List.map_singleton]
    refine List.nodup_append.mpr ⟨hl.exits_nodup, List.nodup_singleton _, fun b hb b' hb' => ?_⟩
    obtain ⟨e, he, rfl⟩ := List.mem_map.mp hb
    rw [List.mem_singleton.mp hb']
    exact hfresh e he
  · rw [hreaps] at hr
    rw [hbirth] at hi
    exact hinv.unused_stays h (by simp [ha]) (hl.reaps_dead r hr i hi)
  · rw [hreaps] at hr
    rw [hexits]
    exact ⟨List.mem_append_left _ (hl.reaps r hr).1, (hl.reaps r hr).2⟩
  · rw [hreaps]
    exact hl.reaps_nodup

/-- A wait frees an entry and returns. -/
theorem perform_reap {p j : Fin nproc}
    (ha : x.act = .reap p j) (hparent : (s.tab.procs j).parent = some p) : (s.perform c x).Ledger := by
  have hpast := past_perform s c x
  rw [ha] at hpast
  simp only [Tab.past, Tab.act, Tab.reap, Tab.upd, Tab.Past.mk.injEq] at hpast
  obtain ⟨hbirth, hbirths, hexits, hreaps⟩ := hpast
  have hold : s.state j = .zombie := by
    have hg := guard_of_fetch h
    rw [ha] at hg
    exact hg.2.2
  have hnew : (s.perform c x).state j = .unused := by
    rw [state_perform, ha]
    simp [Tab.act, Tab.reap, Tab.upd, Proc.freed]
  have hused (i : Fin nproc) (hi : (s.perform c x).state i ≠ .unused) : s.state i ≠ .unused :=
    fun hst => hi (hinv.unused_stays h (by simp [ha]) hst)
  refine ⟨fun i hi => ?_, fun i k hi hk => ?_, fun i hi => ?_, ?_, fun e he i hi => ?_, ?_, fun r hr i hi => ?_,
    fun r hr => ?_, ?_⟩
  · rw [hbirth, hbirths]
    exact hl.birth_lt i (hused i hi)
  · rw [hbirth]
    exact hl.birth_inj i k (hused i hi) (hused k hk)
  · have hij : i ≠ j := fun e => by rw [e, hnew] at hi; cases hi
    have hz : s.state i = .zombie := (hinv.zombie_cases h hi).resolve_right (by simp [ha])
    rw [hinv.exited_stays h hz (by simp [ha]) fun q e => hij (by rw [ha] at e; exact (Act.reap.inj e).2.symm), hexits]
    exact hl.zombie i hz
  · rw [hexits, hbirths]
    exact hl.exits_lt
  · rw [hexits] at he
    rw [hbirth] at hi
    by_cases hij : i = j
    · exact .inl (hij ▸ hnew)
    · refine (hl.exits_dead e he i hi).imp (hinv.unused_stays h (by simp [ha])) (hinv.zombie_stays h fun q e => hij ?_)
      rw [ha] at e
      exact (Act.reap.inj e).2.symm
  · rw [hexits]
    exact hl.exits_nodup
  · rw [hreaps, List.mem_append, List.mem_singleton] at hr
    rw [hbirth] at hi
    rcases hr with hr | rfl
    · exact hinv.unused_stays h (by simp [ha]) (hl.reaps_dead r hr i hi)
    · by_cases hst : s.state i = .unused
      · exact hinv.unused_stays h (by simp [ha]) hst
      · obtain rfl := hl.birth_inj i j hst (by simp [hold]) hi
        exact hnew
  · rw [hreaps, List.mem_append, List.mem_singleton] at hr
    rw [hexits]
    rcases hr with hr | rfl
    · exact hl.reaps r hr
    · exact ⟨hl.zombie j hold, hparent⟩
  · rw [hreaps, List.map_append, List.map_singleton]
    refine List.nodup_append.mpr ⟨hl.reaps_nodup, List.nodup_singleton _, fun b hb b' hb' heq => ?_⟩
    obtain ⟨r, hr, rfl⟩ := List.mem_map.mp hb
    rw [List.mem_singleton.mp hb'] at heq
    cases hold.symm.trans (hl.reaps_dead r hr j heq.symm)

theorem perform
    (hparent : ∀ p j, x.act = .reap p j → (s.tab.procs j).parent = some p) : (s.perform c x).Ledger := by
  cases ha : x.act with
  | alloc j => exact hl.perform_alloc hinv h ha
  | zombie j status => exact hl.perform_zombie hinv h ha
  | reap p j => exact hl.perform_reap hinv h ha (hparent p j ha)
  | _ => exact hl.perform_other hinv h (by simp [ha]) (by simp [ha]) (by simp [ha])

end

end Ledger

end Smp

/-! ## Parents -/

namespace PC

/-- In `kexit`. -/
def exits : PC → Bool
  | .closing .. | .exitSw => true
  | k => k.exiting

/-- How many entries `reparent` has been through. -/
def cleared : PC → Nat
  | .reparent _ j | .wakeLoop _ _ (.reparent _ j) | .want _ (.wake _ (.reparent _ j))
  | .inside _ (.wake _ (.reparent _ j)) => j
  | .wakeLoop _ _ (.parent _) | .want _ (.wake _ (.parent _)) | .inside _ (.wake _ (.parent _)) | .exitOwn _
  | .exitZombie _ => nproc
  | _ => 0

/-- The child that `kwait` looks at. -/
def looks : PC → Option (Fin nproc)
  | .want i .reap | .inside i .reap => some i
  | _ => none

/-- The child that a fork has not yet given its parent. -/
def unborn : PC → Option (Fin nproc)
  | .setup np | .forkWait np | .forkParent np => some np
  | _ => none

variable {t : Tab} {me : Fin nproc} {ok : Bool} {x : Instr} {k k' : PC}

section
variable (h : k.fetch t me ok = some x) (hn : x.next = .pc k' ∨ x.next = .swtch k')
include h hn

theorem exits_fetch (hk' : k'.exits) :
    k.exits := by
  cases k with
  | want i job | inside i job =>
    cases job with
    | wake chan k => cases k <;> grind [PC.fetch, Job.fetch, PC.exits, PC.exiting]
    | _ => grind [PC.fetch, Job.fetch, PC.exits, PC.exiting]
  | sleepLk lk => cases lk <;> grind [PC.fetch, PC.exits, PC.exiting]
  | wakeLoop chan i k => cases k <;> grind [PC.fetch, PC.exits, PC.exiting]
  | _ => grind [PC.fetch, PC.exits, PC.exiting]

theorem cleared_fetch {i : Fin nproc}
    (hi : i < k'.cleared) :
    i < k.cleared ∨ (k.exits ∧ ((t.procs i).parent ≠ some me ∧ x.act = .none ∨ x.act = .adopt i initproc)) := by
  cases k with
  | want j job | inside j job =>
    cases job with
    | wake chan k => cases k <;> grind [PC.fetch, Job.fetch, PC.cleared]
    | _ => grind [PC.fetch, Job.fetch, PC.cleared]
  | sleepLk lk => cases lk <;> grind [PC.fetch, PC.cleared]
  | wakeLoop chan j k => cases k <;> grind [PC.fetch, PC.cleared]
  | reparent status j =>
    simp only [PC.fetch] at h
    split at h
    · next hj =>
      split at h
      · cases h
        rcases hn with hn | hn <;> cases hn
        rcases Nat.lt_succ_iff_lt_or_eq.mp hi with hlt | heq
        · exact .inl hlt
        · exact .inr ⟨rfl, .inr (by rw [show i = ⟨j, hj⟩ from Fin.ext heq])⟩
      · next hne =>
        cases h
        rcases hn with hn | hn <;> cases hn
        rcases Nat.lt_succ_iff_lt_or_eq.mp hi with hlt | heq
        · exact .inl hlt
        · exact .inr ⟨rfl, .inl ⟨by rwa [show i = ⟨j, hj⟩ from Fin.ext heq], rfl⟩⟩
    · next hj => exact .inl (Nat.lt_of_lt_of_le i.isLt (Nat.le_of_not_lt hj))
  | _ => grind [PC.fetch, PC.cleared]

theorem looks_fetch {i : Fin nproc}
    (hi : k'.looks = some i) :
    (k.looks = some i ∨ (t.procs i).parent = some me) ∧ x.act = .none := by
  cases k with
  | want j job | inside j job =>
    cases job with
    | wake chan k => cases k <;> grind [PC.fetch, Job.fetch, PC.looks]
    | _ => grind [PC.fetch, Job.fetch, PC.looks]
  | sleepLk lk => cases lk <;> grind [PC.fetch, PC.looks]
  | wakeLoop chan j k => cases k <;> grind [PC.fetch, PC.looks]
  | _ => grind [PC.fetch, PC.looks]

theorem unborn_fetch {np : Fin nproc}
    (hi : k'.unborn = some np) :
    x.act = .alloc np ∨ k.unborn = some np ∧ ∀ q, x.act ≠ .adopt np q := by
  cases k with
  | want j job | inside j job =>
    cases job with
    | wake chan k => cases k <;> grind [PC.fetch, Job.fetch, PC.unborn]
    | _ => grind [PC.fetch, Job.fetch, PC.unborn]
  | sleepLk lk => cases lk <;> grind [PC.fetch, PC.unborn]
  | wakeLoop chan j k => cases k <;> grind [PC.fetch, PC.unborn]
  | _ => grind [PC.fetch, PC.unborn]

end

end PC

/-- A call starts outside of what the last definitions are about. -/
theorem ProcCall.plain_fetch {me : Fin nproc} {nested : Bool} {x : Instr} {k : ProcCall} {k' : PC}
    (h : k.fetch me nested = some x) (hn : x.next = .pc k') :
    (k'.exits → me ≠ initproc) ∧ k'.cleared = 0 ∧ k'.looks = none ∧ k'.unborn = none := by
  cases k with
  | exit status =>
    simp only [ProcCall.fetch] at h
    split at h
    · cases h
    · next hne =>
      cases h
      cases hn
      exact ⟨fun _ e => hne (.inr e), rfl, rfl, rfl⟩
  | fork | wait | files o w =>
    simp only [ProcCall.fetch] at h
    split at h
    · cases h
    · cases h
      cases hn
      exact ⟨by rintro ⟨⟩, rfl, rfl, rfl⟩
  | yield timer | sleep a | wakeup a | kill pid | setkilled | killed =>
    cases h
    cases hn
    exact ⟨by rintro ⟨⟩, rfl, rfl, rfl⟩

/-- The entry whose parent an action changes. -/
def Act.heir : Act → Option (Fin nproc)
  | .adopt i _ | .free i | .reap _ i => some i
  | _ => Option.none

theorem Tab.parent_act {t : Tab} {a : Act} {i : Fin nproc} (h : a.heir ≠ some i) :
    ((t.act a).procs i).parent = (t.procs i).parent := by
  by_cases hs : a.subject = some i
  · cases a with
    | adopt j q | free j | reap p j => exact absurd hs h
    | files j o w | close j fd | dropCwd j => rfl
    | sleep j chan | tidy j | setkilled j | alloc j | copy p j =>
      cases hs
      simp [act, alloc, copy, upd, Proc.inherit]
    | kill j pid =>
      cases hs
      simp only [act, kill, upd]
      split
      · simp only [Function.update_self, Proc.kill]
        split <;> rfl
      · rfl
    | _ => cases hs
  · exact congrArg ProcEntry.parent (entry_act hs)

namespace Smp

variable {n : Nat} {s s' : Smp n} {c : Fin n} {ch : Choice} {x : Instr} {i p q : Fin nproc}

/-- The parent of an entry. -/
def parent (s : Smp n) (i : Fin nproc) : Option (Fin nproc) := (s.tab.procs i).parent

/-- The first level of the code of a process. -/
def base (s : Smp n) (p : Fin nproc) : PC := (s.tab.thread p).base

/-- A process that was started and has not exited. -/
def Alive (s : Smp n) (p : Fin nproc) : Prop :=
  s.state p = .sleeping ∨ s.state p = .runnable ∨ s.state p = .running

/-- Parents are alive, `init` lives for ever, and `kexit`, `kwait` and `kfork` know about the parents of
the entries they have been through. -/
structure Family (s : Smp n) : Prop where
  alive : ∀ i p, s.parent i = some p → s.Alive p
  init : s.Alive initproc
  stays : (s.base initproc).exits = false
  orphan : s.parent initproc = none
  cleared : ∀ p i, i.val < (s.base p).cleared → s.parent i ≠ some p
  looks : ∀ p i, (s.base p).looks = some i → s.parent i = some p
  unused : ∀ i, s.state i = .unused → s.parent i = none
  unborn : ∀ p np, (s.base p).unborn = some np → s.parent np = none

theorem family_boot : (boot : Smp n).Family where
  alive := fun i p h => by
    simp only [parent, boot] at h
    split at h <;> cases h
  init := .inr (.inl rfl)
  stays := rfl
  orphan := rfl
  cleared := fun p i h => absurd h (Nat.not_lt_zero _)
  looks := fun p i h => by cases h
  unused := fun i _ => by
    simp only [parent, boot]
    split <;> rfl
  unborn := fun p np h => by cases h

theorem parent_perform (s : Smp n) (c : Fin n) (x : Instr) (i : Fin nproc) :
    (s.perform c x).parent i = ((s.tab.act x.act).procs i).parent := by
  simp [parent, perform]

theorem Alive.perform (ha : s.Alive p) (hinv : s.Inv) (h : s.fetch c ch = some x)
    (hz : ∀ status, x.act ≠ .zombie p status) : (s.perform c x).Alive p := by
  have hm := hinv.moves h p
  unfold Alive at ha ⊢
  generalize (s.perform c x).state p = st', s.state p = st at hm ha ⊢
  cases hm with
  | same => exact ha
  | wake | start _ | yield _ => exact .inr (.inl rfl)
  | dispatch _ => exact .inr (.inr rfl)
  | sleep chan _ => exact .inl rfl
  | zombie status he => exact absurd he (hz status)
  | alloc _ | free _ | reap _ _ => rcases ha with ha | ha | ha <;> cases ha

/-- A process on a CPU is alive unless it has exited. -/
theorem Inv.alive_inProc (hinv : s.Inv) (hc : s.cpu c = .inProc p) (hk : (s.tab.thread p).top ≠ .exitSw) :
    s.Alive p := by
  have := hinv.state_inProc hc
  rw [if_neg hk] at this
  exact .inr (.inr this)

/-- What a step does to the parent of an entry. -/
inductive Heirs (s : Smp n) (c : Fin n) (a : Act) (i : Fin nproc) : Option (Fin nproc) → Prop
  | same (act : a.heir ≠ some i) : Heirs s c a i (s.parent i)
  | fork (p : Fin nproc) (act : a = .adopt i p) (cpu : s.cpu c = .inProc p) (base : s.base p = .forkParent i)
      (nested : (s.tab.thread p).nested = []) : Heirs s c a i (some p)
  | exit (p : Fin nproc) (status : BitVec 32) (act : a = .adopt i initproc) (cpu : s.cpu c = .inProc p)
      (base : s.base p = .reparent status i) (nested : (s.tab.thread p).nested = []) (old : s.parent i = some p) :
      Heirs s c a i (some initproc)
  | free (p : Fin nproc) (act : a = .free i) (cpu : s.cpu c = .inProc p) (base : s.base p = .setup i)
      (nested : (s.tab.thread p).nested = []) : Heirs s c a i none
  | reap (p : Fin nproc) (act : a = .reap p i) (cpu : s.cpu c = .inProc p) (base : s.base p = .inside i .reap)
      (nested : (s.tab.thread p).nested = []) : Heirs s c a i none

theorem Inv.heirs (hinv : s.Inv) (h : s.fetch c ch = some x) (i : Fin nproc) :
    Heirs s c x.act i ((s.perform c x).parent i) := by
  rw [parent_perform]
  by_cases hi : x.act.heir = some i
  · have hg := guard_of_fetch h
    generalize x.act = a at hi hg
    cases a with
    | adopt j q =>
      cases hi
      obtain ⟨p, hc, ⟨hk, rfl⟩ | ⟨status, hk, rfl, hold⟩⟩ := hg <;>
        obtain ⟨hb, hn⟩ := hinv.base_of_top hk rfl
      · simpa [Tab.act, Tab.upd] using Heirs.fork _ rfl hc hb hn
      · simpa [Tab.act, Tab.upd] using Heirs.exit p status rfl hc hb hn hold
    | free j =>
      cases hi
      obtain ⟨p, hc, hk⟩ := hg
      obtain ⟨hb, hn⟩ := hinv.base_of_top hk rfl
      simpa [Tab.act, Tab.upd, Proc.freed] using Heirs.free p rfl hc hb hn
    | reap p j =>
      cases hi
      obtain ⟨hc, hk, -⟩ := hg
      obtain ⟨hb, hn⟩ := hinv.base_of_top hk rfl
      simpa [Tab.act, Tab.reap, Tab.upd, Proc.freed] using Heirs.reap p rfl hc hb hn
    | _ => cases hi
  · rw [Tab.parent_act hi]
    exact .same hi

namespace Family

section
variable (hf : s.Family) (hinv : s.Inv) (h : s.fetch c ch = some x)
include hf hinv h

theorem alive_step (hp : s.Alive p)
    (hold : ∀ status, x.act = .zombie p status → ∃ i, s.parent i = some p ∨ p = initproc) :
    (s.perform c x).Alive p := by
  refine hp.perform hinv h fun status ha => ?_
  have hg := guard_of_fetch h
  rw [ha] at hg
  have hb : s.base p = .exitZombie status := (hinv.base_of_top hg.2 rfl).1
  obtain ⟨i, hi | rfl⟩ := hold status ha
  · exact hf.cleared p i (by rw [hb]; exact i.isLt) hi
  · have := hf.stays
    rw [hb] at this
    cases this

theorem init_step : (s.perform c x).Alive initproc :=
  hf.alive_step hinv h hf.init fun _ _ => ⟨initproc, .inr rfl⟩

theorem parent_alive_step (hi : (s.perform c x).parent i = some p) : (s.perform c x).Alive p := by
  have hh := hinv.heirs h i
  rw [hi] at hh
  generalize hq : some p = q at hh
  cases hh with
  | same _ => exact hf.alive_step hinv h (hf.alive i p hq.symm) fun _ _ => ⟨i, .inl hq.symm⟩
  | fork r ha hc hb hn =>
    cases hq
    refine (hinv.alive_inProc hc ?_).perform hinv h (by simp [ha])
    simp only [base] at hb
    simp [KThread.top, hn, hb]
  | exit r status ha hc hb hn hold =>
    cases hq
    exact hf.init_step hinv h
  | free | reap => cases hq

theorem stays_step :
    ((s.perform c x).base initproc).exits = false := by
  by_contra he
  rw [Bool.not_eq_false] at he
  rcases hinv.base_cases h initproc with ⟨hb, -⟩ | ⟨-, hb⟩ | ⟨-, -, hadv⟩
  · rw [base, hb] at he
    exact absurd (hf.stays.symm.trans he) (by simp)
  · rw [base, hb] at he
    cases he
  · cases hadv with
    | code ok hk hn => exact absurd (hf.stays.symm.trans (PC.exits_fetch hk hn he)) (by simp)
    | call kc hidle hk hn => exact (ProcCall.plain_fetch hk hn).1 he rfl

end

/-- The child of a fork is not yet alive. -/
theorem fork_child (hinv : s.Inv) (hb : s.base p = .forkParent i) : s.state i = .used :=
  (hinv.child p i (by rw [← base, hb]; rfl)).1

section
variable (hf : s.Family)
include hf

theorem orphan_step (hinv : s.Inv) (h : s.fetch c ch = some x) :
    (s.perform c x).parent initproc = none := by
  have hh := hinv.heirs h initproc
  generalize (s.perform c x).parent initproc = q at hh
  cases hh with
  | same _ => exact hf.orphan
  | fork r ha hc hb hn =>
    have := fork_child hinv hb
    rcases hf.init with hst | hst | hst <;> cases this.symm.trans hst
  | exit r status ha hc hb hn hold => cases hf.orphan.symm.trans hold
  | free | reap => rfl

theorem unused_step (hinv : s.Inv) (h : s.fetch c ch = some x) (i : Fin nproc)
    (hi : (s.perform c x).state i = .unused) : (s.perform c x).parent i = none := by
  have hh := hinv.heirs h i
  have hst := hinv.unused_cases h hi
  generalize (s.perform c x).parent i = q at hh
  cases hh with
  | same hne =>
    rcases hst with hst | ⟨ha, -⟩ | ⟨r, ha, -⟩
    · exact hf.unused i hst
    · exact absurd (by rw [ha]; rfl) hne
    · exact absurd (by rw [ha]; rfl) hne
  | fork r ha hc hb hn =>
    have hused := fork_child hinv hb
    simp [ha, hused] at hst
  | exit r status ha hc hb hn hold =>
    have hnone := hf.unused i (by simpa [ha] using hst)
    cases hnone.symm.trans hold
  | free | reap => rfl

/-- Whoever goes through the entries exits. -/
theorem ne_init_of_cleared {j : Nat} (h : j < (s.base p).cleared) : p ≠ initproc := by
  rintro rfl
  have hex : ∀ k : PC, 0 < k.cleared → k.exits := fun k hk => by
    cases k with
    | want i job | inside i job =>
      cases job with
      | wake chan r => cases r <;> first | rfl | cases hk
      | _ => cases hk
    | wakeLoop chan i r => cases r <;> first | rfl | cases hk
    | reparent | exitOwn | exitZombie => rfl
    | _ => cases hk
  exact absurd (hf.stays.symm.trans (hex _ (Nat.zero_lt_of_lt h))) (by simp)

theorem cleared_stays (hinv : s.Inv) (h : s.fetch c ch = some x) (hi : i.val < (s.base p).cleared) :
    (s.perform c x).parent i ≠ some p := by
  intro hp
  have hh := hinv.heirs h i
  rw [hp] at hh
  generalize hq : some p = q at hh
  cases hh with
  | same _ => exact hf.cleared p i hi hq.symm
  | fork r ha hc hb hn =>
    cases hq
    rw [hb] at hi
    cases hi
  | exit r status ha hc hb hn hold =>
    cases hq
    exact hf.ne_init_of_cleared hi rfl
  | free | reap => cases hq

theorem cleared_step (hinv : s.Inv) (h : s.fetch c ch = some x) (p i : Fin nproc)
    (hi : i.val < ((s.perform c x).base p).cleared) : (s.perform c x).parent i ≠ some p := by
  rcases hinv.base_cases h p with ⟨hb, -⟩ | ⟨-, hb⟩ | ⟨hc, hn, hadv⟩
  · exact hf.cleared_stays hinv h (by rwa [base, hb] at hi)
  · rw [base, hb] at hi
    cases hi
  · cases hadv with
    | code ok hk hnext =>
      rcases PC.cleared_fetch hk hnext hi with hlt | ⟨hex, ⟨hne, ha⟩ | ha⟩
      · exact hf.cleared_stays hinv h hlt
      · rw [parent_perform, ha]
        exact hne
      · rw [parent_perform, ha]
        simp only [Tab.act, Tab.upd, Function.update_self]
        rintro ⟨⟩
        exact absurd (hf.stays.symm.trans hex) (by simp)
    | call kc hidle hk hnext =>
      rw [base, (ProcCall.plain_fetch hk hnext).2.1] at hi
      cases hi

theorem looks_step (hinv : s.Inv) (h : s.fetch c ch = some x) (p i : Fin nproc)
    (hi : ((s.perform c x).base p).looks = some i) : (s.perform c x).parent i = some p := by
  rcases hinv.base_cases h p with ⟨hb, hself⟩ | ⟨-, hb⟩ | ⟨hc, hn, hadv⟩
  · rw [base, hb] at hi
    have hold := hf.looks p i hi
    have hh := hinv.heirs h i
    generalize (s.perform c x).parent i = q at hh
    cases hh with
    | same _ => exact hold
    | fork r ha hc hb hn => cases hold.symm.trans (hf.unborn r i (by rw [hb]; rfl))
    | exit r status ha hc hb hn hr =>
      cases hold.symm.trans hr
      rw [← base, hb] at hi
      cases hi
    | free r ha hc hb hn => cases hold.symm.trans (hf.unborn r i (by rw [hb]; rfl))
    | reap r ha hc hb hn =>
      cases hold.symm.trans (hf.looks r i (by rw [hb]; rfl))
      rcases hself hc with hne | hact
      · exact absurd hn hne
      · cases ha.symm.trans hact
  · rw [base, hb] at hi
    cases hi
  · cases hadv with
    | code ok hk hnext =>
      obtain ⟨hl, ha⟩ := PC.looks_fetch hk hnext hi
      rw [parent_perform, ha]
      exact hl.elim (hf.looks p i) id
    | call kc hidle hk hnext =>
      rw [base, (ProcCall.plain_fetch hk hnext).2.2.1] at hi
      cases hi

theorem unborn_step (hinv : s.Inv) (h : s.fetch c ch = some x) (p np : Fin nproc)
    (hi : ((s.perform c x).base p).unborn = some np) : (s.perform c x).parent np = none := by
  have hchild {k : PC} (hk : k.unborn = some np) : k.child = some np := by
    cases k <;> first | exact hk | cases hk
  -- who gives `np` a parent is the fork that has taken it
  have hkeep (hu : (s.base p).unborn = some np) (hne : s.cpu c = .inProc p → (s.tab.thread p).nested = [] →
      ∀ r, x.act ≠ .adopt np r) :
      (s.perform c x).parent np = none := by
    have hold := hf.unborn p np hu
    have hh := hinv.heirs h np
    generalize (s.perform c x).parent np = q at hh
    cases hh with
    | same _ => exact hold
    | fork r ha hc hb hn =>
      obtain rfl := hinv.children p r np (hchild hu) (by rw [← base, hb]; rfl)
      exact absurd ha (hne hc hn p)
    | exit r status ha hc hb hn hr => cases hold.symm.trans hr
    | free | reap => rfl
  rcases hinv.base_cases h p with ⟨hb, hself⟩ | ⟨-, hb⟩ | ⟨hc, hn, hadv⟩
  · rw [base, hb] at hi
    refine hkeep hi fun hc hn r ha => ?_
    rcases hself hc with hne | hact
    · exact absurd hn hne
    · cases ha.symm.trans hact
  · rw [base, hb] at hi
    cases hi
  · cases hadv with
    | code ok hk hnext =>
      rcases PC.unborn_fetch hk hnext hi with ha | ⟨hu, ha⟩
      · have hg := guard_of_fetch h
        rw [ha] at hg
        obtain ⟨-, -, -, hst⟩ := hg
        rw [parent_perform, Tab.parent_act (by simp [ha, Act.heir])]
        exact hf.unused np hst
      · exact hkeep hu fun _ _ => ha
    | call kc hidle hk hnext =>
      rw [base, (ProcCall.plain_fetch hk hnext).2.2.2] at hi
      cases hi

theorem perform (hinv : s.Inv) (h : s.fetch c ch = some x) : (s.perform c x).Family where
  alive := fun _ _ => hf.parent_alive_step hinv h
  init := hf.init_step hinv h
  stays := hf.stays_step hinv h
  orphan := hf.orphan_step hinv h
  cleared := hf.cleared_step hinv h
  looks := hf.looks_step hinv h
  unused := hf.unused_step hinv h
  unborn := hf.unborn_step hinv h

end

end Family

end Smp

end MiniOS
