import MiniOS.Machine.Undo

/-!
# MiniOS.Machine.Eager

Copy-on-write against a machine without it.  On the reference machine every
process has a memory of its own, and `fork` copies all of it.  It runs beside
the kernel, with the same operations and what they came to, and every process
sees the same bytes on both.
-/

namespace MiniOS

open Function (update update_self update_of_ne)

/-- The memories of the reference machine. -/
abbrev Eager := Fin nproc → Nat → Byte

def Eager.store (m : Eager) (p : Fin nproc) (va n : Nat) (src : List Byte) : Eager :=
  update m p fun a => if va ≤ a ∧ a < va + n then src.getD (a - va) 0 else m p a

/-- An operation on the reference machine, given what it came to in the kernel: a fork that succeeded, a byte that
was stored, the size of a process, and the status of a child. -/
def Eager.step (m : Eager) (s : Sys) : Op → Outcome → Sys → Eager
  | .fork p, .forked (some np), _ => update m np (m p)
  | .store p va b, .accessed (.done _), _ => m.store p va 1 [b]
  | .sbrk p _ _, .grown _, s' =>
    update m p fun a => if a / pgSize < pgRoundUp (s'.procs p).sz / pgSize then m p a else 0
  | .wait p addr, .waited _ n, _ =>
    match zombieChild s.procs p with
    | some pp => m.store p addr n (intBytes (s.procs pp).xstate)
    | none => m
  | _, _, _ => m

/-- The operations of processes on their memory. -/
def Op.OnMemory : Op → Prop
  | .fork .. | .load .. | .store .. | .sbrk .. | .exit .. | .wait .. => True
  | _ => False

/-- What a process sees is what it has on the reference machine. -/
def Sim (s : Sys) (m : Eager) : Prop := ∀ p, (s.procs p).state ≠ .unused → ∀ a, a / pgSize < userVpn →
  s.view.byte (s.procs p).pagetable a = m p a

/-- The reference machine when it starts: every process gets a copy of what it sees. -/
def Sys.eager (s : Sys) : Eager := fun p a => s.view.byte (s.procs p).pagetable a

/-- The byte at `a` after a byte was stored at `va`. -/
theorem View.byte_stored {V : View} (t r va a : Nat) (b : Byte) :
    pageByte (if r = t ∧ a / pgSize = va / pgSize then pageWrite (V.sees t (va / pgSize)) (va % pgSize) [b]
      else V.sees r (a / pgSize)) (a % pgSize) =
      if r = t ∧ va ≤ a ∧ a < va + 1 then [b].getD (a - va) 0 else V.byte r a := by
  by_cases hpage : r = t ∧ a / pgSize = va / pgSize
  · obtain ⟨rfl, hpage⟩ := hpage
    have hiff : va % pgSize ≤ a % pgSize ∧ a % pgSize < va % pgSize + 1 ↔ va ≤ a ∧ a < va + 1 := by
      simp only [pgSize] at *
      omega
    rw [if_pos ⟨rfl, hpage⟩, pageByte_pageWrite [b] _ _ _ (Nat.mod_lt _ (by decide)) (Nat.mod_lt _ (by decide)),
      List.length_singleton]
    simp only [hiff, true_and, ← hpage]
    refine ite_congr rfl (fun hva => ?_) fun _ => rfl
    rw [show a % pgSize - va % pgSize = a - va by simp only [pgSize] at *; omega]
  · rw [if_neg hpage, if_neg fun hc => hpage ⟨hc.1, by rw [show a = va by omega]⟩]
    rfl

section
variable [KernelImage]

/-- The kernel and the reference machine beside it. -/
def bothStep (sm : Sys × Eager) (op : Op) : Option (Sys × Eager) :=
  (op.perform sm.1).map fun r => (r.2, sm.2.step sm.1 op r.1 r.2)

/-- What is seen after pages were shared. -/
theorem Edits.copies_sees {old new : Nat} (hne : old ≠ new) {n lo : Nat} {V V' : View}
    (h : Edits V (copies old new lo n) V') (hc : V.Clean) (r v : Nat) (hv : v < userVpn) :
    V'.sees r v = if r = new ∧ lo ≤ v ∧ v < lo + n then V.sees old v else V.sees r v := by
  induction n generalizing lo V with
  | zero =>
    rw [Edits.nil_iff.mp h, if_neg (by omega)]
  | succ n ih =>
    rw [copies_succ] at h
    obtain ⟨hl₁, h⟩ := Edits.cons_iff.mp h
    obtain ⟨hl₂, h⟩ := Edits.cons_iff.mp h
    have hc₁ := hc.edit hl₁
    have hsees (r' : Nat) : ((V.edit (.cow old lo)).edit (.share old new lo)).sees r' v =
        if r' = new ∧ v = lo then V.sees old v else V.sees r' v := by
      rw [View.edit_sees hc₁ hl₂ hv, Edit.sees, View.edit_sees hc hl₁ hv]
      split
      next he => rw [View.edit_sees hc hl₁ hl₂.1, he.2]; rfl
      next => rfl
    have hold := hsees old
    rw [if_neg fun he => hne he.1] at hold
    rw [ih h (hc₁.edit hl₂), hold, hsees]
    grind

variable {s s' : Sys} {m : Eager} {p : Fin nproc}

/-- The process `q` goes on with its page table, and sees what it saw. -/
def Sys.GoesOn (s s' : Sys) (q : Fin nproc) : Prop :=
  (s'.procs q).state ≠ .unused → (s.procs q).state ≠ .unused ∧ (s'.procs q).pagetable = (s.procs q).pagetable ∧
    ∀ a, a / pgSize < userVpn → s'.view.byte (s.procs q).pagetable a = s.view.byte (s.procs q).pagetable a

section
omit [KernelImage]

theorem Sim.congr (hsim : Sim s m) (hgo : ∀ q, s.GoesOn s' q) : Sim s' m := by
  intro q hq a ha
  obtain ⟨hq', htable, hbyte⟩ := hgo q hq
  rw [htable, hbyte a ha]
  exact hsim q hq' a ha

/-- One process gets another memory, on both machines. -/
theorem Sim.remap (hsim : Sim s m) {f : Nat → Byte} (hgo : ∀ q, q ≠ p → s.GoesOn s' q)
    (hp : (s'.procs p).state ≠ .unused → ∀ a, a / pgSize < userVpn → s'.view.byte (s'.procs p).pagetable a = f a) :
    Sim s' (update m p f) := by
  intro q hq a ha
  by_cases hqp : q = p
  · subst hqp
    rw [update_self]
    exact hp hq a ha
  · obtain ⟨hq', htable, hbyte⟩ := hgo q hqp hq
    rw [update_of_ne hqp, htable, hbyte a ha]
    exact hsim q hq' a ha

end

section
variable (hsim : Sim s m) (h : s.Inv)
include hsim h

theorem Sim.store (hl : (s.procs p).state ≠ .unused) {va n : Nat} {src : List Byte}
    (hsame : s'.procs = s.procs) (hbyte : ∀ r a, a / pgSize < userVpn → s'.view.byte r a =
      if r = (s.procs p).pagetable ∧ va ≤ a ∧ a < va + n then src.getD (a - va) 0 else s.view.byte r a) :
    Sim s' (m.store p va n src) := by
  refine hsim.remap (fun q hqp hq => ?_) fun _ a ha => ?_
  · rw [hsame] at hq ⊢
    refine ⟨hq, rfl, fun a ha => ?_⟩
    rw [hbyte _ a ha, if_neg fun hc => h.ne_table hqp (h.live hq).root hc.1.symm]
  · rw [hsame, hbyte _ a ha, ← hsim p hl a ha]
    simp only [true_and]

theorem Sim.kwait (hl : (s.procs p).state ≠ .unused) {addr : Nat}
    {res : Option (Fin nproc) × Nat} (hk : MiniOS.kwait p addr s = some (res, s')) :
    Sim s' (m.step s (.wait p addr) (.waited res.1 res.2) s') := by
  rcases (h.kwait hl addr).of_run hk with ⟨rfl, rfl⟩ | ⟨pp, s₁, es, hz, hchild, hc, hend⟩
  · rw [Eager.step]
    split
    · exact hsim.store h hl rfl fun r a _ => by rw [if_neg (by omega)]
    · exact hsim
  · have hsim₁ : Sim s₁ (m.step s (.wait p addr) (.waited res.1 res.2) s') := by
      simp only [Eager.step, hchild]
      exact hsim.store h hl (by rw [hc.same]) hc.byte
    rcases hend with ⟨-, rfl⟩ | ⟨-, hm, hprocs, -⟩
    · exact hsim₁
    · have hprocs₁ : s₁.procs = s.procs := by rw [hc.same]
      refine hsim₁.congr fun q hq => ?_
      by_cases hqp : q = pp
      · rw [hprocs, hqp, update_self] at hq
        exact absurd rfl hq
      · rw [hprocs, update_of_ne hqp] at hq
        rw [hprocs, update_of_ne hqp, hprocs₁]
        refine ⟨hq, rfl, fun a ha => ?_⟩
        rw [View.byte, hm.edits.sees_of_ne ha (view_clean _ _) fun e he hp => ?_]
        · rfl
        exact h.ne_table hqp (h.live hq).root (by rw [← place_freed he, hp])

/-- The child of a fork sees what its parent sees. -/
theorem Sim.forked (hl : (s.procs p).state ≠ .unused) {np : Fin nproc} {r tf pid : Nat}
    (hr : r ∉ s.roots) (hprocs : s'.procs = update s.procs np (((s.procs np).allocated pid tf r).forked (s.procs p) p))
    (hedits : Edits s.view (kernelMaps r tf ++
      copies (s.procs p).pagetable r 0 (pgRoundUp (s.procs p).sz / pgSize)) s'.view) :
    Sim s' (update m np (m p)) := by
  have him := h.live hl
  have hne {q : Fin nproc} (hq : (s.procs q).state ≠ .unused) : (s.procs q).pagetable ≠ r := fun he =>
    hr (he ▸ (h.live hq).mem_roots)
  obtain ⟨V, h₁, h₂⟩ := hedits.split
  have hsees (r' : Nat) {v : Nat} (hv : v < userVpn) : s'.view.sees r' v =
      if r' = r ∧ 0 ≤ v ∧ v < 0 + pgRoundUp (s.procs p).sz / pgSize then s.view.sees (s.procs p).pagetable v
      else s.view.sees r' v := by
    have hmaps (r' : Nat) : V.sees r' v = s.view.sees r' v := h₁.sees_quiet hv (view_clean _ _) fun e he => by
      simp only [kernelMaps, List.mem_cons, List.not_mem_nil, or_false] at he
      rcases he with rfl | rfl <;> trivial
    rw [h₂.copies_sees (hne hl) (h₁.clean (view_clean _ _)) r' v hv, hmaps, hmaps]
  refine hsim.remap (fun q hqn hq => ?_) fun _ a ha => ?_
  · rw [hprocs, update_of_ne hqn] at hq ⊢
    refine ⟨hq, rfl, fun a ha => ?_⟩
    rw [View.byte, hsees _ ha, if_neg fun hc => hne hq hc.1]
    rfl
  · rw [← hsim p hl a ha, hprocs, update_self, View.byte, View.byte]
    simp only [Proc.forked_pagetable, Proc.allocated_pagetable]
    rw [hsees r ha]
    split
    next => rfl
    next hv =>
      have hclean := (view_clean s.kmem s.roots r (a / pgSize) (by rw [view_pte_not_root hr]; simp)).2
      rw [him.sees_above (by simpa using hv) ha, Sys.view, hclean]

theorem Sim.step {op : Op} (hop : op.OnMemory) {out : Outcome}
    (hs : op.perform s = some (out, s')) : Sim s' (m.step s op out s') := by
  by_cases hwait : ∃ p addr, op = .wait p addr
  · obtain ⟨p, addr, rfl⟩ := hwait
    by_cases hp : (s.procs p).state = .runnable
    · rw [Op.perform, byProc, if_pos hp] at hs
      obtain ⟨⟨res, s₁⟩, hk, heq⟩ := Option.bind_eq_some_iff.mp hs
      cases heq
      exact hsim.kwait h (live_of_runnable hp) hk
    · rw [Op.perform, byProc, if_neg hp] at hs
      cases hs
      exact hsim
  have hnot (p : Fin nproc) (addr : Nat) : op ≠ .wait p addr := fun he => hwait ⟨p, addr, he⟩
  obtain ⟨es, hinv, hedits, heff⟩ := (h.perform op).2 out s' hs
  cases heff with
  | idle => cases op <;> exact hsim
  | forkFailed p r es s' hp hsame hr hes =>
    refine hsim.congr fun q hq => ?_
    have hq' := (not_congr (hsame.unused_iff q)).mp hq
    rw [hsame.live q hq']
    refine ⟨hq', rfl, fun a ha => ?_⟩
    rw [View.byte, hedits.sees_aside hes (fun he => hr (he ▸ (h.live hq').mem_roots)) (view_clean _ _) ha]
    rfl
  | forked p np r tf pid s' hp hu hr htf hprocs => exact hsim.forked h (live_of_runnable hp) hr hprocs hedits
  | sbrk p n eager old sz es s' hp hsized hes =>
    refine hsim.remap (fun q hqp hq => ?_) fun _ a ha => ?_
    · rw [hsized.procs, update_of_ne hqp] at hq ⊢
      refine ⟨hq, rfl, fun a ha => ?_⟩
      rw [View.byte, hsized.sees _ _ ha, if_neg fun hc => h.ne_table hqp (h.live hq).root hc.1.symm]
      rfl
    · simp only [hsized.procs, update_self]
      rw [← hsim p (live_of_runnable hp) a ha, View.byte, hsized.sees _ _ ha]
      split
      next hc => rw [if_neg (by omega)]; simp [pageByte, wordByte]
      next hc => rw [if_pos (by simpa using hc)]; rfl
  | loaded => exact hsim
  | stored p va b s' hp hsame hv =>
    refine hsim.store h (live_of_runnable hp) (by rw [hsame]) fun r a ha => ?_
    obtain ⟨hleg, hedits⟩ := Edits.cons_iff.mp hedits
    rw [Edits.nil_iff.mp hedits, View.byte, View.edit_sees (V := s.view) (view_clean _ _) hleg ha, Edit.sees]
    exact View.byte_stored _ r va a b
  | faulted op p va e s' hp hop hsame he =>
    obtain ⟨hleg, hedits⟩ := Edits.cons_iff.mp hedits
    have hquiet : Sim s' m := hsim.congr fun q hq => by
      rw [hsame] at hq ⊢
      refine ⟨hq, rfl, fun a ha => ?_⟩
      rw [← hsame, Edits.nil_iff.mp hedits, View.byte, he.2.sees_eq (V := s.view) (view_clean _ _) hleg ha]
      rfl
    rcases hop with rfl | ⟨b, rfl⟩ <;> exact hquiet
  | ended op out p s' hp hop hsame =>
    have hquiet : Sim s' m := hsim.congr fun q hq => by
      obtain ⟨htable, -, -, hu⟩ := hsame.image q
      exact ⟨fun hc => hq (hu.mpr hc), htable, fun a _ => by rw [Edits.nil_iff.mp hedits]⟩
    rcases hop with ⟨⟨va, rfl⟩ | ⟨va, b, rfl⟩, rfl⟩ | ⟨⟨status, rfl⟩, rfl⟩ <;> exact hquiet
  | waitNone p addr => exact absurd rfl (hnot p addr)
  | waitFailed p pp addr => exact absurd rfl (hnot p addr)
  | waited p pp addr => exact absurd rfl (hnot p addr)
  | kbuf op s' hop' => rcases hop' with rfl | ⟨pa, page, rfl⟩ | ⟨pa, rfl⟩ <;> exact hop.elim
  | userinit | execFailed | execed | copiedIn | copiedOut => exact hop.elim

theorem Sim.run {ops : List Op} (hops : ∀ op ∈ ops, op.OnMemory) {m' : Eager}
    (hrun : Runs.run bothStep (s, m) ops = some (s', m')) : s'.Inv ∧ Sim s' m' := by
  induction ops generalizing s m with
  | nil =>
    cases hrun
    exact ⟨h, hsim⟩
  | cons op ops ih =>
    rw [Runs.run_cons] at hrun
    obtain ⟨_, hstep, hrun⟩ := Option.bind_eq_some_iff.mp hrun
    obtain ⟨⟨out, s₁⟩, hs, rfl⟩ := Option.map_eq_some_iff.mp hstep
    obtain ⟨es, hinv, -⟩ := (h.perform op).2 out s₁ hs
    exact ih (hsim.step h (hops op List.mem_cons_self) hs) hinv
      (fun op' hop' => hops op' (List.mem_cons_of_mem _ hop')) hrun

end

/-- Copy-on-write is not seen: after any operations every process sees below its size the bytes that it has on the
machine where each fork copies the whole memory of the parent. -/
theorem cow_refines_eager (h : Reachable s) {ops : List Op} (hops : ∀ op ∈ ops, op.OnMemory) {m' : Eager}
    (hrun : Runs.run bothStep (s, s.eager) ops = some (s', m')) (hl : (s'.procs p).state ≠ .unused) {va : Nat}
    (hva : va < (s'.procs p).sz) : s'.view.byte (s'.procs p).pagetable va = m' p va := by
  have hstart : Sim s s.eager := fun _ _ _ _ => rfl
  obtain ⟨hinv, hsim⟩ := hstart.run h.inv hops hrun
  exact hsim p hl va ((hinv.live hl).page_lt hva)

omit [KernelImage] in
/-- The parent keeps its byte when the child writes to the page that they share. -/
theorem cow_refines_eager_parent : ∃ s s' m', tinyRun [.userinit, .sbrk 0 4096 true] = some s ∧
    Runs.run (@bothStep tinyImage) (s, s.eager) [.store 0 0 7, .fork 0, .store 1 0 9, .store 1 0 9] = some (s', m') ∧
    m' 1 0 = 9 ∧ s'.view.byte (s'.procs 0).pagetable 0 = 7 := by
  let _ := tinyImage
  have hrun : ((tinyRun [.userinit, .sbrk 0 4096 true]).bind fun s =>
      (Runs.run bothStep (s, s.eager) [.store 0 0 7, .fork 0, .store 1 0 9, .store 1 0 9]).map fun r =>
        ((r.1.procs 0).state, (r.1.procs 0).sz, r.2 0 0, r.2 1 0)) = some (.runnable, 4096, 7, 9) := by decide +kernel
  obtain ⟨s, hs, hboth⟩ := Option.bind_eq_some_iff.mp hrun
  obtain ⟨⟨s', m'⟩, hr, heq⟩ := Option.map_eq_some_iff.mp hboth
  simp only [Prod.mk.injEq] at heq
  obtain ⟨hstate, hsz, hparent, hchild⟩ := heq
  have hbyte := cow_refines_eager (reachable_tinyRun hs) (by simp [Op.OnMemory]) hr (by rw [hstate]; decide)
    (hsz ▸ by decide : 0 < (s'.procs 0).sz)
  exact ⟨s, s', m', hs, hr, hchild, hbyte.trans hparent⟩

end

end MiniOS
