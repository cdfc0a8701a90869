import MiniOS.Machine.Eager

/-!
# MiniOS.Machine.Isolation

A process that does nothing keeps its memory, whatever the others do.
-/

namespace MiniOS

open Runs
open Function (update_apply)

/-- The process that does an operation. -/
def Op.actor : Op → Option (Fin nproc)
  | .fork p | .exec p _ _ | .sbrk p _ _ | .load p _ | .store p _ _ | .copyin p _ _ | .copyout p _ _ | .exit p _
  | .wait p _ => some p
  | _ => none

/-- The process `q` is there, and somebody else acts. -/
abbrev Bystander (q : Fin nproc) (s : Sys) (op : Op) : Prop := (s.procs q).state ≠ .unused ∧ op.actor ≠ some q

section
variable [KernelImage] {s s' : Sys} {op : Op} {q : Fin nproc}

theorem Sys.Inv.goesOn (h : s.Inv) (hl : (s.procs q).state ≠ .unused) (hop : op.actor ≠ some q)
    (hs : s.step op = some s') : s.GoesOn s' q := by
  intro hl'
  have him := h.live hl
  have hroot := him.mem_roots
  have hne (p : Fin nproc) (hp : p ≠ q) : (s.procs p).pagetable ≠ (s.procs q).pagetable := h.ne_table hp.symm him.root
  obtain ⟨out, es, -, hedits, heff⟩ := h.step hs
  -- the edits are about other page tables, or write-protect a page
  suffices hcase : (s'.procs q).pagetable = (s.procs q).pagetable ∧
      ∀ e ∈ es, e.place.1 ≠ (s.procs q).pagetable ∨ ∃ r v, e = .cow r v by
    refine ⟨hl, hcase.1, fun a ha => ?_⟩
    rw [View.byte, hedits.sees_eq ha (view_clean _ _) fun e he W => ?_]
    · rfl
    rcases hcase.2 e he with hpl | ⟨r, v, rfl⟩
    · exact Edit.sees_of_ne (fun hc => hpl (by rw [hc])) W
    · rfl
  cases heff with
  | userinit np r tf pid s' hu hr htf hprocs =>
    have hentry := congrFun hprocs q
    grind [update_apply, place_kernelMaps]
  | forkFailed p r es s' hp hsame => grind [hsame.live q hl, Edit.Aside]
  | forked p np r tf pid s' hp hu hr htf hprocs =>
    have hentry := congrFun hprocs q
    grind [update_apply, place_kernelMaps, mem_copies, Edit.place]
  | execFailed p file argv r es s' hp hundone => grind [hundone.same]
  | execed p file argv r sz sp es s' hp hexec hes =>
    obtain ⟨ws, rfl, hws⟩ := hes.split
    have hentry := congrFun hexec.procs q
    grind [Op.actor, update_apply, hexec.fresh, place_kernelMaps, place_freed]
  | sbrk p n eager old sz es s' hp hsized =>
    have hentry := congrFun hsized.procs q
    grind [Op.actor, update_apply, Edit.Sizing.place_eq]
  | ended op out p s' hp hop hsame => simp [hsame.image q]
  | copiedOut p dstva src ok n es s' hp hc | waitFailed p pp addr n es s' hp hc =>
    have hce := hc.edits
    grind [Op.actor, hc.same, CopyEdit, → IsFault.place, Edit.place]
  | waited p pp addr n es s₁ s' hp hz hc hf hprocs =>
    have hce := hc.edits
    have hentry := congrFun hprocs q
    grind [Op.actor, update_apply, Proc.freed, CopyEdit, → IsFault.place, Edit.place, place_freed]
  | _ => grind [Op.actor, Edit.place, Faults, → IsFault.place]

/-- As long as a process does nothing and is not freed, it keeps its page table and sees the same bytes. -/
theorem bystander_goes_on (h : Reachable s) {ops : List Op} (hq : Along Sys.step (Bystander q) s ops)
    (hr : run Sys.step s ops = some s') : s.GoesOn s' q := by
  refine (invariant (P := fun t => t.Inv ∧ s.GoesOn t q) ?_ ⟨h.inv, fun hl => ⟨hl, rfl, fun _ _ => rfl⟩⟩ hq hr).2
  rintro t op t' ⟨hinv, hgo⟩ ⟨hl, hop⟩ hs
  refine ⟨hinv.of_step hs, fun hl' => ?_⟩
  obtain ⟨hls, htable, hbyte⟩ := hgo hl
  obtain ⟨-, htable', hbyte'⟩ := hinv.goesOn hl hop hs hl'
  rw [htable] at hbyte' htable'
  exact ⟨hls, htable', fun a ha => (hbyte' a ha).trans (hbyte a ha)⟩

end

/-- The child of a fork stores to the page that it shares with its parent, and ends. -/
def childStores : List Op := [.store 1 0 9, .store 1 0 9, .exit 1 0]

theorem bystander_goes_on_parent : ∃ s s', tinyRun [.userinit, .sbrk 0 4096 true, .store 0 0 7, .fork 0] = some s ∧
    run (@Sys.step tinyImage) s childStores = some s' ∧ (s'.procs 0).state = .runnable ∧ s.GoesOn s' 0 := by
  let _ := tinyImage
  have hrun : ((tinyRun [.userinit, .sbrk 0 4096 true, .store 0 0 7, .fork 0]).bind fun s =>
      (run Sys.step s childStores).map fun s' => (decide (Along Sys.step (Bystander 0) s childStores),
        (s'.procs 0).state)) = some (true, .runnable) := by decide +kernel
  obtain ⟨s, hs, hrest⟩ := Option.bind_eq_some_iff.mp hrun
  obtain ⟨s', hr, heq⟩ := Option.map_eq_some_iff.mp hrest
  simp only [Prod.mk.injEq, decide_eq_true_eq] at heq
  exact ⟨s, s', hs, hr, heq.2, bystander_goes_on (reachable_tinyRun hs) heq.1 hr⟩

end MiniOS
