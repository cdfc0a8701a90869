import MiniOS.Calls
import MiniOS.File.Spec
import MiniOS.Kalloc.Spec
import MiniOS.Lib.Budget

/-!
# MiniOS.FileRefs

Reference counts of the file table.  While a call is under way the kernel
holds references of its own: a file from `filealloc` that has no descriptor
yet, or one whose descriptor has been cleared.  With these counted, `ref` is
exact at every point of every call (`Refs`), except that `sys_memcreate`
drops its last reference without clearing the descriptor when
`memfile_create` fails.
-/

namespace MiniOS

open Checked Runs
open Function (update update_self update_of_ne update_idem update_comm update_eq_self)

namespace FileSys

/-- The number of descriptors, over all processes, that point to `f`. -/
def descriptors (s : FileSys) (f : Fin nfile) : Nat :=
  (Finset.univ.filter fun x : Fin nproc × Fin nofile => s.ofile x.1 x.2 = some f).card

/-- Every count is exact, with the references `held` that the kernel has itself. -/
def Refs (s : FileSys) (held : List (Fin nfile)) : Prop :=
  ∀ f, (s.ftable f).ref = s.descriptors f + held.count f

variable {s s' : FileSys} {held : List (Fin nfile)} {f : Fin nfile}

theorem Refs.congr (h : s.Refs held) (hf : ∀ f, (s'.ftable f).ref = (s.ftable f).ref)
    (ho : s'.ofile = s.ofile) : s'.Refs held := by
  intro f
  rw [hf, h f, descriptors, descriptors, ho]

theorem Refs.perm {held' : List (Fin nfile)} (h : s.Refs held) (hp : held.Perm held') :
    s.Refs held' := fun f => by rw [h f, hp.count_eq]

/-- A change of the other fields of a file. -/
theorem Refs.setFile (h : s.Refs held) (file : File) (hr : file.ref = (s.ftable f).ref) :
    Refs { s with ftable := update s.ftable f file } held := by
  refine h.congr (fun g => ?_) rfl
  by_cases hg : g = f
  · subst hg
    simp only [update_self, hr]
  · simp only [update_of_ne hg]

/-- A file gets one more reference, of the kernel. -/
theorem Refs.gain (h : s.Refs held) (file : File) (hr : file.ref = (s.ftable f).ref + 1) :
    Refs { s with ftable := update s.ftable f file } (f :: held) := by
  intro g
  by_cases hg : g = f
  · subst hg
    have := h g
    simp only [update_self, List.count_cons_self, descriptors] at this ⊢
    omega
  · have := h g
    simp only [update_of_ne hg, List.count_cons_of_ne (Ne.symm hg), descriptors] at this ⊢
    exact this

/-- The kernel drops a reference. -/
theorem Refs.lose (h : s.Refs (f :: held))
    (hf : ∀ g, (s'.ftable g).ref = (s.ftable g).ref - if g = f then 1 else 0)
    (ho : s'.ofile = s.ofile) : s'.Refs held := by
  intro g
  have := h g
  by_cases hg : g = f
  · subst hg
    simp only [hf, List.count_cons_self, descriptors, ho, if_true] at this ⊢
    omega
  · simp only [hf, List.count_cons_of_ne (Ne.symm hg), descriptors, ho, if_neg hg] at this ⊢
    omega

/-- One descriptor changes. -/
theorem descriptors_update (s : FileSys) (p : Fin nproc) (fd : Fin nofile) (v : Option (Fin nfile))
    (f : Fin nfile) :
    descriptors { s with ofile := update s.ofile p (update (s.ofile p) fd v) } f +
        (if s.ofile p fd = some f then 1 else 0) =
      s.descriptors f + if v = some f then 1 else 0 := by
  have hupd : (fun x : Fin nproc × Fin nofile =>
      update s.ofile p (update (s.ofile p) fd v) x.1 x.2) =
      update (fun x : Fin nproc × Fin nofile => s.ofile x.1 x.2) (p, fd) v := by
    funext ⟨q, fe⟩
    by_cases hx : (q, fe) = (p, fd)
    · cases hx
      simp only [update_self]
    · rw [update_of_ne hx]
      by_cases hq : q = p
      · subst hq
        have he : fe ≠ fd := fun e => hx (by rw [e])
        simp only [update_self, update_of_ne he]
      · simp only [update_of_ne hq]
  have := Budget.sum_update (fun o : Option (Fin nfile) => if o = some f then 1 else 0)
    (fun x : Fin nproc × Fin nofile => s.ofile x.1 x.2) (p, fd) v
  rw [← hupd] at this
  simpa only [descriptors, Finset.card_filter] using this

/-- A descriptor and the kernel exchange references. -/
theorem Refs.exchange (h : s.Refs held) {held' : List (Fin nfile)} {p : Fin nproc} {fd : Fin nofile}
    {v : Option (Fin nfile)} (heq : ∀ g, held'.count g + (if v = some g then 1 else 0) =
      held.count g + if s.ofile p fd = some g then 1 else 0) :
    Refs { s with ofile := update s.ofile p (update (s.ofile p) fd v) } held' := by
  intro g
  have hd := descriptors_update s p fd v g
  have hg := heq g
  rw [h g]
  omega

/-- A free descriptor takes over a reference of the kernel. -/
theorem Refs.install (h : s.Refs (f :: held)) {p : Fin nproc} {fd : Fin nofile}
    (hfd : s.ofile p fd = none) :
    Refs { s with ofile := update s.ofile p (update (s.ofile p) fd (some f)) } held :=
  h.exchange fun g => by simp [hfd, List.count_cons]

/-- A descriptor is cleared; the kernel has its reference. -/
theorem Refs.remove (h : s.Refs held) {p : Fin nproc} {fd : Fin nofile}
    (hfd : s.ofile p fd = some f) :
    Refs { s with ofile := update s.ofile p (update (s.ofile p) fd none) } (f :: held) :=
  h.exchange fun g => by simp [hfd, List.count_cons]

end FileSys

/-! ## The calls of file.c -/

/-- Who has what open is unchanged. -/
structure SameOpen (s s' : FileSys) : Prop where
  ofile : s'.ofile = s.ofile
  cwd : s'.cwd = s.cwd

/-- The file table is unchanged too. -/
structure SameTables (s s' : FileSys) : Prop extends SameOpen s s' where
  ftable : s'.ftable = s.ftable

/-- Memory and the in-memory files are unchanged. -/
structure SameMem (s s' : FileSys) : Prop where
  mftable : s'.mftable = s.mftable
  kmem : s'.kmem = s.kmem

theorem SameOpen.trans {s₁ s₂ s₃ : FileSys} (h : SameOpen s₁ s₂) (h' : SameOpen s₂ s₃) :
    SameOpen s₁ s₃ := ⟨h'.ofile.trans h.ofile, h'.cwd.trans h.cwd⟩

theorem SameTables.rfl {s : FileSys} : SameTables s s := ⟨⟨Eq.refl _, Eq.refl _⟩, Eq.refl _⟩

theorem SameTables.trans {s₁ s₂ s₃ : FileSys} (h : SameTables s₁ s₂) (h' : SameTables s₂ s₃) :
    SameTables s₁ s₃ := ⟨h.toSameOpen.trans h'.toSameOpen, h'.ftable.trans h.ftable⟩

theorem SameMem.trans {s₁ s₂ s₃ : FileSys} (h : SameMem s₁ s₂) (h' : SameMem s₂ s₃) :
    SameMem s₁ s₃ := ⟨h'.mftable.trans h.mftable, h'.kmem.trans h.kmem⟩

theorem SameTables.refs {s s' : FileSys} {held : List (Fin nfile)} (h : SameTables s s')
    (hr : s.Refs held) : s'.Refs held := hr.congr (fun f => by rw [h.ftable]) h.ofile

section
variable {s : FileSys} {held : List (Fin nfile)} {f : Fin nfile} {p : Fin nproc}

open FileSys

variable {α : Type} {cwd : Fin ninode}

theorem tables_liftF (g : F α) :
    Sat anyPanic (liftF g) s fun _ s' => SameTables s s' ∧ SameMem s s' := by
  refine sat_liftF ?_
  unfold Sat
  cases g s.fs with
  | ok r => exact ⟨⟨⟨rfl, rfl⟩, rfl⟩, rfl, rfl⟩
  | error e => trivial

theorem refs_filealloc (h : s.Refs held) :
    Sat anyPanic filealloc s fun r s' => SameOpen s s' ∧ SameMem s s' ∧
      match r with
      | some f => (s.ftable f).ref = 0 ∧ s'.Refs (f :: held)
      | none => s'.Refs held := by
  refine sat_filealloc.mono ?_
  rintro (_ | f) s' hs
  · obtain ⟨rfl, -⟩ := hs
    exact ⟨⟨rfl, rfl⟩, ⟨rfl, rfl⟩, h⟩
  · obtain ⟨hf, rfl⟩ := hs
    exact ⟨⟨rfl, rfl⟩, ⟨rfl, rfl⟩, hf, h.gain _ (by simp [hf])⟩

theorem refs_filedup (h : s.Refs held) :
    Sat anyPanic (filedup f) s fun g s' => g = f ∧ SameOpen s s' ∧ s'.Refs (f :: held) := by
  refine sat_bind rfl ?_
  split
  · exact sat_throw_bind trivial
  · exact sat_bind rfl (sat_pure ⟨rfl, ⟨rfl, rfl⟩, h.gain _ rfl⟩)

theorem refs_setFile {file : File} (h : s.Refs held) (hr : file.ref = (s.ftable f).ref) :
    Sat anyPanic (setFile f file) s fun _ s' => SameOpen s s' ∧ s'.Refs held :=
  ⟨⟨rfl, rfl⟩, h.setFile file hr⟩

/-- The descriptor tables with one descriptor changed. -/
def setFd (ofile : Fin nproc → Fin nofile → Option (Fin nfile)) (p : Fin nproc) (fd : Fin nofile)
    (v : Option (Fin nfile)) : Fin nproc → Fin nofile → Option (Fin nfile) :=
  update ofile p (update (ofile p) fd v)

theorem setFd_of_ne (ofile : Fin nproc → Fin nofile → Option (Fin nfile)) {q : Fin nproc}
    (hq : q ≠ p) (fd : Fin nofile) (v : Option (Fin nfile)) : setFd ofile p fd v q = ofile q :=
  update_of_ne hq _ _

/-- Clearing the descriptor that `fdalloc` found gives the old tables back. -/
theorem setFd_restore {ofile : Fin nproc → Fin nofile → Option (Fin nfile)} {fd : Fin nofile}
    (h : ofile p fd = none) (v : Option (Fin nfile)) : setFd (setFd ofile p fd v) p fd none = ofile := by
  rw [setFd, setFd, update_self, update_idem, update_idem, ← h,
    update_eq_self, update_eq_self]

theorem setFd_comm (ofile : Fin nproc → Fin nofile → Option (Fin nfile)) {fd fd' : Fin nofile}
    (h : fd ≠ fd') (v v' : Option (Fin nfile)) :
    setFd (setFd ofile p fd v) p fd' v' = setFd (setFd ofile p fd' v') p fd v := by
  simp only [setFd, update_self, update_idem, update_comm h]

/-- `fdalloc` takes a free descriptor. -/
theorem sat_fdalloc :
    Sat anyPanic (fdalloc p f) s fun r s' =>
      match r with
      | some fd => s.ofile p fd = none ∧ s' = { s with ofile := setFd s.ofile p fd (some f) }
      | none => s' = s := by
  refine sat_bind rfl ?_
  split
  · next fd hfd => exact sat_bind rfl (sat_pure ⟨by simpa using List.find?_some hfd, rfl⟩)
  · exact sat_pure rfl

theorem refs_fdalloc (h : s.Refs (f :: held)) :
    Sat anyPanic (fdalloc p f) s fun r s' => SameMem s s' ∧ s'.cwd = s.cwd ∧ s'.ftable = s.ftable ∧
      match r with
      | some fd => s.ofile p fd = none ∧ s'.ofile = setFd s.ofile p fd (some f) ∧ s'.Refs held
      | none => s' = s := by
  refine sat_fdalloc.mono ?_
  rintro (_ | fd) s' hs
  · cases hs
    exact ⟨⟨rfl, rfl⟩, rfl, rfl, rfl⟩
  · obtain ⟨hfd, rfl⟩ := hs
    exact ⟨⟨rfl, rfl⟩, rfl, rfl, hfd, rfl, h.install hfd⟩

/-- What a call of the process `p` keeps. -/
structure Kept (p : Fin nproc) (s : FileSys) (ok : Bool) (s' : FileSys) : Prop where
  refs : s'.Refs []
  cwd : s'.cwd = s.cwd
  others : ∀ q, q ≠ p → s'.ofile q = s.ofile q
  failed : ok = false → s'.ofile = s.ofile

theorem Kept.of_same {s' : FileSys} (ok : Bool) (h : s'.Refs []) (ho : SameOpen s s') :
    Kept p s ok s' := ⟨h, ho.cwd, fun q _ => by rw [ho.ofile], fun _ => ho.ofile⟩

/-- A descriptor of `p` was changed. -/
theorem Kept.of_setFd {s' : FileSys} {fd : Fin nofile} {v : Option (Fin nfile)} (h : s'.Refs [])
    (hc : s'.cwd = s.cwd) (ho : s'.ofile = setFd s.ofile p fd v) : Kept p s true s' :=
  ⟨h, hc, fun q hq => by rw [ho, setFd_of_ne _ hq], fun hf => by cases hf⟩

/-- `argfd` finds what `p->ofile` has. -/
theorem sat_argfd (fd : Int) :
    Sat anyPanic (argfd p fd) s fun r s' => s' = s ∧ ∀ fd' f, r = some (fd', f) → s.ofile p fd' = some f := by
  refine sat_bind rfl ?_
  split
  · refine sat_pure ⟨rfl, fun fd' f hr => ?_⟩
    obtain ⟨g, hg, he⟩ := Option.map_eq_some_iff.mp hr
    cases he
    exact hg
  · exact sat_pure ⟨rfl, fun fd' f hr => by cases hr⟩

theorem kept_sysDup (h : s.Refs []) (fd : Int) :
    Sat anyPanic (sysDup p fd) s fun r s' => Kept p s r.isSome s' := by
  refine (sat_argfd fd).bind ?_
  rintro (_ | ⟨fd₁, f⟩) s ⟨rfl, -⟩
  · exact sat_pure (.of_same _ h ⟨rfl, rfl⟩)
  · refine sat_fdalloc.bind ?_
    rintro (_ | fd') s₁ h₁
    · cases h₁
      exact sat_pure (.of_same _ h ⟨rfl, rfl⟩)
    · obtain ⟨hfd, rfl⟩ := h₁
      -- the descriptor is there before its reference is counted
      refine Sat.bind (P := fun _ s' => Kept p s true s') (sat_bind rfl ?_) fun _ _ hk => sat_pure hk
      dsimp only
      refine sat_ite (fun _ => sat_throw_bind trivial) fun _ => sat_bind rfl (sat_pure ?_)
      exact .of_setFd ((h.gain _ rfl).install hfd) rfl rfl

variable [KernelImage] [Superblock]

/-- The backing object of a file is released without a change of the file table. -/
theorem tables_releaseFile (ff : File) :
    Sat anyPanic (releaseFile ff) s fun _ s' => SameTables s s' := by
  have hiput : ∀ ip, Sat anyPanic (do beginOp; liftF (Fs.iput ip); endOp) s fun _ s' =>
      SameTables s s' := fun ip => sat_bind rfl (sat_liftF_bind fun _ fs => ⟨⟨rfl, rfl⟩, rfl⟩)
  unfold releaseFile
  split
  · exact sat_pure .rfl
  · exact sat_bind rfl (sat_bind rfl (sat_ite (fun _ => sat_liftMem fun _ _ _ => ⟨⟨rfl, rfl⟩, rfl⟩)
      fun _ => sat_pure ⟨⟨rfl, rfl⟩, rfl⟩))
  · split
    · exact hiput _
    · exact sat_pure .rfl
  · split
    · exact hiput _
    · exact sat_pure .rfl
  · split
    · exact sat_bind rfl ⟨⟨rfl, rfl⟩, rfl⟩
    · exact sat_pure .rfl

/-- `fileclose` takes one reference off. -/
theorem counts_fileclose :
    Sat anyPanic (fileclose f) s fun _ s' => SameOpen s s' ∧
      ∀ g, (s'.ftable g).ref = (s.ftable g).ref - if g = f then 1 else 0 := by
  have hupd : ∀ file : File, file.ref = (s.ftable f).ref - 1 → ∀ g,
      (update s.ftable f file g).ref = (s.ftable g).ref - if g = f then 1 else 0 := by
    intro file hfile g
    by_cases hg : g = f
    · subst hg
      rw [update_self, if_pos rfl, hfile]
    · rw [update_of_ne hg, if_neg hg, Nat.sub_zero]
  refine sat_bind rfl ?_
  dsimp only
  refine sat_ite (fun _ => sat_throw_bind trivial) fun _ => sat_ite (fun _ => ?_) fun hlast => ?_
  · exact ⟨⟨rfl, rfl⟩, hupd _ rfl⟩
  · refine sat_bind rfl ((tables_releaseFile _).mono ?_)
    intro _ s' hs
    refine ⟨⟨hs.ofile, hs.cwd⟩, fun g => ?_⟩
    rw [hs.ftable]
    exact hupd _ (by dsimp only; omega) g

theorem refs_fileclose (h : s.Refs (f :: held)) :
    Sat anyPanic (fileclose f) s fun _ s' => SameOpen s s' ∧ s'.Refs held :=
  counts_fileclose.mono fun _ _ hs => ⟨hs.1, h.lose hs.2 hs.1.ofile⟩

/-- Two references are dropped one after the other. -/
theorem refs_fileclose_two {g : Fin nfile} (h : s.Refs (f :: g :: held)) {k : M α}
    {Q : α → FileSys → Prop}
    (hk : ∀ s', SameOpen s s' → s'.Refs held → Sat anyPanic k s' Q) :
    Sat anyPanic (do fileclose f; fileclose g; k) s Q := by
  refine (refs_fileclose h).bind ?_
  rintro _ s₁ ⟨o₁, h₁⟩
  refine (refs_fileclose h₁).bind ?_
  rintro _ s₂ ⟨o₂, h₂⟩
  exact hk s₂ (o₁.trans o₂) h₂

theorem refs_pipealloc (h : s.Refs held) :
    Sat anyPanic pipealloc s fun r s' => SameOpen s s' ∧
      match r with
      | some (rf, wf) => s'.Refs (rf :: wf :: held)
      | none => s'.Refs held := by
  refine (refs_filealloc h).bind ?_
  rintro (_ | rf) s₁ ⟨o₁, _, h₁⟩
  · exact sat_pure ⟨o₁, h₁⟩
  · refine (refs_filealloc h₁.2).bind ?_
    rintro (_ | wf) s₂ ⟨o₂, _, h₂⟩
    · refine (refs_fileclose h₂).bind ?_
      rintro _ s₃ ⟨o₃, h₃⟩
      exact sat_pure ⟨o₁.trans (o₂.trans o₃), h₃⟩
    · refine sat_liftMem_bind fun pi kmem _ => ?_
      have h₃ : Refs { s₂ with kmem := kmem } (rf :: wf :: held) :=
        (h₂.2.congr (fun _ => rfl) rfl).perm (.swap ..)
      have o₂' : SameOpen s { s₂ with kmem := kmem } := o₁.trans (o₂.trans ⟨rfl, rfl⟩)
      refine sat_ite (fun _ => refs_fileclose_two h₃ fun s₄ o₄ h₄ => sat_pure ?_) fun _ => ?_
      · exact ⟨o₂'.trans o₄, h₄⟩
      · refine sat_bind rfl (sat_bind rfl ?_)
        have h₃' : Refs { s₂ with kmem := kmem, pipes := update s₂.pipes pi ⟨true, true⟩ }
            (rf :: wf :: held) := h₃.congr (fun _ => rfl) rfl
        refine (refs_setFile h₃' ?_).bind ?_
        · rfl
        rintro _ s₄ ⟨o₄, h₄⟩
        refine sat_bind rfl ((refs_setFile h₄ ?_).bind ?_)
        · rfl
        rintro _ s₅ ⟨o₅, h₅⟩
        exact sat_pure ⟨o₂'.trans (SameOpen.trans ⟨o₄.ofile, o₄.cwd⟩ o₅), h₅⟩

theorem kept_sysClose (h : s.Refs []) (fd : Int) :
    Sat anyPanic (sysClose p fd) s fun ok s' => Kept p s ok s' := by
  refine (sat_argfd fd).bind ?_
  rintro (_ | ⟨fd₁, f⟩) s ⟨rfl, hfd⟩
  · exact sat_pure (.of_same _ h ⟨rfl, rfl⟩)
  · refine sat_bind rfl ((refs_fileclose (h.remove (hfd _ _ rfl))).bind ?_)
    rintro _ s' ⟨hs, h'⟩
    exact sat_pure (.of_setFd h' hs.cwd hs.ofile)

theorem kept_sysPipe (h : s.Refs []) (ok0 ok1 : Bool) :
    Sat anyPanic (sysPipe p ok0 ok1) s fun ok s' => Kept p s ok s' := by
  refine (refs_pipealloc h).bind ?_
  rintro (_ | ⟨rf, wf⟩) s₁ ⟨o₁, h₁⟩
  · exact sat_pure (.of_same _ h₁ o₁)
  refine (refs_fdalloc h₁).bind ?_
  rintro (_ | fd0) s₂ ⟨-, c₂, -, h₂⟩
  · cases h₂
    exact refs_fileclose_two h₁ fun s₃ o₃ h₃ => sat_pure (.of_same _ h₃ (o₁.trans o₃))
  obtain ⟨hfd0, ho₂, h₂⟩ := h₂
  have hrestore : setFd s₂.ofile p fd0 none = s₁.ofile := by rw [ho₂, setFd_restore hfd0]
  have hset : s₂.ofile p fd0 = some rf := by
    rw [ho₂, setFd, update_self, update_self]
  refine (refs_fdalloc h₂).bind ?_
  rintro (_ | fd1) s₃ ⟨-, c₃, -, h₃⟩
  · cases h₃
    refine sat_bind rfl (refs_fileclose_two (h₂.remove hset) fun s₄ o₄ h₄ => sat_pure ?_)
    exact .of_same _ h₄ (o₁.trans ⟨o₄.ofile.trans hrestore, o₄.cwd.trans c₂⟩)
  obtain ⟨hfd1, ho₃, h₃⟩ := h₃
  have hne : fd0 ≠ fd1 := by
    rintro rfl
    rw [hset] at hfd1
    cases hfd1
  refine sat_ite (fun _ => sat_pure ⟨h₃, c₃.trans (c₂.trans o₁.cwd), fun q hq => ?_, ?_⟩) fun _ => ?_
  · rw [ho₃, setFd_of_ne _ hq, ho₂, setFd_of_ne _ hq, o₁.ofile]
  · intro hf
    cases hf
  · have hset0 : s₃.ofile p fd0 = some rf := by
      rw [ho₃, setFd, update_self, update_of_ne hne, hset]
    have hset1 : setFd s₃.ofile p fd0 none p fd1 = some wf := by
      rw [setFd, update_self, update_of_ne hne.symm, ho₃, setFd,
        update_self, update_self]
    have h₄ := ((h₃.remove hset0).remove hset1).perm (.swap ..)
    refine sat_bind rfl (sat_bind rfl (refs_fileclose_two h₄ fun s₅ o₅ h₅ => sat_pure ?_))
    refine .of_same _ h₅ (o₁.trans ⟨o₅.ofile.trans ?_, o₅.cwd.trans (c₃.trans c₂)⟩)
    calc setFd (setFd s₃.ofile p fd0 none) p fd1 none
        = setFd (setFd (setFd s₂.ofile p fd1 (some wf)) p fd1 none) p fd0 none := by
          rw [ho₃, setFd_comm _ hne]
      _ = s₁.ofile := by rw [setFd_restore hfd1, hrestore]

/-! ## In-memory files -/

/-- `memfile_create` finds a slot, and the free list has a page for it. -/
structure FileSys.MemReady (s : FileSys) : Prop where
  slot : ∃ m, (s.mftable m).refCount = 0 ∧ (s.mftable m).isMarkedDeleted = false
  page : s.kmem.freelist ≠ 0 ∧ 1 ≤ numPages s.kmem.mem s.kmem.freelist

omit [KernelImage] [Superblock] in
theorem tables_memfileCreate (h : s.MemReady) :
    Sat anyPanic memfileCreate s fun r s' => r.isSome ∧ SameTables s s' := by
  refine sat_bind rfl ?_
  split
  · next hnone =>
      obtain ⟨m, hm⟩ := h.slot
      exact absurd hm (by simpa using List.find?_eq_none.mp hnone m (List.mem_finRange m))
  · refine sat_liftMem_bind fun data kmem hk => ?_
    have hdata : data ≠ 0 := kalloc_ne_zero h.page.1 h.page.2 hk
    rw [if_neg hdata]
    exact sat_bind rfl (sat_pure ⟨rfl, ⟨rfl, rfl⟩, rfl⟩)

/-- `sys_memcreate`, when `memfile_create` cannot fail after the descriptor is installed. -/
theorem kept_sysMemcreate (h : s.Refs [])
    (hready : (∃ f, (s.ftable f).ref = 0) → (∃ fd, s.ofile p fd = none) → s.MemReady) :
    Sat anyPanic (sysMemcreate p) s fun r s' => Kept p s r.isSome s' := by
  refine (refs_filealloc h).bind ?_
  rintro (_ | f) s₁ ⟨o₁, m₁, h₁⟩
  · exact sat_pure (.of_same _ h₁ o₁)
  obtain ⟨hfree, h₁⟩ := h₁
  refine (refs_fdalloc h₁).bind ?_
  rintro (_ | fd) s₂ ⟨m₂, c₂, -, h₂⟩
  · cases h₂
    refine (refs_fileclose h₁).bind ?_
    rintro _ s₃ ⟨o₃, h₃⟩
    exact sat_pure (.of_same _ h₃ (o₁.trans o₃))
  obtain ⟨hfd, ho₂, h₂⟩ := h₂
  have hm := m₁.trans m₂
  obtain ⟨hslot, hpage⟩ := hready ⟨f, hfree⟩ ⟨fd, by rw [← o₁.ofile]; exact hfd⟩
  refine (tables_memfileCreate ⟨by rw [hm.mftable]; exact hslot, by rw [hm.kmem]; exact hpage⟩).bind ?_
  rintro (_ | mf) s₃ ⟨hsome, t₃⟩
  · cases hsome
  · refine sat_bind rfl ((refs_setFile (t₃.refs h₂) ?_).bind ?_)
    · rfl
    rintro _ s₄ ⟨o₄, h₄⟩
    have hc : s₄.cwd = s.cwd := by rw [o₄.cwd, t₃.cwd, c₂, o₁.cwd]
    have ho : s₄.ofile = setFd s.ofile p fd (some f) := by rw [o₄.ofile, t₃.ofile, ho₂, o₁.ofile]
    exact sat_pure (.of_setFd h₄ hc ho)

section
omit [KernelImage] [Superblock]

theorem kept_sysMemdelete (h : s.Refs []) (fd : Int) :
    Sat anyPanic (sysMemdelete p fd) s fun ok s' => Kept p s ok s' := by
  refine (sat_argfd fd).bind ?_
  rintro (_ | ⟨fd₁, f⟩) s ⟨rfl, -⟩
  · exact sat_pure (.of_same _ h ⟨rfl, rfl⟩)
  · refine sat_bind rfl ?_
    split
    · refine sat_ite (fun _ => sat_bind rfl ?_) fun _ => sat_pure (.of_same _ h ⟨rfl, rfl⟩)
      refine sat_ite (fun _ => sat_pure (.of_same _ h ⟨rfl, rfl⟩)) fun _ => ?_
      exact sat_bind rfl (sat_pure (.of_same _ (SameTables.refs ⟨⟨rfl, rfl⟩, rfl⟩ h) ⟨rfl, rfl⟩))
    · exact sat_pure (.of_same _ h ⟨rfl, rfl⟩)

theorem refs_memread (h : s.Refs []) (m : Fin nmemfile) (n : Int) (ok : Bool) :
    Sat anyPanic (memread f m n ok) s fun _ s' => SameOpen s s' ∧ s'.Refs [] := by
  refine sat_bind rfl (sat_bind rfl ?_)
  refine sat_ite (fun _ => sat_pure ⟨⟨rfl, rfl⟩, h⟩) fun _ => sat_bind rfl ?_
  refine Sat.bind (refs_setFile h ?_) ?_
  · rfl
  rintro _ s₁ ⟨o₁, h₁⟩
  refine sat_ite (fun _ => sat_pure ⟨o₁, h₁⟩) fun _ => ?_
  dsimp only
  refine sat_ite (fun _ => sat_ite (fun _ => sat_pure ⟨o₁, h₁⟩) fun _ => sat_bind rfl ?_)
    fun _ => sat_pure ⟨o₁, h₁⟩
  refine Sat.bind (refs_setFile h₁ ?_) ?_
  · rfl
  rintro _ s₂ ⟨o₂, h₂⟩
  exact sat_bind rfl (sat_pure ⟨o₁.trans o₂, h₂⟩)

theorem refs_memwrite (h : s.Refs []) (m : Fin nmemfile) (n : Int) (src : List Byte) (ok : Bool) :
    Sat anyPanic (memwrite f m n src ok) s fun _ s' => SameOpen s s' ∧ s'.Refs [] := by
  have hcopy : ∀ t : FileSys, SameOpen s t → t.Refs [] →
      Sat anyPanic (memcopyin f m n src ok) t fun _ s' => SameOpen s s' ∧ s'.Refs [] := by
    intro t o h
    refine sat_bind rfl (sat_bind rfl ?_)
    dsimp only
    refine sat_ite (fun _ => sat_liftMem_bind fun _ kmem _ => ?_) fun _ => sat_pure ⟨o, h⟩
    have h₁ : Refs { t with kmem := kmem } [] := h.congr (fun _ => rfl) rfl
    have o₁ : SameOpen s { t with kmem := kmem } := ⟨o.ofile, o.cwd⟩
    refine sat_ite (fun _ => sat_pure ⟨o₁, h₁⟩) fun _ => sat_bind rfl ?_
    refine Sat.bind (refs_setFile h₁ ?_) ?_
    · rfl
    rintro _ s₂ ⟨o₂, h₂⟩
    exact sat_bind rfl (sat_pure ⟨o₁.trans ⟨o₂.ofile, o₂.cwd⟩, h₂.congr (fun _ => rfl) rfl⟩)
  refine sat_bind rfl (sat_bind rfl ?_)
  refine sat_ite (fun _ => sat_pure ⟨⟨rfl, rfl⟩, h⟩) fun _ => ?_
  dsimp only
  refine sat_ite (fun _ => sat_liftMem_bind fun data kmem _ => sat_bind rfl ?_)
    fun _ => hcopy _ ⟨rfl, rfl⟩ h
  refine sat_ite (fun _ => sat_pure ⟨⟨rfl, rfl⟩, h.congr (fun _ => rfl) rfl⟩) fun _ => ?_
  exact hcopy _ ⟨rfl, rfl⟩ (h.congr (fun _ => rfl) rfl)

end

/-! ## Open and the directory calls -/

section
omit [KernelImage]

theorem tables_openBad (ip : Fin ninode) :
    Sat anyPanic (openBad ip) s fun r s' => r = none ∧ SameTables s s' :=
  sat_liftF_bind fun _ _ => sat_bind rfl (sat_pure ⟨rfl, ⟨rfl, rfl⟩, rfl⟩)

theorem refs_bindInode (h : s.Refs []) (ip : Fin ninode) (omode : Nat) :
    Sat anyPanic (bindInode f ip omode) s fun _ s' => SameOpen s s' ∧ s'.Refs [] := by
  refine sat_liftF_bind fun i fs => sat_bind rfl ?_
  have h₀ : Refs { s with fs := fs } [] := h.congr (fun _ => rfl) rfl
  dsimp only
  refine Sat.bind (refs_setFile h₀ ?_) ?_
  · split <;> rfl
  rintro _ s₁ ⟨o₁, h₁⟩
  have o₁' : SameOpen s s₁ := ⟨o₁.ofile, o₁.cwd⟩
  have hunlock : ∀ fs, Sat anyPanic (liftF (Fs.iunlock ip)) { s₁ with fs := fs } fun _ s' =>
      SameOpen s s' ∧ s'.Refs [] := fun fs =>
    (tables_liftF _).mono fun _ s₂ h₂ =>
      ⟨o₁'.trans ⟨h₂.1.ofile, h₂.1.cwd⟩, h₂.1.refs (h₁.congr (fun _ => rfl) rfl)⟩
  exact sat_ite (fun _ => sat_liftF_bind fun _ fs => hunlock fs) fun _ => hunlock s₁.fs

end

theorem kept_sysOpen (h : s.Refs []) (cwd : Fin ninode) (path : Option (List Byte)) (omode : Nat) :
    Sat anyPanic (sysOpen p cwd path omode) s fun r s' => Kept p s r.isSome s' := by
  unfold sysOpen
  split
  · exact sat_pure (.of_same _ h ⟨rfl, rfl⟩)
  have hbad : ∀ (t : FileSys) (ip : Fin ninode), SameOpen s t → t.Refs [] →
      Sat anyPanic (openBad ip) t fun r s' => Kept p s r.isSome s' := fun t ip o h =>
    (tables_openBad ip).mono fun r s' hs => .of_same _ (hs.2.refs h) (o.trans hs.2.toSameOpen)
  refine sat_liftF_bind fun _ fs₀ => sat_liftF_bind fun ip fs₁ => ?_
  have h₁ : Refs { s with fs := fs₁ } [] := h.congr (fun _ => rfl) rfl
  cases ip with
  | none => exact sat_bind rfl (sat_pure (.of_same _ (h.congr (fun _ => rfl) rfl) ⟨rfl, rfl⟩))
  | some ip =>
    refine sat_liftF_bind fun d fs₂ => ?_
    have h₂ : Refs { s with fs := fs₂ } [] := h.congr (fun _ => rfl) rfl
    have o₂ : SameOpen s { s with fs := fs₂ } := ⟨rfl, rfl⟩
    refine sat_ite (fun _ => hbad _ ip o₂ h₂) fun _ => ?_
    refine (refs_filealloc h₂).bind ?_
    rintro (_ | f) s₃ ⟨o₃, -, h₃⟩
    · exact hbad _ ip (o₂.trans o₃) h₃
    refine (refs_fdalloc h₃.2).bind ?_
    rintro (_ | fd) s₄ ⟨-, c₄, -, h₄⟩
    · cases h₄
      refine (refs_fileclose h₃.2).bind ?_
      rintro _ s₅ ⟨o₅, h₅⟩
      exact hbad _ ip (o₂.trans (o₃.trans o₅)) h₅
    · refine (refs_bindInode h₄.2.2 ip omode).bind ?_
      rintro _ s₅ ⟨o₅, h₅⟩
      refine sat_bind rfl (sat_pure ?_)
      have hc : s₅.cwd = s.cwd := by rw [o₅.cwd, c₄, o₃.cwd]
      have ho : s₅.ofile = setFd s.ofile p fd (some f) := by rw [o₅.ofile, h₄.2.1, o₃.ofile]
      exact .of_setFd (h₅.congr (fun _ => rfl) rfl) hc ho

omit [KernelImage] [Superblock] in
theorem tables_transaction {β : Type} (arg : Option α) (g : α → F β) :
    Sat anyPanic (transaction arg g) s fun _ s' => SameTables s s' := by
  refine sat_liftF_bind fun _ fs => ?_
  cases arg with
  | none => exact sat_bind rfl (sat_pure ⟨⟨rfl, rfl⟩, rfl⟩)
  | some a => exact sat_liftF_bind fun _ _ => sat_bind rfl (sat_pure ⟨⟨rfl, rfl⟩, rfl⟩)

/-! ## Fork and exit -/

omit [KernelImage] [Superblock] in
/-- The child gets its descriptors one by one. -/
theorem refs_forkLoop {np : Fin nproc} {fds : List (Fin nofile)} (hnd : fds.Nodup) (h : s.Refs [])
    (hnp : ∀ fd ∈ fds, s.ofile np fd = none) :
    Sat anyPanic (forkLoop p np fds) s fun _ s' => s'.Refs [] ∧ s'.cwd = s.cwd ∧
      ∀ q, q ≠ np → s'.ofile q = s.ofile q := by
  induction fds generalizing s with
  | nil => exact sat_pure ⟨h, rfl, fun _ _ => rfl⟩
  | cons fd fds ih =>
    obtain ⟨hfd, hnd⟩ := List.nodup_cons.mp hnd
    refine sat_bind rfl ?_
    dsimp only
    split
    · next f _ =>
        refine (refs_filedup h).bind ?_
        rintro f s₁ ⟨rfl, o₁, h₁⟩
        have hnone : s₁.ofile np fd = none := by rw [o₁.ofile]; exact hnp fd (by simp)
        have hrest : ∀ fe ∈ fds, setFd s₁.ofile np fd (some f) np fe = none := by
          intro fe hfe
          have hne : fe ≠ fd := fun e => hfd (e ▸ hfe)
          rw [setFd, update_self, update_of_ne hne, o₁.ofile]
          exact hnp fe (by simp [hfe])
        refine sat_bind rfl ((ih hnd (h₁.install hnone) hrest).mono ?_)
        rintro _ s₂ ⟨h₂, c₂, hq⟩
        exact ⟨h₂, c₂.trans o₁.cwd, fun q hne => by
          rw [hq q hne, ← o₁.ofile]; exact setFd_of_ne s₁.ofile hne fd _⟩
    · exact ih hnd h fun fe hfe => hnp fe (by simp [hfe])

/-- `kexit` closes the descriptors one by one. -/
theorem refs_exitLoop {fds : List (Fin nofile)} (h : s.Refs []) :
    Sat anyPanic (exitLoop p fds) s fun _ s' => s'.Refs [] ∧ s'.cwd = s.cwd ∧
      (∀ q, q ≠ p → s'.ofile q = s.ofile q) ∧
      ∀ fd, fd ∈ fds ∨ s.ofile p fd = none → s'.ofile p fd = none := by
  induction fds generalizing s with
  | nil => exact sat_pure ⟨h, rfl, fun _ _ => rfl, by simp⟩
  | cons fd fds ih =>
    refine sat_bind rfl ?_
    dsimp only
    split
    · next f hf =>
        refine counts_fileclose.bind ?_
        rintro _ s₁ ⟨o₁, hcount⟩
        -- the count is taken down while the descriptor is still there
        have h₁ : Refs { s₁ with ofile := setFd s₁.ofile p fd none } [] := by
          refine (h.remove hf).lose hcount ?_
          simp only [o₁.ofile, setFd]
        refine sat_bind rfl ((ih h₁).mono ?_)
        rintro _ s₂ ⟨h₂, c₂, hq, hp⟩
        refine ⟨h₂, c₂.trans o₁.cwd, fun q hne => ?_, fun fe hfe => hp fe ?_⟩
        · rw [hq q hne, ← o₁.ofile]
          exact setFd_of_ne s₁.ofile hne fd _
        · by_cases hne : fe = fd
          · right
            simp only [setFd, hne, update_self]
          · simp only [List.mem_cons, hne, false_or] at hfe
            simpa only [setFd, update_self, update_of_ne hne, o₁.ofile] using hfe
    · next hnone =>
        refine (ih h).mono ?_
        rintro _ s₂ ⟨h₂, c₂, hq, hp⟩
        refine ⟨h₂, c₂, hq, fun fe hfe => hp fe ?_⟩
        by_cases hne : fe = fd
        · exact .inr (hne ▸ Option.eq_none_iff_forall_ne_some.mpr hnone)
        · simpa only [List.mem_cons, hne, false_or] using hfe

omit [Superblock] in
theorem tables_garbageCollect : Sat anyPanic garbageCollect s fun _ s' => SameTables s s' := by
  refine sat_forM (fun m _ t ht => ?_) SameTables.rfl
  refine sat_bind rfl (sat_ite (fun _ => ?_) fun _ => sat_pure ht)
  have hset : ∀ kmem, SameTables s { t with kmem := kmem } := fun _ => ⟨⟨ht.ofile, ht.cwd⟩, ht.ftable⟩
  dsimp only
  refine sat_ite (fun _ => sat_liftMem_bind fun _ kmem _ => ?_) fun _ => ?_
  · exact (hset kmem).trans ⟨⟨rfl, rfl⟩, rfl⟩
  · exact ht.trans ⟨⟨rfl, rfl⟩, rfl⟩

/-! ## Whole runs -/

/-- A process that does not exist has no descriptors. -/
def FileSys.Idle (s : FileSys) : Prop := ∀ p, s.cwd p = none → ∀ fd, s.ofile p fd = none

/-- A call of `sys_memcreate` that gets a file and a descriptor finds a slot and a page. -/
def Call.Backed (s : FileSys) : Call → Prop
  | .memcreate p => (∃ f, (s.ftable f).ref = 0) → (∃ fd, s.ofile p fd = none) → s.MemReady
  | _ => True

/-- What holds after every call. -/
structure Balanced (s : FileSys) (ok : Bool) (s' : FileSys) : Prop where
  refs : s'.Refs []
  idle : s'.Idle
  failed : ok = false → s'.ofile = s.ofile

section
omit [KernelImage] [Superblock]

theorem Kept.balanced {s' : FileSys} {ok : Bool} (hp : s.cwd p = some cwd)
    (hi : s.Idle) (h : Kept p s ok s') : Balanced s ok s' := by
  refine ⟨h.refs, fun q hq fd => ?_, h.failed⟩
  have hne : q ≠ p := by
    rintro rfl
    rw [h.cwd, hp] at hq
    cases hq
  rw [h.others q hne]
  exact hi q (h.cwd ▸ hq) fd

/-- A call of a process, which has a current directory. -/
theorem sat_byProcess {g : Fin ninode → M Bool} (h : s.Refs []) (hi : s.Idle)
    (hg : ∀ cwd, s.cwd p = some cwd → Sat anyPanic (g cwd) s (Balanced s)) :
    Sat anyPanic (byProcess p g) s (Balanced s) := by
  refine sat_bind rfl ?_
  split
  · next cwd hp => exact hg cwd hp
  · exact sat_pure ⟨h, hi, fun _ => rfl⟩

/-- The same for a call whose result is a descriptor. -/
theorem sat_isSome {g : M (Option α)} (hi : s.Idle)
    (hp : s.cwd p = some cwd) (hg : Sat anyPanic g s fun r s' => Kept p s r.isSome s') :
    Sat anyPanic (do return (← g).isSome) s (Balanced s) :=
  hg.bind fun _ _ hk => sat_pure (hk.balanced hp hi)

theorem balanced_fork {np : Fin nproc} (h : s.Refs []) (hi : s.Idle)
    (hnp : s.cwd np = none) (ok : Bool) :
    Sat anyPanic (forkFiles p np cwd ok) s (Balanced s) := by
  refine sat_ite (fun _ => sat_pure ⟨h, hi, fun _ => rfl⟩) fun _ => ?_
  refine (refs_forkLoop (List.nodup_finRange _) h fun fd _ => hi np hnp fd).bind ?_
  rintro _ s₁ ⟨h₁, c₁, hq⟩
  refine sat_liftF_bind fun ip fs => sat_bind rfl (sat_pure ?_)
  refine ⟨h₁.congr (fun _ => rfl) rfl, fun q hcwd fd => ?_, fun hf => by cases hf⟩
  have hne : q ≠ np := by
    rintro rfl
    simp only [update_self, reduceCtorEq] at hcwd
  simp only [update_of_ne hne, c₁] at hcwd
  simp only [hq q hne]
  exact hi q hcwd fd

end

theorem balanced_exit (h : s.Refs []) (hi : s.Idle) :
    Sat anyPanic (exitFiles p cwd) s fun _ s' => Balanced s true s' := by
  refine (refs_exitLoop h).bind ?_
  rintro _ s₁ ⟨h₁, c₁, hq, hclosed⟩
  refine sat_liftF_bind fun _ fs => sat_liftF_bind fun _ fs' => sat_bind rfl ?_
  refine ⟨h₁.congr (fun _ => rfl) rfl, fun q hcwd fd => ?_, fun hf => by cases hf⟩
  by_cases hne : q = p
  · subst hne
    exact hclosed fd (.inl (List.mem_finRange fd))
  · simp only [update_of_ne hne, c₁] at hcwd
    simp only [hq q hne]
    exact hi q hcwd fd

/-- Every call leaves exact counts, and a failing one the descriptors it found. -/
theorem balanced_perform (h : s.Refs []) (hi : s.Idle) (c : Call) (hc : c.Backed s) :
    Sat anyPanic c.perform s (Balanced s) := by
  have htrans : ∀ {α : Type} (arg : Option α) (g : α → F Bool) {cwd : Fin ninode} {p : Fin nproc},
      s.cwd p = some cwd →
      Sat anyPanic (do return decide ((← transaction arg g) = some true)) s (Balanced s) :=
    fun arg g cwd p hp => (tables_transaction arg g).bind fun _ _ ht =>
      sat_pure ((Kept.of_same _ (ht.refs h) ht.toSameOpen).balanced hp hi)
  cases c with
  | «open» p path omode =>
    exact sat_byProcess h hi fun cwd hp => sat_isSome hi hp (kept_sysOpen h cwd path omode)
  | dup p fd => exact sat_byProcess h hi fun cwd hp => sat_isSome hi hp (kept_sysDup h fd)
  | close p fd =>
    exact sat_byProcess h hi fun cwd hp => (kept_sysClose h fd).mono fun _ _ hk => hk.balanced hp hi
  | pipe p ok0 ok1 =>
    exact sat_byProcess h hi fun cwd hp =>
      (kept_sysPipe h ok0 ok1).mono fun _ _ hk => hk.balanced hp hi
  | memcreate p =>
    exact sat_byProcess h hi fun cwd hp => sat_isSome hi hp (kept_sysMemcreate h hc)
  | memdelete p fd =>
    exact sat_byProcess h hi fun cwd hp =>
      (kept_sysMemdelete h fd).mono fun _ _ hk => hk.balanced hp hi
  | mkdir p path => exact sat_byProcess h hi fun cwd hp => htrans _ _ hp
  | mknod p path major minor => exact sat_byProcess h hi fun cwd hp => htrans _ _ hp
  | link p old new => exact sat_byProcess h hi fun cwd hp => htrans _ _ hp
  | unlink p path => exact sat_byProcess h hi fun cwd hp => htrans _ _ hp
  | exec p path pagetable mem => exact sat_byProcess h hi fun cwd hp => htrans _ _ hp
  | memwrite p fd n src ok =>
    refine sat_byProcess h hi fun cwd hp => (sat_argfd fd).bind ?_
    rintro (_ | ⟨_, f⟩) s ⟨rfl, -⟩
    · exact sat_pure ⟨h, hi, fun _ => rfl⟩
    refine sat_bind rfl ?_
    split
    · refine sat_ite (fun _ => (refs_memwrite h _ n src ok).bind ?_) fun _ => ?_
      · rintro _ s' ⟨o, h'⟩
        exact sat_pure ((Kept.of_same _ h' o).balanced hp hi)
      · exact sat_pure ⟨h, hi, fun _ => rfl⟩
    · exact sat_pure ⟨h, hi, fun _ => rfl⟩
  | memread p fd n ok =>
    refine sat_byProcess h hi fun cwd hp => (sat_argfd fd).bind ?_
    rintro (_ | ⟨_, f⟩) s ⟨rfl, -⟩
    · exact sat_pure ⟨h, hi, fun _ => rfl⟩
    refine sat_bind rfl ?_
    split
    · refine sat_ite (fun _ => (refs_memread h _ n ok).bind ?_) fun _ => ?_
      · rintro _ s' ⟨o, h'⟩
        exact sat_pure ((Kept.of_same _ h' o).balanced hp hi)
      · exact sat_pure ⟨h, hi, fun _ => rfl⟩
    · exact sat_pure ⟨h, hi, fun _ => rfl⟩
  | chdir p path =>
    refine sat_byProcess h hi fun cwd hp => (tables_transaction _ _).bind ?_
    intro r s' ht
    have hsame := (Kept.of_same false (ht.refs h) ht.toSameOpen).balanced hp hi
    split
    · next ip =>
        refine sat_bind rfl (sat_pure ⟨hsame.refs.congr (fun _ => rfl) rfl, fun q hq fd => ?_,
          fun hf => by cases hf⟩)
        refine hsame.idle q ?_ fd
        by_cases hne : q = p
        · subst hne
          simp only [update_self, reduceCtorEq] at hq
        · simpa only [update_of_ne hne] using hq
    · exact sat_pure hsame
  | fork p np ok =>
    refine sat_byProcess h hi fun cwd hp => sat_bind rfl (sat_ite (fun hnp => ?_) fun _ => ?_)
    · exact balanced_fork h hi hnp ok
    · exact sat_pure ⟨h, hi, fun _ => rfl⟩
  | exit p => exact sat_byProcess h hi fun cwd hp => (balanced_exit h hi).bind fun _ _ hb => sat_pure hb
  | collect =>
    refine tables_garbageCollect.bind fun _ s' ht => sat_pure ⟨ht.refs h, fun q hq fd => ?_, ?_⟩
    · rw [ht.ofile]
      exact hi q (ht.cwd ▸ hq) fd
    · intro _
      exact ht.ofile

/-- The counts and the descriptors after every run in which `sys_memcreate` does not fail for
want of a slot or a page once it has its descriptor. -/
theorem balanced_run {s₀ : FileSys} {cs : List Call} (hr : s₀.Refs []) (hi : s₀.Idle)
    (hb : Along FileSys.step (fun s c => c.Backed s) s₀ cs)
    (hrun : run FileSys.step s₀ cs = some s) : s.Refs [] ∧ s.Idle := by
  refine invariant (P := fun s => s.Refs [] ∧ s.Idle) (fun s c s' hs hc hstep => ?_) ⟨hr, hi⟩ hb hrun
  have hsat := balanced_perform hs.1 hs.2 c hc
  unfold FileSys.step at hstep
  split at hstep
  · next hp =>
      cases hstep
      have := hsat.of_run hp
      exact ⟨this.refs, this.idle⟩
  · cases hstep

omit [KernelImage] [Superblock] in
theorem FileSys.Fresh.refs (h : s.Fresh) : s.Refs [] := fun f => by
  rw [h.ftable, descriptors]
  simp [h.ofile, File.zero]

theorem ref_eq_descriptors {s₀ : FileSys} {cs : List Call} (h₀ : s₀.Fresh)
    (hb : Along FileSys.step (fun s c => c.Backed s) s₀ cs)
    (hrun : run FileSys.step s₀ cs = some s) :
    (∀ f, (s.ftable f).ref = s.descriptors f) ∧
      (∀ p fd f, s.ofile p fd = some f → (s.ftable f).ref ≠ 0) ∧
      ∀ (c : Call) (s' : FileSys), c.Backed s → c.perform s = .ok (false, s') → s'.ofile = s.ofile := by
  obtain ⟨hr, hi⟩ := balanced_run h₀.refs (fun p _ fd => h₀.ofile p fd) hb hrun
  have hexact : ∀ f, (s.ftable f).ref = s.descriptors f := fun f => by
    rw [hr f, List.count_nil, Nat.add_zero]
  refine ⟨hexact, fun p fd f hf => ?_, fun c s' hc hp => ?_⟩
  · have hpos : 0 < s.descriptors f := Finset.card_pos.mpr ⟨(p, fd), by simp [hf]⟩
    rw [hexact f]
    exact hpos.ne'
  · exact ((balanced_perform hr hi c hc).of_run hp).failed rfl

end

theorem oneProcess_fresh (kmem : Kmem) : (oneProcess kmem).Fresh :=
  ⟨fun _ => rfl, fun _ => rfl, fun _ _ => rfl⟩

/-- Memory with the one free page at `0x80400000`. -/
def onePage : Kmem where
  mem a i := if a = 0x80400000 ∧ i = 1 then 1 else 0
  refCount i := if i = pa2idx 0x80400000 then 0 else 1
  reverseMap _ := noRmap
  freelist := 0x80400000
  useLock := true

theorem ref_eq_descriptors_memcreate_dup :
    ∃ s, run (@FileSys.step sampleImage mkfsSuperblock) (oneProcess onePage)
        [.memcreate 0, .dup 0 0] = some s ∧ (s.ftable 0).ref = 2 ∧ s.descriptors 0 = 2 := by
  have hrun : ((run (@FileSys.step sampleImage mkfsSuperblock) (oneProcess onePage)
      [.memcreate 0, .dup 0 0]).map fun s => (s.ftable 0).ref) = some 2 := by decide
  obtain ⟨s, hs, hr⟩ := Option.map_eq_some_iff.mp hrun
  have hready : (oneProcess onePage).MemReady := ⟨⟨0, rfl, rfl⟩, by decide, by decide⟩
  have hbacked : Along (@FileSys.step sampleImage mkfsSuperblock) (fun s c => c.Backed s)
      (oneProcess onePage) [.memcreate 0, .dup 0 0] :=
    ⟨fun _ _ => hready, fun _ _ => ⟨trivial, fun _ _ => trivial⟩⟩
  have h := (@ref_eq_descriptors _ sampleImage mkfsSuperblock _ _ (oneProcess_fresh _) hbacked hs).1 0
  exact ⟨s, hs, hr, h ▸ hr⟩

/-- Memory without a free page. -/
def noPage : Kmem := { onePage with refCount := fun _ => 1, freelist := 0 }

/-- `sys_memcreate` fails for want of a page and leaves its descriptor, to a file that is free. -/
theorem memcreate_leaves_descriptor :
    (oneProcess noPage).Fresh ∧ ∃ s, (@Call.perform sampleImage mkfsSuperblock (.memcreate 0)
      (oneProcess noPage)) = .ok (false, s) ∧ s.ofile 0 0 = some 0 ∧ (s.ftable 0).ref = 0 ∧
      (oneProcess noPage).ofile 0 0 = none :=
  ⟨oneProcess_fresh _, _, rfl, rfl, rfl, rfl⟩

end MiniOS
