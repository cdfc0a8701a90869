import MiniOS.FileRefs
import MiniOS.Fs.Held
import MiniOS.Fs.Image

/-!
# MiniOS.InodeRefs

Reference counts and locks of the inode table over whole runs.  The references
of an entry belong to the open files of an inode or a device and to the
current directories of processes; a call that is under way has more
(`MiniOS.Fs.Held`), and gives every one of them away before it returns.
-/

namespace MiniOS

open Checked Runs
open Function (update update_self update_of_ne update_idem update_eq_self)

/-- The inode that an open file points to. -/
def File.inode (file : File) : Option (Fin ninode) :=
  if file.type = .inode ∨ file.type = .device then file.ip else none

theorem File.inode_eq_some {file : File} {i : Fin ninode} :
    file.inode = some i ↔ (file.type = .inode ∨ file.type = .device) ∧ file.ip = some i := by
  unfold inode
  split
  · next h => simp only [h, true_and]
  · next h => simp only [h, reduceCtorEq, false_and]

namespace FileSys

/-- The number of files of an inode or a device that point to entry `i`. -/
def inodeFiles (s : FileSys) (i : Fin ninode) : Nat :=
  (Finset.univ.filter fun f =>
    ((s.ftable f).type = .inode ∨ (s.ftable f).type = .device) ∧ (s.ftable f).ip = some i).card

/-- The number of processes whose current directory is entry `i`. -/
def workingDirs (s : FileSys) (i : Fin ninode) : Nat :=
  (Finset.univ.filter fun p => s.cwd p = some i).card

/-- The references that files and processes have. -/
def holders (s : FileSys) (i : Fin ninode) : Nat := s.inodeFiles i + s.workingDirs i

/-- Nothing is open, no inode is locked, and each reference to an inode is a current directory. -/
structure Booted (s : FileSys) : Prop where
  fresh : s.Fresh
  refs : ∀ i, (s.fs.itable i).ref = s.workingDirs i
  unlocked : ∀ i, s.fs.locked i = false
  distinct : ∀ i j, 0 < (s.fs.itable i).ref → 0 < (s.fs.itable j).ref →
    (s.fs.itable i).inum = (s.fs.itable j).inum → i = j

/-- Every reference to an inode and every lock has an owner; the call under way has `held` and `locks`. -/
structure Accounted (s : FileSys) (held locks : List (Fin ninode)) : Prop where
  fs : s.fs.Held s.holders held locks
  unused : ∀ f, (s.ftable f).ref = 0 → (s.ftable f).inode = none

/-- The references of files and processes, and those of the table, are unchanged. -/
structure SameHolders (s s' : FileSys) : Prop where
  fs : Fs.SameRefs s.fs s'.fs
  cwd : s'.cwd = s.cwd
  inode : ∀ f, (s'.ftable f).inode = (s.ftable f).inode
  unused : (∀ f, (s.ftable f).ref = 0 → (s.ftable f).inode = none) →
    ∀ f, (s'.ftable f).ref = 0 → (s'.ftable f).inode = none

instance : Std.Refl SameHolders := ⟨fun s => ⟨refl_of _ s.fs, rfl, fun _ => rfl, id⟩⟩

instance : IsTrans FileSys SameHolders := ⟨fun _ _ _ h h' =>
  ⟨trans_of _ h.fs h'.fs, h'.cwd.trans h.cwd, fun f => (h'.inode f).trans (h.inode f), h'.unused ∘ h.unused⟩⟩

variable {s s' : FileSys} {held locks : List (Fin ninode)} {i : Fin ninode} {f : Fin nfile} {p : Fin nproc}

theorem count_toList (c : Option (Fin ninode)) (i : Fin ninode) :
    c.toList.count i = if c = some i then 1 else 0 := by
  cases c <;> simp [List.count_singleton]

theorem inodeFiles_eq : s.inodeFiles i = ∑ f, if (s.ftable f).inode = some i then 1 else 0 := by
  simp only [inodeFiles, Finset.card_filter, File.inode_eq_some]

theorem workingDirs_eq : s.workingDirs i = ∑ p, if s.cwd p = some i then 1 else 0 := by
  simp only [workingDirs, Finset.card_filter]

theorem SameHolders.of_files (hfs : s'.fs = s.fs) (hc : s'.cwd = s.cwd) (hf : s'.ftable = s.ftable) :
    SameHolders s s' :=
  ⟨by rw [hfs]; exact refl_of _ s.fs, hc, fun f => by rw [hf], fun h f => by rw [hf]; exact h f⟩

theorem Accounted.same (h : s.Accounted held locks) (hs : SameHolders s s') : s'.Accounted held locks := by
  refine ⟨?_, hs.unused h.unused⟩
  have : s'.holders = s.holders := by
    funext i
    simp only [holders, inodeFiles_eq, workingDirs_eq, hs.inode, hs.cwd]
  rw [this]
  exact h.fs.same hs.fs

/-- A step that leaves the references alone. -/
theorem Accounted.step {α β : Type} {g : M α} {k : α → M β} {Q : β → FileSys → Prop}
    (h : s.Accounted held locks) (hg : Within SameHolders g)
    (hk : ∀ a s', SameHolders s s' → s'.Accounted held locks → Sat anyPanic (k a) s' Q) :
    Sat anyPanic (g >>= k) s Q :=
  (hg s).bind fun a s' hs => hk a s' hs (h.same hs)

/-- A step of `fs.c`. -/
theorem Accounted.lift {α β : Type} {g : F α} {k : α → M β} {Q : β → FileSys → Prop}
    {held' locks' : α → List (Fin ninode)} (h : s.Accounted held locks)
    (hg : Sat anyPanic g s.fs fun a fs => fs.Held s.holders (held' a) (locks' a))
    (hk : ∀ a fs, Accounted { s with fs := fs } (held' a) (locks' a) →
      Sat anyPanic (k a) { s with fs := fs } Q) :
    Sat anyPanic (liftF g >>= k) s Q :=
  Sat.bind (P := fun a s' => ∃ fs, s' = { s with fs := fs } ∧ s'.Accounted (held' a) (locks' a))
    (sat_liftF (hg.mono fun _ fs hfs => ⟨fs, rfl, hfs, h.unused⟩)) fun a s' hs => by
      obtain ⟨fs, rfl, hs⟩ := hs
      exact hk a fs hs

/-- A file changes: the call gets the reference it had, and gives the one it now has. -/
theorem Accounted.setFile {file : File} (h : s.Accounted (file.inode.toList ++ held) locks)
    (hr : file.ref = 0 → file.inode = none) :
    Accounted { s with ftable := update s.ftable f file } ((s.ftable f).inode.toList ++ held) locks := by
  refine ⟨h.fs.recount fun i => ?_, fun g hg => ?_⟩
  · have := Budget.sum_update (fun file : File => if file.inode = some i then 1 else 0) s.ftable f file
    simp only [holders, inodeFiles_eq, workingDirs_eq, List.count_append, count_toList] at this ⊢
    omega
  · by_cases hgf : g = f
    · subst hgf
      simp only [update_self] at hg ⊢
      exact hr hg
    · simp only [update_of_ne hgf] at hg ⊢
      exact h.unused g hg

/-- The same for a current directory. -/
theorem Accounted.setCwd {c : Option (Fin ninode)} (h : s.Accounted (c.toList ++ held) locks) :
    Accounted { s with cwd := update s.cwd p c } ((s.cwd p).toList ++ held) locks := by
  refine ⟨h.fs.recount fun i => ?_, h.unused⟩
  have := Budget.sum_update (fun c : Option (Fin ninode) => if c = some i then 1 else 0) s.cwd p c
  simp only [holders, inodeFiles_eq, workingDirs_eq, List.count_append, count_toList] at this ⊢
  omega

/-- A file changes, but not its inode. -/
theorem SameHolders.setFile {file : File} (hi : file.inode = (s.ftable f).inode)
    (hr : file.ref = 0 → (s.ftable f).ref = 0) :
    SameHolders s { s with ftable := update s.ftable f file } := by
  refine ⟨refl_of _ s.fs, rfl, fun g => ?_, fun h g hg => ?_⟩
  · by_cases hgf : g = f
    · subst hgf
      simp only [update_self, hi]
    · simp only [update_of_ne hgf]
  · by_cases hgf : g = f
    · subst hgf
      simp only [update_self] at hg ⊢
      rw [hi]
      exact h g (hr hg)
    · simp only [update_of_ne hgf] at hg ⊢
      exact h g hg

/-- An assignment to fields of a file other than its inode, and what follows it. -/
theorem Accounted.modifyFile {α : Type} {g : File → File} {k : M α}
    {Q : α → FileSys → Prop} (h : s.Accounted held locks) (hi : (g (s.ftable f)).inode = (s.ftable f).inode)
    (hr : (g (s.ftable f)).ref = 0 → (s.ftable f).ref = 0)
    (hk : ∀ s', SameHolders s s' → s'.Accounted held locks → Sat anyPanic k s' Q) :
    Sat anyPanic (getFile f >>= fun file => MiniOS.setFile f (g file) >>= fun _ => k) s Q :=
  sat_bind rfl (sat_bind rfl (hk _ (.setFile hi hr) (h.same (.setFile hi hr))))

end FileSys

/-! ## What keeps the references of files and processes -/

open FileSys

section
variable {s : FileSys} {held locks : List (Fin ninode)} {f : Fin nfile} {p : Fin nproc}

theorem within_liftF {α : Type} {g : F α} (hg : Within Fs.SameRefs g) : Within SameHolders (liftF g) :=
  fun s => sat_liftF ((hg s.fs).mono fun _ _ h => ⟨h, rfl, fun _ => rfl, id⟩)

theorem within_liftMem {α : Type} {g : K α} : Within SameHolders (liftMem g) :=
  fun _ => sat_liftMem fun _ _ _ => .of_files rfl rfl rfl

theorem within_beginOp : Within SameHolders beginOp := within_liftF Fs.within_beginOp

theorem within_endOp : Within SameHolders endOp := within_modify fun _ => .of_files rfl rfl rfl

theorem within_setOfile {fd : Fin nofile} {v : Option (Fin nfile)} : Within SameHolders (setOfile p fd v) :=
  within_modify fun _ => .of_files rfl rfl rfl

theorem within_setMemfile {m : Fin nmemfile} {mf : Memfile} : Within SameHolders (setMemfile m mf) :=
  within_modify fun _ => .of_files rfl rfl rfl

theorem within_getMemfile {m : Fin nmemfile} : Within SameHolders (getMemfile m) :=
  within_get_bind fun _ => within_pure

theorem within_getFile : Within SameHolders (getFile f) := within_get_bind fun _ => within_pure

/-- An assignment to `f->off`, and what follows it. -/
theorem within_setOff {α : Type} {off : Nat} {k : M α} (hk : Within SameHolders k) :
    Within SameHolders (do setFile f { ← getFile f with off := off }; k) := fun s => by
  refine sat_bind rfl (sat_bind rfl ((hk _).mono fun _ _ h => trans_of SameHolders ?_ h))
  exact .setFile rfl id

theorem within_argfd {fd : Int} : Within SameHolders (argfd p fd) := fun _ =>
  (sat_argfd fd).mono fun _ _ h => h.1 ▸ refl_of _ _

theorem within_fdalloc : Within SameHolders (fdalloc p f) := by
  refine within_get_bind fun s => ?_
  split
  · exact within_setOfile.bind fun _ => within_pure
  · exact within_pure

theorem within_filedup : Within SameHolders (filedup f) := fun _ =>
  sat_bind rfl (sat_ite (fun _ => sat_throw_bind trivial) fun _ => sat_bind rfl (sat_pure (.setFile rfl nofun)))

theorem within_memfileCreate : Within SameHolders memfileCreate := by
  refine within_get_bind fun s => ?_
  split
  · exact within_pure
  · refine within_liftMem.bind fun data => Within.ite ?_ ?_
    · exact within_setMemfile.bind fun _ => within_pure
    · exact within_setMemfile.bind fun _ => within_pure

theorem within_memfileDelete {m : Fin nmemfile} : Within SameHolders (memfileDelete m) :=
  within_getMemfile.bind fun _ => within_pure.ite (within_setMemfile.bind fun _ => within_pure)

variable [KernelImage]

theorem within_garbageCollect : Within SameHolders garbageCollect := fun s => by
  refine sat_forM (fun m _ t ht => ?_) (refl_of _ s)
  have hround : Within SameHolders (collect m) := within_getMemfile.bind fun _ =>
    Within.ite ((within_liftMem.bind fun _ => within_setMemfile).ite within_setMemfile) within_pure
  exact (hround t).mono fun _ _ h => trans_of _ ht h

theorem within_pipeclose {pi : Nat} {writable : Bool} : Within SameHolders (pipeclose pi writable) :=
  within_get_bind fun _ => (within_modify fun _ => .of_files rfl rfl rfl).bind fun _ =>
    within_liftMem.ite within_pure

end

theorem within_memread {f : Fin nfile} {m : Fin nmemfile} {n : Int} {ok : Bool} :
    Within SameHolders (memread f m n ok) := by
  refine within_getMemfile.bind fun mf => within_getFile.bind fun _ => within_pure.ite (within_setOff ?_)
  refine within_pure.ite (Within.ite (within_pure.ite (within_setOff ?_)) within_pure)
  exact within_get_bind fun _ => within_pure

theorem within_memcopyin {f : Fin nfile} {m : Fin nmemfile} {n : Int} {src : List Byte} {ok : Bool} :
    Within SameHolders (memcopyin f m n src ok) := by
  refine within_getMemfile.bind fun mf => within_getFile.bind fun _ => Within.ite ?_ within_pure
  refine within_liftMem.bind fun _ => within_pure.ite (within_setOff ?_)
  exact within_setMemfile.bind fun _ => within_pure

theorem within_memwrite {f : Fin nfile} {m : Fin nmemfile} {n : Int} {src : List Byte} {ok : Bool} :
    Within SameHolders (memwrite f m n src ok) := by
  refine within_getMemfile.bind fun mf => within_getFile.bind fun _ => within_pure.ite ?_
  refine Within.ite (within_liftMem.bind fun _ => within_setMemfile.bind fun _ => ?_) within_memcopyin
  exact within_pure.ite within_memcopyin

/-! ## The calls of file.c -/

section
variable [KernelImage] [Superblock] {s : FileSys} {held locks : List (Fin ninode)} {f : Fin nfile}
  {p : Fin nproc}

/-- The reference of a file that is closed is given up. -/
theorem accounted_releaseFile {ff : File} (h : s.Accounted (ff.inode.toList ++ held) locks) :
    Sat anyPanic (releaseFile ff) s fun _ s' => s'.Accounted held locks := by
  have hsome (ht : ff.type = .inode ∨ ff.type = .device) {ip : Fin ninode} (hip : ff.ip = some ip) :
      Sat anyPanic (do beginOp; liftF (Fs.iput ip); endOp) s fun _ s' => s'.Accounted held locks := by
    rw [File.inode, if_pos ht, hip] at h
    refine h.step within_beginOp fun _ s₁ _ h₁ => h₁.lift (Fs.held_iput h₁.fs) fun _ fs h₂ => ?_
    exact (within_endOp _).mono fun _ _ hs => h₂.same hs
  have hnone (ht : ff.type = .inode ∨ ff.type = .device) (hip : ∀ ip, ff.ip = some ip → False) :
      s.Accounted held locks := by
    rwa [File.inode, if_pos ht, Option.eq_none_iff_forall_ne_some.mpr hip] at h
  unfold releaseFile
  split
  · next ht => exact sat_pure (by simpa [File.inode, ht] using h)
  · next ht =>
      have h' : s.Accounted held locks := by simpa [File.inode, ht] using h
      exact (within_pipeclose s).mono fun _ _ hs => h'.same hs
  · next ht =>
      split
      · next hip => exact hsome (.inl ht) hip
      · next hip => exact sat_pure (hnone (.inl ht) hip)
  · next ht =>
      split
      · next hip => exact hsome (.inr ht) hip
      · next hip => exact sat_pure (hnone (.inr ht) hip)
  · next ht =>
      have h' : s.Accounted held locks := by simpa [File.inode, ht] using h
      split
      · exact h'.step within_getMemfile fun _ s₁ _ h₁ => (within_setMemfile s₁).mono fun _ _ hs => h₁.same hs
      · exact sat_pure h'

theorem accounted_fileclose (h : s.Accounted held locks) :
    Sat anyPanic (fileclose f) s fun _ s' => s'.Accounted held locks := by
  refine sat_bind rfl (sat_ite (fun _ => sat_throw_bind trivial) fun _ => sat_ite (fun hr => ?_) fun _ => ?_)
  · exact h.same (.setFile rfl fun h0 => by dsimp only at h0; omega)
  · refine sat_bind rfl (accounted_releaseFile ?_)
    exact Accounted.setFile h fun _ => rfl

omit [KernelImage] [Superblock] in
/-- `filealloc` gives a file without an inode. -/
theorem accounted_filealloc (h : s.Accounted held locks) :
    Sat anyPanic filealloc s fun r s' => s'.Accounted held locks ∧ SameHolders s s' ∧
      ∀ f, r = some f → (s'.ftable f).inode = none ∧ (s'.ftable f).ref = 1 := by
  refine sat_filealloc.mono ?_
  rintro (_ | f) s' hs
  · rw [hs.1]
    exact ⟨h, refl_of _ s, nofun⟩
  · have hsame : SameHolders s s' := hs.2 ▸ .setFile rfl nofun
    refine ⟨h.same hsame, hsame, fun g hg => ?_⟩
    cases hg
    refine ⟨(hsame.inode f).trans (h.unused f hs.1), ?_⟩
    rw [hs.2]
    simp only [update_self]

theorem accounted_pipealloc (h : s.Accounted held locks) :
    Sat anyPanic pipealloc s fun _ s' => s'.Accounted held locks := by
  refine (accounted_filealloc h).bind ?_
  rintro (_ | rf) s₁ ⟨h₁, -, hrf⟩
  · exact sat_pure h₁
  refine (accounted_filealloc h₁).bind ?_
  rintro (_ | wf) s₂ ⟨h₂, same₂, hwf⟩
  · exact (accounted_fileclose h₂).bind fun _ _ h₃ => sat_pure h₃
  have hrf₂ : (s₂.ftable rf).inode = none := (same₂.inode rf).trans (hrf rf rfl).1
  refine h₂.step within_liftMem fun pi s₃ same₃ h₃ => sat_ite (fun _ => ?_) fun _ => ?_
  · exact (accounted_fileclose h₃).bind fun _ _ h₄ => (accounted_fileclose h₄).bind fun _ _ h₅ => sat_pure h₅
  · -- neither end has an inode before or after
    have hr : (s₃.ftable rf).inode = none := (same₃.inode rf).trans hrf₂
    have hw : (s₃.ftable wf).inode = none := (same₃.inode wf).trans (hwf wf rfl).1
    refine h₃.step (within_modify fun _ => .of_files rfl rfl rfl) fun _ s₄ same₄ h₄ => ?_
    refine h₄.modifyFile ((same₄.inode rf).trans hr).symm id fun s₅ same₅ h₅ => ?_
    refine h₅.modifyFile ?_ id fun s₆ _ h₆ => sat_pure h₆
    exact ((same₅.inode wf).trans ((same₄.inode wf).trans hw)).symm

/-! ## The calls of sysfile.c -/

theorem accounted_sysPipe {ok0 ok1 : Bool} (h : s.Accounted held locks) :
    Sat anyPanic (sysPipe p ok0 ok1) s fun _ s' => s'.Accounted held locks := by
  have hclose : ∀ (rf wf : Fin nfile) (s : FileSys), s.Accounted held locks →
      Sat anyPanic (do fileclose rf; fileclose wf; return false) s fun _ s' => s'.Accounted held locks :=
    fun rf wf s h => (accounted_fileclose h).bind fun _ _ h₁ => (accounted_fileclose h₁).bind fun _ _ h₂ =>
      sat_pure h₂
  refine (accounted_pipealloc h).bind ?_
  rintro (_ | ⟨rf, wf⟩) s₁ h₁
  · exact sat_pure h₁
  refine h₁.step within_fdalloc fun fd0 s₂ _ h₂ => ?_
  cases fd0 with
  | none => exact hclose rf wf s₂ h₂
  | some fd0 =>
    refine h₂.step within_fdalloc fun fd1 s₃ _ h₃ => ?_
    cases fd1 with
    | none => exact h₃.step within_setOfile fun _ s₄ _ h₄ => hclose rf wf s₄ h₄
    | some fd1 =>
      refine sat_ite (fun _ => sat_pure h₃) fun _ => h₃.step within_setOfile fun _ s₄ _ h₄ => ?_
      exact h₄.step within_setOfile fun _ s₅ _ h₅ => hclose rf wf s₅ h₅

theorem accounted_sysMemcreate (h : s.Accounted held locks) :
    Sat anyPanic (sysMemcreate p) s fun _ s' => s'.Accounted held locks := by
  refine (accounted_filealloc h).bind ?_
  rintro (_ | f) s₁ ⟨h₁, -, hf⟩
  · exact sat_pure h₁
  refine h₁.step within_fdalloc fun fd s₂ same₂ h₂ => ?_
  cases fd with
  | none => exact (accounted_fileclose h₂).bind fun _ _ h₃ => sat_pure h₃
  | some fd =>
    refine h₂.step within_memfileCreate fun mf s₃ same₃ h₃ => ?_
    cases mf with
    | none => exact (accounted_fileclose h₃).bind fun _ _ h₄ => sat_pure h₄
    | some mf =>
      have hnone : (s₃.ftable f).inode = none :=
        (same₃.inode f).trans ((same₂.inode f).trans (hf f rfl).1)
      exact h₃.modifyFile hnone.symm id fun _ _ h₄ => sat_pure h₄

section
omit [KernelImage] [Superblock]

theorem within_sysDup {fd : Int} : Within SameHolders (sysDup p fd) := by
  refine within_argfd.bind fun r => ?_
  cases r with
  | none => exact within_pure
  | some r =>
    refine within_fdalloc.bind fun fd => ?_
    cases fd with
    | none => exact within_pure
    | some fd => exact within_filedup.bind fun _ => within_pure

/-- A call on a descriptor of an in-memory file. -/
theorem within_onMemfile {R : FileSys → FileSys → Prop} [Std.Refl R] [IsTrans FileSys R] {fd : Int}
    {g : Fin nfile → Fin nmemfile → M Bool} (hfd : Within R (argfd p fd)) (hg : ∀ f m, Within R (g f m)) :
    Within R (do
      match ← argfd p fd with
      | none => return false
      | some (_, f) =>
        let file ← getFile f
        match file.memf with
        | some m => if file.type = .mem then g f m else return false
        | none => return false) := by
  refine hfd.bind fun r => ?_
  cases r with
  | none => exact within_pure
  | some r =>
    refine Within.bind (within_get_bind fun _ => within_pure) fun file => ?_
    split
    · exact (hg _ _).ite within_pure
    · exact within_pure

end

theorem accounted_sysClose {fd : Int} (h : s.Accounted held locks) :
    Sat anyPanic (sysClose p fd) s fun _ s' => s'.Accounted held locks := by
  refine h.step within_argfd fun r s₁ _ h₁ => ?_
  cases r with
  | none => exact sat_pure h₁
  | some r =>
    refine h₁.step within_setOfile fun _ s₂ _ h₂ => (accounted_fileclose h₂).bind fun _ s₃ h₃ => ?_
    exact sat_pure h₃

section
omit [KernelImage]

/-- The file takes over the reference. -/
theorem accounted_bindInode {ip : Fin ninode} {omode : Nat} (h : s.Accounted (ip :: held) (ip :: locks))
    (hf : (s.ftable f).inode = none) (hr : (s.ftable f).ref = 1) :
    Sat anyPanic (bindInode f ip omode) s fun _ s' => s'.Accounted held locks := by
  have hbound : ∀ file : File, file.inode = some ip → file.ref = 1 →
      Accounted { s with ftable := update s.ftable f file } held (ip :: locks) := fun file hi h1 => by
    have h' : s.Accounted (file.inode.toList ++ held) (ip :: locks) := by rw [hi]; exact h
    have := h'.setFile (f := f) fun h0 => by omega
    rwa [hf] at this
  have hend : ∀ (c : Prop) [Decidable c] (s : FileSys), s.Accounted held (ip :: locks) →
      Sat anyPanic (if c then do liftF (Fs.itrunc ip); liftF (Fs.iunlock ip) else liftF (Fs.iunlock ip)) s
        fun _ s' => s'.Accounted held locks := fun c _ s h => by
    have hunlock : ∀ s : FileSys, s.Accounted held (ip :: locks) →
        Sat anyPanic (liftF (Fs.iunlock ip)) s fun _ s' => s'.Accounted held locks := fun s h =>
      sat_liftF ((Fs.held_iunlock h.fs).mono fun _ _ hfs => ⟨hfs, h.unused⟩)
    refine sat_ite (fun _ => ?_) fun _ => hunlock s h
    exact h.step (within_liftF Fs.within_itrunc) fun _ s₁ _ h₁ => hunlock s₁ h₁
  refine sat_bind rfl (sat_bind rfl (sat_bind rfl (hend _ _ (hbound _ ?_ ?_))))
  · rw [File.inode_eq_some]
    dsimp only
    split <;> simp
  · dsimp only
    split <;> exact hr

theorem accounted_openBad {ip : Fin ninode} (h : s.Accounted (ip :: held) (ip :: locks)) :
    Sat anyPanic (openBad ip) s fun _ s' => s'.Accounted held locks := by
  refine h.lift (Fs.held_iunlockput h.fs) fun _ fs h₁ => h₁.step within_endOp fun _ s₂ _ h₂ => ?_
  exact sat_pure h₂

end

variable {cwd : Fin ninode}

omit [KernelImage] [Superblock] in
/-- A process has a reference to its current directory. -/
theorem holders_pos (hp : s.cwd p = some cwd) : 0 < s.holders cwd + held.count cwd := by
  have : 0 < s.workingDirs cwd := Finset.card_pos.mpr ⟨p, by simpa using hp⟩
  unfold holders
  omega

theorem accounted_sysOpen {path : Option (List Byte)} {omode : Nat}
    (h : s.Accounted held locks) (hp : s.cwd p = some cwd) :
    Sat anyPanic (sysOpen p cwd path omode) s fun _ s' => s'.Accounted held locks := by
  unfold sysOpen
  split
  · exact sat_pure h
  refine h.step within_beginOp fun _ s₁ same₁ h₁ => ?_
  refine h₁.lift (Fs.held_openInode h₁.fs (holders_pos (same₁.cwd ▸ hp))) ?_
  rintro (_ | ip) fs h₂
  · exact h₂.step within_endOp fun _ s₃ _ h₃ => sat_pure h₃
  refine h₂.step (within_liftF Fs.within_getInode) fun d s₃ _ h₃ => ?_
  refine sat_ite (fun _ => accounted_openBad h₃) fun _ => (accounted_filealloc h₃).bind ?_
  rintro (_ | f) s₄ ⟨h₄, -, hf⟩
  · exact accounted_openBad h₄
  obtain ⟨hnone, hone⟩ := hf f rfl
  refine sat_fdalloc.bind ?_
  rintro (_ | fd) s₅ hs
  · cases hs
    exact (accounted_fileclose h₄).bind fun _ s₆ h₆ => accounted_openBad h₆
  · obtain ⟨-, rfl⟩ := hs
    have h₅ : Accounted { s₄ with ofile := setFd s₄.ofile p fd (some f) } (ip :: held) (ip :: locks) :=
      h₄.same (.of_files rfl rfl rfl)
    refine (accounted_bindInode h₅ hnone hone).bind fun _ s₆ h₆ => ?_
    exact h₆.step within_endOp fun _ s₇ _ h₇ => sat_pure h₇

section
omit [KernelImage]

omit [Superblock] in
/-- A call that is one transaction. -/
theorem held_transaction {α β : Type} {arg : Option α} {g : α → F β} {H : Fin ninode → Nat}
    (held' : β → List (Fin ninode)) (h : s.fs.Held H held locks)
    (hg : ∀ a fs, fs.Held H held locks → Sat anyPanic (g a) fs fun b fs' => fs'.Held H (held' b) locks) :
    Sat anyPanic (transaction arg g) s fun r s' =>
      SameTables s s' ∧ s'.fs.Held H ((r.map held').getD held) locks := by
  have h₁ : Fs.Held H held locks { s.fs with logged := ∅ } := h.same ⟨fun _ => rfl, fun _ => rfl, rfl⟩
  refine sat_bind rfl ?_
  cases arg with
  | none => exact sat_bind rfl (sat_pure ⟨⟨⟨rfl, rfl⟩, rfl⟩, h₁⟩)
  | some a =>
    refine Sat.bind (P := fun b s' => SameTables s s' ∧ s'.fs.Held H (held' b) locks)
      (sat_liftF ((hg a _ h₁).mono fun _ _ hfs => ⟨⟨⟨rfl, rfl⟩, rfl⟩, hfs⟩)) ?_
    rintro b s₂ ⟨t₂, h₂⟩
    exact sat_bind rfl (sat_pure ⟨⟨⟨t₂.ofile, t₂.cwd⟩, t₂.ftable⟩, h₂⟩)

omit [Superblock] in
/-- A transaction that keeps no reference. -/
theorem accounted_transaction {α β : Type} {arg : Option α} {g : α → F β} (h : s.Accounted held locks)
    (hg : ∀ a fs, fs.Held s.holders held locks →
      Sat anyPanic (g a) fs fun _ fs' => fs'.Held s.holders held locks) :
    Sat anyPanic (transaction arg g) s fun _ s' => s'.Accounted held locks := by
  refine (held_transaction (fun _ => held) h.fs hg).mono ?_
  rintro r s' ⟨t, hs⟩
  have hH : s'.holders = s.holders := by
    funext i
    simp only [holders, inodeFiles, workingDirs, t.ftable, t.cwd]
  refine ⟨?_, fun f => by rw [t.ftable]; exact h.unused f⟩
  rw [hH]
  cases r <;> exact hs

theorem accounted_sysChdir {path : Option (List Byte)} (h : s.Accounted held locks)
    (hp : s.cwd p = some cwd) :
    Sat anyPanic (sysChdir p cwd path) s fun _ s' => s'.Accounted held locks := by
  -- without `p`, the reference to its current directory is the call's
  have h₀ := Accounted.setCwd (p := p) (c := none) h
  rw [hp] at h₀
  have hfs₀ : s.fs.Held (holders { s with cwd := update s.cwd p none }) (cwd :: held) locks := h₀.fs
  refine (held_transaction (fun r : Option (Fin ninode) => r.getD cwd :: held) hfs₀ fun a fs hfs =>
    Fs.held_chdir hfs).bind ?_
  rintro r s' ⟨t, hs⟩
  have hback : ∀ ip, s'.fs.Held (holders { s with cwd := update s.cwd p none }) (ip :: held) locks →
      Accounted { s' with cwd := update s'.cwd p (some ip) } held locks := fun ip hfs => by
    have h₁ : Accounted { s' with cwd := update s'.cwd p none } (ip :: held) locks := by
      refine ⟨?_, fun f => by simp only [t.ftable]; exact h.unused f⟩
      have : holders { s' with cwd := update s'.cwd p none } =
          holders { s with cwd := update s.cwd p none } := by
        funext i
        simp only [holders, inodeFiles, workingDirs, t.ftable, t.cwd]
      rw [this]
      exact hfs
    have := Accounted.setCwd (p := p) (c := some ip) h₁
    simpa only [update_self, update_idem, Option.toList_none, List.nil_append] using this
  have hsame : update s'.cwd p (some cwd) = s'.cwd := by
    rw [← hp, ← t.cwd, update_eq_self]
  match r with
  | none =>
    refine sat_pure ?_
    have := hback cwd hs
    rwa [hsame] at this
  | some none =>
    refine sat_pure ?_
    have := hback cwd hs
    rwa [hsame] at this
  | some (some ip) => exact sat_bind rfl (sat_pure (hback ip hs))

omit [Superblock] in
theorem within_forkLoop {np : Fin nproc} {fds : List (Fin nofile)} : Within SameHolders (forkLoop p np fds) := by
  induction fds with
  | nil => exact within_pure
  | cons fd fds ih =>
    refine within_get_bind fun s => ?_
    split
    · exact within_filedup.bind fun _ => within_setOfile.bind fun _ => ih
    · exact ih

omit [Superblock] in
/-- The child gets a reference of its own. -/
theorem accounted_forkFiles {np : Fin nproc} {ok : Bool} (h : s.Accounted held locks)
    (hp : s.cwd p = some cwd) (hnp : s.cwd np = none) :
    Sat anyPanic (forkFiles p np cwd ok) s fun _ s' => s'.Accounted held locks := by
  refine sat_ite (fun _ => sat_pure h) fun _ => h.step within_forkLoop fun _ s₁ same₁ h₁ => ?_
  have hp₁ : s₁.cwd p = some cwd := by rw [same₁.cwd, hp]
  have hnp₁ : s₁.cwd np = none := by rw [same₁.cwd, hnp]
  have hdup : Sat anyPanic (Fs.idup cwd) s₁.fs fun ip fs => fs.Held s₁.holders (ip :: held) locks := by
    refine (Fs.held_idup h₁.fs (holders_pos hp₁)).mono ?_
    rintro _ fs ⟨rfl, hfs⟩
    exact hfs
  refine h₁.lift hdup fun ip fs h₂ => sat_bind rfl (sat_pure ?_)
  have := Accounted.setCwd (p := np) (c := some ip) h₂
  simpa only [hnp₁, Option.toList_none, List.nil_append] using this

end

theorem accounted_exitLoop {fds : List (Fin nofile)} (h : s.Accounted held locks) :
    Sat anyPanic (exitLoop p fds) s fun _ s' => s'.Accounted held locks ∧ s'.cwd = s.cwd := by
  induction fds generalizing s with
  | nil => exact sat_pure ⟨h, rfl⟩
  | cons fd fds ih =>
    refine sat_bind rfl ?_
    split
    · refine (sat_and (accounted_fileclose h) counts_fileclose).bind ?_
      rintro _ s₁ ⟨h₁, o₁, -⟩
      refine h₁.step within_setOfile fun _ s₂ same₂ h₂ => (ih h₂).mono ?_
      rintro _ s₃ ⟨h₃, c₃⟩
      exact ⟨h₃, by rw [c₃, same₂.cwd, o₁.cwd]⟩
    · exact ih h

theorem accounted_exitFiles (h : s.Accounted held locks) (hp : s.cwd p = some cwd) :
    Sat anyPanic (exitFiles p cwd) s fun _ s' => s'.Accounted held locks := by
  refine (accounted_exitLoop h).bind ?_
  rintro _ s₁ ⟨h₁, c₁⟩
  refine h₁.step within_beginOp fun _ s₂ same₂ h₂ => ?_
  have hp₂ : s₂.cwd p = some cwd := by rw [same₂.cwd, c₁, hp]
  have h₃ := Accounted.setCwd (p := p) (c := none) h₂
  rw [hp₂] at h₃
  refine Sat.bind (P := fun _ s' => Accounted { s' with cwd := update s'.cwd p none } held locks)
    (sat_liftF ((Fs.held_iput h₃.fs).mono fun _ fs hfs => ⟨hfs, h₂.unused⟩)) fun _ s₄ h₄ => ?_
  exact sat_bind rfl ⟨h₄.fs, h₄.unused⟩

/-! ## Whole runs -/

omit [KernelImage] [Superblock] in
theorem accounted_byProcess {g : Fin ninode → M Bool} (h : s.Accounted [] [])
    (hg : ∀ cwd, s.cwd p = some cwd → Sat anyPanic (g cwd) s fun _ s' => s'.Accounted [] []) :
    Sat anyPanic (byProcess p g) s fun _ s' => s'.Accounted [] [] := by
  refine sat_bind rfl ?_
  split
  · next cwd hp => exact hg cwd hp
  · exact sat_pure h

/-- Every call gives up the references and locks it has taken. -/
theorem accounted_perform (h : s.Accounted [] []) (c : Call) :
    Sat anyPanic c.perform s fun _ s' => s'.Accounted [] [] := by
  have hmem : ∀ {g : M Bool}, Within SameHolders g → Sat anyPanic g s fun _ s' => s'.Accounted [] [] :=
    fun hg => (hg s).mono fun _ _ hs => h.same hs
  cases c with
  | «open» p path omode =>
    exact accounted_byProcess h fun cwd hp => (accounted_sysOpen h hp).bind fun _ _ h' => sat_pure h'
  | dup p fd => exact accounted_byProcess h fun cwd hp => h.step within_sysDup fun _ _ _ h' => sat_pure h'
  | close p fd => exact accounted_byProcess h fun cwd hp => accounted_sysClose h
  | pipe p ok0 ok1 => exact accounted_byProcess h fun cwd hp => accounted_sysPipe h
  | memcreate p =>
    exact accounted_byProcess h fun cwd hp => (accounted_sysMemcreate h).bind fun _ _ h' => sat_pure h'
  | memdelete p fd =>
    exact accounted_byProcess h fun cwd hp => hmem (within_onMemfile within_argfd fun _ _ => within_memfileDelete)
  | memwrite p fd n src ok =>
    exact accounted_byProcess h fun cwd hp => hmem (within_onMemfile within_argfd fun _ _ =>
      within_memwrite.bind fun _ => within_pure)
  | memread p fd n ok =>
    exact accounted_byProcess h fun cwd hp => hmem (within_onMemfile within_argfd fun _ _ =>
      within_memread.bind fun _ => within_pure)
  | mkdir p path =>
    exact accounted_byProcess h fun cwd hp => (accounted_transaction h fun _ _ hfs =>
      Fs.held_mknod hfs (holders_pos hp)).bind fun _ _ h' => sat_pure h'
  | mknod p path major minor =>
    exact accounted_byProcess h fun cwd hp => (accounted_transaction h fun _ _ hfs =>
      Fs.held_mknod hfs (holders_pos hp)).bind fun _ _ h' => sat_pure h'
  | link p old new =>
    exact accounted_byProcess h fun cwd hp => (accounted_transaction h fun _ _ hfs =>
      Fs.held_link hfs (holders_pos hp)).bind fun _ _ h' => sat_pure h'
  | unlink p path =>
    exact accounted_byProcess h fun cwd hp => (accounted_transaction h fun _ _ hfs =>
      Fs.held_unlink hfs (holders_pos hp)).bind fun _ _ h' => sat_pure h'
  | chdir p path => exact accounted_byProcess h fun cwd hp => accounted_sysChdir h hp
  | exec p path pagetable mem =>
    exact accounted_byProcess h fun cwd hp => (accounted_transaction h fun _ _ hfs =>
      Fs.held_execFile hfs (holders_pos hp)).bind fun _ _ h' => sat_pure h'
  | fork p np ok =>
    refine accounted_byProcess h fun cwd hp => sat_bind rfl ?_
    exact sat_ite (fun hnp => accounted_forkFiles h hp hnp) fun _ => sat_pure h
  | exit p =>
    exact accounted_byProcess h fun cwd hp => (accounted_exitFiles h hp).bind fun _ _ h' => sat_pure h'
  | collect => exact h.step within_garbageCollect fun _ _ _ h' => sat_pure h'

omit [KernelImage] [Superblock] in
theorem Booted.accounted (h : s.Booted) : s.Accounted [] [] := by
  have hf : ∀ f, (s.ftable f).inode = none := fun f => by
    rw [h.fresh.ftable]
    rfl
  refine ⟨⟨fun i => ?_, fun i => ?_, List.nodup_nil, h.distinct⟩, fun f _ => hf f⟩
  · have hfiles : s.inodeFiles i = 0 := by simp [inodeFiles_eq, hf]
    rw [h.refs, holders, hfiles, List.count_nil, Nat.zero_add, Nat.add_zero]
  · simp [h.unlocked]

theorem accounted_run {s₀ : FileSys} {cs : List Call} (h₀ : s₀.Accounted [] [])
    (hrun : run FileSys.step s₀ cs = some s) : s.Accounted [] [] := by
  refine invariant_of_step (P := fun s => s.Accounted [] []) (fun s c s' hs hstep => ?_) h₀ hrun
  unfold FileSys.step at hstep
  split at hstep
  · next hp =>
      cases hstep
      exact (accounted_perform hs c).of_run hp
  · cases hstep

/-- After every sequence of calls: the references of an inode table entry are those of the open
files of an inode or a device that point to it and of the processes whose current directory it is,
no inode is locked, and no inode has two entries. -/
theorem inode_refs_balance {s₀ : FileSys} {cs : List Call} (h₀ : s₀.Booted)
    (hrun : run FileSys.step s₀ cs = some s) :
    (∀ i, (s.fs.itable i).ref = s.inodeFiles i + s.workingDirs i) ∧ (∀ i, s.fs.locked i = false) ∧
      ∀ i j, 0 < (s.fs.itable i).ref → 0 < (s.fs.itable j).ref →
        (s.fs.itable i).inum = (s.fs.itable j).inum → i = j := by
  have h := accounted_run (Booted.accounted h₀) hrun
  refine ⟨fun i => ?_, fun i => ?_, h.fs.distinct⟩
  · rw [h.fs.ref, holders, List.count_nil, Nat.add_zero]
  · simpa using h.fs.locked i

end

/-- The first process, in the root directory of the file system that `mkfs` makes. -/
def firstProcess (kmem : Kmem) : FileSys where
  fs := { mkfsImage with itable := fun i => if i = 0 then ⟨rootIno, 1, false, .free⟩ else ⟨0, 0, false, .free⟩ }
  kmem := kmem
  ftable _ := File.zero
  mftable _ := Memfile.zero
  pipes _ := ⟨false, false⟩
  ofile _ _ := none
  cwd p := if p = 0 then some 0 else none
  sections := []

theorem firstProcess_booted (kmem : Kmem) : (firstProcess kmem).Booted := by
  have href : ∀ i, ((firstProcess kmem).fs.itable i).ref = if i = 0 then 1 else 0 := fun i => by
    simp only [firstProcess]
    split <;> rfl
  refine ⟨⟨fun _ => rfl, fun _ => rfl, fun _ _ => rfl⟩, fun i => ?_, fun _ => rfl, fun i j hi hj _ => ?_⟩
  · have hdirs : ∀ i : Fin ninode, (if i = 0 then 1 else 0) =
        (Finset.univ.filter fun p : Fin nproc => (if p = 0 then some 0 else none) = some i).card := by
      decide +kernel
    rw [href]
    exact hdirs i
  · rw [href] at hi hj
    grind

/-- The first process moves to a new directory, opens a new file in it and forks, and its child
removes the file. -/
def forkOverFile : List Call :=
  [.mkdir 0 (some [97]), .chdir 0 (some [97]), .open 0 (some [98]) 0x202, .fork 0 1 true, .unlink 1 [98]]

theorem inode_refs_balance_fork :
    ∃ s, run (@FileSys.step sampleImage mkfsSuperblock) (firstProcess onePage) forkOverFile = some s ∧
      ∀ i, (s.fs.itable i).ref = s.inodeFiles i + s.workingDirs i := by
  have hend : (run (@FileSys.step sampleImage mkfsSuperblock) (firstProcess onePage) forkOverFile).isSome := by
    decide +kernel
  obtain ⟨s, hrun⟩ := Option.isSome_iff_exists.mp hend
  exact ⟨s, hrun, (@inode_refs_balance sampleImage mkfsSuperblock _ _ _ (firstProcess_booted onePage) hrun).1⟩

end MiniOS
