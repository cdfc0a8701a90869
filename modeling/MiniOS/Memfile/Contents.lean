import MiniOS.Memfile.Run
import MiniOS.FileRefs
import Mathlib.Data.List.GetD

/-!
# MiniOS.Memfile.Contents

What is read back from an in-memory file.  Writes go to `f->off` of the
`struct file`, which `sys_memcreate` does not set: it is what the last owner of
the struct left there.  Reads start at 0.
-/

namespace MiniOS

open Checked Runs

/-- `sys_write` of the bytes `src` to a descriptor of an in-memory file: what it returns. -/
def writeMem (p : Fin nproc) (fd : Int) (src : List Byte) : M Int := do
  match ← argfd p fd with
  | none => return -1
  | some (_, f) =>
    let file ← getFile f
    match file.memf with
    | some m => if file.type = .mem then memwrite f m src.length src true else return -1
    | none => return -1

/-- `sys_read` of `n` bytes from a descriptor of an in-memory file: the bytes, or `none` for -1. -/
def readMem (p : Fin nproc) (fd : Int) (n : Int) : M (Option (List Byte)) := do
  match ← argfd p fd with
  | none => return none
  | some (_, f) =>
    let file ← getFile f
    match file.memf with
    | some m => if file.type = .mem then memread f m n true else return none
    | none => return none

/-- Successive writes, and a read of `n` bytes. -/
def writesThenRead (p : Fin nproc) (fd : Fin nofile) (ws : List (List Byte)) (n : Int) :
    M (List Int × Option (List Byte)) := do
  let rs ← ws.mapM (writeMem p fd.val)
  let r ← readMem p fd.val n
  return (rs, r)

/-- The struct that `filealloc` returns next. -/
def FileSys.unusedFile (s : FileSys) : Option (Fin nfile) :=
  (List.finRange nfile).find? fun f => (s.ftable f).ref = 0

/-- Descriptor `fd` of `p` is open on the in-memory file `m`: the offset in its struct, the size and the page. -/
structure OpenAt (s : FileSys) (p : Fin nproc) (fd : Fin nofile) (f : Fin nfile) (m : Fin nmemfile)
    (off size pa : Nat) : Prop where
  ofile : s.ofile p fd = some f
  type : (s.ftable f).type = .mem
  memf : (s.ftable f).memf = some m
  readable : (s.ftable f).readable = true
  writable : (s.ftable f).writable = true
  off : (s.ftable f).off = off
  slot : s.mftable m = ⟨1, size, pa, false⟩
  page : pa ≠ 0

section
variable {A : Panic → Prop} {s s' : FileSys} {p : Fin nproc} {fd : Fin nofile} {f : Fin nfile} {m : Fin nmemfile}
  {off size pa : Nat}

theorem sat_argfd_open (h : s.ofile p fd = some f) :
    Sat A (argfd p fd.val) s fun r s' => r = some (fd, f) ∧ s' = s := by
  have hfd : 0 ≤ (fd.val : Int) ∧ (fd.val : Int).toNat < nofile := ⟨by omega, by have := fd.isLt; omega⟩
  refine sat_bind rfl ?_
  rw [dif_pos hfd]
  refine sat_pure ⟨?_, rfl⟩
  simp only [Int.toNat_natCast, Fin.eta, h, Option.map_some]

/-- A write of `src` at `off`, cut to the end of the page. -/
theorem sat_writeMem (h : OpenAt s p fd f m off size pa) (src : List Byte) :
    Sat A (writeMem p fd.val src) s fun r s' =>
      (r = src.length ∧ off + src.length ≤ 4096 ∧
        OpenAt s' p fd f m (off + src.length) (max size (if src = [] then 0 else off + src.length)) pa ∧
        s'.kmem.mem pa = pageWrite (s.kmem.mem pa) off src) ∨
      (4096 < off + src.length ∧ r ≠ src.length) := by
  refine (sat_argfd_open h.ofile).bind ?_
  rintro _ _ ⟨rfl, rfl⟩
  refine sat_bind rfl ?_
  simp only [h.memf]
  refine sat_ite (fun _ => ?_) fun hne => absurd h.type hne
  refine sat_bind rfl (sat_bind rfl (sat_ite (fun hbad => ?_) fun _ => sat_ite (fun h0 => ?_) fun _ => ?_))
  · rw [h.slot, h.writable] at hbad
    simp at hbad
  · rw [h.slot] at h0
    exact absurd h0 h.page
  refine sat_bind rfl (sat_bind rfl ?_)
  rw [h.slot, h.off]
  dsimp only
  by_cases hfit : off + src.length ≤ 4096
  · have hcut : (if (src.length : Int) > 4096 - off then 4096 - (off : Int) else src.length) = src.length :=
      if_neg (by omega)
    rw [hcut]
    refine sat_ite (fun hpos => ?_) fun hpos => sat_pure (.inl ⟨rfl, hfit, ?_⟩)
    · have hne : src ≠ [] := by rintro rfl; simp at hpos
      refine sat_bind (liftMem_eq rfl) (sat_bind rfl (sat_bind rfl (sat_bind rfl (sat_pure ?_))))
      refine .inl ⟨rfl, hfit, ⟨h.ofile, ?_, ?_, ?_, ?_, ?_, ?_, h.page⟩, ?_⟩
      all_goals simp only [Function.update_self, Int.toNat_natCast, List.take_length]
      · exact h.type
      · exact h.memf
      · exact h.readable
      · exact h.writable
      · simp only [if_neg hne, Memfile.mk.injEq, true_and, and_true]
        split <;> omega
    · obtain rfl : src = [] := List.eq_nil_of_length_eq_zero (by omega)
      simpa using ⟨h, rfl⟩
  · have hcut : (if (src.length : Int) > 4096 - off then 4096 - (off : Int) else src.length) = 4096 - off :=
      if_pos (by omega)
    rw [hcut]
    refine sat_ite (fun hpos => ?_) fun hpos => sat_pure (.inr ⟨by omega, by omega⟩)
    refine sat_bind (liftMem_eq rfl) (sat_bind rfl (sat_bind rfl (sat_bind rfl (sat_pure ?_))))
    exact .inr ⟨by omega, by omega⟩

/-- A read gives the first bytes of the page. -/
theorem sat_readMem (h : OpenAt s p fd f m off size pa) {n : Int} (hn : 0 ≤ n) :
    Sat A (readMem p fd.val n) s fun r _ => r = some (pageBytes (s.kmem.mem pa) 0 (min n.toNat size)) := by
  refine (sat_argfd_open h.ofile).bind ?_
  rintro _ _ ⟨rfl, rfl⟩
  refine sat_bind rfl ?_
  simp only [h.memf]
  refine sat_ite (fun _ => ?_) fun hne => absurd h.type hne
  refine sat_bind rfl (sat_bind rfl (sat_ite (fun hbad => ?_) fun _ => sat_bind rfl (sat_bind rfl ?_)))
  · rw [h.slot, h.readable] at hbad
    simp at hbad
  simp only [h.slot]
  refine sat_ite (fun h0 => sat_pure ?_) fun h0 => ?_
  · rw [h0.resolve_left h.page, Nat.min_zero]
    rfl
  by_cases hle : n ≤ size
  · have hcut : (if n > size then (size : Int) else n) = n := if_neg (by omega)
    rw [hcut]
    refine sat_ite (fun hpos => ?_) fun hpos => sat_pure ?_
    · refine sat_bind rfl (sat_bind rfl (sat_bind rfl (sat_pure ?_)))
      rw [Nat.min_eq_left (by omega)]
    · rw [show n.toNat = 0 by omega, Nat.zero_min]
      rfl
  · have hcut : (if n > size then (size : Int) else n) = size := if_pos (by omega)
    rw [hcut]
    refine sat_ite (fun hpos => ?_) fun hpos => by omega
    refine sat_bind rfl (sat_bind rfl (sat_bind rfl (sat_pure ?_)))
    rw [Nat.min_eq_right (by omega), Int.toNat_natCast]

theorem ok_of_toOption {α : Type} {r : Except Panic α} {a : α} (h : r.toOption = some a) : r = .ok a := by
  cases r with
  | ok b =>
    cases h
    rfl
  | error e => cases h

/-! ## Whole files -/

/-- The bytes `w` have been written from the start of the file. -/
structure Holds (s : FileSys) (p : Fin nproc) (fd : Fin nofile) (w : List Byte) : Prop where
  at_end : ∃ f m pa, OpenAt s p fd f m w.length w.length pa ∧
    ∀ i < w.length, pageByte (s.kmem.mem pa) i = w.getD i 0
  fits : w.length ≤ 4096

theorem pageBytes_eq_take {q : Page} {w : List Byte} (hw : ∀ i < w.length, pageByte q i = w.getD i 0) (k : Nat) :
    pageBytes q 0 (min k w.length) = w.take k := by
  refine List.ext_getElem (by simp [pageBytes]) fun i hi hi' => ?_
  rw [List.length_take] at hi'
  have := hw i (by omega)
  rw [List.getD_eq_getElem _ _ (by omega)] at this
  simpa [pageBytes] using this

theorem sat_write_next {w : List Byte} (h : Holds s p fd w) {src : List Byte}
    (hfit : w.length + src.length ≤ 4096) :
    Sat A (writeMem p fd.val src) s fun r s' => r = src.length ∧ Holds s' p fd (w ++ src) := by
  obtain ⟨f, m, pa, ho, hb⟩ := h.at_end
  refine (sat_writeMem ho src).mono ?_
  rintro r s' (⟨rfl, -, ho', hpage⟩ | ⟨hlong, -⟩)
  · refine ⟨rfl, ⟨f, m, pa, ?_, ?_⟩, by rwa [List.length_append]⟩
    · rw [List.length_append]
      convert ho' using 1
      split
      · next h0 => simp [h0]
      · omega
    · intro i hi
      rw [List.length_append] at hi
      rw [hpage, pageByte_pageWrite src _ _ _ hfit (by simp only [pgSize]; omega)]
      split
      · next hin => rw [List.getD_append_right _ _ _ _ hin.1]
      · next hin => rw [List.getD_append _ _ _ _ (by omega), hb i (by omega)]
  · omega

/-- Successive writes add up. -/
theorem sat_writes {ws : List (List Byte)} {w : List Byte} (h : Holds s p fd w)
    (hfit : w.length + ws.flatten.length ≤ 4096) :
    Sat A (ws.mapM (writeMem p fd.val)) s fun rs s' =>
      rs = ws.map (fun w => (w.length : Int)) ∧ Holds s' p fd (w ++ ws.flatten) := by
  induction ws generalizing s w with
  | nil => exact sat_pure ⟨rfl, by simpa using h⟩
  | cons src ws ih =>
    rw [List.mapM_cons]
    rw [List.flatten_cons, List.length_append] at hfit
    refine (sat_write_next h (by omega)).bind ?_
    rintro _ s₁ ⟨rfl, h₁⟩
    refine (ih h₁ (by rw [List.length_append]; omega)).bind ?_
    rintro _ s₂ ⟨rfl, h₂⟩
    exact sat_pure ⟨rfl, by rwa [List.flatten_cons, ← List.append_assoc]⟩

theorem sat_read_back {w : List Byte} (h : Holds s p fd w) {n : Int} (hn : 0 ≤ n) :
    Sat A (readMem p fd.val n) s fun r _ => r = some (w.take n.toNat) := by
  obtain ⟨f, m, pa, ho, hb⟩ := h.at_end
  refine (sat_readMem ho hn).mono ?_
  rintro _ - rfl
  rw [pageBytes_eq_take hb]

end

section
variable [KernelImage] [Superblock] {s s₁ : FileSys} {p : Fin nproc} {fd : Fin nofile}

section
omit [KernelImage] [Superblock]

/-- A page from `kalloc` is filled with 5. -/
theorem kalloc_junk {k k' : Kmem} {pa : Nat} (h : kalloc k = some (pa, k')) (h0 : pa ≠ 0) :
    k'.mem pa = pageFill 5 := by
  obtain ⟨⟨bp, bc⟩, -, heq⟩ := Option.map_eq_some_iff.mp h
  dsimp only at heq
  split at heq
  · cases heq
    exact absurd rfl h0
  · cases heq
    simp [fillPages]

theorem sat_filealloc_unused {A : Panic → Prop} : Sat A filealloc s fun r s' => r = s.unusedFile ∧
    ∀ f, r = some f → s' = { s with ftable := Function.update s.ftable f { s.ftable f with ref := 1 } } := by
  refine sat_bind rfl ?_
  split
  · next f hf => exact sat_bind rfl (sat_pure ⟨hf.symm, fun g hg => by cases hg; rfl⟩)
  · next hf => exact sat_pure ⟨hf.symm, nofun⟩

/-- A new in-memory file has a page of its own. -/
theorem sat_memfileCreate_page : Sat anyPanic memfileCreate s fun r s' => ∀ m, r = some m →
    ∃ pa kmem, s' = { s with kmem := kmem, mftable := Function.update s.mftable m ⟨1, 0, pa, false⟩ } ∧
      pa ≠ 0 ∧ kmem.mem pa = pageFill 5 := by
  refine sat_bind rfl ?_
  split
  · exact sat_pure nofun
  · refine sat_liftMem_bind fun pa kmem hk => sat_ite (fun _ => sat_bind rfl (sat_pure nofun)) fun h0 => ?_
    refine sat_bind rfl (sat_pure ?_)
    rintro _ ⟨⟩
    exact ⟨pa, kmem, rfl, h0, kalloc_junk hk h0⟩

end

/-- `sys_memcreate` opens an empty file; the offset is the one in the struct it got. -/
theorem openAt_sysMemcreate (h : sysMemcreate p s = .ok (some fd, s₁)) :
    ∃ f m pa, s.unusedFile = some f ∧ OpenAt s₁ p fd f m (s.ftable f).off 0 pa ∧
      s₁.kmem.mem pa = pageFill 5 := by
  suffices hs : Sat anyPanic (sysMemcreate p) s fun r s' => ∀ fd, r = some fd →
      ∃ f m pa, s.unusedFile = some f ∧ OpenAt s' p fd f m (s.ftable f).off 0 pa ∧
        s'.kmem.mem pa = pageFill 5 from hs.of_run h fd rfl
  refine sat_filealloc_unused.bind ?_
  rintro (_ | f) s₁ ⟨hf, hs₁⟩
  · exact sat_pure nofun
  cases hs₁ f rfl
  refine sat_fdalloc.bind ?_
  rintro (_ | fd) s₂ hs₂
  · exact counts_fileclose.bind fun _ _ _ => sat_pure nofun
  obtain ⟨-, rfl⟩ := hs₂
  refine sat_memfileCreate_page.bind ?_
  rintro (_ | m) s₃ hs₃
  · exact counts_fileclose.bind fun _ _ _ => sat_pure nofun
  obtain ⟨pa, kmem, rfl, h0, hjunk⟩ := hs₃ m rfl
  refine sat_bind rfl (sat_bind rfl (sat_pure ?_))
  rintro _ ⟨⟩
  refine ⟨f, m, pa, hf.symm, ⟨?_, ?_, ?_, ?_, ?_, ?_, ?_, h0⟩, hjunk⟩
  all_goals simp only [Function.update_self, setFd]

omit [KernelImage] [Superblock] in
/-- Written at a later offset, a first byte is not the first byte of the file. -/
theorem stale_offset {f : Fin nfile} {m : Fin nmemfile} {off pa : Nat} (h : OpenAt s p fd f m off 0 pa)
    (hjunk : s.kmem.mem pa = pageFill 5) (h0 : off ≠ 0) :
    ¬ ∃ s', writesThenRead p fd [[6]] 1 s = .ok (([1], some [6]), s') := by
  rintro ⟨s', hrun⟩
  suffices hs : Sat anyPanic (writesThenRead p fd [[6]] 1) s fun r _ => r ≠ ([1], some [6]) from
    hs.of_run hrun rfl
  unfold writesThenRead
  rw [List.mapM_cons, List.mapM_nil]
  refine Sat.bind (P := fun rs s₁ => rs = [1] → off + 1 ≤ 4096 ∧ OpenAt s₁ p fd f m (off + 1) (off + 1) pa ∧
    s₁.kmem.mem pa = pageWrite (pageFill 5) off [6]) ?_ fun rs s₁ h₁ => ?_
  · refine (sat_writeMem h [6]).bind ?_
    rintro r s₁ (⟨-, hfit, ho, hpage⟩ | ⟨-, hr⟩)
    · exact sat_pure fun _ => ⟨hfit, by simpa using ho, hjunk ▸ hpage⟩
    · exact sat_pure fun e => absurd (List.head_eq_of_cons_eq e) hr
  by_cases hrs : rs = [1]
  · obtain ⟨hfit, ho, hpage⟩ := h₁ hrs
    refine (sat_readMem ho (by decide)).bind ?_
    rintro _ - rfl
    refine sat_pure fun e => ?_
    have hbyte : pageByte (pageWrite (pageFill 5) off [6]) 0 = 5 := by
      rw [pageByte_pageWrite _ _ _ _ hfit (by decide), if_neg (by simp only [List.length_singleton]; omega)]
      decide
    rw [hpage, show min (Int.toNat 1) (off + 1) = 1 by simp] at e
    simp [pageBytes] at e
    exact absurd (hbyte.symm.trans e.2) (by decide)
  · exact (sat_trivial _ _).bind fun _ _ _ => sat_pure fun e => hrs (congrArg Prod.fst e)

/-- What is written to a new in-memory file is read back, for all contents up to a page, exactly when
the struct file that `sys_memcreate` gets has the offset 0. -/
theorem memfile_contents_iff (h : sysMemcreate p s = .ok (some fd, s₁)) :
    (∀ (ws : List (List Byte)) (n : Int), ws.flatten.length ≤ 4096 → 0 ≤ n → ∃ s',
      writesThenRead p fd ws n s₁ =
        .ok ((ws.map fun w => (w.length : Int), some (ws.flatten.take n.toNat)), s')) ↔
    ∀ f, s.unusedFile = some f → (s.ftable f).off = 0 := by
  obtain ⟨f, m, pa, hf, ho, hjunk⟩ := openAt_sysMemcreate h
  constructor
  · intro hall g hg
    rw [hf] at hg
    cases hg
    by_contra h0
    exact stale_offset ho hjunk h0 (hall [[6]] 1 (by decide) (by decide))
  · intro hoff ws n hfit hn
    rw [hoff f hf] at ho
    have hnil : Holds s₁ p fd [] := ⟨⟨f, m, pa, ho, nofun⟩, Nat.zero_le _⟩
    have hs : Sat (fun _ => False) (writesThenRead p fd ws n) s₁ fun r _ =>
        r = (ws.map fun w => (w.length : Int), some (ws.flatten.take n.toNat)) := by
      refine (sat_writes hnil (by simpa using hfit)).bind ?_
      rintro _ s₂ ⟨rfl, h₂⟩
      refine (sat_read_back h₂ hn).bind ?_
      rintro _ - rfl
      exact sat_pure (by rw [List.nil_append])
    cases hrun : writesThenRead p fd ws n s₁ with
    | ok r => exact ⟨r.2, congrArg Except.ok (Prod.ext (hs.of_run hrun) rfl)⟩
    | error e => exact (hs.of_error hrun).elim

end

/-- The first file of a process. -/
theorem memfile_contents_first :
    ∃ fd s₁, @sysMemcreate sampleImage mkfsSuperblock 0 (oneProcess allFree) = .ok (some fd, s₁) ∧
      ∃ s', writesThenRead 0 fd [[1, 2], [3]] 2 s₁ = .ok (([2, 1], some [1, 2]), s') := by
  let _ := sampleImage
  let _ := mkfsSuperblock
  have hc : ((sysMemcreate 0 (oneProcess allFree)).toOption.bind (·.1)).isSome := by decide +kernel
  obtain ⟨fd, hc⟩ := Option.isSome_iff_exists.mp hc
  obtain ⟨⟨_, s₁⟩, hr, rfl⟩ := Option.bind_eq_some_iff.mp hc
  exact ⟨fd, s₁, ok_of_toOption hr,
    (memfile_contents_iff (ok_of_toOption hr)).mpr (fun f _ => rfl) [[1, 2], [3]] 2 (by decide) (by decide)⟩

/-- A struct file keeps the offset that the last in-memory file left in it: the byte 9 is written at
offset 2 of the new file, and what is read is not it. -/
theorem memfile_contents_recycled :
    ∃ s fd s₁ s', run (@FileSys.step sampleImage mkfsSuperblock) (oneProcess allFree)
        [.memcreate 0, .memwrite 0 0 2 [7, 8] true, .close 0 0] = some s ∧
      @sysMemcreate sampleImage mkfsSuperblock 0 s = .ok (some fd, s₁) ∧
      writesThenRead 0 fd [[9]] 1 s₁ = .ok (([1], some [5]), s') := by
  let _ := sampleImage
  let _ := mkfsSuperblock
  have hall : ((run FileSys.step (oneProcess allFree)
      [.memcreate 0, .memwrite 0 0 2 [7, 8] true, .close 0 0]).bind fun s =>
        (sysMemcreate 0 s).toOption.bind fun r => r.1.bind fun fd =>
          (writesThenRead 0 fd [[9]] 1 r.2).toOption.map (·.1)) = some ([1], some [5]) := by
    decide +kernel
  obtain ⟨s, hs, hall⟩ := Option.bind_eq_some_iff.mp hall
  obtain ⟨⟨_, s₁⟩, hr, hall⟩ := Option.bind_eq_some_iff.mp hall
  obtain ⟨fd, rfl, hall⟩ := Option.bind_eq_some_iff.mp hall
  obtain ⟨⟨_, s'⟩, hw, rfl⟩ := Option.map_eq_some_iff.mp hall
  exact ⟨s, fd, s₁, s', hs, ok_of_toOption hr, ok_of_toOption hw⟩

end MiniOS
