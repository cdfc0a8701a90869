import MiniOS.Fs.Image

/-!
# MiniOS.Fs.Writei

`writei` from memory of which some pages cannot be read.  `writei` copies block
by block and `copyin` page by page, so a copy can stop inside a block.  The
bytes that are then in the buffer are not counted by `writei`, but they are
part of the file.
-/

namespace MiniOS

open Checked Fs

/-- Memory that `either_copyin` reads from: its bytes, and the pages that it finds. -/
structure Source where
  byte : Nat → Byte
  page : Nat → Bool

namespace Source

/-- Kernel memory, which `either_copyin` reads with `memmove`. -/
def kernel (byte : Nat → Byte) : Source := ⟨byte, fun _ => true⟩

/-- The `n` bytes at `src`. -/
def bytes (m : Source) (src n : Nat) : List Byte := (List.range n).map fun k => m.byte (src + k)

/-- The loop of `copyin`: the number of bytes that are moved. -/
def copied (m : Source) : Nat → Nat → Nat → Nat
  | 0, _, _ => 0
  | fuel + 1, srcva, len =>
    if len = 0 then 0
    else
      let va0 := srcva / pgSize * pgSize
      if m.page (srcva / pgSize) then
        let n := min len (pgSize - (srcva - va0))
        n + copied m fuel (va0 + pgSize) (len - n)
      else 0

/-- `either_copyin` of `len` bytes: the number of bytes that are moved when it returns -1. -/
def eitherCopyin (m : Source) (src len : Nat) : Option Nat :=
  if m.copied len src len = len then none else some (m.copied len src len)

/-- What `either_copyin` does in `writei(ip, user_src, src, off, n)` when the file offset is `o`. -/
def fails (m : Source) (src off n o : Nat) : Option Nat :=
  m.eitherCopyin (src + (o - off)) (min (n - (o - off)) (bsize - o % bsize))

variable {m : Source} {src off n : Nat}

/-- `copyin` moves the bytes before the first one that cannot be read. -/
theorem copied_spec {fuel srcva len : Nat} (hfuel : len ≤ fuel) :
    m.copied fuel srcva len ≤ len ∧
      (∀ j, j < m.copied fuel srcva len → m.page ((srcva + j) / pgSize) = true) ∧
      (m.copied fuel srcva len < len →
        m.page ((srcva + m.copied fuel srcva len) / pgSize) = false) := by
  induction fuel generalizing srcva len with
  | zero =>
    obtain rfl : len = 0 := by omega
    exact ⟨Nat.le_refl _, fun j hj => absurd hj (Nat.not_lt_zero _), fun h => absurd h (Nat.lt_irrefl _)⟩
  | succ fuel ih =>
    unfold copied
    by_cases h0 : len = 0
    · rw [if_pos h0, h0]
      exact ⟨Nat.le_refl _, fun j hj => absurd hj (Nat.not_lt_zero _), fun h => absurd h (Nat.lt_irrefl _)⟩
    rw [if_neg h0]
    dsimp only
    by_cases hp : m.page (srcva / pgSize)
    · rw [if_pos hp]
      have hmod := Nat.div_add_mod' srcva pgSize
      have hlt : srcva % pgSize < pgSize := Nat.mod_lt _ (by decide)
      generalize hn : min len (pgSize - (srcva - srcva / pgSize * pgSize)) = n
      obtain ⟨hle, hread, hstop⟩ := @ih (srcva / pgSize * pgSize + pgSize) (len - n) (by omega)
      generalize m.copied fuel (srcva / pgSize * pgSize + pgSize) (len - n) = k at hle hread hstop ⊢
      -- past the page, the loop goes on at the next page boundary
      have hnext : ∀ j, n ≤ j → n < len →
          srcva + j = srcva / pgSize * pgSize + pgSize + (j - n) := fun j hj hnl => by omega
      refine ⟨by omega, fun j hj => ?_, fun hlt => ?_⟩
      · by_cases hjn : j < n
        · rw [show (srcva + j) / pgSize = srcva / pgSize by simp only [pgSize] at *; omega]
          exact hp
        · rw [hnext j (by omega) (by omega)]
          exact hread _ (by omega)
      · rw [hnext _ (by omega) (by omega), Nat.add_sub_cancel_left]
        exact hstop (by omega)
    · rw [if_neg hp]
      exact ⟨Nat.zero_le _, fun j hj => absurd hj (Nat.not_lt_zero _), fun _ => by simpa using hp⟩

theorem eitherCopyin_none {len : Nat} (h : m.eitherCopyin src len = none) {j : Nat} (hj : j < len) :
    m.page ((src + j) / pgSize) = true := by
  have hspec := @copied_spec m len src len (Nat.le_refl len)
  unfold eitherCopyin at h
  split at h
  · next he => exact hspec.2.1 j (by omega)
  · cases h

theorem eitherCopyin_some {len k : Nat} (h : m.eitherCopyin src len = some k) :
    k < len ∧ (∀ j, j < k → m.page ((src + j) / pgSize) = true) ∧ m.page ((src + k) / pgSize) = false := by
  obtain ⟨hle, hread, hstop⟩ := @copied_spec m len src len (Nat.le_refl len)
  unfold eitherCopyin at h
  split at h
  · cases h
  · cases h
    exact ⟨by omega, hread, hstop (by omega)⟩

/-- Byte `k` of the source is the first that cannot be read. -/
structure FirstUnread (m : Source) (src k : Nat) : Prop where
  before : ∀ j, j < k → m.page ((src + j) / pgSize) = true
  unread : m.page ((src + k) / pgSize) = false

theorem FirstUnread.eq {k k' : Nat} (h : m.FirstUnread src k) (h' : m.FirstUnread src k') : k = k' := by
  rcases Nat.lt_trichotomy k k' with hlt | heq | hgt
  · exact absurd (h'.before k hlt) (by simp [h.unread])
  · exact heq
  · exact absurd (h.before k' hgt) (by simp [h'.unread])

theorem length_bytes : (m.bytes src n).length = n := by rw [bytes, List.length_map, List.length_range]

theorem getD_bytes {k : Nat} (hk : k < n) : (m.bytes src n).getD k 0 = m.byte (src + k) := by
  rw [List.getD_eq_getElem _ _ (by rwa [length_bytes])]
  simp only [bytes, List.getElem_map, List.getElem_range]

/-- The copy of the chunk at `o` succeeds: its bytes can be read. -/
theorem fails_none {o p : Nat} (h : m.fails src off n o = none) (hoff : off ≤ o) (hop : o ≤ p) (hpn : p < off + n)
    (hp : p < o + (bsize - o % bsize)) : m.page ((src + (p - off)) / pgSize) = true := by
  have := eitherCopyin_none h (j := p - o) (by omega)
  rwa [show src + (o - off) + (p - o) = src + (p - off) by omega] at this

/-- The copy of the chunk at `o` stops after `k` bytes. -/
theorem fails_some {o k : Nat} (h : m.fails src off n o = some k) (hoff : off ≤ o) :
    o + k < off + n ∧ k < bsize - o % bsize ∧
      (∀ j, j < k → m.page ((src + (o - off + j)) / pgSize) = true) ∧
      m.page ((src + (o - off + k)) / pgSize) = false := by
  obtain ⟨hlt, hread, hstop⟩ := eitherCopyin_some h
  simp only [Nat.add_assoc] at hread hstop
  exact ⟨by omega, by omega, hread, hstop⟩

end Source

/-! ## The bytes that are reported and those that are written -/

/-- The contents of the file. -/
def Fs.contents (s : Fs) (i : Fin ninode) : List Byte := (s.itable i).d.bytes s.data 0 (s.itable i).d.size

/-- What `readi(ip, .., off, n)` copies out of a file with contents `c`; it returns 0 if `off + n` overflows. -/
def readBack (c : List Byte) (off n : Nat) : List Byte :=
  if 2 ^ 32 ≤ off + n then [] else (c.drop off).take n

/-- Of the bytes `src` the first `t` are written at `off`, and nothing else. -/
structure Fs.WritesExactly [Superblock] (i : Fin ninode) (off : Nat) (src : List Byte) (s : Fs) (t : Nat)
    (s' : Fs) : Prop where
  le : t ≤ src.length
  size : (s'.itable i).d.size = max (s.itable i).d.size (off + t)
  contents : ∀ o len, readi i (fun _ => false) o len s' =
    .ok (some (readBack ((s.contents i).take off ++ src.take t ++ (s.contents i).drop (off + t)) o len), s')
  unchanged : ∀ o, o < (s'.itable i).d.size → ¬ (off ≤ o ∧ o < off + t) →
    (s'.itable i).d.byteAt s'.data o = (s.itable i).d.byteAt s.data o

/-- Where the source stops inside a block, what can be read for that block is what the file has there. -/
def Fs.Untorn (i : Fin ninode) (m : Source) (src off n : Nat) (s : Fs) : Prop :=
  ∀ k, k < n → m.FirstUnread src k → ∀ o, off ≤ o → (off + k) / bsize * bsize ≤ o → o < off + k →
    o < (s.itable i).d.size → (s.itable i).d.byteAt s.data o = m.byte (src + (o - off))

section
variable {i : Fin ninode} {s s' : Fs} {m : Source} {src off n off' : Nat}

theorem Fs.length_contents : (s.contents i).length = (s.itable i).d.size := by
  rw [contents, Dinode.bytes, List.length_map, List.length_range]

theorem Fs.getElem_contents {o : Nat} (h : o < (s.contents i).length) :
    (s.contents i)[o] = (s.itable i).d.byteAt s.data o := by
  simp only [contents, Dinode.bytes, List.getElem_map, List.getElem_range, Nat.zero_add]

/-- Part of the contents. -/
theorem Fs.take_drop_contents (o len : Nat) :
    ((s.contents i).drop o).take len =
      (s.itable i).d.bytes s.data o (min len ((s.itable i).d.size - o)) := by
  refine List.ext_getElem ?_ fun k h1 h2 => ?_
  · simp only [List.length_take, List.length_drop, length_contents, Dinode.bytes, List.length_map,
      List.length_range]
  · rw [List.getElem_take, List.getElem_drop, getElem_contents]
    simp only [Dinode.bytes, List.getElem_map, List.getElem_range]

variable [Superblock]

/-- `readi` into memory that can be written. -/
theorem Fs.Wf.readi_eq (h : Wf s) (hl : s.Locked i) (o len : Nat) :
    readi i (fun _ => false) o len s = .ok (some (readBack (s.contents i) o len), s) := by
  have hsat : Sat (fun _ => False) (readi i (fun _ => false) o len) s _ := sat_readi h hl
  rw [← (h.cached i hl).1] at hsat
  unfold Sat at hsat
  cases hr : readi i (fun _ => false) o len s with
  | error e => rw [hr] at hsat; exact hsat.elim
  | ok r =>
    obtain ⟨r, s₁⟩ := r
    rw [hr] at hsat
    obtain ⟨rfl, ⟨rfl, hout⟩ | ⟨rfl, ho, hsum⟩ | ⟨-, o', ho'⟩⟩ := hsat
    · unfold readBack
      split
      · rfl
      · rw [List.drop_eq_nil_of_le (by rw [length_contents]; omega), List.take_nil]
    · rw [readBack, if_neg (by omega), take_drop_contents]
    · cases ho'

namespace Fs.Stored

theorem copy_eq {fails : Nat → Option Nat} {xs : List Byte} (hst : Stored i fails off xs s off' s')
    (hl : s.Locked i) : (s'.itable i).d = s'.dinode (s.itable i).inum := by
  have := (hst.wf.cached i (hst.frame.locked.mpr hl)).1
  rwa [hst.frame.inum] at this

variable (hst : Stored i (m.fails src off n) off (m.bytes src n) s off' s')
include hst

theorem size_eq (h : Wf s) (hl : s.Locked i) : (s'.itable i).d.size = max (s.itable i).d.size off' := by
  obtain ⟨addrs, ha⟩ := hst.inode
  rw [hst.copy_eq hl, ha, (h.cached i hl).1]

/-- Where the loop stops because of the source, the source stops. -/
theorem firstUnread {k : Nat} (hk : m.fails src off n off' = some k) :
    m.FirstUnread src (off' - off + k) := by
  have hle := hst.le
  obtain ⟨hlt, hfit, hread, hstop⟩ := Source.fails_some hk hle
  refine ⟨fun j hj => ?_, hstop⟩
  by_cases hj' : off' - off ≤ j
  · have := hread (j - (off' - off)) (by omega)
    rwa [Nat.add_sub_cancel' hj'] at this
  · -- byte `j` is in a chunk that was copied
    have hdiv := Nat.div_add_mod' (off + j) bsize
    have hmod : (off + j) % bsize < bsize := Nat.mod_lt _ (by decide)
    have hok := hst.reached (max off ((off + j) / bsize * bsize)) (by omega) (by omega) (by
      rcases Nat.le_total off ((off + j) / bsize * bsize) with hle | hle
      · exact .inr (by rw [Nat.max_eq_right hle, Nat.mul_mod_left])
      · exact .inl (Nat.max_eq_left hle))
    have := Source.fails_none hok (p := off + j) (by omega) (by omega) (by omega) (by
      simp only [bsize] at *; omega)
    rwa [Nat.add_sub_cancel_left] at this

section
variable (h : Wf s) (hl : s.Locked i)
include h hl

/-- The block at which the loop stopped is there, unless that is past the end of the file. -/
theorem stop_mapped (hlt : off' < (s.itable i).d.size) :
    (s.dinode (s.itable i).inum).blockAt s.data (off' / bsize) ≠ 0 ∧
      (s'.dinode (s.itable i).inum).blockAt s'.data (off' / bsize) ≠ 0 := by
  have hdiv := Nat.div_mul_le_self off' bsize
  have hsize := hst.size_eq h hl
  rw [hst.copy_eq hl] at hsize
  have htype := hst.wf.type_ne (hst.frame.locked.mpr hl)
  rw [hst.frame.inum] at htype
  rw [(h.cached i hl).1] at hlt hsize
  exact ⟨h.mapped _ _ (h.type_ne hl) (by omega), hst.wf.mapped _ _ htype (by omega)⟩

/-- Bytes of the file that are not reported as written are kept. -/
theorem kept (hu : s.Untorn i m src off n) {o : Nat}
    (ho : o < (s'.itable i).d.size) (hout : ¬ (off ≤ o ∧ o < off')) :
    (s'.itable i).d.byteAt s'.data o = (s.itable i).d.byteAt s.data o := by
  have hle := hst.le
  rw [hst.size_eq h hl] at ho
  by_cases htorn : off ≤ o ∧ (o < off' ∨ ∃ k, m.fails src off n off' = some k ∧ o < off' + k)
  · obtain ⟨hoff, hlt | ⟨k, hk, hok⟩⟩ := htorn
    · exact absurd ⟨hoff, hlt⟩ hout
    -- the byte is in the part of a chunk that was moved before the copy failed
    obtain ⟨hkn, hfit, -, -⟩ := Source.fails_some hk hle
    have hmod : off' % bsize < bsize := Nat.mod_lt _ (by decide)
    have hdiv : o / bsize = off' / bsize ∧ (off' + k) / bsize * bsize ≤ off' := by
      simp only [bsize] at *; omega
    have hsame := hu (off' - off + k) (by omega) (hst.firstUnread hk) o hoff
      (by rw [show off + (off' - off + k) = off' + k by omega]; omega) (by omega) (by omega)
    have hnew := hst.torn k o hk (hst.stop_mapped h hl (by omega)).2 (by omega) hok
      (by rw [Source.length_bytes]; omega) hdiv.1
    rw [Source.getD_bytes (by omega)] at hnew
    rw [hst.copy_eq hl, hnew, hsame]
  · rw [hst.copy_eq hl, hst.byte o htorn, (h.cached i hl).1]

/-- The contents after the write. -/
theorem contents_eq (hoff : off ≤ (s.itable i).d.size)
    (hu : s.Untorn i m src off n) :
    s'.contents i = (s.contents i).take off ++ (m.bytes src n).take (off' - off) ++ (s.contents i).drop off' := by
  have hle := hst.le
  have hle' := hst.le_add
  rw [Source.length_bytes] at hle'
  have hpre : ((s.contents i).take off).length = off := by
    rw [List.length_take, length_contents, Nat.min_eq_left hoff]
  have hmid : ((m.bytes src n).take (off' - off)).length = off' - off := by
    rw [List.length_take, Source.length_bytes, Nat.min_eq_left (by omega)]
  refine List.ext_getElem ?_ fun o h1 h2 => ?_
  · rw [length_contents, hst.size_eq h hl, List.length_append, List.length_append, hpre, hmid,
      List.length_drop, length_contents]
    omega
  · have ho := h1
    rw [length_contents] at ho
    rw [getElem_contents]
    rcases Nat.lt_or_ge o off with hlo | hlo
    · rw [List.getElem_append_left (by rw [List.length_append]; omega), List.getElem_append_left (by omega),
        List.getElem_take, getElem_contents, hst.kept h hl hu ho (by omega)]
    · rcases Nat.lt_or_ge o off' with hhi | hhi
      · rw [List.getElem_append_left (by rw [List.length_append]; omega), List.getElem_append_right (by omega),
          List.getElem_take, hst.copy_eq hl, hst.written o hlo hhi, Source.getD_bytes (by omega)]
        simp only [Source.bytes, List.getElem_map, List.getElem_range, hpre]
      · rw [List.getElem_append_right (by rw [List.length_append]; omega), List.getElem_drop, getElem_contents,
          hst.kept h hl hu ho (by omega)]
        congr 1
        rw [List.length_append, hpre, hmid]
        omega

/-- Nothing but the bytes that are reported is written. -/
theorem writesExactly (hoff : off ≤ (s.itable i).d.size)
    (hu : s.Untorn i m src off n) : WritesExactly i off (m.bytes src n) s (off' - off) s' := by
  have hle := hst.le
  have hle' := hst.le_add
  refine ⟨by omega, by rw [hst.size_eq h hl, Nat.add_sub_cancel' hle], fun o len => ?_, fun o ho hout => ?_⟩
  · rw [hst.wf.readi_eq (hst.frame.locked.mpr hl), hst.contents_eq h hl hoff hu, Nat.add_sub_cancel' hle]
  · rw [Nat.add_sub_cancel' hle] at hout
    exact hst.kept h hl hu ho hout

/-- The bytes that are copied before the source stops have to be there already. -/
theorem untorn (hw : WritesExactly i off (m.bytes src n) s (off' - off) s') :
    s.Untorn i m src off n := by
  intro k hkn hfirst o hoff hblock hlt hsize
  have hle := hst.le
  have hdiv : o / bsize = (off + k) / bsize := by simp only [bsize] at *; omega
  have hmod : o % bsize < bsize := Nat.mod_lt _ (by decide)
  have hdo := Nat.div_add_mod' o bsize
  have ho' : off' ≤ o := by
    by_contra hc
    -- otherwise the whole chunk of `o` was copied, with the byte that cannot be read
    have hok := hst.reached (max off (o / bsize * bsize)) (by omega) (by omega) (by
      rcases Nat.le_total off (o / bsize * bsize) with hle | hle
      · exact .inr (by rw [Nat.max_eq_right hle, Nat.mul_mod_left])
      · exact .inl (Nat.max_eq_left hle))
    have := Source.fails_none hok (p := off + k) (by omega) (by omega) (by omega) (by
      simp only [bsize] at *; omega)
    rw [Nat.add_sub_cancel_left, hfirst.unread] at this
    cases this
  obtain ⟨hb, hb'⟩ := hst.stop_mapped h hl (by omega)
  obtain ⟨k', hk'⟩ := Option.ne_none_iff_exists'.mp
    ((hst.stopped (by rw [Source.length_bytes]; omega)).resolve_right hb)
  obtain ⟨-, hfit, -, -⟩ := Source.fails_some hk' hle
  have hkk := hfirst.eq (hst.firstUnread hk')
  have hnew := hst.torn k' o hk' hb' ho' (by omega) (by rw [Source.length_bytes]; omega) (by
    simp only [bsize] at *; omega)
  have hkeep := hw.unchanged o (by rw [hst.size_eq h hl]; omega) (by omega)
  rw [Source.getD_bytes (by omega)] at hnew
  rw [← hkeep, hst.copy_eq hl, hnew]

end

end Fs.Stored

/-- `writei` writes exactly the bytes that it reports if and only if the source does not stop inside a block, or
what was moved of that block before is past the end of the file or makes no difference. -/
theorem writei_exact_iff (h : s.Wf) (hl : s.Locked i) (hoff : off ≤ (s.itable i).d.size)
    (hmax : off + n ≤ maxFile * bsize) :
    (∃ t s', writei i (m.fails src off n) off (m.bytes src n) s = .ok (some t, s') ∧
      WritesExactly i off (m.bytes src n) s t s') ↔ s.Untorn i m src off n := by
  have hsat : Sat (fun _ => False) (writei i (m.fails src off n) off (m.bytes src n)) s _ := sat_writei h hl
  rw [Source.length_bytes, ← (h.cached i hl).1] at hsat
  constructor
  · rintro ⟨t, s', hr, hw⟩
    rcases hsat.of_run hr with ⟨hc, -⟩ | ⟨off', ht, -, hst⟩
    · cases hc
    · obtain rfl : t = off' - off := Option.some.inj ht
      exact hst.untorn h hl hw
  · intro hu
    unfold Sat at hsat
    cases hr : writei i (m.fails src off n) off (m.bytes src n) s with
    | error e => rw [hr] at hsat; exact hsat.elim
    | ok r =>
      obtain ⟨r, s'⟩ := r
      rw [hr] at hsat
      rcases hsat with ⟨-, -, hc⟩ | ⟨off', ht, -, hst⟩
      · omega
      · exact ⟨off' - off, s', by rw [ht], hst.writesExactly h hl hoff hu⟩

end

/-! ## A file of one block -/

/-- A file with the block of the root directory. -/
def fileDinode : Dinode := { rootDinode with type := .file }

/-- The image of `mkfs`, with a regular file in the place of the root directory, in entry 0. -/
def blockFile : Fs := { mkfsImage with
  dinode := Function.update mkfsImage.dinode rootIno fileDinode
  itable := Function.update mkfsImage.itable 0 ⟨rootIno, 1, true, fileDinode⟩ }

theorem blockFile_dinode {n : Nat} : blockFile.dinode n = if n = rootIno then fileDinode else .free := by
  by_cases hn : n = rootIno
  · rw [if_pos hn, hn]
    exact Function.update_self rootIno fileDinode mkfsImage.dinode
  · rw [if_neg hn]
    exact (Function.update_of_ne hn fileDinode mkfsImage.dinode).trans (if_neg hn)

theorem blockFile_unused {j : Fin ninode} (hj : j ≠ 0) : (blockFile.itable j).ref = 0 := by
  have : blockFile.itable j = mkfsImage.itable j := Function.update_of_ne hj _ mkfsImage.itable
  rw [this]
  rfl

/-- The file has the block that the root directory has in the image. -/
theorem wf_blockFile : @Fs.Wf mkfsSuperblock blockFile := by
  let _ := mkfsSuperblock
  have hzero : ∀ {j : Fin ninode}, 0 < (blockFile.itable j).ref → j = 0 := fun {j} hj => by
    by_contra hne
    rw [blockFile_unused hne] at hj
    exact Nat.lt_irrefl 0 hj
  have hroot : ∀ n, (blockFile.dinode n).type ≠ .free → n = rootIno := fun n hn => by
    by_contra hne
    exact hn (by rw [blockFile_dinode, if_neg hne]; rfl)
  have hfile : blockFile.dinode rootIno = fileDinode := by rw [blockFile_dinode, if_pos rfl]
  refine ⟨wf_mkfsImage.owned.congr fun ⟨n, p⟩ => ?_, fun n hn => ?_, fun n bn hn hb => ?_, fun j hj => ?_,
    fun j k hj hk _ => by rw [hzero hj, hzero hk]⟩
  · by_cases hn : n = rootIno
    · subst hn
      rw [owner_of_alloc (by rw [hfile]; decide), owner_of_alloc (by decide), hfile]
      cases p <;> rfl
    · have hfree : (blockFile.dinode n).type = .free := by rw [blockFile_dinode, if_neg hn]; rfl
      have hfree' : (mkfsImage.dinode n).type = .free := by simp only [mkfsImage, if_neg hn]; rfl
      rw [owner, if_pos hfree, owner, if_pos hfree']
  · rw [hroot n hn, hfile]
    decide
  · rw [hroot n hn, hfile] at hb ⊢
    have hb : bn * bsize < bsize := hb
    obtain rfl : bn = 0 := by simp only [bsize] at hb; omega
    decide
  · obtain rfl := hzero hj.ref
    exact ⟨hfile.symm, by decide⟩

theorem locked_blockFile : blockFile.Locked 0 := ⟨by decide, rfl⟩

/-- Memory that ends after page 0. -/
def lowPage : Source := ⟨fun _ => 7, fun p => p == 0⟩

/-- The source ends at the end of a block. -/
theorem writei_exact_at_block_end :
    let _ := mkfsSuperblock
    ∃ t s', writei 0 (lowPage.fails 3072 0 2000) 0 (lowPage.bytes 3072 2000) blockFile = .ok (some t, s') ∧
      WritesExactly 0 0 (lowPage.bytes 3072 2000) blockFile t s' := by
  let _ := mkfsSuperblock
  refine (writei_exact_iff wf_blockFile locked_blockFile (Nat.zero_le _) (by decide)).mpr ?_
  intro k hk hfirst o _ hblock hlt _
  have hend : lowPage.FirstUnread 3072 1024 := ⟨fun j hj => by
    simp only [lowPage, beq_iff_eq, pgSize]
    omega, by decide⟩
  obtain rfl := hfirst.eq hend
  simp only [bsize] at *; omega

/-- `writei(ip, 1, 4095, 0, 2)` of which only the first byte can be read returns 0 and writes that byte. -/
theorem writei_torn_page :
    let _ := mkfsSuperblock
    blockFile.Wf ∧ blockFile.Locked 0 ∧
      ((writei 0 (lowPage.fails 4095 0 2) 0 (lowPage.bytes 4095 2) blockFile).toOption.map fun r =>
        (r.1, (r.2.itable 0).d.byteAt r.2.data 0)) = some (some 0, 7) ∧
      (blockFile.itable 0).d.byteAt blockFile.data 0 = 1 :=
  ⟨wf_blockFile, locked_blockFile, by decide +kernel, by decide +kernel⟩

end MiniOS
