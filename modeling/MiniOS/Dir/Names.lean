import MiniOS.Dir
import Mathlib.Data.List.GetD
import Mathlib.Data.List.TakeWhile

/-!
# MiniOS.Dir.Names

Names in directory entries, as `kernel/string.c` and `skipelem` of `kernel/fs.c`
handle them: a name of `DIRSIZ` bytes has no terminating 0, and a longer path
element is cut.  `chars` relates these to the lists of bytes of `MiniOS.Dir`.
-/

namespace MiniOS

/-- The string of at most `n` bytes at `p + i`. -/
def chars (p : Nat → Byte) (n i : Nat) : Name := ((List.range' i n).map p).takeWhile (· ≠ 0)

/-- `strncmp(p + i, q + i, n)`. -/
def strncmp (p q : Nat → Byte) : Nat → Nat → Int
  | 0, _ => 0
  | n + 1, i => if p i ≠ 0 ∧ p i = q i then strncmp p q n (i + 1) else (p i).toNat - (q i).toNat

/-- `namecmp`. -/
def namecmp (s t : Nat → Byte) : Int := strncmp s t dirSiz 0

/-- The `n` bytes that `strncpy(s, t + i, n)` stores. -/
def strncpy (t : Nat → Byte) : Nat → Nat → List Byte
  | 0, _ => []
  | n + 1, i => if t i = 0 then 0 :: List.replicate n 0 else t i :: strncpy t n (i + 1)

/-- The buffer `name` after `skipelem` has copied the path element `s` to it. -/
def nameBuf (name : Nat → Byte) (s : List Byte) (k : Nat) : Byte :=
  if dirSiz ≤ s.length then if k < dirSiz then s.getD k 0 else name k
  else if k < s.length then s.getD k 0 else if k = s.length then 0 else name k

variable {p q : Nat → Byte} {n i : Nat}

theorem chars_succ : chars p (n + 1) i = if p i = 0 then [] else p i :: chars p n (i + 1) := by
  unfold chars
  rw [List.range'_succ, List.map_cons, List.takeWhile_cons]
  by_cases h : p i = 0 <;> simp [h]

/-- `strncmp` compares strings. -/
theorem strncmp_eq_zero : strncmp p q n i = 0 ↔ chars p n i = chars q n i := by
  induction n generalizing i with
  | zero => exact ⟨fun _ => rfl, fun _ => rfl⟩
  | succ n ih =>
    rw [strncmp, chars_succ, chars_succ]
    by_cases hpq : p i = q i
    · by_cases h0 : p i = 0
      · rw [if_neg (by simp [h0]), ← hpq, h0]
        simp
      · rw [if_pos ⟨h0, hpq⟩, ih, ← hpq, if_neg h0, if_neg h0, List.cons_inj_right]
    · rw [if_neg fun h => hpq h.2]
      have hsub : ((p i).toNat : Int) - (q i).toNat ≠ 0 := fun h =>
        hpq (BitVec.eq_of_toNat_eq (by omega))
      refine ⟨fun h => absurd h hsub, fun h => ?_⟩
      split at h <;> split at h
      · next h1 h2 => exact absurd (h1.trans h2.symm) hpq
      · cases h
      · cases h
      · exact absurd (List.cons.inj h).1 hpq

/-- `strncpy` pads with 0. -/
theorem strncpy_eq : strncpy p n i = chars p n i ++ List.replicate (n - (chars p n i).length) 0 := by
  induction n generalizing i with
  | zero => rfl
  | succ n ih =>
    rw [strncpy, chars_succ]
    split
    · rfl
    · rw [ih, List.cons_append, List.length_cons, Nat.add_sub_add_right]

theorem chars_of_list {s : List Byte} (hs : (0 : Byte) ∉ s) (hp : ∀ k, k < s.length → k < n → p k = s.getD k 0)
    (hend : s.length < n → p s.length = 0) : chars p n 0 = s.take n := by
  suffices h : ∀ m i, i ≤ s.length → i + m = n → chars p m i = (s.drop i).take m by
    simpa using h n 0 (Nat.zero_le _) (Nat.zero_add n)
  intro m
  induction m with
  | zero => intro i _ _; rfl
  | succ m ih =>
    intro i hi him
    rw [chars_succ]
    by_cases hlt : i < s.length
    · have hpi := hp i hlt (by omega)
      rw [List.getD_eq_getElem _ _ hlt] at hpi
      have h0 : p i ≠ 0 := fun h => hs (by rw [← h, hpi]; exact List.getElem_mem hlt)
      rw [if_neg h0, ih (i + 1) hlt (by omega), List.drop_eq_getElem_cons hlt, List.take_succ_cons, hpi]
    · obtain rfl : i = s.length := by omega
      rw [if_pos (hend (by omega)), List.drop_length, List.take_nil]

/-! ## Path elements -/

/-- A path element: the bytes of a C string, of any length. -/
structure PathElem where
  bytes : List Byte
  nul : (0 : Byte) ∉ bytes

/-- The part of it that counts. -/
def PathElem.name (e : PathElem) : Name := e.bytes.take dirSiz

theorem PathElem.length_name (e : PathElem) : e.name.length ≤ dirSiz := by
  rw [name, List.length_take]
  exact Nat.min_le_left _ _

theorem PathElem.nul_name (e : PathElem) : (0 : Byte) ∉ e.name := fun h => e.nul (List.mem_of_mem_take h)

theorem PathElem.chars_nameBuf (e : PathElem) (old : Nat → Byte) :
    chars (nameBuf old e.bytes) dirSiz 0 = e.name := by
  refine chars_of_list e.nul (fun k hk hn => ?_) fun hlt => ?_
  · rw [nameBuf, if_pos hn, if_pos hk, ite_self]
  · rw [nameBuf, if_neg (by omega), if_neg (Nat.lt_irrefl _), if_pos rfl]

/-! ## Entries -/

theorem Dirent.decode_name (bs : List Byte) (h : bs.length = sizeofDirent) :
    (decode bs).name = chars (fun k => bs.getD (2 + k) 0) dirSiz 0 := by
  have hmap : (bs.drop 2).take dirSiz = (List.range' 0 dirSiz).map fun k => bs.getD (2 + k) 0 := by
    refine List.ext_getElem (by simp [h, sizeofDirent, dirSiz]) fun k h1 h2 => ?_
    simp only [List.length_map, List.length_range', sizeofDirent, dirSiz] at h h2
    rw [List.getElem_take, List.getElem_drop, List.getElem_map, List.getElem_range',
      List.getD_eq_getElem _ _ (by omega)]
    congr 1
    omega
  rw [decode, hmap, chars]

/-- `dirlookup` compares the name in an entry with a path element by `namecmp`. -/
theorem PathElem.namecmp_eq_zero (e : PathElem) (old : Nat → Byte) {bs : List Byte}
    (h : bs.length = sizeofDirent) :
    namecmp (nameBuf old e.bytes) (fun k => bs.getD (2 + k) 0) = 0 ↔ (Dirent.decode bs).name = e.name := by
  rw [namecmp, strncmp_eq_zero, e.chars_nameBuf, Dirent.decode_name bs h, eq_comm]

/-- `dirlink` stores the name of a path element by `strncpy`. -/
theorem PathElem.encode_eq_strncpy (e : PathElem) (old : Nat → Byte) (inum : Nat) :
    Dirent.encode ⟨inum, e.name⟩ = [BitVec.ofNat 8 inum, BitVec.ofNat 8 (inum / 256)] ++
      strncpy (nameBuf old e.bytes) dirSiz 0 := by
  rw [strncpy_eq, e.chars_nameBuf, Dirent.encode, List.take_of_length_le e.length_name]

theorem Dirent.length_encode (de : Dirent) : de.encode.length = sizeofDirent := by
  simp only [encode, List.length_append, List.length_cons, List.length_nil, List.length_take,
    List.length_replicate, sizeofDirent, dirSiz]
  omega

/-- What is stored is read back. -/
theorem PathElem.decode_encode (e : PathElem) {inum : Nat} (h : inum < 2 ^ 16) :
    Dirent.decode (Dirent.encode ⟨inum, e.name⟩) = ⟨inum, e.name⟩ := by
  have hlen := e.length_name
  have hne : ∀ b ∈ e.name, b ≠ 0 := fun b hb h0 => e.nul_name (h0 ▸ hb)
  have hname : ((e.name ++ List.replicate (dirSiz - e.name.length) 0).take dirSiz).takeWhile (· ≠ 0) = e.name := by
    rw [List.take_of_length_le (by rw [List.length_append, List.length_replicate]; omega),
      List.takeWhile_append_of_pos fun b hb => by simpa using hne b hb]
    simp
  have hinum : (BitVec.ofNat 8 inum).toNat + 256 * (BitVec.ofNat 8 (inum / 256)).toNat = inum := by
    rw [BitVec.toNat_ofNat, BitVec.toNat_ofNat]
    omega
  rw [Dirent.encode, List.take_of_length_le hlen, Dirent.decode, Dirent.mk.injEq]
  exact ⟨hinum, hname⟩

/-- `dirlookup` of `f` takes the name that `dirlink` stored for `e` exactly if they agree in `DIRSIZ` bytes. -/
theorem PathElem.namecmp_strncpy (e f : PathElem) (old old' : Nat → Byte) :
    namecmp (nameBuf old f.bytes) (fun k => (strncpy (nameBuf old' e.bytes) dirSiz 0).getD k 0) = 0 ↔
      e.bytes.take dirSiz = f.bytes.take dirSiz := by
  have h := f.namecmp_eq_zero old (Dirent.length_encode ⟨0, e.name⟩)
  rw [e.decode_encode (by decide), e.encode_eq_strncpy old'] at h
  simpa [name, Nat.add_comm 2] using h

end MiniOS
