import MiniOS.Syslog
import MiniOS.Vm

/-!
# MiniOS.Syslog.Limits

Where the kernel log loses bytes: a read that fails after some copies has
consumed what it copied, and the indices become negative after 2 ^ 31 bytes.
-/

namespace MiniOS

namespace Logkeeper

variable {s : Logkeeper} {t : Stream} {ok : Nat → Bool}

/-! ## Reads that fail -/

/-- How many of the `m` copies from the one of byte `n` on succeed before one fails. -/
def leading (ok : Nat → Bool) : Nat → Nat → Nat
  | _, 0 => 0
  | n, m + 1 => if ok n then leading ok (n + 1) m + 1 else 0

theorem leading_le (ok : Nat → Bool) : ∀ n m, leading ok n m ≤ m
  | _, 0 => Nat.le_refl _
  | n, m + 1 => by
      rw [leading]
      split
      · exact Nat.succ_le_succ (leading_le ok (n + 1) m)
      · exact Nat.zero_le _

/-- The read index moves over the bytes that were copied.  The loop returns -1 if a copy failed, and else the
number of bytes. -/
theorem readLoop_spec (ok : Nat → Bool) (hr : -2 ^ 31 ≤ s.r) (hw : s.w < 2 ^ 31) (left n : Nat) (acc : List Byte) :
    (readLoop ok left n s acc).2 = { s with r := s.r + leading ok n (min left (s.w - s.r).toNat) } ∧
      (readLoop ok left n s acc).1.map List.length =
        if leading ok n (min left (s.w - s.r).toNat) = min left (s.w - s.r).toNat then
          some (acc.length + min left (s.w - s.r).toNat)
        else none := by
  induction left generalizing s n acc with
  | zero => simp [readLoop, leading]
  | succ left ih =>
    unfold readLoop
    by_cases hlt : s.r < s.w
    · obtain ⟨m, hm⟩ : ∃ m, (s.w - s.r).toNat = m + 1 := ⟨(s.w - s.r).toNat - 1, by omega⟩
      rw [if_pos hlt, hm, Nat.succ_min_succ, leading]
      split
      · rw [toInt_eq (by omega) (by omega)]
        dsimp only
        have hm' : (s.w - (s.r + 1)).toNat = m := by omega
        obtain ⟨hsnd, hfst⟩ := ih (s := { s with r := s.r + 1 }) (by simp only; omega) hw (n + 1) _
        rw [hsnd, hfst]
        simp only [hm', Nat.succ_inj, List.length_append, List.length_singleton]
        refine ⟨?_, ?_⟩
        · congr 1
          omega
        · congr 2
          omega
      · refine ⟨by simp, ?_⟩
        rw [if_neg (by omega)]
        rfl
    · have hzero : (s.w - s.r).toNat = 0 := by omega
      rw [if_neg hlt, hzero, Nat.min_zero, leading]
      simp

/-- The loop asks only about the bytes from `n` on. -/
theorem readLoop_congr {ok' : Nat → Bool} {left n : Nat} {acc : List Byte}
    (h : ∀ i, n ≤ i → ok' i = ok i) : readLoop ok' left n s acc = readLoop ok left n s acc := by
  induction left generalizing s n acc with
  | zero => rfl
  | succ left ih =>
    unfold readLoop
    rw [h n (Nat.le_refl n)]
    split
    · dsimp only
      rw [ih fun i hi => h i (by omega)]
    · rfl

section
variable [KernelImage]

/-- The loop of `readsyslog` with its calls of `copyout`; `dist + n` is a `uint64`. -/
def readLoopK (sz pagetable dist : Nat) : Nat → Nat → Logkeeper → K (Option Nat × Logkeeper)
  | 0, n, s => pure (some n, s)
  | left + 1, n, s =>
    if s.r < s.w then do
      let c := s.buf (cellOf s.r)
      if (← copyout sz pagetable ((dist + n) % 2 ^ 64) [c]).1 then
        readLoopK sz pagetable dist left (n + 1) { s with r := toInt (s.r + 1) }
      else pure (none, s)
    else pure (some n, s)

/-- `readsyslog(dist, maxlen)` in a process of size `sz`. -/
def readsyslogK (sz pagetable dist : Nat) (maxlen : Int) (s : Logkeeper) : K (Option Nat × Logkeeper) :=
  readLoopK sz pagetable dist maxlen.toNat 0 s

/-- Whatever memory `dist` is in, the loop runs as if told which copies succeed. -/
theorem readLoopK_eq {sz pagetable dist left n : Nat} {k k' : Kmem} {res : Option Nat} {s' : Logkeeper}
    (h : readLoopK sz pagetable dist left n s k = some ((res, s'), k')) (acc : List Byte)
    (hacc : acc.length = n) :
    ∃ ok, (readLoop ok left n s acc).1.map List.length = res ∧ (readLoop ok left n s acc).2 = s' := by
  induction left generalizing s n acc k with
  | zero =>
    cases h
    exact ⟨fun _ => true, by simp [readLoop, hacc], rfl⟩
  | succ left ih =>
    unfold readLoopK at h
    split at h
    next hlt =>
      obtain ⟨⟨⟨b, done⟩, k₁⟩, hcopy, h⟩ := Option.bind_eq_some_iff.mp h
      cases b with
      | true =>
        obtain ⟨ok, hres, hs'⟩ := ih h (acc ++ [s.buf (cellOf s.r)]) (by simp [hacc])
        refine ⟨fun i => i = n || ok i, ?_⟩
        have hcongr : ∀ i, n + 1 ≤ i → (decide (i = n) || ok i) = ok i := fun i hi => by
          rw [decide_eq_false (by omega), Bool.false_or]
        rw [readLoop, if_pos hlt, if_pos (by simp), readLoop_congr hcongr]
        exact ⟨hres, hs'⟩
      | false =>
        cases h
        refine ⟨fun _ => false, ?_⟩
        rw [readLoop, if_pos hlt]
        exact ⟨rfl, rfl⟩
    next hlt =>
      cases h
      refine ⟨fun _ => true, ?_⟩
      rw [readLoop, if_neg hlt]
      exact ⟨by simp [hacc], rfl⟩

/-- `readsyslog` into user memory is `readsyslog` for some set of copies that succeed. -/
theorem readsyslogK_eq {sz pagetable dist : Nat} {maxlen : Int} {k k' : Kmem} {res : Option Nat}
    {s' : Logkeeper} (h : readsyslogK sz pagetable dist maxlen s k = some ((res, s'), k')) :
    ∃ ok, (s.readsyslog ok maxlen).1.map List.length = res ∧ (s.readsyslog ok maxlen).2 = s' :=
  readLoopK_eq h [] rfl

end

/-- Page 0 of a process, mapped at 0x4000 through the page tables 0x1000, 0x2000 and 0x3000. -/
def onePage : Kmem where
  mem := fun a => if a = 0x1000 then fun i => if i = 0 then pa2pte 0x2000 ||| pteV else 0
    else if a = 0x2000 then fun i => if i = 0 then pa2pte 0x3000 ||| pteV else 0
    else if a = 0x3000 then fun i =>
      if i = 0 then pa2pte 0x4000 ||| pteR ||| pteW ||| pteU ||| pteV else 0
    else fun _ => 0
  refCount := fun _ => 0
  reverseMap := fun _ => noRmap
  freelist := 0
  useLock := true

end Logkeeper

/-! ## Indices -/

/-- A use of the log; `ok` tells which copies of a read succeed. -/
inductive LogUse
  | putc (c : Byte)
  | read (ok : Nat → Bool) (maxlen : Int)

/-- The bytes a use logs. -/
def LogUse.logged : LogUse → List Byte
  | .putc c => [c]
  | .read _ _ => []

namespace Logkeeper

/-- The log after a use. -/
def use (s : Logkeeper) : LogUse → Logkeeper
  | .putc c => s.putcLog c
  | .read ok maxlen => (s.readsyslog ok maxlen).2

/-- The indices of `buf` that the loop of `readsyslog` uses. -/
def readIndices (ok : Nat → Bool) : Nat → Nat → Logkeeper → List Int
  | 0, _, _ => []
  | left + 1, n, s =>
    if s.r < s.w then
      s.r.tmod logBufSize ::
        if ok n then readIndices ok left (n + 1) { s with r := toInt (s.r + 1) } else []
    else []

/-- The indices of `buf` that a use of the log accesses. -/
def indices (s : Logkeeper) : LogUse → List Int
  | .putc _ => [s.w.tmod logBufSize]
  | .read ok maxlen => readIndices ok maxlen.toNat 0 s

end Logkeeper

/-- What a use does to the bytes logged and read.  A read that fails has read what it copied. -/
def Stream.use (t : Stream) : LogUse → Stream
  | .putc c => t.putc c
  | .read ok maxlen => (t.read (Logkeeper.leading ok 0 (min maxlen.toNat t.kept))).2

theorem Stream.kept_le (t : Stream) : t.kept ≤ t.hist.length :=
  Nat.le_trans (Nat.min_le_right _ _) (Nat.sub_le _ _)

/-- The log works: indices are in range, and a read returns the oldest unread bytes that were retained. -/
structure Logkeeper.Serves (s : Logkeeper) (t : Stream) : Prop where
  order : 0 ≤ toInt (s.w - s.r) ∧ toInt (s.w - s.r) ≤ logBufSize
  index : ∀ u, ∀ i ∈ s.indices u, 0 ≤ i ∧ i < logBufSize
  read : ∀ maxlen, (s.readsyslog (fun _ => true) maxlen).1 = some (t.retained.take maxlen.toNat)

namespace Logkeeper

variable {s : Logkeeper} {t : Stream}

theorem tmod_range {i : Int} (h : 0 ≤ i) : 0 ≤ i.tmod logBufSize ∧ i.tmod logBufSize < logBufSize :=
  ⟨Int.tmod_nonneg _ h, Int.tmod_lt_of_pos _ (by decide)⟩

theorem readIndices_range (ok : Nat → Bool) (left n : Nat) (hr : 0 ≤ s.r) (hw : s.w < 2 ^ 31) :
    ∀ i ∈ readIndices ok left n s, 0 ≤ i ∧ i < logBufSize := by
  induction left generalizing s n with
  | zero => exact nofun
  | succ left ih =>
    intro i hi
    unfold readIndices at hi
    split at hi
    next hlt =>
      rcases List.mem_cons.mp hi with rfl | hi
      · exact tmod_range hr
      · split at hi
        · rw [toInt_eq (by omega) (by omega)] at hi
          exact ih (s := { s with r := s.r + 1 }) (n + 1) (by simp only; omega) hw i hi
        · cases hi
    · cases hi

theorem Rep.serves (h : s.Rep t) (hlen : t.hist.length < 2 ^ 31) : s.Serves t := by
  have hread := fun maxlen => (h.readsyslog hlen maxlen).1
  obtain ⟨-, hw, hr, -⟩ := h
  have hkept : t.kept ≤ 4096 := Nat.min_le_left _ _
  have hsize : (logBufSize : Int) = 4096 := rfl
  refine ⟨?_, fun u => ?_, hread⟩
  · rw [toInt_eq (by omega) (by omega)]
    omega
  · cases u with
    | putc c =>
      intro i hi
      rw [List.mem_singleton.mp hi]
      exact tmod_range (by omega)
    | read ok maxlen => exact readIndices_range ok _ 0 (by omega) (by omega)

theorem leading_true : ∀ n m, leading (fun _ => true) n m = m
  | _, 0 => rfl
  | n, m + 1 => by rw [leading, if_pos rfl, leading_true (n + 1) m]

/-- What a read consumes is what a read of that many bytes consumes when all copies succeed. -/
theorem Rep.readsyslog_snd (h : s.Rep t) (hlen : t.hist.length < 2 ^ 31) (ok : Nat → Bool)
    (maxlen : Int) :
    (s.readsyslog ok maxlen).2 =
      (s.readsyslog (fun _ => true) (leading ok 0 (min maxlen.toNat t.kept) : Nat)).2 := by
  obtain ⟨-, hw, hr, -⟩ := h
  have hkept := t.kept_le
  have hunread : (s.w - s.r).toNat = t.kept := by omega
  have hle := Nat.le_trans (leading_le ok 0 (min maxlen.toNat t.kept)) (Nat.min_le_right _ _)
  rw [Logkeeper.readsyslog, Logkeeper.readsyslog, (readLoop_spec _ (by omega) (by omega) _ _ _).1,
    (readLoop_spec _ (by omega) (by omega) _ _ _).1, hunread, leading_true, Int.toNat_natCast,
    Nat.min_eq_left hle]

theorem Rep.use (h : s.Rep t) (u : LogUse) (hlen : t.hist.length + u.logged.length < 2 ^ 31) :
    (s.use u).Rep (t.use u) := by
  cases u with
  | putc c => exact h.putcLog hlen c
  | read ok maxlen =>
    rw [Logkeeper.use, h.readsyslog_snd hlen]
    exact (h.readsyslog hlen _).2

end Logkeeper

theorem Stream.use_hist (t : Stream) (u : LogUse) : (t.use u).hist = t.hist ++ u.logged := by
  cases u with
  | putc c => rfl
  | read ok maxlen =>
    simp only [use, LogUse.logged, List.append_nil]
    unfold Stream.read
    dsimp only
    split <;> rfl

theorem Stream.foldl_use_hist (us : List LogUse) (t : Stream) :
    (us.foldl Stream.use t).hist = t.hist ++ us.flatMap LogUse.logged := by
  induction us generalizing t with
  | nil => simp
  | cons u us ih => rw [List.foldl_cons, ih, use_hist, List.flatMap_cons, List.append_assoc]

namespace Logkeeper

variable {s : Logkeeper} {t : Stream}

theorem Rep.foldl_use (h : s.Rep t) {us : List LogUse}
    (hlen : t.hist.length + (us.flatMap LogUse.logged).length < 2 ^ 31) :
    (us.foldl Logkeeper.use s).Rep (us.foldl Stream.use t) := by
  induction us generalizing s t with
  | nil => exact h
  | cons u us ih =>
    rw [List.flatMap_cons, List.length_append] at hlen
    refine ih (h.use u (by omega)) ?_
    rw [t.use_hist, List.length_append]
    omega

theorem putcLog_w (s : Logkeeper) (c : Byte) : (s.putcLog c).w = toInt (s.w + 1) := by
  unfold Logkeeper.putcLog
  dsimp only
  split <;> rfl

theorem putcLog_r (s : Logkeeper) (c : Byte) :
    (s.putcLog c).r =
      if logBufSize < toInt (toInt (s.w + 1) - s.r) then toInt (toInt (s.w + 1) - logBufSize) else s.r := by
  unfold Logkeeper.putcLog
  dsimp only
  split <;> rfl

/-- The byte after which `w` is negative. -/
theorem Rep.putcLog_wraps (h : s.Rep t) (hlen : t.hist.length = 2 ^ 31 - 1) (c : Byte) :
    (s.putcLog c).w = -2 ^ 31 ∧ (s.putcLog c).r = if t.kept = logBufSize then 2 ^ 31 - 4096 else s.r := by
  obtain ⟨-, hw, hr, -⟩ := h
  have hkept : t.kept ≤ 4096 := Nat.min_le_left _ _
  have hw' : toInt (s.w + 1) = -2 ^ 31 := by
    rw [hw, hlen]
    rfl
  have hsize : (logBufSize : Int) = 4096 := rfl
  have hdiff : toInt (-2 ^ 31 - s.r) = t.kept + 1 := by
    unfold toInt
    omega
  rw [putcLog_w, putcLog_r, hw', hdiff]
  refine ⟨rfl, ?_⟩
  by_cases hfull : t.kept = logBufSize
  · rw [if_pos (by omega), if_pos hfull]
    decide
  · have : t.kept ≠ 4096 := hfull
    rw [if_neg (by omega), if_neg hfull]

/-- With `w` behind `r`, a read finds nothing. -/
theorem readsyslog_eq_nil (h : s.w ≤ s.r) (ok : Nat → Bool) (maxlen : Int) :
    (s.readsyslog ok maxlen).1 = some [] := by
  unfold Logkeeper.readsyslog
  cases maxlen.toNat with
  | zero => rfl
  | succ left => rw [readLoop, if_neg (by omega)]

end Logkeeper

/-- The use that logs byte `N`. -/
theorem exists_putc {us : List LogUse} {N : Nat} (h : N < (us.flatMap LogUse.logged).length) :
    ∃ vs c, vs ++ [LogUse.putc c] <+: us ∧ (vs.flatMap LogUse.logged).length = N := by
  induction us generalizing N with
  | nil => exact absurd h (Nat.not_lt_zero N)
  | cons u us ih =>
    rw [List.flatMap_cons, List.length_append] at h
    by_cases hN : N < u.logged.length
    · cases u with
      | putc c =>
        obtain rfl : N = 0 := by simpa [LogUse.logged] using hN
        exact ⟨[], c, by simp, rfl⟩
      | read ok maxlen => exact absurd hN (Nat.not_lt_zero N)
    · obtain ⟨vs, c, hpre, hvs⟩ := ih (N := N - u.logged.length) (by omega)
      refine ⟨u :: vs, c, by simpa using hpre, ?_⟩
      rw [List.flatMap_cons, List.length_append, hvs]
      omega

/-- The log works along a run if and only if less than 2 ^ 31 bytes are logged in it. -/
theorem serves_iff (buf : Nat → Byte) (us : List LogUse) :
    (∀ vs, vs <+: us →
      (vs.foldl Logkeeper.use (.init buf)).Serves (vs.foldl Stream.use ⟨[], 0⟩)) ↔
      (us.flatMap LogUse.logged).length < 2 ^ 31 := by
  constructor
  · intro h
    by_contra hmany
    have hlong : 2 ^ 31 - 1 < (us.flatMap LogUse.logged).length := by omega
    obtain ⟨vs, c, hpre, hvs⟩ := exists_putc hlong
    have hrep : (vs.foldl Logkeeper.use (.init buf)).Rep (vs.foldl Stream.use ⟨[], 0⟩) :=
      (Logkeeper.Rep.init buf).foldl_use (by rw [hvs]; decide)
    have hlen : (vs.foldl Stream.use ⟨[], 0⟩).hist.length = 2 ^ 31 - 1 := by
      rw [Stream.foldl_use_hist, List.nil_append, hvs]
    have hserves := (h _ hpre).read 1
    rw [List.foldl_append, List.foldl_append] at hserves
    generalize vs.foldl Logkeeper.use (.init buf) = s at hrep hserves
    generalize vs.foldl Stream.use ⟨[], 0⟩ = t at hrep hserves hlen
    obtain ⟨hw, hr⟩ := hrep.putcLog_wraps hlen c
    have hkept := t.kept_le
    have hnil := Logkeeper.readsyslog_eq_nil (s := s.putcLog c) (by
      rw [hw, hr]
      have := hrep.r
      split <;> omega) (fun _ => true) 1
    -- the byte just logged is retained
    have hpos : 0 < (t.putc c).kept := by
      have := hrep.pos
      simp only [Stream.kept, Stream.putc, logBufSize, List.length_append, List.length_singleton]
      omega
    rw [List.foldl_cons, List.foldl_nil, Logkeeper.use, hnil, Option.some_inj] at hserves
    have hlen' := congrArg List.length hserves
    have hhist : (t.putc c).hist.length = t.hist.length + 1 := by simp [Stream.putc]
    have hkept' := (t.putc c).kept_le
    rw [List.foldl_cons, List.foldl_nil, Stream.use, Stream.retained, List.length_take, List.length_drop,
      List.length_nil] at hlen'
    have : (1 : Int).toNat = 1 := rfl
    omega
  · rintro h vs ⟨ws, rfl⟩
    rw [List.flatMap_append, List.length_append] at h
    refine ((Logkeeper.Rep.init buf).foldl_use ?_).serves ?_
    · rw [List.length_nil]
      omega
    · rw [Stream.foldl_use_hist, List.nil_append]
      omega

/-- One byte logged again and again. -/
theorem Stream.foldl_putc (c : Byte) (n : Nat) (hist : List Byte) :
    (List.replicate n (LogUse.putc c)).foldl Stream.use ⟨hist, 0⟩ = ⟨hist ++ List.replicate n c, 0⟩ := by
  induction n generalizing hist with
  | zero => simp
  | succ n ih =>
    rw [List.replicate_succ, List.foldl_cons]
    simp only [use, putc, ih, List.append_assoc, List.singleton_append, List.replicate_succ]

/-- The state after `n` bytes, as long as the indices do not wrap. -/
theorem Logkeeper.rep_foldl_putc (c : Byte) {n : Nat} (h : n < 2 ^ 31) :
    ((List.replicate n (LogUse.putc c)).foldl use (init fun _ => 0)).Rep ⟨List.replicate n c, 0⟩ := by
  have hlen : ((List.replicate n (LogUse.putc c)).flatMap LogUse.logged).length = n := by
    induction n with
    | zero => rfl
    | succ n ih =>
      rw [List.replicate_succ, List.flatMap_cons, List.length_append, ih (by omega)]
      exact Nat.add_comm 1 n
  have hfew : ([] : List Byte).length +
      ((List.replicate n (LogUse.putc c)).flatMap LogUse.logged).length < 2 ^ 31 := by
    rw [hlen]
    simpa using h
  have hrep := (Rep.init fun _ => 0).foldl_use hfew
  rwa [Stream.foldl_putc, List.nil_append] at hrep

/-- After 2 ^ 31 + 1 bytes the next byte goes to index -4095, and a read returns nothing although
4096 bytes are unread. -/
theorem index_negative :
    ∃ s, s = (List.replicate (2 ^ 31 + 1) (LogUse.putc 65)).foldl Logkeeper.use (.init fun _ => 0) ∧
      s.indices (.putc 65) = [-4095] ∧ (s.readsyslog (fun _ => true) 4096).1 = some [] := by
  have hrep := Logkeeper.rep_foldl_putc 65 (n := 2 ^ 31 - 1) (by decide)
  obtain ⟨N, hN⟩ : ∃ N : Nat, N = 2 ^ 31 - 1 := ⟨_, rfl⟩
  have hsucc : (2 ^ 31 + 1 : Nat) = N + 1 + 1 := by omega
  rw [← hN] at hrep
  rw [hsucc, List.replicate_succ', List.replicate_succ', List.foldl_append, List.foldl_append]
  have hlen : (Stream.mk (List.replicate N (65 : Byte)) 0).hist.length = 2 ^ 31 - 1 := by
    rw [List.length_replicate, hN]
  generalize (List.replicate N (LogUse.putc 65)).foldl Logkeeper.use (.init fun _ => 0) = s at *
  have hkept : (Stream.mk (List.replicate N (65 : Byte)) 0).kept = logBufSize := by
    rw [Stream.kept, hlen]
    rfl
  obtain ⟨hw, hr⟩ := hrep.putcLog_wraps hlen 65
  rw [if_pos hkept] at hr
  simp only [List.foldl_cons, List.foldl_nil, Logkeeper.use]
  refine ⟨_, rfl, ?_⟩
  generalize s.putcLog 65 = s₁ at *
  have hw₂ : (s₁.putcLog 65).w = -2 ^ 31 + 1 := by
    rw [Logkeeper.putcLog_w, hw]
    decide
  have hr₂ : (s₁.putcLog 65).r = 2 ^ 31 - 4095 := by
    rw [Logkeeper.putcLog_r, hw, hr]
    decide
  refine ⟨?_, Logkeeper.readsyslog_eq_nil (by rw [hw₂, hr₂]; decide) _ _⟩
  rw [Logkeeper.indices, hw₂]
  decide

end MiniOS
