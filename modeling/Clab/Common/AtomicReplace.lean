import Clab.Common.SafeIo

/-!
# A file replaced in one step

The loops write and read exactly what they are given. `safe_write_file` leaves the old
content or the new one wherever it is stopped, but for two slips: its early exit knows
only 80 bytes of the old content, and two names cut to `PATH_MAX` may be one.
-/

namespace Clab.Common.SafeIo

open Crash

/-! ## What is written -/

theorem overwrite_overwrite (c bs bs' : Bytes) (off : Nat) :
    overwrite (overwrite c off bs) (off + bs.length) bs' = overwrite c off (bs ++ bs') := by
  have hhead : (c.take off ++ List.replicate (off - c.length) 0 ++ bs).length
      = off + bs.length := by
    simp only [List.length_append, List.length_take, List.length_replicate]
    omega
  have hlength : off + bs.length - (overwrite c off bs).length = 0 := by
    unfold overwrite
    rw [List.length_append, hhead]
    omega
  unfold overwrite at hlength ⊢
  rw [hlength, List.take_append_of_le_length hhead.ge, List.take_of_length_le hhead.le,
    List.drop_append, List.drop_of_length_le (by omega), hhead, List.drop_drop]
  simp only [List.replicate_zero, List.append_nil, List.append_assoc, List.nil_append,
    List.length_append]
  congr 5
  omega

namespace Files

variable {fs : Files} {p q : Path} {off : Nat} {bs bs' : Bytes}

@[simp] theorem write_nil : fs.write p off [] = fs := by
  unfold write
  cases fs p <;> simp

theorem write_of_ne (hne : q ≠ p) : fs.write p off bs q = fs q := by
  unfold write
  cases hp : fs p with
  | none => rfl
  | some c =>
      by_cases hbs : bs = []
      · simp [hbs]
      · simp [hbs, hne]

/-- Two writes one behind the other are one. -/
theorem write_write :
    (fs.write p off bs).write p (off + bs.length) bs' = fs.write p off (bs ++ bs') := by
  by_cases hbs : bs = []
  · simp [hbs]
  · cases hp : fs p with
    | none => simp [write, hp]
    | some c =>
        by_cases hbs' : bs' = []
        · simp [hbs']
        · simp [write, hp, hbs, hbs', overwrite_overwrite c bs bs' off]

/-- An empty file holds what is written to its start. -/
theorem write_empty (hp : fs p = some []) : fs.write p 0 bs p = some bs := by
  by_cases hbs : bs = []
  · rw [hbs, write_nil, hp]
  · simp [write, hp, hbs, overwrite]

/-- A file that is long enough for it is named by its path. -/
theorem named_eq {name : Bytes} (hshort : name.length < PATH_MAX) :
    fs.named name = fs (snprintf name) := by
  have htake : name.take (PATH_MAX - 1) = name := List.take_of_length_le (by omega)
  rw [named, dif_pos hshort]
  congr 1
  simp only [snprintf, htake]

end Files

/-! ## The loops -/

/-- Nothing but `p` is changed. -/
def OnlyAt (p : Path) (fs₀ fs : Files) : Prop := ∀ q, q ≠ p → fs q = fs₀ q

theorem OnlyAt.write {p : Path} {fs₀ fs : Files} {off : Nat} {bs : Bytes} (h : OnlyAt p fs₀ fs) :
    OnlyAt p fs₀ (fs.write p off bs) := by
  intro q hq
  rw [Files.write_of_ne hq, h q hq]

/-- `retry_close` changes no file. -/
theorem retryClose_triple (P : Files → Prop) : Triple P retryClose (fun _ => P) P := by
  refine Triple.whileCalls (J := fun _ => P) ?_ (fun _ fs h => h) ?_ ()
  · intro _ fs a _ hnone
    exact absurd hnone (by simp)
  · intro o _ fs h _
    cases o with
    | fails e =>
        simp only
        split <;> exact h
    | through n => exact h

/-- What the write loop leaves: the bytes in order where it returns 0. -/
def Written (p : Path) (off : Nat) (buf : Bytes) (fs₀ : Files) (ret : Int) (fs : Files) : Prop :=
  ret = 0 ∧ fs = fs₀.write p off buf ∨ (∃ e : Errno, ret = e.code) ∧ OnlyAt p fs₀ fs

theorem writeLoop_triple (p : Path) (off : Nat) (buf : Bytes) (fs₀ : Files) :
    Triple (· = fs₀) (writeLoop p off buf) (Written p off buf fs₀) (OnlyAt p fs₀) := by
  unfold writeLoop
  -- what is left to write makes the file what it is to be
  refine (Triple.whileCalls (J := fun (todo : Bytes × Nat) fs =>
    fs.write p todo.2 todo.1 = fs₀.write p off buf ∧ OnlyAt p fs₀ fs) (Q := Written p off buf fs₀)
    ?_ (fun _ _ h => h.2) ?_ (buf, off)).mono (fun fs h => ?_) (fun _ _ h => h) fun _ h => h
  · rintro ⟨bs, at'⟩ fs ret ⟨hrest, _⟩ hdone
    simp only [writeDone, Option.ite_none_right_eq_some, Option.some.injEq] at hdone
    obtain ⟨rfl, rfl⟩ := hdone
    exact .inl ⟨rfl, by rw [← hrest, Files.write_nil]⟩
  · rintro o ⟨bs, at'⟩ fs ⟨hrest, honly⟩ _
    cases o with
    | fails e =>
        simp only [writeRound]
        split
        · exact ⟨hrest, honly⟩
        · exact .inr ⟨⟨e, rfl⟩, honly⟩
    | through n =>
        refine ⟨?_, honly.write⟩
        show (fs.write p at' (bs.take (n + 1))).write p (at' + (bs.take (n + 1)).length)
          (bs.drop (n + 1)) = _
        rw [Files.write_write, List.take_append_drop, hrest]
  · subst h
    exact ⟨rfl, fun q _ => rfl⟩

/-- What has been read so far, and what one more transfer adds to it. -/
theorem read_append (fs : Files) (p : Path) (off k n : Nat) :
    fs.read p off k ++ fs.read p (off + k) n = fs.read p off (k + n) := by
  simp only [Files.read]
  rw [List.take_add, List.drop_drop]

theorem read_length_le (fs : Files) (p : Path) (off n : Nat) : (fs.read p off n).length ≤ n :=
  List.length_take_le _ _

/-- Reading as many bytes as were read reads the same bytes. -/
theorem read_length_self (fs : Files) (p : Path) (off n : Nat) :
    fs.read p off (fs.read p off n).length = fs.read p off n := by
  simp only [Files.read, List.length_take]
  rw [← List.take_take, List.take_length]

/-- Where nothing comes behind what was read, it is all there is. -/
theorem read_end {fs : Files} {p : Path} {off k n m : Nat} (hend : fs.read p (off + k) n = [])
    (hn : 0 < n) : fs.read p off (k + m) = fs.read p off k := by
  have hdrop : ((fs p).getD []).drop (off + k) = [] := by
    rcases List.take_eq_nil_iff.mp hend with hzero | hnil
    · omega
    · exact hnil
  rw [← read_append, Files.read.eq_def fs p (off + k), hdrop, List.take_nil, List.append_nil]

/-- What the read loop leaves: all there is up to `count`, where it returns no error. -/
def Read (p : Path) (off count : Nat) (fs₀ : Files) (r : Int × Bytes) (fs : Files) : Prop :=
  fs = fs₀ ∧ ((∃ e : Errno, r.1 = e.code) ∨
    r = (((fs₀.read p off count).length : Int), fs₀.read p off count))

theorem readLoop_triple (p : Path) (off count : Nat) (fs₀ : Files) :
    Triple (· = fs₀) (readLoop p off count) (Read p off count fs₀) (· = fs₀) := by
  unfold readLoop
  refine (Triple.whileCalls (J := fun got fs =>
    fs = fs₀ ∧ got = fs₀.read p off got.length ∧ got.length ≤ count) (Q := Read p off count fs₀)
    ?_ (fun _ _ h => h.1) ?_ []).mono (fun fs h => ?_) (fun _ _ h => h) fun _ h => h
  · rintro got fs r ⟨rfl, hgot, hle⟩ hdone
    simp only [readDone, Option.ite_none_left_eq_some, not_lt, Option.some.injEq] at hdone
    obtain ⟨hge, rfl⟩ := hdone
    have hcount : got.length = count := le_antisymm hle hge
    rw [hcount] at hgot
    exact ⟨rfl, .inr (by rw [← hgot])⟩
  · rintro o got fs ⟨rfl, hgot, hle⟩ hmore
    have hlt : got.length < count := by
      by_contra hge
      simp [readDone, hge] at hmore
    cases o with
    | fails e =>
        simp only [readRound]
        split
        · exact ⟨rfl, hgot, hle⟩
        · exact ⟨rfl, .inl ⟨e, rfl⟩⟩
    | through n =>
        simp only [readRound]
        split
        case isTrue hend =>
          have hall : fs.read p off count = got := by
            have hsplit : got.length + (count - got.length) = count := by omega
            rw [← hsplit, read_end hend (by omega), ← hgot]
          exact ⟨rfl, .inr (by rw [hall])⟩
        case isFalse =>
          have hnext := read_length_le fs p (off + got.length) (min (n + 1) (count - got.length))
          have hself := read_length_self fs p (off + got.length) (min (n + 1) (count - got.length))
          generalize fs.read p (off + got.length) (min (n + 1) (count - got.length)) = r at *
          refine ⟨rfl, ?_, ?_⟩
          · rw [List.length_append, ← read_append, hself, ← hgot]
          · rw [List.length_append]
            omega
  · subst h
    exact ⟨rfl, by simp [Files.read], Nat.zero_le _⟩

/-! ## The new value -/

/-- The early exit takes the file for unchanged, or compares more than it read. -/
def Mistaken (old : Option Bytes) (val : Bytes) : Prop :=
  val.length = 80 ∧ (∃ c, old = some c ∧ 80 < c.length ∧ c.take 80 = val) ∨
    80 < val.length ∧ (-4095 ≤ Int.bmod val.length (2 ^ 32) ∧ Int.bmod val.length (2 ^ 32) < 0 ∨
      ∃ c, old = some c ∧ Int.bmod val.length (2 ^ 32) = (min 80 c.length : Nat))

/-- What `safe_read_file` makes of the first 80 bytes. -/
def FirstRead (p : Path) (fs₀ : Files) (r : Int × Bytes) (fs : Files) : Prop :=
  fs = fs₀ ∧ ((∃ e : Errno, r.1 = e.code) ∨
    ∃ c, fs₀ p = some c ∧ r = (((min 80 c.length : Nat) : Int), c.take 80))

theorem Errno.bmod_code (e : Errno) : Int.bmod e.code (2 ^ 32) = e.code := by
  have hpos := e.pos
  have hle := e.le
  unfold Errno.code
  rw [Int.bmod_def]
  omega

theorem bmod_of_le {n : Nat} (hn : n ≤ 80) : Int.bmod n (2 ^ 32) = n := by
  rw [Int.bmod_def]
  omega

theorem safeReadFile_triple (base file : Bytes) (fs₀ : Files) :
    Triple (· = fs₀) (safeReadFile base file 80) (FirstRead (snprintf (joined base file)) fs₀)
      (· = fs₀) := by
  unfold safeReadFile
  refine Triple.bind (Q := fun r fs => fs = fs₀ ∧ (r = .ok () → ∃ c,
    fs₀ (snprintf (joined base file)) = some c)) (Triple.call (fun _ h => h) ?_) fun r => ?_
  · rintro o fs rfl
    cases o with
    | fails e => exact ⟨rfl, fun h => absurd h (by simp)⟩
    | through n =>
        refine ⟨rfl, fun h => Option.ne_none_iff_exists'.mp fun hnone => ?_⟩
        simp [hnone] at h
  · cases r with
    | error e => exact Triple.ret fun fs h => ⟨h.1, .inl ⟨e, rfl⟩⟩
    | ok u =>
        refine Triple.assuming (fun fs h => h.2 rfl) fun ⟨c, hc⟩ => ?_
        refine Triple.bind ((readLoop_triple _ 0 80 fs₀).mono (fun _ h => h.1) (fun _ _ h => h)
          fun _ h => h) fun ⟨len, got⟩ => ?_
        refine Triple.bind ((retryClose_triple (Read _ 0 80 fs₀ (len, got))).mono (fun _ h => h)
          (fun _ _ h => h) fun _ h => h.1) fun _ => Triple.ret fun fs h => ?_
        obtain ⟨rfl, ⟨e, he⟩ | hread⟩ := h
        · obtain rfl : len = e.code := he
          exact ⟨rfl, .inl ⟨e, e.bmod_code⟩⟩
        · obtain ⟨rfl, rfl⟩ := Prod.mk.inj hread
          have htake : fs.read (snprintf (joined base file)) 0 80 = c.take 80 := by
            simp [Files.read, hc]
          refine ⟨rfl, .inr ⟨c, hc, ?_⟩⟩
          rw [htake, List.length_take, bmod_of_le (Nat.min_le_left 80 _)]

/-- The early exit is taken for a file that holds the value already. -/
theorem unchanged_triple {p : Path} {fs₀ : Files} {val : Bytes} {ret : Int} {oldval : Bytes}
    (hnot : ¬ Mistaken (fs₀ p) val) :
    Triple (FirstRead p fs₀ (ret, oldval)) (unchanged ret oldval val)
      (fun same fs => fs = fs₀ ∧ (same = true → fs₀ p = some val)) (· = fs₀) := by
  unfold unchanged
  split
  case isFalse => exact Triple.ret fun fs h => ⟨h.1, fun hfalse => absurd hfalse (by simp)⟩
  case isTrue hret =>
    refine Triple.assuming (fun fs h => h.2) fun hread => ?_
    unfold sameAs
    split
    case isTrue hlong =>
      refine absurd (.inr ⟨hlong, ?_⟩) hnot
      rcases hread with ⟨e, he⟩ | ⟨c, hc, hread⟩
      · obtain rfl : ret = e.code := he
        have hneg := e.code_neg
        have hle := e.le
        refine .inl ⟨?_, by omega⟩
        rw [← hret]
        unfold Errno.code
        omega
      · refine .inr ⟨c, hc, ?_⟩
        rw [← hret, (Prod.mk.inj hread).1]
    case isFalse hshort =>
      rw [bmod_of_le (not_lt.mp hshort)] at hret
      rcases hread with ⟨e, he⟩ | ⟨c, hc, hread⟩
      · obtain rfl : ret = e.code := he
        have hneg := e.code_neg
        omega
      · obtain ⟨rfl, rfl⟩ := Prod.mk.inj hread
        refine Triple.ret fun fs h => ⟨h.1, fun hsame => ?_⟩
        have hlength : val.length = min 80 c.length := by omega
        have hsame := of_decide_eq_true hsame
        rw [List.take_take, hlength, min_eq_left (Nat.min_le_left 80 _)] at hsame
        rw [hc]
        -- a file that is longer than what was compared would be mistaken for the value
        by_cases hmore : 80 < c.length
        · rw [min_eq_left hmore.le] at hsame
          exact absurd (.inl ⟨by omega, c, hc, hmore, hsame⟩) hnot
        · rw [min_eq_right (not_lt.mp hmore), List.take_length] at hsame
          rw [hsame]

/-- What `safe_write_file` leaves up to its `rename`. -/
def Replaced (p : Path) (old : Option Bytes) (val : Bytes) : Option Int → Files → Prop
  | some ret, fs => fs p = old ∧ (ret = 0 → fs p = some val)
  | none, fs => fs p = some val

theorem Replaced.failed {p : Path} {old : Option Bytes} {val : Bytes} {fs : Files} (e : Errno)
    (h : fs p = old) : Replaced p old val (some e.code) fs :=
  ⟨h, fun hzero => absurd hzero (ne_of_lt e.code_neg)⟩

/-- A call on another file than `p`. -/
theorem unlink_triple {p q : Path} (hne : p ≠ q) (old : Option Bytes) :
    Triple (fun fs => fs p = old) (unlink q) (fun _ fs => fs p = old) (fun fs => fs p = old) := by
  refine Triple.call (fun _ h => h) fun o fs h => ?_
  cases o with
  | fails e => exact h
  | through n => exact (Function.update_of_ne hne _ _).trans h

theorem plain_triple (P : Files → Prop) : Triple P plain (fun _ => P) P := by
  refine Triple.call (fun _ h => h) fun o fs h => ?_
  cases o <;> exact h

/-- The temporary file is written, and `p` is not. -/
theorem writeTmp_triple {p tmp : Path} (hne : p ≠ tmp) (old : Option Bytes) (val : Bytes) :
    Triple (fun fs => fs p = old ∧ fs tmp = some []) (safeWrite ⟨tmp, 0⟩ val)
      (fun ret fs => fs p = old ∧ (ret = 0 ∧ fs tmp = some val ∨ ∃ e : Errno, ret = e.code))
      (fun fs => fs p = old) := by
  refine Triple.pointwise fun fs₀ ⟨hold, hempty⟩ => (writeLoop_triple tmp 0 val fs₀).mono
    (fun _ h => h) (fun ret fs h => ?_) fun fs h => (h p hne).trans hold
  rcases h with ⟨hret, rfl⟩ | ⟨he, honly⟩
  · exact ⟨(Files.write_of_ne hne).trans hold, .inl ⟨hret, Files.write_empty hempty⟩⟩
  · exact ⟨(honly p hne).trans hold, .inr he⟩

/-- The `rename` puts the value in place, and nothing before it touches the file. -/
theorem putInPlace_triple {p tmp : Path} (hne : p ≠ tmp) (old : Option Bytes) (val : Bytes) :
    Triple (fun fs => fs p = old ∧ fs tmp = some val) (putInPlace tmp p) (Replaced p old val)
      (fun fs => fs p = old) := by
  have hunlink : ∀ e : Errno, Triple (fun fs => fs p = old)
      (do let _ ← unlink tmp; pure (some e.code)) (Replaced p old val) (fun fs => fs p = old) :=
    fun e => Triple.bind (unlink_triple hne old) fun _ => Triple.ret fun _ h => Replaced.failed e h
  unfold putInPlace
  refine Triple.bind ((plain_triple _).mono (fun _ h => h) (fun _ _ h => h) fun _ h => h.1)
    fun synced => ?_
  refine Triple.bind ((retryClose_triple _).mono (fun _ h => h) (fun _ _ h => h) fun _ h => h.1)
    fun _ => ?_
  cases synced with
  | error e => exact (hunlink e).mono (fun _ h => h.1) (fun _ _ h => h) fun _ h => h
  | ok u =>
      refine Triple.bind (Q := fun r fs => (r = .ok () → fs p = some val) ∧
        ∀ e, r = .error e → fs p = old) (Triple.call (fun _ h => h.1) ?_) fun r => ?_
      · rintro o fs ⟨hold, htmp⟩
        cases o with
        | fails e => exact ⟨fun h => absurd h (by simp), fun _ _ => hold⟩
        | through n => simp [htmp]
      · cases r with
        | error e => exact (hunlink e).mono (fun _ h => h.2 e rfl) (fun _ _ h => h) fun _ h => h
        | ok u => exact Triple.ret fun _ h => h.1 rfl

/-- The file is not touched before the `rename`, and holds the value behind it. -/
theorem replaceFile_triple {base file val : Bytes} {fs₀ : Files}
    (hne : snprintf (joined base file) ≠ snprintf (joined base file ++ tmpSuffix))
    (hnot : ¬ Mistaken (fs₀ (snprintf (joined base file))) val) :
    Triple (· = fs₀) (replaceFile base file val)
      (Replaced (snprintf (joined base file)) (fs₀ (snprintf (joined base file))) val)
      (fun fs => fs (snprintf (joined base file)) = fs₀ (snprintf (joined base file))) := by
  have hsame : ∀ fs : Files, fs = fs₀ →
      fs (snprintf (joined base file)) = fs₀ (snprintf (joined base file)) := fun fs h => by rw [h]
  unfold replaceFile
  refine Triple.bind ((safeReadFile_triple base file fs₀).mono (fun _ h => h) (fun _ _ h => h)
    hsame) fun ⟨ret, oldval⟩ => ?_
  refine Triple.bind ((unchanged_triple hnot).mono (fun _ h => h) (fun _ _ h => h) hsame)
    fun same => ?_
  cases same with
  | true => exact Triple.ret fun fs h => ⟨hsame fs h.1, fun _ => (hsame fs h.1).trans (h.2 rfl)⟩
  | false =>
      simp only [Bool.false_eq_true, if_false]
      generalize snprintf (joined base file) = fn at *
      generalize snprintf (joined base file ++ tmpSuffix) = tmp at *
      refine Triple.bind (Q := fun r fs => fs fn = fs₀ fn ∧ (r = .ok () → fs tmp = some []))
        (Triple.call (fun fs h => hsame fs h.1) ?_) fun r => ?_
      · rintro o fs ⟨rfl, -⟩
        cases o with
        | fails e => exact ⟨rfl, fun h => absurd h (by simp)⟩
        | through n =>
            exact ⟨Function.update_of_ne hne _ _, fun _ => Function.update_self _ _ _⟩
      · cases r with
        | error e => exact Triple.ret fun fs h => Replaced.failed e h.1
        | ok u =>
            refine Triple.bind ((writeTmp_triple hne (fs₀ fn) val).mono (fun _ h => ⟨h.1, h.2 rfl⟩)
              (fun _ _ h => h) fun _ h => h) fun ret => ?_
            by_cases hret : ret = 0
            · rw [if_neg (not_not.mpr hret)]
              refine (putInPlace_triple hne (fs₀ fn) val).mono (fun fs h => ⟨h.1, ?_⟩)
                (fun _ _ h => h) fun _ h => h
              rcases h.2 with ⟨-, hval⟩ | ⟨e, rfl⟩
              · exact hval
              · exact absurd hret (ne_of_lt e.code_neg)
            · rw [if_pos hret]
              refine Triple.bind ((retryClose_triple _).mono (fun _ h => h) (fun _ _ h => h)
                fun _ h => h.1) fun _ => Triple.ret fun fs h => ⟨h.1, fun hzero => absurd hzero hret⟩

/-- Behind the `rename` no file changes. -/
theorem syncDirectory_triple (base : Bytes) (P : Files → Prop) :
    Triple P (syncDirectory base) (fun _ => P) P := by
  unfold syncDirectory
  refine Triple.bind (plain_triple P) fun r => ?_
  cases r with
  | error e => exact Triple.ret fun _ h => h
  | ok u =>
      refine Triple.bind (plain_triple P) fun synced => Triple.bind (retryClose_triple P) fun _ => ?_
      cases synced <;> exact Triple.ret fun _ h => h

/-! ## The promise -/

/-- What a caller of `safe_write_file` is promised, however its calls are answered. -/
structure ReplacesAtomically (base file val : Bytes) (fs : Files) : Prop where
  defined : ∀ os, safeWriteFile base file val os fs ≠ .undefined
  written : ∀ os rest fs', safeWriteFile base file val os fs = .returned 0 rest fs' →
    fs'.named (joined base file) = some val
  kept : ∀ os rest fs' ret, replaceFile base file val os fs = .returned (some ret) rest fs' →
    ret ≠ 0 → fs'.named (joined base file) = fs.named (joined base file)
  between : ∀ os fs', (safeWriteFile base file val os fs).state? = some fs' →
    fs'.named (joined base file) = fs.named (joined base file) ∨
      fs'.named (joined base file) = some val

theorem tmp_ne {name : Bytes} (hshort : name.length + 1 < PATH_MAX) :
    snprintf name ≠ snprintf (name ++ tmpSuffix) := by
  intro heq
  have hlength := congrArg (fun p : Path => p.text.length) heq
  simp only [snprintf, List.length_take, List.length_append, tmpSuffix, List.length_cons,
    List.length_nil] at hlength
  have : PATH_MAX = 4096 := rfl
  omega

theorem replacesAtomically {base file val : Bytes} {fs₀ : Files}
    (hshort : (joined base file).length + 1 < PATH_MAX)
    (hnot : ¬ Mistaken (fs₀.named (joined base file)) val) :
    ReplacesAtomically base file val fs₀ := by
  have hnamed : ∀ fs : Files, fs.named (joined base file) = fs (snprintf (joined base file)) :=
    fun fs => Files.named_eq (by omega)
  rw [hnamed] at hnot
  have hreplace := replaceFile_triple (tmp_ne hshort) hnot
  generalize hfn : snprintf (joined base file) = fn at *
  have hwhole : Triple (· = fs₀) (safeWriteFile base file val)
      (fun ret fs => (ret = 0 → fs fn = some val) ∧ (fs fn = fs₀ fn ∨ fs fn = some val))
      (fun fs => fs fn = fs₀ fn ∨ fs fn = some val) := by
    unfold safeWriteFile
    refine Triple.bind (hreplace.mono (fun _ h => h) (fun _ _ h => h) fun _ h => .inl h)
      fun r => ?_
    cases r with
    | some ret => exact Triple.ret fun fs h => ⟨h.2, .inl h.1⟩
    | none =>
        exact (syncDirectory_triple base fun fs => fs fn = some val).mono (fun _ h => h)
          (fun _ _ h => ⟨fun _ => h, .inr h⟩) fun _ h => .inr h
  refine ⟨fun os => hwhole.not_undefined rfl, fun os rest fs' hrun => ?_,
    fun os rest fs' ret hrun hret => ?_, fun os fs' hrun => ?_⟩
  · rw [hnamed]
    exact (hwhole.of_returned rfl hrun).1 rfl
  · rw [hnamed, hnamed]
    exact (hreplace.of_returned rfl hrun).1
  · rw [hnamed, hnamed]
    exact (hwhole.mono (fun _ h => h) (fun _ _ h => h.2) fun _ h => h).of_state rfl hrun

/-! ## Where the promise is broken -/

/-- A write that gets through at once. -/
theorem safeWrite_through (p : Path) (val : Bytes) :
    ∃ ws, ∀ rest fs,
      safeWrite ⟨p, 0⟩ val (ws ++ rest) fs = .returned 0 rest (fs.write p 0 val) := by
  unfold safeWrite writeLoop
  by_cases hval : val = []
  · refine ⟨[], fun rest fs => ?_⟩
    rw [hval, Files.write_nil]
    exact Calls.whileCalls_done rfl
  · refine ⟨[.through (val.length - 1)], fun rest fs => ?_⟩
    have hpos : val.length - 1 + 1 = val.length := by
      have := List.length_pos_iff.mpr hval
      omega
    have hround : writeRound p (.through (val.length - 1)) (val, 0) fs
        = (.inl ([], 0 + val.length), fs.write p 0 val) := by
      simp [writeRound, hpos]
    have hmore : writeDone (val, 0) = none := if_neg hval
    exact (Calls.whileCalls_next hmore hround).trans (Calls.whileCalls_done rfl)

/-- A read that gets through at once. -/
theorem safeRead_through {p : Path} {fs : Files} {c : Bytes} (hc : fs p = some c) :
    ∃ rs, ∀ rest, safeRead ⟨p, 0⟩ 80 (rs ++ rest) fs
      = .returned (((min 80 c.length : Nat) : Int), c.take 80) rest fs := by
  have hread : ∀ off n, fs.read p off n = (c.drop off).take n := by simp [Files.read, hc]
  have hfirst : c ≠ [] → readRound p 0 80 (.through 79) [] fs = (.inl (c.take 80), fs) := by
    intro hne
    simp [readRound, hread, hne]
  have hmore : readDone 80 [] = none := if_pos (by decide)
  unfold safeRead readLoop
  by_cases hlong : 80 ≤ c.length
  · have hdone : readDone 80 (c.take 80) = some (((min 80 c.length : Nat) : Int), c.take 80) := by
      rw [readDone, List.length_take, if_neg (by omega)]
    exact ⟨[.through 79], fun rest => (Calls.whileCalls_next hmore
      (hfirst (List.ne_nil_of_length_pos (by omega)))).trans (Calls.whileCalls_done hdone)⟩
  · have htake : c.take 80 = c := List.take_of_length_le (by omega)
    have hmin : min 80 c.length = c.length := by omega
    have hlast : readRound p 0 80 (.through 0) c fs = (.inr ((c.length : Int), c), fs) := by
      simp [readRound, hread]
    rw [hmin, htake]
    rw [htake] at hfirst
    by_cases hne : c = []
    · subst hne
      exact ⟨[.through 0], fun rest => Calls.whileCalls_last hmore hlast⟩
    · have hmore' : readDone 80 c = none := if_pos (by omega)
      exact ⟨[.through 79, .through 0], fun rest => (Calls.whileCalls_next hmore
        (hfirst hne)).trans (Calls.whileCalls_last hmore' hlast)⟩

/-- Closing at once. -/
theorem retryClose_through (rest : List Answer) (fs : Files) :
    retryClose (.through 0 :: rest) fs = .returned () rest fs := rfl

theorem safeReadFile_through {base file : Bytes} {fs : Files} {c : Bytes}
    (hc : fs (snprintf (joined base file)) = some c) :
    ∃ rs, ∀ rest, safeReadFile base file 80 (rs ++ rest) fs
      = .returned (((min 80 c.length : Nat) : Int), c.take 80) rest fs := by
  obtain ⟨rs, hrs⟩ := safeRead_through hc
  refine ⟨.through 0 :: (rs ++ [.through 0]), fun rest => ?_⟩
  unfold safeReadFile
  have hopen : openRead (snprintf (joined base file)) (.through 0 :: (rs ++ [.through 0]) ++ rest) fs
      = .returned (.ok ()) (rs ++ (.through 0 :: rest)) fs := by
    simp [openRead, hc]
  rw [Calls.bind_returned hopen]
  simp only
  rw [Calls.bind_returned (hrs _)]
  simp only
  rw [Calls.bind_returned (retryClose_through rest fs), Calls.pure_run,
    bmod_of_le (Nat.min_le_left 80 _)]

theorem safeReadFile_fails (base file : Bytes) (e : Errno) (rest : List Answer) (fs : Files) :
    safeReadFile base file 80 (.fails e :: rest) fs = .returned (e.code, []) rest fs := rfl

/-- A run in which the old file is not looked at comes to its `fsync`. -/
theorem replaceFile_through (base file val : Bytes) :
    ∃ os, ∀ rest fs, replaceFile base file val (os ++ rest) fs
      = putInPlace (snprintf (joined base file ++ tmpSuffix)) (snprintf (joined base file)) rest
          (Files.write (Function.update fs (snprintf (joined base file ++ tmpSuffix)) (some []))
            (snprintf (joined base file ++ tmpSuffix)) 0 val) := by
  obtain ⟨e, he⟩ : ∃ e : Errno, e.code ≠ Int.bmod val.length (2 ^ 32) := by
    by_cases h : ENOSPC.code = Int.bmod val.length (2 ^ 32)
    · exact ⟨EACCES, by rw [← h]; decide⟩
    · exact ⟨ENOSPC, h⟩
  obtain ⟨ws, hws⟩ := safeWrite_through (snprintf (joined base file ++ tmpSuffix)) val
  refine ⟨.fails e :: .through 0 :: ws, fun rest fs => ?_⟩
  unfold replaceFile
  rw [List.cons_append, Calls.bind_returned (safeReadFile_fails base file e _ fs)]
  simp only
  have hsame : unchanged e.code [] val (.through 0 :: ws ++ rest) fs
      = .returned false (.through 0 :: ws ++ rest) fs := by
    rw [unchanged, if_neg he, Calls.pure_run]
  rw [Calls.bind_returned hsame]
  simp only [Bool.false_eq_true, if_false]
  generalize snprintf (joined base file ++ tmpSuffix) = tmp at *
  have hopen : openTrunc tmp (.through 0 :: ws ++ rest) fs
      = .returned (.ok ()) (ws ++ rest) (Function.update fs tmp (some [])) := rfl
  rw [Calls.bind_returned hopen]
  simp only
  rw [Calls.bind_returned (hws _ _)]
  simp

/-- A run that fails at its `fsync`, and what the `unlink` behind it leaves. -/
theorem putInPlace_fails (tmp fn : Path) (o : Answer) (fs : Files) :
    putInPlace tmp fn [.fails ENOSPC, .through 0, o] fs
      = .returned (some ENOSPC.code) [] (match o with
          | .fails _ => fs
          | .through _ => Function.update fs tmp none) := by
  cases o <;> rfl

/-- A run in which everything gets through. -/
theorem putInPlace_through {tmp fn : Path} {fs : Files} {val : Bytes} (hval : fs tmp = some val)
    (rest : List Answer) :
    putInPlace tmp fn (.through 0 :: .through 0 :: .through 0 :: rest) fs
      = .returned none rest (Function.update (Function.update fs tmp none) fn (some val)) := by
  have hrename : rename tmp fn (.through 0 :: rest) fs = .returned (.ok ()) rest
      (Function.update (Function.update fs tmp none) fn (some val)) := by
    simp [rename, hval]
  unfold putInPlace
  rw [Calls.bind_returned (show fsync (.through 0 :: _) fs = .returned (.ok ()) _ fs from rfl),
    Calls.bind_returned (retryClose_through _ fs)]
  simp only
  rw [Calls.bind_returned hrename]
  rfl

/-- The name of the temporary file cut to that of the file: a failure takes the file away, or
leaves the value in its place. -/
theorem not_replacesAtomically_of_cut {base file val : Bytes} {fs : Files}
    (hlength : (joined base file).length + 1 = PATH_MAX) :
    ¬ ReplacesAtomically base file val fs := by
  intro hatomic
  have hnamed : ∀ fs : Files, fs.named (joined base file) = fs (snprintf (joined base file)) :=
    fun fs => Files.named_eq (by omega)
  have htmp : snprintf (joined base file ++ tmpSuffix) = snprintf (joined base file) := by
    simp only [snprintf, Path.mk.injEq]
    rw [List.take_append_of_le_length (by omega)]
  obtain ⟨os, hos⟩ := replaceFile_through base file val
  rw [htmp] at hos
  generalize hfn : snprintf (joined base file) = fn at *
  have hrun : ∀ o : Answer, replaceFile base file val (os ++ [.fails ENOSPC, .through 0, o]) fs = _ :=
    fun o => (hos _ fs).trans (putInPlace_fails fn fn o _)
  have hkept : ∀ o : Answer, _ := fun o => hatomic.kept _ _ _ _ (hrun o) (ne_of_lt ENOSPC.code_neg)
  have hgone := hkept (.through 0)
  have hleft := hkept (.fails ENOSPC)
  simp only [hnamed, Function.update_self] at hgone hleft
  rw [← hgone, Files.write_empty (Function.update_self _ _ _)] at hleft
  exact absurd hleft (by simp)

/-- The directory opened, synced and closed. -/
theorem safeWriteFile_through {base file val : Bytes} {os rest : List Answer} {fs fs' : Files}
    (hreplace : replaceFile base file val os fs
      = .returned none (.through 0 :: .through 0 :: .through 0 :: rest) fs') :
    safeWriteFile base file val os fs = .returned 0 rest fs' := by
  unfold safeWriteFile
  rw [Calls.bind_returned hreplace]
  rfl

/-- A name that is too long for a path: the value goes to another file. -/
theorem not_replacesAtomically_of_long {base file val : Bytes} {fs : Files}
    (hlength : PATH_MAX ≤ (joined base file).length) : ¬ ReplacesAtomically base file val fs := by
  intro hatomic
  obtain ⟨os, hos⟩ := replaceFile_through base file val
  have hreplace := (hos [.through 0, .through 0, .through 0, .through 0, .through 0, .through 0]
    fs).trans (putInPlace_through (Files.write_empty (Function.update_self _ _ _)) _)
  have hwritten := hatomic.written _ _ _ (safeWriteFile_through hreplace)
  rw [Files.named, dif_neg (not_lt.mpr hlength)] at hwritten
  exact absurd hwritten (by simp)

/-- The early exit taken for another file. -/
theorem safeWriteFile_same {base file val c : Bytes} {fs : Files} (hval : val.length = 80)
    (hc : fs (snprintf (joined base file)) = some c) (hlong : 80 < c.length)
    (hsame : c.take 80 = val) :
    ∃ os, safeWriteFile base file val os fs = .returned 0 [] fs := by
  obtain ⟨rs, hrs⟩ := safeReadFile_through hc
  have hunchanged : unchanged (min 80 c.length : Nat) (c.take 80) val [] fs
      = .returned true [] fs := by
    rw [unchanged, hval, min_eq_left hlong.le, bmod_of_le le_rfl, if_pos rfl, sameAs,
      if_neg (by omega), hval, List.take_take, min_self, hsame]
    simp
  have hreplace : replaceFile base file val (rs ++ []) fs = .returned (some 0) [] fs := by
    unfold replaceFile
    rw [Calls.bind_returned (hrs [])]
    simp only
    rw [Calls.bind_returned hunchanged]
    rfl
  refine ⟨rs ++ [], ?_⟩
  unfold safeWriteFile
  rw [Calls.bind_returned hreplace]
  rfl

/-- A comparison that runs past what was read. -/
theorem safeWriteFile_undefined {base file val oldval : Bytes} {os rest : List Answer}
    {fs fs' : Files} (hval : 80 < val.length)
    (hread : safeReadFile base file 80 os fs
      = .returned (Int.bmod val.length (2 ^ 32), oldval) rest fs') :
    safeWriteFile base file val os fs = .undefined := by
  have hunchanged : unchanged (Int.bmod val.length (2 ^ 32)) oldval val rest fs' = .undefined := by
    rw [unchanged, if_pos rfl, sameAs, if_pos hval]
    rfl
  have hreplace : replaceFile base file val os fs = .undefined := by
    unfold replaceFile
    rw [Calls.bind_returned hread]
    exact Calls.bind_undefined hunchanged
  exact Calls.bind_undefined hreplace

theorem exists_code {x : Int} (hle : -4095 ≤ x) (hneg : x < 0) : ∃ e : Errno, e.code = x := by
  refine ⟨⟨(-x).toNat, by omega, by omega⟩, ?_⟩
  show -((-x).toNat : Int) = x
  omega

theorem not_replacesAtomically_of_mistaken {base file val : Bytes} {fs : Files}
    (hshort : (joined base file).length + 1 < PATH_MAX)
    (hmistaken : Mistaken (fs.named (joined base file)) val) :
    ¬ ReplacesAtomically base file val fs := by
  intro hatomic
  rw [Files.named_eq (by omega)] at hmistaken
  rcases hmistaken with ⟨hval, c, hc, hlong, hsame⟩ | ⟨hval, ⟨hle, hneg⟩ | ⟨c, hc, hlength⟩⟩
  · obtain ⟨os, hos⟩ := safeWriteFile_same hval hc hlong hsame
    have hwritten := hatomic.written _ _ _ hos
    rw [Files.named_eq (by omega), hc, Option.some.injEq] at hwritten
    rw [hwritten] at hlong
    omega
  · -- the failure that reads as the length of the value
    obtain ⟨e, he⟩ := exists_code hle hneg
    exact hatomic.defined [.fails e] (safeWriteFile_undefined hval (he ▸
      safeReadFile_fails base file e [] fs))
  · obtain ⟨rs, hrs⟩ := safeReadFile_through hc
    exact hatomic.defined (rs ++ []) (safeWriteFile_undefined hval (hlength ▸ hrs []))

theorem replacesAtomically_iff (base file val : Bytes) (fs : Files) :
    ReplacesAtomically base file val fs ↔
      (joined base file).length + 1 < PATH_MAX ∧ ¬ Mistaken (fs.named (joined base file)) val := by
  constructor
  · intro hatomic
    have hshort : (joined base file).length + 1 < PATH_MAX := by
      by_contra hlong
      rcases Nat.lt_or_eq_of_le (not_lt.mp hlong) with hlt | heq
      · exact not_replacesAtomically_of_long (Nat.le_of_lt_succ hlt) hatomic
      · exact not_replacesAtomically_of_cut heq.symm hatomic
    exact ⟨hshort, fun hmistaken => not_replacesAtomically_of_mistaken hshort hmistaken hatomic⟩
  · rintro ⟨hshort, hnot⟩
    exact replacesAtomically hshort hnot

/-- `safe_write` and `safe_pwrite` have written the bytes in order where they return 0. -/
def WritesWhole : Prop :=
  ∀ os rest fs fs', (∀ fd buf, safeWrite fd buf os fs = .returned 0 rest fs' →
      fs' = fs.write fd.path fd.pos buf) ∧
    ∀ p buf off, safePwrite p buf off os fs = .returned 0 rest fs' → fs' = fs.write p off buf

theorem writesWhole : WritesWhole := by
  have hloop : ∀ os rest fs fs' p off buf,
      writeLoop p off buf os fs = .returned 0 rest fs' → fs' = fs.write p off buf := by
    intro os rest fs fs' p off buf hrun
    rcases (writeLoop_triple p off buf fs).of_returned rfl hrun with ⟨-, hwritten⟩ | ⟨⟨e, he⟩, -⟩
    · exact hwritten
    · have hneg := e.code_neg
      omega
  exact fun os rest fs fs' => ⟨fun fd buf => hloop os rest fs fs' fd.path fd.pos buf,
    fun p buf off => hloop os rest fs fs' p off buf⟩

/-- **A file is replaced in one step exactly where its name leaves room for another and its first
80 bytes are not mistaken for the value**; what the loops write they write whole. -/
theorem safeWriteFile_atomic_iff (base file val : Bytes) (fs : Files) :
    ReplacesAtomically base file val fs ∧ WritesWhole ↔
      (joined base file).length + 1 < PATH_MAX ∧ ¬ Mistaken (fs.named (joined base file)) val :=
  (and_iff_left writesWhole).trans (replacesAtomically_iff base file val fs)

/-- 80 bytes are not written over 81 that start with them. -/
theorem not_safeWriteFile_atomic :
    ¬ ∀ (base file val : Bytes) (fs : Files), ReplacesAtomically base file val fs ∧ WritesWhole := by
  intro hclaim
  have hatomic := (hclaim [100] [102] (List.replicate 80 97)
    (fun _ => some (List.replicate 81 97))).1
  refine ((replacesAtomically_iff _ _ _ _).mp hatomic).2 (.inl ⟨by decide, _, rfl, by decide, ?_⟩)
  decide

end Clab.Common.SafeIo
