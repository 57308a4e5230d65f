/-
# What packing writes when the buffer is too small

The size macros take a length of 0 for no limit, and the number 8256 is packed into two bytes
after a check for one.  So a field that does not fit is refused only if there is a byte left and
a few cases do not arise; otherwise it is written over the end of the buffer.
-/
import WiredTiger.Pack.Fields

namespace WiredTiger

open Lib List Nat Code

variable {r : ℕ}

/-- A number whose packed form does not fit is refused if `r` bytes are left. -/
def UintRefused (x r : ℕ) : Prop := r ≠ 0 ∧ ¬ (x = pos2ByteMax + 1 ∧ r = 1)

/-- A field that does not fit is refused if `r` bytes are left. -/
def Refused (pv : PackValue) (u : Arg) (r : ℕ) : Prop :=
  match pv.type, u with
  | .U, .item data =>
    let (s, pad) := itemSizes pv data.length
    UintRefused (s + pad) r ∧ r ≠ vsizeUint (s + pad)
  | .h, .int x | .i, .int x | .l, .int x | .q, .int x => UintRefused x.toNat r
  | .H, .uint x | .I, .uint x | .L, .uint x | .Q, .uint x | .r, .uint x => UintRefused x r
  | _, _ => r ≠ 0

/-- The fields fit into `r` bytes, or the first that does not is refused. -/
def PackRoom : ℕ → List PackValue → List Arg → Prop
  | _, [], _ => True
  | r, pv :: pvs, args =>
    match packGet pv args with
    | none => True
    | some (u, args) =>
      if packSize pv u ≤ r then PackRoom (r - packSize pv u) pvs args else Refused pv u r

/-! ### Numbers -/

lemma not_sizeFails_zero (n : ℕ) : ¬ sizeFails n 0 := fun h => h.1 rfl

lemma sizeFails_of_lt {n : ℕ} (h0 : r ≠ 0) (h : r < n) : sizeFails n r := ⟨h0, h⟩

/-- A number that is refused leaves at most its marker. -/
lemma vpackUint_refused {x : ℕ} (hlt : r < vsizeUint x) (h : UintRefused x r) :
    (vpackUint r x).err = some .enomem ∧ (vpackUint r x).bytes.length ≤ r := by
  obtain ⟨h0, hspecial⟩ := h
  have hv := @vsizeUint_eq x
  have hr : 1 ≤ r := one_le_iff_ne_zero.mpr h0
  rw [vpackUint, if_neg (not_sizeFails_of_le hr)]
  rcases le_or_gt x 63 with h1 | h1
  · rw [hv, codeUint_one h1] at hlt
    dsimp only at hlt
    omega
  · rw [if_neg (not_le_pos1ByteMax h1)]
    rcases le_or_gt x 8255 with h2 | h2
    · rw [hv, codeUint_two h1 h2] at hlt
      rw [if_pos (show x ≤ pos2ByteMax from h2), if_pos (sizeFails_of_lt h0 hlt)]
      exact ⟨rfl, zero_le _⟩
    · rw [if_neg (not_le_pos2ByteMax h2)]
      by_cases h3 : x = pos2ByteMax + 1
      · subst h3
        have : vsizeUint (pos2ByteMax + 1) = 2 := rfl
        exact absurd ⟨rfl, by omega⟩ hspecial
      · have h3' : x ≠ 8256 := h3
        rw [hv, codeUint_multi h2, one_le_of_ne_zero (by omega)] at hlt
        have hf : sizeFails (8 - leadingZeros (x - (pos2ByteMax + 1)) + 1) r :=
          sizeFails_of_lt h0 hlt
        rw [if_neg h3, vpackPosint, if_pos hf]
        exact ⟨rfl, hr⟩

lemma vpackInt_refused {x : ℤ} (hx : x < 2 ^ 63) (hlt : r < vsizeInt x)
    (h : UintRefused x.toNat r) :
    (vpackInt r x).err = some .enomem ∧ (vpackInt r x).bytes.length ≤ r := by
  have h0 := h.1
  have hv := @vsizeInt_eq x
  have hr : 1 ≤ r := one_le_iff_ne_zero.mpr h0
  rw [vpackInt, if_neg (not_sizeFails_of_le hr)]
  rcases lt_or_ge x (-8256) with h1 | h1
  · rw [hv, codeInt_multi h1] at hlt
    rw [if_pos (show x < neg2ByteMin from h1), vpackNegint, if_pos (sizeFails_of_lt h0 hlt)]
    exact ⟨rfl, hr⟩
  · rw [if_neg (not_lt_neg2ByteMin h1)]
    rcases lt_or_ge x (-64) with h2 | h2
    · rw [hv, codeInt_two h1 h2] at hlt
      rw [if_pos (show x < neg1ByteMin from h2), if_pos (sizeFails_of_lt h0 hlt)]
      exact ⟨rfl, zero_le _⟩
    · rw [if_neg (not_lt_neg1ByteMin h2)]
      rcases lt_or_ge x 0 with h3 | h3
      · rw [hv, codeInt_one h2 h3] at hlt
        dsimp only at hlt
        omega
      · have hu : toUint64 x = x.toNat := by unfold toUint64; omega
        rw [if_neg (not_lt.mpr h3), hu]
        refine vpackUint_refused ?_ h
        rwa [hv, codeInt_nonneg h3, hu, ← vsizeUint_eq] at hlt

/-- A number that does not fit and is not refused is written all the same. -/
lemma vpackUint_not_refused {x : ℕ} (h : ¬ UintRefused x r) : r < (vpackUint r x).bytes.length := by
  by_cases h0 : r = 0
  · subst h0
    rw [vpackUint_of_fits (not_sizeFails_zero _), length_bytes]
    exact succ_pos _
  · obtain ⟨rfl, rfl⟩ : x = pos2ByteMax + 1 ∧ r = 1 := by
      by_contra hne
      exact h ⟨h0, hne⟩
    decide

lemma vpackInt_not_refused {x : ℤ} (h : ¬ UintRefused x.toNat r) :
    r < (vpackInt r x).bytes.length := by
  by_cases h0 : r = 0
  · subst h0
    rw [vpackInt_of_fits (not_sizeFails_zero _), length_bytes]
    exact succ_pos _
  · obtain ⟨hx8, rfl⟩ : x.toNat = pos2ByteMax + 1 ∧ r = 1 := by
      by_contra hne
      exact h ⟨h0, hne⟩
    have hx8' : x.toNat = 8256 := hx8
    obtain rfl : x = 8256 := by omega
    decide

/-- How far the output pointer is moved: `*pp` is set only if there is no error. -/
def Written.advance (w : Written) : ℕ := if w.err = none then w.bytes.length else 0

/-- A number that takes `size` bytes is packed into `maxlen` bytes, or refused if they are too
few. -/
structure Written.Bounded (maxlen size : ℕ) (w : Written) : Prop where
  length_le : w.bytes.length ≤ maxlen
  err : w.err = if maxlen < size then some .enomem else none
  advance : maxlen < size → w.advance = 0

lemma bounded_of_fits {maxlen size : ℕ} {bytes : List UInt8} (hlen : bytes.length = size)
    (h : size ≤ maxlen) : Written.Bounded maxlen size ⟨bytes, none⟩ :=
  ⟨hlen.trans_le h, (if_neg (not_lt.mpr h)).symm, fun hlt => absurd h (not_le.mpr hlt)⟩

lemma bounded_of_refused {maxlen size : ℕ} {w : Written} (hlt : maxlen < size)
    (h : w.err = some .enomem ∧ w.bytes.length ≤ maxlen) : w.Bounded maxlen size :=
  ⟨h.2, h.1.trans (if_pos hlt).symm, fun _ => if_neg (by simp [h.1])⟩

lemma not_sizeFails_of_not_lt {n : ℕ} (h : ¬ r < n) : ¬ sizeFails n r := fun hf => h hf.2

/-- **Packing a number into a given length.** All numbers but 8256 are refused exactly if they take
more bytes than there are; 8256 is written into two bytes where there is one. -/
theorem vpack_bounded_iff {maxlen : ℕ} (hmax : maxlen ≠ 0) :
    (∀ x < 2 ^ 64, (vpackUint maxlen x).Bounded maxlen (vsizeUint x) ↔
      ¬ (x = 8256 ∧ maxlen = 1)) ∧
    ∀ x : ℤ, -2 ^ 63 ≤ x → x < 2 ^ 63 → ((vpackInt maxlen x).Bounded maxlen (vsizeInt x) ↔
      ¬ (x = 8256 ∧ maxlen = 1)) := by
  refine ⟨fun x hx => ⟨?_, fun h => ?_⟩, fun x _ hx => ⟨?_, fun h => ?_⟩⟩
  · rintro h ⟨rfl, rfl⟩
    exact absurd h.length_le (by decide)
  · by_cases hlt : maxlen < vsizeUint x
    · exact bounded_of_refused hlt (vpackUint_refused hlt ⟨hmax, h⟩)
    · rw [vpackUint_of_fits (not_sizeFails_of_not_lt hlt)]
      exact bounded_of_fits (by rw [length_bytes, vsizeUint_eq]) (not_lt.mp hlt)
  · rintro h ⟨rfl, rfl⟩
    exact absurd h.length_le (by decide)
  · by_cases hlt : maxlen < vsizeInt x
    · refine bounded_of_refused hlt (vpackInt_refused hx hlt ⟨hmax, ?_⟩)
      rintro ⟨h8256, h1⟩
      have h8256 : x.toNat = 8256 := h8256
      exact h ⟨by omega, h1⟩
    · rw [vpackInt_of_fits (not_sizeFails_of_not_lt hlt)]
      exact bounded_of_fits (by rw [length_bytes, vsizeInt_eq]) (not_lt.mp hlt)

theorem vpack_bounded_iff_nine : (9 : ℕ) ≠ 0 ∧
    (vpackInt 9 (-2 ^ 63)).Bounded 9 (vsizeInt (-2 ^ 63)) :=
  ⟨by decide, ((@vpack_bounded_iff 9 (by decide)).2 (-2 ^ 63) (by decide) (by decide)).mpr
    (by decide)⟩

/-- Two bytes are written for the number 8256, and there is room for one. -/
theorem vpackUint_overruns :
    vpackUint 1 8256 = ⟨[0xe1, 0], none⟩ ∧ vsizeUint 8256 = 2 := by
  decide

/-! ### Fields -/

lemma writeBytes_refused {bytes : List UInt8} (h0 : r ≠ 0) (h : r < bytes.length) :
    writeBytes bytes r = ⟨[], some .enomem⟩ := if_pos (sizeFails_of_lt h0 h)

lemma writeBytes_zero (bytes : List UInt8) : writeBytes bytes 0 = ⟨bytes, none⟩ :=
  if_neg (not_sizeFails_zero _)

/-- Of a field that does not fit nothing is written behind the end if it is refused, and only
then. -/
lemma packWrite_of_lt {pv : PackValue} {u : Arg} (h : ArgValid pv u) (hr : r < 2 ^ 64)
    (hlt : r < packSize pv u) :
    (Refused pv u r →
      (packWrite pv u r).err = some .enomem ∧ (packWrite pv u r).bytes.length ≤ r) ∧
    (¬ Refused pv u r → r < (packWrite pv u r).bytes.length) := by
  have hlen := length_fieldBytes h
  rw [← hlen] at hlt
  have hone : ¬ sizeFails 1 r := fun h1 => absurd h1.2 (by have := h1.1; omega)
  obtain ⟨type, havesize, size⟩ := pv
  cases type <;> cases u <;> simp only [ArgValid] at h <;> try exact h.elim
  case U.item data =>
    have hL := length_itemBytes ⟨.U, havesize, size⟩ data
    simp only [Refused]
    rw [← hL]
    simp only [fieldBytes, length_append, length_bytes] at hlt
    rw [← vsizeUint_eq] at hlt
    rcases lt_trichotomy r (vsizeUint (itemBytes ⟨.U, havesize, size⟩ data).length) with
      hv | hv | hv
    · -- the size does not fit
      simp only [packWrite]
      rw [if_neg hone]
      refine ⟨fun href => ?_, fun href => ?_⟩
      · obtain ⟨herr, hle⟩ := vpackUint_refused hv href.1
        rw [if_pos (by rw [herr]; rfl)]
        exact ⟨herr, hle⟩
      · have hmore := vpackUint_not_refused fun hu => href ⟨hu, hv.ne⟩
        split_ifs
        · exact hmore
        · simp only [length_append]
          omega
    · -- the size takes all the room, and the item is written without a check
      refine ⟨fun href => absurd hv href.2, fun _ => ?_⟩
      rw [packWrite_U hr hv.ge]
      dsimp only
      rw [length_bytes, ← vsizeUint_eq, hv, Nat.sub_self, writeBytes_zero,
        length_append, length_bytes, ← vsizeUint_eq]
      dsimp only
      omega
    · have hpos := vsizeUint_pos (itemBytes ⟨.U, havesize, size⟩ data).length
      refine ⟨fun _ => ?_, fun href => absurd ⟨⟨by omega, fun hu => ?_⟩, hv.ne'⟩ href⟩
      · rw [packWrite_U hr hv.le]
        dsimp only
        rw [length_bytes, ← vsizeUint_eq, writeBytes_refused (by omega) (by omega),
          append_nil, length_bytes, ← vsizeUint_eq]
        exact ⟨rfl, hv.le⟩
      · have := hu.2
        omega
  case h.int x | i.int x | l.int x | q.int x =>
    simp only [fieldBytes, length_bytes] at hlt
    rw [← vsizeInt_eq] at hlt
    simp only [packWrite]
    rw [if_neg hone]
    exact ⟨vpackInt_refused (by omega) hlt, vpackInt_not_refused⟩
  case H.uint x | I.uint x | L.uint x | Q.uint x | r.uint x =>
    simp only [fieldBytes, length_bytes] at hlt
    rw [← vsizeUint_eq] at hlt
    simp only [packWrite]
    rw [if_neg hone]
    exact ⟨vpackUint_refused hlt, vpackUint_not_refused⟩
  all_goals
    simp only [packWrite]
    simp only [fieldBytes] at hlt
    refine ⟨fun href => ?_, fun href => ?_⟩
    · rw [writeBytes_refused href hlt]
      exact ⟨rfl, Nat.zero_le _⟩
    · obtain rfl : r = 0 := not_not.mp href
      exact hlt

/-! ### All fields -/

/-- What is written stays written. -/
lemma length_packLoop (size : ℕ) (pvs : List PackValue) (e : Option Errno) (args : List Arg)
    (bytes : List UInt8) : bytes.length ≤ (packLoop size pvs e args bytes).bytes.length := by
  induction pvs generalizing args bytes with
  | nil => exact le_rfl
  | cons pv pvs ih =>
    rw [packLoop]
    cases packGet pv args with
    | none => exact le_rfl
    | some ua =>
      dsimp only
      split_ifs
      · simp
      · refine le_trans ?_ (ih _ _)
        simp

variable {pvs : List PackValue} {args : List Arg} {size : ℕ} {bytes : List UInt8}

/-- With room for every field or a refusal, the buffer is kept, and the loop ends without room
where the fields do not fit.  Without, bytes are written behind the end. -/
lemma packLoop_spec (h : ArgsValid pvs args) (hsize : size < 2 ^ 64) (e : Option Errno)
    (hle : bytes.length ≤ size) :
    (PackRoom (size - bytes.length) pvs args →
      (packLoop size pvs e args bytes).bytes.length ≤ size ∧
      (packLoop size pvs e args bytes).err =
        if bytes.length + (structBytes pvs args).length ≤ size then e else some .enomem) ∧
    (¬ PackRoom (size - bytes.length) pvs args →
      size < (packLoop size pvs e args bytes).bytes.length) := by
  induction pvs generalizing args bytes with
  | nil =>
    exact ⟨fun _ => ⟨hle, by simp [packLoop, structBytes, hle]⟩, fun hroom => absurd trivial hroom⟩
  | cons pv pvs ih =>
    obtain ⟨u, args', hget, hu, hrest⟩ := h.cons_inv
    have hlen := length_fieldBytes hu
    simp only [PackRoom, packLoop, structBytes, hget]
    rw [subSize_of_le hle hsize]
    by_cases hfit : packSize pv u ≤ size - bytes.length
    · rw [if_pos hfit, packWrite_of_le hu (by omega) hfit, if_neg (by simp)]
      have := @ih args' (bytes ++ fieldBytes pv u) hrest (by rw [length_append]; omega)
      rw [length_append, hlen, sub_add_eq] at this
      rwa [length_append, hlen, ← add_assoc]
    · rw [if_neg hfit]
      obtain ⟨hrefused, hmore⟩ := packWrite_of_lt hu (by omega) (not_le.mp hfit)
      refine ⟨fun hroom => ?_, fun hroom => ?_⟩
      · obtain ⟨herr, hlew⟩ := hrefused hroom
        have hno : ¬ bytes.length + (fieldBytes pv u ++ structBytes pvs args').length ≤ size := by
          rw [length_append]
          omega
        rw [herr, if_pos (by simp), if_neg hno]
        refine ⟨?_, rfl⟩
        rw [length_append]
        omega
      · have hmore := hmore hroom
        split_ifs
        · simp only [length_append]
          omega
        · refine lt_of_lt_of_le ?_ (length_packLoop _ _ _ _ _)
          rw [length_append]
          omega

end WiredTiger
