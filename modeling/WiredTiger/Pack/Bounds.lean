/-
# What packing writes and unpacking reads

Packing should not write behind the end of the buffer, and should report a buffer that is too
small; unpacking should not go over the end of the packed bytes.  Both are so exactly if no field is
met with 0 bytes left, which means no limit to the size macros, and a few other cases do not arise.
-/
import WiredTiger.Lib.Fallible
import WiredTiger.Pack.PackBounds
import WiredTiger.Pack.RoundTrip

namespace WiredTiger

open Lib List Nat

variable {size : ℕ}

/-! ### Numbers -/

lemma readBe_of_le {len : ℕ} {bytes : List UInt8} (h : len ≤ bytes.length) (x : ℕ) :
    ∃ y, readBe x len bytes = .ok y := by
  induction len generalizing bytes x with
  | zero => exact ⟨x, by cases bytes <;> rfl⟩
  | succ len ih =>
    cases bytes with
    | nil => simp at h
    | cons b bytes => exact ih (by simpa using h) _

/-- A routine reads a number within the bytes: it fails, or it takes no more than there are. -/
def ReadsWithin {α : Type} (r : Except ReadError (α × ℕ)) (len : ℕ) : Prop :=
  (∃ e, r = .error (.errno e)) ∨ ∃ x n, r = .ok (x, n) ∧ 1 ≤ n ∧ n ≤ len

lemma ReadsWithin.map {α β : Type} {r : Except ReadError (α × ℕ)} {len : ℕ}
    (h : ReadsWithin r len) (f : α → β) :
    ReadsWithin (r.map fun xn => (f xn.1, xn.2)) len := by
  rcases h with ⟨e, rfl⟩ | ⟨x, n, rfl, hn⟩
  · exact .inl ⟨e, rfl⟩
  · exact .inr ⟨f x, n, rfl, hn⟩

lemma le_of_not_sizeFails {n len : ℕ} (h0 : len ≠ 0) (h : ¬ sizeFails n len) : n ≤ len := by
  by_contra hlt
  exact h ⟨h0, not_le.mp hlt⟩

section

variable (b : UInt8) (q : List UInt8)

/-- The bytes behind the first one are read if they are there. -/
lemma readBe_within (x len : ℕ) :
    ReadsWithin (if sizeFails (len + 1) (b :: q).length then .error (.errno .einval)
      else (readBe x len q).map fun x => (x, len + 1)) (b :: q).length := by
  split_ifs with h
  · exact .inl ⟨_, rfl⟩
  · have hle := le_of_not_sizeFails (by simp) h
    rw [length_cons] at hle
    obtain ⟨y, hy⟩ := @readBe_of_le len q (by omega) x
    rw [hy]
    exact .inr ⟨y, _, rfl, by omega, by rw [length_cons]; omega⟩

lemma vunpackPosint_within :
    ReadsWithin (vunpackPosint (b :: q).length (b :: q)) (b :: q).length := readBe_within b q _ _

lemma vunpackNegint_within :
    ReadsWithin (vunpackNegint (b :: q).length (b :: q)) (b :: q).length := readBe_within b q _ _

/-- The second byte of a number of two is read if it is there. -/
lemma twoBytes_within {α : Type} (f : UInt8 → α) :
    ReadsWithin (if sizeFails 2 (b :: q).length then .error (.errno .einval)
      else match q with
        | [] => .error .fault
        | c :: _ => .ok (f c, 2)) (b :: q).length := by
  split_ifs with h
  · exact .inl ⟨_, rfl⟩
  · have hle := le_of_not_sizeFails (by simp) h
    cases q with
    | nil => simp at hle
    | cons c q => exact .inr ⟨_, 2, rfl, by omega, by simp⟩

lemma vunpackUint_within : ReadsWithin (vunpackUint (b :: q).length (b :: q)) (b :: q).length := by
  unfold vunpackUint
  rw [if_neg (not_sizeFails_of_le (by simp))]
  dsimp only
  by_cases hm1 : b &&& 0xf0 = pos1ByteMarker ∨ b &&& 0xf0 = pos1ByteMarker ||| 0x10 ∨
      b &&& 0xf0 = pos1ByteMarker ||| 0x20 ∨ b &&& 0xf0 = pos1ByteMarker ||| 0x30
  · rw [if_pos hm1]
    exact .inr ⟨_, 1, rfl, le_rfl, by simp⟩
  · rw [if_neg hm1]
    by_cases hm2 : b &&& 0xf0 = pos2ByteMarker ∨ b &&& 0xf0 = pos2ByteMarker ||| 0x10
    · rw [if_pos hm2]
      exact twoBytes_within b q _
    · rw [if_neg hm2]
      split_ifs with hm
      · exact (vunpackPosint_within b q).map fun x => (x + (pos2ByteMax + 1)) % 2 ^ 64
      · exact .inl ⟨_, rfl⟩

lemma vunpackInt_within : ReadsWithin (vunpackInt (b :: q).length (b :: q)) (b :: q).length := by
  unfold vunpackInt
  rw [if_neg (not_sizeFails_of_le (by simp))]
  dsimp only
  by_cases hm : b &&& 0xf0 = negMultiMarker
  · rw [if_pos hm]
    exact (vunpackNegint_within b q).map toInt64
  · rw [if_neg hm]
    by_cases hm2 : b &&& 0xf0 = neg2ByteMarker ∨ b &&& 0xf0 = neg2ByteMarker ||| 0x10
    · rw [if_pos hm2]
      exact twoBytes_within b q _
    · rw [if_neg hm2]
      split_ifs with hm1
      · exact .inr ⟨_, 1, rfl, le_rfl, by simp⟩
      · exact (vunpackUint_within b q).map toInt64

end

/-! ### Fields -/

/-- What is unpacked lies in the packed bytes. -/
def Out.Within (buf : List UInt8) : Out → Prop
  | .str p none => 0 ∈ buf.drop p
  | .str p (some n) => p + n ≤ buf.length
  | .item p n => p + n ≤ buf.length
  | _ => True

/-- The bytes of a number that is read. -/
def numberTaken {α : Type} : Except ReadError (α × ℕ) → Option ℕ
  | .error _ => none
  | .ok (_, n) => some n

/-- The bytes a field takes of what is left, if it is there in full. -/
def fieldTaken (pv : PackValue) (rest : List UInt8) : Option ℕ :=
  let upto (n : ℕ) := if n ≤ rest.length then some n else none
  match pv.type with
  | .x | .s => upto pv.size
  | .S => if pv.havesize then upto pv.size else some (strlen rest + 1)
  | .U =>
    match vunpackUint rest.length rest with
    | .error _ => none
    | .ok (x, n) =>
      let s := if pv.havesize then pv.size else x
      if s ≤ rest.length then some (n + s) else none
  | .u => upto (if pv.havesize then pv.size else rest.length)
  | .b | .B | .t => upto 1
  | .h | .i | .l | .q => numberTaken (vunpackInt rest.length rest)
  | .H | .I | .L | .Q | .r => numberTaken (vunpackUint rest.length rest)
  | .R => upto 8

/-- A field is met with a byte left, or takes none; a string ends; and an item that is longer than
what is left is also longer than what was left in front of its size. -/
def FieldRoom (pv : PackValue) (rest : List UInt8) : Prop :=
  match pv.type with
  | .x | .s => rest ≠ [] ∨ pv.size = 0
  | .S => if pv.havesize then rest ≠ [] ∨ pv.size = 0 else 0 ∈ rest
  | .U =>
    rest ≠ [] ∧ ∀ x n, vunpackUint rest.length rest = .ok (x, n) →
      let s := if pv.havesize then pv.size else x
      n + s ≤ rest.length ∨ rest.length < s
  | .u => pv.havesize → rest ≠ [] ∨ pv.size = 0
  | _ => rest ≠ []

/-- Every field that is reached has room. -/
def UnpackRoom : List PackValue → List UInt8 → Prop
  | [], _ => True
  | pv :: pvs, rest =>
    FieldRoom pv rest ∧ ∀ n, fieldTaken pv rest = some n → UnpackRoom pvs (rest.drop n)

/-- What unpacking does with a field that has room: it fails, or it takes what the field takes and
puts a value that lies in the bytes. -/
def StaysWithin (pv : PackValue) (buf : List UInt8) (p : ℕ) : Prop :=
  let rest := buf.drop p
  (∃ e, unpackRead pv buf p rest.length = .error (.errno e)) ∧ fieldTaken pv rest = none ∨
    ∃ out n, unpackRead pv buf p rest.length = .ok (out, p + n) ∧ fieldTaken pv rest = some n ∧
      n ≤ rest.length ∧
      ∀ outs, (∀ o ∈ outs, o.Within buf) → ∀ o ∈ unpackPut pv out outs, o.Within buf

/-- What it does with one that has none: it reads behind the end, or goes over it. -/
def GoesBeyond (pv : PackValue) (buf : List UInt8) (p : ℕ) : Prop :=
  let rest := buf.drop p
  unpackRead pv buf p rest.length = .error .fault ∨
    ∃ out n, unpackRead pv buf p rest.length = .ok (out, p + n) ∧ rest.length < n

lemma within_unpackPut {pv : PackValue} {buf : List UInt8} {out : Out} (h : out.Within buf)
    (outs : List Out) (houts : ∀ o ∈ outs, o.Within buf) :
    ∀ o ∈ unpackPut pv out outs, o.Within buf := by
  have happend : ∀ o', o'.Within buf → ∀ o ∈ outs ++ [o'], o.Within buf := by
    intro o' ho' o ho
    rcases mem_append.mp ho with ho | ho
    · exact houts o ho
    · rw [mem_singleton.mp ho]
      exact ho'
  obtain ⟨type, havesize, size⟩ := pv
  cases type <;> cases out <;> first | exact houts | exact happend _ trivial | exact happend _ h

/-- A field that has room is read within the bytes, and only such a one. -/
def RoomSpec (pv : PackValue) (buf : List UInt8) (p : ℕ) : Prop :=
  (FieldRoom pv (buf.drop p) → StaysWithin pv buf p) ∧
    (¬ FieldRoom pv (buf.drop p) → GoesBeyond pv buf p)

section OneField

variable {pv : PackValue} {buf : List UInt8} {p : ℕ}

lemma takeBytes_zero (p n : ℕ) : takeBytes p n 0 = .ok (p + n) := if_neg (not_sizeFails_zero n)

lemma takeBytes_refused {p n r : ℕ} (h0 : r ≠ 0) (h : r < n) :
    takeBytes p n r = .error (.errno .einval) := if_pos (sizeFails_of_lt h0 h)

section

variable {n : ℕ}
  (htaken : fieldTaken pv (buf.drop p) = if n ≤ (buf.drop p).length then some n else none)
include htaken

/-- Fields of `n` bytes, which are read in full or refused if there are bytes. -/
lemma stays_of_upto {out : Out}
    (hok : n ≤ (buf.drop p).length → unpackRead pv buf p (buf.drop p).length = .ok (out, p + n))
    (hfail : (buf.drop p).length < n → ∃ e, unpackRead pv buf p (buf.drop p).length =
      .error (.errno e)) (hwithin : n ≤ (buf.drop p).length → out.Within buf) :
    StaysWithin pv buf p := by
  by_cases hle : n ≤ (buf.drop p).length
  · refine .inr ⟨out, n, hok hle, ?_, hle, within_unpackPut (hwithin hle)⟩
    rw [htaken, if_pos hle]
  · refine .inl ⟨hfail (not_le.mp hle), ?_⟩
    rw [htaken, if_neg hle]

omit htaken in
/-- Fields of `n` bytes that are not looked at. -/
lemma room_of_take {out : Out} {n : ℕ} (hp : p ≤ buf.length)
    (hread : unpackRead pv buf p (buf.drop p).length =
      takeBytes p n (buf.drop p).length >>= fun p' => .ok (out, p'))
    (htaken : fieldTaken pv (buf.drop p) = if n ≤ (buf.drop p).length then some n else none)
    (hroom : FieldRoom pv (buf.drop p) ↔ (buf.drop p ≠ [] ∨ n = 0))
    (hwithin : p + n ≤ buf.length → out.Within buf) : RoomSpec pv buf p := by
  have hlen : (buf.drop p).length = buf.length - p := length_drop
  rw [RoomSpec, hroom]
  refine ⟨fun h => stays_of_upto htaken (fun hle => ?_) (fun hlt => ?_) fun _ => hwithin (by omega),
    fun h => ?_⟩
  · rw [hread, takeBytes_of_le hle]
    rfl
  · have h0 : (buf.drop p).length ≠ 0 := by
      rcases h with h | h
      · exact fun h0 => h (eq_nil_of_length_eq_zero h0)
      · omega
    rw [hread, takeBytes_refused h0 hlt]
    exact ⟨_, rfl⟩
  · push Not at h
    refine .inr ⟨out, n, ?_, ?_⟩
    · rw [hread, h.1, length_nil, takeBytes_zero]
      rfl
    · rw [h.1, length_nil]
      exact pos_of_ne_zero h.2

/-- Fields of `n` bytes that are read. -/
lemma room_of_read {f : List UInt8 → Out} (hn : 0 < n)
    (hread : unpackRead pv buf p (buf.drop p).length = do
      let p' ← takeBytes p n (buf.drop p).length
      let bs ← readBytes buf p n
      .ok (f bs, p')) (hroom : FieldRoom pv (buf.drop p) ↔ buf.drop p ≠ [])
    (hwithin : ∀ bs, (f bs).Within buf) : RoomSpec pv buf p := by
  have hlen : (buf.drop p).length = buf.length - p := length_drop
  rw [RoomSpec, hroom]
  refine ⟨fun h => stays_of_upto htaken (fun hle => ?_) (fun hlt => ?_)
    fun _ => hwithin ((buf.drop p).take n),
    fun h => .inl ?_⟩
  · rw [hread, takeBytes_of_le hle, readBytes, if_pos (by omega)]
    rfl
  · have h0 : (buf.drop p).length ≠ 0 := fun h0 => h (eq_nil_of_length_eq_zero h0)
    rw [hread, takeBytes_refused h0 hlt]
    exact ⟨_, rfl⟩
  · rw [not_not] at h
    have hend : buf.length ≤ p := by rwa [drop_eq_nil_iff] at h
    rw [hread, h, length_nil, takeBytes_zero, readBytes, if_neg (by omega)]
    rfl

end

/-- Fields that are numbers of the length their first byte says. -/
lemma room_of_number {α : Type} {unpack : ℕ → List UInt8 → Except ReadError (α × ℕ)}
    {f : α → Out} (hwithin : ∀ b q, ReadsWithin (unpack (b :: q).length (b :: q)) (b :: q).length)
    (hfault : unpack 0 [] = .error .fault)
    (hread : unpackRead pv buf p (buf.drop p).length = do
      let _ ← takeBytes p 1 (buf.drop p).length
      let (x, n) ← unpack (buf.drop p).length (buf.drop p)
      .ok (f x, p + n))
    (htaken : fieldTaken pv (buf.drop p) = numberTaken (unpack (buf.drop p).length (buf.drop p)))
    (hroom : FieldRoom pv (buf.drop p) ↔ buf.drop p ≠ []) (hf : ∀ x, (f x).Within buf) :
    RoomSpec pv buf p := by
  rw [RoomSpec, hroom]
  constructor
  · intro h
    obtain ⟨b, q, hbq⟩ := exists_cons_of_ne_nil h
    have hone : 1 ≤ (buf.drop p).length := by simp [hbq]
    have hin := hwithin b q
    rw [← hbq] at hin
    rw [takeBytes_of_le hone] at hread
    rcases hin with ⟨e, he⟩ | ⟨x, n, hx, -, hn⟩
    · refine .inl ⟨⟨e, ?_⟩, ?_⟩
      · rw [hread, he]
        rfl
      · rw [htaken, he, numberTaken]
    · refine .inr ⟨f x, n, ?_, ?_, hn, within_unpackPut (hf x)⟩
      · rw [hread, hx]
        rfl
      · rw [htaken, hx, numberTaken]
  · intro h
    rw [not_not] at h
    refine .inl ?_
    rw [hread, h, length_nil, takeBytes_zero, hfault]
    rfl

lemma strlen_lt {mem : List UInt8} (h : 0 ∈ mem) : strlen mem < mem.length := by
  induction mem with
  | nil => simp at h
  | cons c mem ih =>
    unfold strlen at *
    by_cases hc : c = 0
    · simp [hc]
    · have hmem : 0 ∈ mem := by
        rcases mem_cons.mp h with h | h
        · exact absurd h.symm hc
        · exact h
      simpa [hc] using ih hmem

lemma room_S : RoomSpec ⟨.S, false, size⟩ buf p := by
  have hread : unpackRead ⟨.S, false, size⟩ buf p (buf.drop p).length = (do
      let len ← readStrlen buf p
      let p' ← takeBytes p (len + 1) (buf.drop p).length
      .ok (.str p none, p')) := rfl
  constructor
  · intro h
    have h0 : 0 ∈ buf.drop p := h
    have hlt := strlen_lt h0
    refine .inr ⟨.str p none, strlen (buf.drop p) + 1, ?_, rfl, hlt,
      within_unpackPut (show 0 ∈ buf.drop p from h0)⟩
    rw [hread, readStrlen, if_pos h0]
    show (takeBytes _ _ _ >>= _) = _
    rw [takeBytes_of_le hlt]
    rfl
  · intro h
    have h0 : 0 ∉ buf.drop p := h
    refine .inl ?_
    rw [hread, readStrlen, if_neg h0]
    rfl

lemma room_U {havesize : Bool} : RoomSpec ⟨.U, havesize, size⟩ buf p := by
  have hlen : (buf.drop p).length = buf.length - p := length_drop
  have hread : unpackRead ⟨.U, havesize, size⟩ buf p (buf.drop p).length = (do
      let _ ← takeBytes p 1 (buf.drop p).length
      let r ← vunpackUint (buf.drop p).length (buf.drop p)
      let p' ← takeBytes (p + r.2) (if havesize then size else r.1) (buf.drop p).length
      .ok (.item (p + r.2) (if havesize then size else r.1), p')) := rfl
  have htaken : fieldTaken ⟨.U, havesize, size⟩ (buf.drop p) =
      match vunpackUint (buf.drop p).length (buf.drop p) with
      | .error _ => none
      | .ok (x, n) =>
        if (if havesize then size else x) ≤ (buf.drop p).length then
          some (n + (if havesize then size else x))
        else none := rfl
  have hroom : FieldRoom ⟨.U, havesize, size⟩ (buf.drop p) ↔ buf.drop p ≠ [] ∧
      ∀ x n, vunpackUint (buf.drop p).length (buf.drop p) = .ok (x, n) →
        n + (if havesize then size else x) ≤ (buf.drop p).length ∨
          (buf.drop p).length < (if havesize then size else x) := Iff.rfl
  rw [RoomSpec, hroom]
  by_cases hnil : buf.drop p = []
  · refine ⟨fun h => absurd hnil h.1, fun _ => .inl ?_⟩
    rw [hread, hnil, length_nil, takeBytes_zero]
    rfl
  · obtain ⟨b, q, hbq⟩ := exists_cons_of_ne_nil hnil
    have hone : 1 ≤ (buf.drop p).length := by simp [hbq]
    have hin := vunpackUint_within b q
    rw [← hbq] at hin
    rw [takeBytes_of_le hone] at hread
    rcases hin with ⟨e, he⟩ | ⟨x, n, hx, -, hn⟩
    · refine ⟨fun _ => .inl ⟨⟨e, ?_⟩, ?_⟩, fun h => absurd ⟨hnil, ?_⟩ h⟩
      · rw [hread, he]
        rfl
      · rw [htaken, he]
      · intro x n hx
        rw [he] at hx
        cases hx
    · obtain ⟨s, hs⟩ : ∃ s, s = if havesize then size else x := ⟨_, rfl⟩
      rw [hx] at hread htaken ⊢
      have hread' : unpackRead ⟨.U, havesize, size⟩ buf p (buf.drop p).length =
          takeBytes (p + n) s (buf.drop p).length >>= fun p' => .ok (.item (p + n) s, p') := by
        rw [hread, hs]
        rfl
      dsimp only at htaken
      rw [← hs] at htaken
      constructor
      · intro h
        have hxn := h.2 x n rfl
        rw [← hs] at hxn
        rcases hxn with hfit | hlong
        · have hle : s ≤ (buf.drop p).length := by omega
          refine .inr ⟨.item (p + n) s, n + s, ?_, ?_, hfit, within_unpackPut ?_⟩
          · rw [hread', takeBytes_of_le hle, ← add_assoc]
            rfl
          · rw [htaken, if_pos hle]
          · show p + n + s ≤ buf.length
            omega
        · refine .inl ⟨⟨.einval, ?_⟩, ?_⟩
          · rw [hread', takeBytes_refused (by omega) hlong]
            rfl
          · rw [htaken, if_neg (not_le.mpr hlong)]
      · intro h
        have hbad : ¬ (n + s ≤ (buf.drop p).length ∨ (buf.drop p).length < s) := by
          intro hok
          refine h ⟨hnil, fun x' n' hxn => ?_⟩
          cases hxn
          rw [← hs]
          exact hok
        push Not at hbad
        refine .inr ⟨.item (p + n) s, n + s, ?_, hbad.1⟩
        rw [hread', takeBytes_of_le hbad.2, ← add_assoc]
        rfl

lemma room_u {havesize : Bool} (hp : p ≤ buf.length) : RoomSpec ⟨.u, havesize, size⟩ buf p := by
  refine @room_of_take _ _ _ (.item p (if havesize then size else (buf.drop p).length))
    (if havesize then size else (buf.drop p).length) hp rfl rfl ?_ fun h => h
  show (havesize = true → _) ↔ _
  cases havesize with
  | true => simp
  | false =>
    simp only [Bool.false_eq_true, false_imp_iff, if_false, true_iff]
    by_cases h : buf.drop p = []
    · exact .inr (by rw [h]; rfl)
    · exact .inl h

lemma fieldRoom_spec (pv : PackValue) (hp : p ≤ buf.length) :
    RoomSpec pv buf p := by
  have hsized : ∀ size, p + size ≤ buf.length →
      Out.Within buf (if 0 < size then .str p (some size) else .unset) := by
    intro size h
    split_ifs
    · exact h
    · trivial
  obtain ⟨type, havesize, size⟩ := pv
  cases type with
  | x => exact room_of_take hp rfl rfl Iff.rfl fun _ => trivial
  | s => exact room_of_take hp rfl rfl Iff.rfl (hsized size)
  | S =>
    cases havesize with
    | true => exact room_of_take hp rfl rfl Iff.rfl (hsized size)
    | false => exact room_S
  | U => exact room_U
  | u => exact room_u hp
  | b | B | t | R => exact room_of_read rfl (by decide) rfl Iff.rfl fun _ => trivial
  | h | i | l | q => exact room_of_number vunpackInt_within rfl rfl rfl Iff.rfl fun _ => trivial
  | H | I | L | Q | r =>
    exact room_of_number vunpackUint_within rfl rfl rfl Iff.rfl fun _ => trivial

end OneField

/-! ### All fields -/

lemma eq_of_takeBytes {p n maxlen p' : ℕ} (h : takeBytes p n maxlen = .ok p') : p' = p + n := by
  unfold takeBytes at h
  split_ifs at h
  cases h
  rfl

/-- The place only moves forward. -/
lemma le_of_unpackRead {pv : PackValue} {buf : List UInt8} {p maxlen p' : ℕ} {out : Out}
    (h : unpackRead pv buf p maxlen = .ok (out, p')) : p ≤ p' := by
  obtain ⟨type, havesize, size⟩ := pv
  cases type with
  | x | s | u =>
    obtain ⟨a, ha, h⟩ := exists_of_bind_ok h
    cases h
    have := eq_of_takeBytes ha
    omega
  | S =>
    cases havesize with
    | true =>
      obtain ⟨a, ha, h⟩ := exists_of_bind_ok h
      cases h
      have := eq_of_takeBytes ha
      omega
    | false =>
      obtain ⟨len, -, h⟩ := exists_of_bind_ok h
      obtain ⟨a, ha, h⟩ := exists_of_bind_ok h
      cases h
      have := eq_of_takeBytes ha
      omega
  | U =>
    obtain ⟨-, -, h⟩ := exists_of_bind_ok h
    obtain ⟨xn, -, h⟩ := exists_of_bind_ok h
    obtain ⟨a, ha, h⟩ := exists_of_bind_ok h
    cases h
    have := eq_of_takeBytes ha
    omega
  | b | B | t | R =>
    obtain ⟨a, ha, h⟩ := exists_of_bind_ok h
    obtain ⟨bs, -, h⟩ := exists_of_bind_ok h
    cases h
    have := eq_of_takeBytes ha
    omega
  | h | i | l | q | H | I | L | Q | r =>
    obtain ⟨-, -, h⟩ := exists_of_bind_ok h
    obtain ⟨xn, -, h⟩ := exists_of_bind_ok h
    cases h
    omega

lemma le_pos_unpackLoop (buf : List UInt8) (pvs : List PackValue) (e : Option Errno) (p : ℕ)
    (outs : List Out) : p ≤ (unpackLoop buf pvs e p outs).pos := by
  induction pvs generalizing p outs with
  | nil => exact le_rfl
  | cons pv pvs ih =>
    rw [unpackLoop]
    cases hread : unpackRead pv buf p (subSize buf.length p) with
    | error err => exact le_rfl
    | ok op => exact (le_of_unpackRead hread).trans (ih _ _)

/-- Unpacking has read nothing behind the end of the bytes, has put nothing that reaches behind it,
and has not gone over it; in particular it fails if the bytes are too few. -/
structure Unpacked.Safe (r : Unpacked) (buf : List UInt8) : Prop where
  noFault : r.err ≠ some .fault
  within : ∀ o ∈ r.outs, o.Within buf
  pos : r.pos ≤ buf.length

/-- With room for every field that is reached, unpacking is safe, and only then. -/
lemma unpackLoop_safe_iff {buf : List UInt8} (hbuf : buf.length < 2 ^ 64) (pvs : List PackValue)
    (e : Option Errno) {p : ℕ} (hp : p ≤ buf.length) {outs : List Out}
    (houts : ∀ o ∈ outs, o.Within buf) :
    (unpackLoop buf pvs e p outs).Safe buf ↔ UnpackRoom pvs (buf.drop p) := by
  induction pvs generalizing p outs with
  | nil =>
    refine ⟨fun _ => trivial, fun _ => ⟨?_, houts, hp⟩⟩
    cases e <;> simp [unpackLoop]
  | cons pv pvs ih =>
    have hlen : subSize buf.length p = (buf.drop p).length := by
      rw [subSize_of_le hp hbuf, length_drop]
    rw [unpackLoop, UnpackRoom, hlen]
    by_cases hroom : FieldRoom pv (buf.drop p)
    · rcases (fieldRoom_spec pv hp).1 hroom with ⟨⟨err, hread⟩, htaken⟩ |
        ⟨out, n, hread, htaken, hn, hput⟩
      · rw [hread]
        refine ⟨fun _ => ⟨hroom, ?_⟩, fun _ => ⟨?_, houts, hp⟩⟩
        · intro n hn
          rw [htaken] at hn
          cases hn
        · simp
      · rw [hread]
        have hpn : p + n ≤ buf.length := by
          rw [length_drop] at hn
          omega
        rw [ih hpn (hput outs houts), ← drop_drop]
        constructor
        · intro h
          refine ⟨hroom, fun m hm => ?_⟩
          rw [htaken] at hm
          cases hm
          exact h
        · rintro ⟨-, h⟩
          exact h n htaken
    · refine ⟨fun h => ?_, fun h => absurd h.1 hroom⟩
      rcases (fieldRoom_spec pv hp).2 hroom with hread | ⟨out, n, hread, hn⟩
      · rw [hread] at h
        exact absurd rfl h.noFault
      · rw [hread] at h
        have hpos := h.pos
        have hle := le_pos_unpackLoop buf pvs e (p + n) (unpackPut pv out outs)
        rw [length_drop] at hn
        dsimp only at hpos
        omega

/-! ### The bounds of packing and unpacking -/

/-- Packing has written nothing behind the end of the buffer, and reports too little room exactly
if the packed size, when it is computed, is larger than the buffer. -/
structure PackSafe (size : ℕ) (fmt : List Char) (args : List Arg) : Prop where
  bytes : (structPackv size fmt args).bytes.length ≤ size
  enomem : ∀ total, structSizev fmt args = .ok total →
    ((structPackv size fmt args).err = some .enomem ↔ size < total)

/-- How packing and unpacking go over the fields, whether or not an error ends them. -/
lemma followsFields (fmt : List Char) :
    (formatFields fmt).2 = none ∧ FollowsLoops fmt (formatFields fmt).1 ∨
    (∃ c, fmt = [c] ∧ PackType.ofChar c = none ∧ formatFields fmt = ([], some .einval)) ∨
    ∃ e, (formatFields fmt).2 = some e ∧ singleType fmt = none := by
  cases he : (formatFields fmt).2 with
  | none => exact .inl ⟨rfl, followsLoops (Prod.ext rfl he)⟩
  | some e =>
    cases hs : singleType fmt with
    | none => exact .inr (.inr ⟨e, rfl, rfl⟩)
    | some t =>
      obtain ⟨c, rfl, rfl⟩ := exists_of_singleType hs
      cases hc : PackType.ofChar c with
      | none => exact .inr (.inl ⟨c, rfl, hc, formatFields_single_none hc⟩)
      | some type =>
        rw [formatFields_single hc] at he
        cases he

lemma packLoop_length_le_iff {pvs : List PackValue} {args : List Arg}
    (h : ArgsValid pvs args) (hsize : size < 2 ^ 64) (e : Option Errno) :
    (packLoop size pvs e args []).bytes.length ≤ size ↔ PackRoom size pvs args := by
  obtain ⟨hroom, hnot⟩ := @packLoop_spec pvs args size [] h hsize e (zero_le _)
  exact ⟨fun hle => not_not.mp fun hno => absurd hle (not_le.mpr (hnot hno)), fun h => (hroom h).1⟩

lemma packSafe_iff {fmt : List Char} {args : List Arg} (hsize : size < 2 ^ 64)
    (h : ArgsValid (formatFields fmt).1 args) :
    PackSafe size fmt args ↔ PackRoom size (formatFields fmt).1 args := by
  rcases followsFields fmt with ⟨-, hfollow⟩ | ⟨c, rfl, hc, hfields⟩ | ⟨e, he, hs⟩
  · have hpack := hfollow.packv size hsize args
    have hiff := packLoop_length_le_iff h hsize none
    rw [← hpack] at hiff
    refine ⟨fun hsafe => hiff.mp hsafe.bytes, fun hroom => ⟨hiff.mpr hroom, ?_⟩⟩
    intro total htotal
    rw [hfollow.sizev, sizeLoop_eq h] at htotal
    simp only [zero_add, Except.ok.injEq] at htotal
    have herr := ((@packLoop_spec _ args size [] h hsize none (zero_le _)).1 hroom).2
    rw [hpack, herr, length_nil, zero_add, htotal]
    split_ifs with hle
    · simpa using hle
    · simpa using hle
  · rw [hfields]
    refine ⟨fun _ => trivial, fun _ => ⟨?_, ?_⟩⟩
    · simp [structPackv, singleType, hc]
    · simp [structSizev, singleType, hc]
  · have hpack : structPackv size fmt args =
        packLoop size (formatFields fmt).1 (some e) args [] := by
      rw [structPackv, hs, he]
    have hiff := packLoop_length_le_iff h hsize (some e)
    rw [← hpack] at hiff
    refine ⟨fun hsafe => hiff.mp hsafe.bytes, fun hroom => ⟨hiff.mpr hroom, ?_⟩⟩
    intro total htotal
    rw [structSizev, hs, he] at htotal
    rw [sizeLoop_eq h] at htotal
    cases htotal

lemma unpack_safe_iff {fmt : List Char} {buf : List UInt8} (hbuf : buf.length < 2 ^ 64) :
    (structUnpackv buf fmt).Safe buf ↔ UnpackRoom (formatFields fmt).1 buf := by
  rcases followsFields fmt with ⟨-, hfollow⟩ | ⟨c, rfl, hc, hfields⟩ | ⟨e, he, hs⟩
  · rw [hfollow.unpackv buf hbuf]
    exact unpackLoop_safe_iff hbuf _ none (zero_le _) (by simp)
  · rw [hfields]
    refine ⟨fun _ => trivial, fun _ => ⟨?_, ?_, ?_⟩⟩ <;> simp [structUnpackv, singleType, hc]
  · rw [structUnpackv, hs]
    exact unpackLoop_safe_iff hbuf _ _ (zero_le _) (by simp)

/-- **When packing and unpacking keep to their buffers.**  Packing does so, and reports too little
room exactly when the computed size is larger, if and only if the fields fit or the first that does
not is refused.  Unpacking does so if and only if every field that is reached has room. -/
theorem struct_bounds (fmt : List Char) :
    (∀ size < 2 ^ 64, ∀ args, ArgsValid (formatFields fmt).1 args →
      (PackSafe size fmt args ↔ PackRoom size (formatFields fmt).1 args)) ∧
    ∀ buf : List UInt8, buf.length < 2 ^ 64 →
      ((structUnpackv buf fmt).Safe buf ↔ UnpackRoom (formatFields fmt).1 buf) :=
  ⟨fun _ hsize _ h => packSafe_iff hsize h, fun _ hbuf => unpack_safe_iff hbuf⟩

/-- Into a buffer of no bytes a byte is packed, into one of a single byte the two of 8256; of no
bytes a byte is unpacked, a string is searched for its end behind the bytes, and an item is
unpacked that reaches behind them. -/
theorem struct_overruns :
    structPackv 0 ['B'] [.uint 5] = ⟨[5], none⟩ ∧
    structPackv 1 ['I'] [.uint 8256] = ⟨[0xe1, 0], none⟩ ∧
    structPackv 2 ['u', 'B'] [.item [1, 2], .uint 5] = ⟨[0x82], some .enomem⟩ ∧
    structPackv 1 ['u', 'B'] [.item [1, 2], .uint 5] = ⟨[0x82, 1, 2, 5], none⟩ ∧
    structSizev ['u', 'B'] [.item [1, 2], .uint 5] = .ok 4 ∧
    (structUnpackv [] ['B']).err = some .fault ∧
    (structUnpackv [97] ['S']).err = some .fault ∧
    structUnpackv [0x83, 1, 2] ['u', '0', 'x'] = ⟨[.item 1 3], 4, none⟩ := by
  decide

end WiredTiger
