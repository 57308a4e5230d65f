/-
# What a packed field is

The bytes of a field are a function of the field and its argument.  They are as many as
`__pack_size` says, and `__pack_write` writes them if they fit.
-/
import WiredTiger.Pack.Struct

namespace WiredTiger

open Lib List Code

variable {pv : PackValue} {u : Arg}
variable {maxlen : ℕ} {pvs : List PackValue}

/-- The argument is one that the caller may pass: it has the type that is taken from the argument
list, and the memory that is read is there. -/
def ArgValid (pv : PackValue) (u : Arg) : Prop :=
  match pv.type, u with
  | .x, _ => True
  | .s, .str mem => pv.size ≤ mem.length
  | .S, .str mem => 0 ∈ mem ∨ pv.havesize ∧ pv.size ≤ mem.length
  | .U, .item data | .u, .item data => data.length < 2 ^ 64
  | .b, .int x | .h, .int x | .i, .int x | .l, .int x => -2 ^ 31 ≤ x ∧ x < 2 ^ 31
  | .q, .int x => -2 ^ 63 ≤ x ∧ x < 2 ^ 63
  | .B, .uint x | .t, .uint x | .H, .uint x | .I, .uint x | .L, .uint x => x < 2 ^ 32
  | .Q, .uint x | .r, .uint x | .R, .uint x => x < 2 ^ 64
  | _, _ => False

/-- The arguments begin with those of the fields; padding takes none. -/
inductive ArgsValid : List PackValue → List Arg → Prop
  | nil {args} : ArgsValid [] args
  | pad {pv pvs args} : pv.type = .x → ArgsValid pvs args → ArgsValid (pv :: pvs) args
  | field {pv pvs u args} : pv.type ≠ .x → ArgValid pv u → ArgsValid pvs args →
      ArgsValid (pv :: pvs) (u :: args)

/-- The bytes of a field. -/
def fieldBytes (pv : PackValue) (u : Arg) : List UInt8 :=
  match pv.type, u with
  | .x, _ => replicate pv.size 0
  | .s, .str mem => mem.take pv.size
  | .S, .str mem => stringBytes pv mem
  | .U, .item data => (codeUint (itemBytes pv data).length).bytes ++ itemBytes pv data
  | .u, .item data => itemBytes pv data
  | .b, .int x => [UInt8.ofNat ((x + 0x80) % 256).toNat]
  | .B, .uint x | .t, .uint x => [UInt8.ofNat x]
  | .h, .int x | .i, .int x | .l, .int x | .q, .int x => (codeInt x).bytes
  | .H, .uint x | .I, .uint x | .L, .uint x | .Q, .uint x | .r, .uint x => (codeUint x).bytes
  | .R, .uint x => nativeBytes x
  | _, _ => []

/-! ### Sizes -/

@[simp] lemma length_nativeBytes (x : ℕ) : (nativeBytes x).length = 8 := by
  simp [nativeBytes]

lemma strlen_le (mem : List UInt8) : strlen mem ≤ mem.length :=
  (takeWhile_sublist _).length_le

lemma strnlen_le (mem : List UInt8) (n : ℕ) : strnlen mem n ≤ n ∧ strnlen mem n ≤ mem.length := by
  have := strlen_le (mem.take n)
  rw [length_take] at this
  unfold strnlen
  omega

lemma length_stringBytes (pv : PackValue) (mem : List UInt8) :
    (stringBytes pv mem).length = if pv.havesize then pv.size else strlen mem + 1 := by
  unfold stringBytes
  split_ifs with h
  · have := strnlen_le mem pv.size
    simp only [length_append, length_take, length_replicate]
    split_ifs <;> omega
  · have := strlen_le mem
    simp only [length_append, length_take, length_replicate]
    omega

lemma itemSizes_le (pv : PackValue) (n : ℕ) : (itemSizes pv n).1 ≤ n := by
  unfold itemSizes
  split_ifs <;> dsimp only <;> omega

lemma length_itemBytes (pv : PackValue) (data : List UInt8) :
    (itemBytes pv data).length =
      (itemSizes pv data.length).1 + (itemSizes pv data.length).2 := by
  have := itemSizes_le pv data.length
  simp only [itemBytes, length_append, length_take, length_replicate]
  omega

/-- The bytes of a field are as many as `__pack_size` computes. -/
lemma length_fieldBytes (h : ArgValid pv u) :
    (fieldBytes pv u).length = packSize pv u := by
  obtain ⟨type, havesize, size⟩ := pv
  cases type <;> cases u <;> simp only [ArgValid] at h <;> try exact h.elim
  case S.str mem => exact length_stringBytes _ mem
  case s.str mem => simpa [fieldBytes, packSize] using h
  case u.item data => exact length_itemBytes _ data
  case U.item data =>
    have hlen := length_itemBytes ⟨.U, havesize, size⟩ data
    simp only [fieldBytes, packSize, length_append, length_bytes]
    rw [← vsizeUint_eq, hlen]
    omega
  case h.int x | i.int x | l.int x | q.int x =>
    simp only [fieldBytes, packSize, length_bytes]
    rw [vsizeInt_eq]
  case H.uint x | I.uint x | L.uint x | Q.uint x | r.uint x =>
    simp only [fieldBytes, packSize, length_bytes]
    rw [vsizeUint_eq]
  all_goals simp [fieldBytes, packSize]

/-! ### Writing -/

lemma not_sizeFails_of_le {n : ℕ} (h : n ≤ maxlen) : ¬ sizeFails n maxlen :=
  fun hf => absurd hf.2 (not_lt.mpr h)

lemma writeBytes_of_le {bytes : List UInt8} (h : bytes.length ≤ maxlen) :
    writeBytes bytes maxlen = ⟨bytes, none⟩ := if_neg (not_sizeFails_of_le h)

/-- The size in front of an item is left of the room for the item. -/
lemma packWrite_U {havesize : Bool} {size : ℕ} {data : List UInt8} (hmax : maxlen < 2 ^ 64)
    (h : vsizeUint (itemBytes ⟨.U, havesize, size⟩ data).length ≤ maxlen) :
    packWrite ⟨.U, havesize, size⟩ (.item data) maxlen =
      let code := (codeUint (itemBytes ⟨.U, havesize, size⟩ data).length).bytes
      let w := writeBytes (itemBytes ⟨.U, havesize, size⟩ data) (maxlen - code.length)
      ⟨code ++ w.bytes, w.err⟩ := by
  have hpos := vsizeUint_pos (itemBytes ⟨.U, havesize, size⟩ data).length
  have hcode : (codeUint (itemBytes ⟨.U, havesize, size⟩ data).length).bytes.length ≤ maxlen := by
    rw [length_bytes, ← vsizeUint_eq]
    exact h
  simp only [packWrite]
  rw [if_neg (not_sizeFails_of_le (by omega)), vpackUint_of_fits (not_sizeFails_of_le h),
    if_neg (by simp), subSize_of_le hcode hmax]

/-- A field that fits is written. -/
lemma packWrite_of_le (h : ArgValid pv u) (hmax : maxlen < 2 ^ 64)
    (hle : packSize pv u ≤ maxlen) : packWrite pv u maxlen = ⟨fieldBytes pv u, none⟩ := by
  have hlen := length_fieldBytes h
  rw [← hlen] at hle
  obtain ⟨type, havesize, size⟩ := pv
  cases type <;> cases u <;> simp only [ArgValid] at h <;> try exact h.elim
  case U.item data =>
    simp only [fieldBytes, length_append, length_bytes] at hle
    have hsize : vsizeUint (itemBytes ⟨.U, havesize, size⟩ data).length ≤ maxlen := by
      rw [vsizeUint_eq]
      omega
    rw [packWrite_U hmax hsize]
    dsimp only
    rw [length_bytes, writeBytes_of_le (by omega)]
    rfl
  case h.int x | i.int x | l.int x | q.int x =>
    simp only [fieldBytes, length_bytes] at hle
    rw [← vsizeInt_eq] at hle
    have hpos := vsizeInt_pos x
    simp only [packWrite]
    rw [if_neg (not_sizeFails_of_le (by omega)),
      vpackInt_of_fits (not_sizeFails_of_le hle)]
    rfl
  case H.uint x | I.uint x | L.uint x | Q.uint x | r.uint x =>
    simp only [fieldBytes, length_bytes] at hle
    rw [← vsizeUint_eq] at hle
    have hpos := vsizeUint_pos x
    simp only [packWrite]
    rw [if_neg (not_sizeFails_of_le (by omega)),
      vpackUint_of_fits (not_sizeFails_of_le hle)]
    rfl
  all_goals exact writeBytes_of_le hle

/-! ### All fields -/

/-- The bytes of a structure. -/
def structBytes : List PackValue → List Arg → List UInt8
  | [], _ => []
  | pv :: pvs, args =>
    match packGet pv args with
    | none => []
    | some (u, args) => fieldBytes pv u ++ structBytes pvs args

lemma takes_of_argValid (hx : pv.type ≠ .x) (h : ArgValid pv u) :
    pv.type.takes u := by
  obtain ⟨type, havesize, size⟩ := pv
  cases type <;> cases u <;> simp only [ArgValid] at h <;> first | exact h.elim | rfl | skip
  all_goals exact absurd rfl hx

lemma packGet_field (hx : pv.type ≠ .x) (h : ArgValid pv u)
    (args : List Arg) : packGet pv (u :: args) = some (u, args) := by
  rw [packGet, if_neg hx]
  exact if_pos (takes_of_argValid hx h)

lemma packGet_pad (hx : pv.type = .x) (args : List Arg) :
    packGet pv args = some (.int 0, args) := if_pos hx

lemma argValid_pad (hx : pv.type = .x) (u : Arg) : ArgValid pv u := by
  obtain ⟨type, havesize, size⟩ := pv
  obtain rfl : type = .x := hx
  trivial

/-- The first field has an argument, and the others have theirs. -/
lemma ArgsValid.cons_inv {args : List Arg} (h : ArgsValid (pv :: pvs) args) :
    ∃ u args', packGet pv args = some (u, args') ∧ ArgValid pv u ∧ ArgsValid pvs args' := by
  cases h with
  | pad hx hrest => exact ⟨.int 0, args, packGet_pad hx args, argValid_pad hx _, hrest⟩
  | field hx hu hrest => exact ⟨_, _, packGet_field hx hu _, hu, hrest⟩

lemma sizeLoop_eq {args : List Arg} (h : ArgsValid pvs args) (e : Option Errno) (n : ℕ) :
    sizeLoop pvs e args n =
      match e with
      | none => .ok (n + (structBytes pvs args).length)
      | some e => .error e := by
  induction pvs generalizing args n with
  | nil => cases e <;> rfl
  | cons pv pvs ih =>
    obtain ⟨u, args', hget, hu, hrest⟩ := h.cons_inv
    have hlen := length_fieldBytes hu
    rw [sizeLoop, hget]
    dsimp only
    rw [ih hrest, structBytes, hget]
    rw [length_append, hlen, add_assoc]

/-- Fields that fit are written. -/
lemma packLoop_of_le {args : List Arg} {size : ℕ} (h : ArgsValid pvs args)
    (hsize : size < 2 ^ 64) (e : Option Errno) {bytes : List UInt8}
    (hle : bytes.length + (structBytes pvs args).length ≤ size) :
    packLoop size pvs e args bytes = ⟨bytes ++ structBytes pvs args, e⟩ := by
  induction pvs generalizing args bytes with
  | nil => simp [packLoop, structBytes]
  | cons pv pvs ih =>
    obtain ⟨u, args', hget, hu, hrest⟩ := h.cons_inv
    have hlen := length_fieldBytes hu
    rw [structBytes, hget] at hle ⊢
    rw [length_append] at hle
    have hw : packWrite pv u (size - bytes.length) = ⟨fieldBytes pv u, none⟩ :=
      packWrite_of_le hu (by omega) (by omega)
    rw [packLoop, hget]
    dsimp only
    rw [subSize_of_le (by omega) hsize, hw, if_neg (by simp),
      ih hrest, append_assoc]
    dsimp only
    rw [length_append]
    omega

end WiredTiger
