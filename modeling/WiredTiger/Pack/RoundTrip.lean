/-
# Structures are unpacked as they were packed

A tuple of values is passed to the packing routine by arguments.  It is packed into a buffer of the
size that is computed for it, and what is unpacked from the buffer are the same values.
-/
import WiredTiger.Pack.Fields

namespace WiredTiger

open Lib List Nat Except Out

variable {maxlen : ℕ} {pv : PackValue} {type : PackType} {c : Char}
variable {pvs : List PackValue} {chars : List UInt8}

/-- A value of a column. -/
inductive ColumnValue
  | int (x : ℤ)
  | uint (x : ℕ)
  | str (chars : List UInt8)
  | item (data : List UInt8)
  deriving DecidableEq, Repr

/-- The string at an address: up to a NUL, and not longer than a size that is given. -/
def stringAt (mem : List UInt8) : Option ℕ → List UInt8
  | none => mem.takeWhile (· ≠ 0)
  | some n => (mem.take n).takeWhile (· ≠ 0)

/-- The value that is unpacked. -/
def Out.value (buf : List UInt8) : Out → Option ColumnValue
  | .int x => some (.int x)
  | .uint x => some (.uint x)
  | .str p size => some (.str (stringAt (buf.drop p) size))
  | .item p n => some (.item ((buf.drop p).take n))
  | .unset => none

/-- The characters are in memory, and a NUL behind them unless they take all of a size. -/
def HoldsString (mem chars : List UInt8) (n : ℕ) : Prop :=
  chars ++ [0] <+: mem ∨ chars.length = n ∧ chars <+: mem

/-- The value is in the range of the field, and the argument passes it. -/
def Passes (pv : PackValue) (v : ColumnValue) (u : Arg) : Prop :=
  match pv.type, v, u with
  | .s, .str chars, .str mem =>
    0 ∉ chars ∧ chars.length ≤ pv.size ∧ pv.size ≤ mem.length ∧ HoldsString mem chars pv.size
  | .S, .str chars, .str mem =>
    0 ∉ chars ∧
      if pv.havesize then chars.length ≤ pv.size ∧ HoldsString mem chars pv.size
      else chars ++ [0] <+: mem
  | .U, .item data, .item data' | .u, .item data, .item data' =>
    data' = data ∧ data.length < 2 ^ 64 ∧ (pv.havesize → data.length = pv.size)
  | .b, .int x, .int x' => x' = x ∧ -2 ^ 7 ≤ x ∧ x < 2 ^ 7
  | .h, .int x, .int x' => x' = x ∧ -2 ^ 15 ≤ x ∧ x < 2 ^ 15
  | .i, .int x, .int x' | .l, .int x, .int x' => x' = x ∧ -2 ^ 31 ≤ x ∧ x < 2 ^ 31
  | .q, .int x, .int x' => x' = x ∧ -2 ^ 63 ≤ x ∧ x < 2 ^ 63
  | .B, .uint x, .uint x' => x' = x ∧ x < 2 ^ 8
  -- a field of bits takes a byte, whatever the number of bits
  | .t, .uint x, .uint x' => x' = x ∧ x < 2 ^ 8
  | .H, .uint x, .uint x' => x' = x ∧ x < 2 ^ 16
  | .I, .uint x, .uint x' | .L, .uint x, .uint x' => x' = x ∧ x < 2 ^ 32
  | .Q, .uint x, .uint x' | .r, .uint x, .uint x' | .R, .uint x, .uint x' => x' = x ∧ x < 2 ^ 64
  | _, _, _ => False

/-- The arguments pass the values of the fields; padding has no value. -/
inductive PassesAll : List PackValue → List ColumnValue → List Arg → Prop
  | nil : PassesAll [] [] []
  | pad {pv pvs vs args} : pv.type = .x → PassesAll pvs vs args → PassesAll (pv :: pvs) vs args
  | field {pv pvs v vs u args} : Passes pv v u → PassesAll pvs vs args →
      PassesAll (pv :: pvs) (v :: vs) (u :: args)

lemma Passes.argValid {v : ColumnValue} {u : Arg} (h : Passes pv v u) :
    pv.type ≠ .x ∧ ArgValid pv u := by
  obtain ⟨type, havesize, size⟩ := pv
  cases type <;> cases v <;> cases u <;> simp only [Passes] at h <;> try exact h.elim
  case S.str.str chars mem =>
    refine ⟨by simp, ?_⟩
    cases havesize with
    | false => exact .inl (h.2.subset (by simp))
    | true =>
      obtain ⟨-, hle, hpre | ⟨heq, hpre⟩⟩ := h
      · exact .inl (hpre.subset (by simp))
      · refine .inr ⟨rfl, ?_⟩
        have := hpre.length_le
        dsimp only
        omega
  case s.str.str chars mem => exact ⟨by simp, h.2.2.1⟩
  case U.item.item | u.item.item => exact ⟨by simp, by rw [h.1]; exact h.2.1⟩
  all_goals
    obtain ⟨rfl, h⟩ := h
    refine ⟨by simp, ?_⟩
    simp only [ArgValid]
    omega

lemma PassesAll.argsValid {vs : List ColumnValue} {args : List Arg} (h : PassesAll pvs vs args) :
    ArgsValid pvs args := by
  induction h with
  | nil => exact .nil
  | pad hx _ ih => exact .pad hx ih
  | field hp _ ih => exact .field hp.argValid.1 hp.argValid.2 ih

/-! ### Strings -/

lemma takeWhile_ne_append {chars rest : List UInt8} (h : 0 ∉ chars) :
    (chars ++ rest).takeWhile (· ≠ 0) = chars ++ rest.takeWhile (· ≠ 0) := by
  refine takeWhile_append_of_pos ?_
  intro c hc
  have hne : c ≠ 0 := fun h0 => h (h0 ▸ hc)
  simpa using hne

lemma takeWhile_ne_nul {rest : List UInt8} (h : 0 ∉ chars) :
    (chars ++ 0 :: rest).takeWhile (· ≠ 0) = chars := by
  rw [takeWhile_ne_append h]
  simp

lemma takeWhile_ne_self (h : 0 ∉ chars) : chars.takeWhile (· ≠ 0) = chars := by
  have := @takeWhile_ne_append chars [] h
  simpa using this

/-- The string that is in memory is the one that is found there. -/
lemma stringAt_of_holds {mem : List UInt8} {n : ℕ} (h0 : 0 ∉ chars) (hle : chars.length ≤ n)
    (h : HoldsString mem chars n) : stringAt mem (some n) = chars := by
  show (mem.take n).takeWhile _ = chars
  rcases h with ⟨rest, rfl⟩ | ⟨heq, rest, rfl⟩
  · rw [append_assoc]
    rcases hle.eq_or_lt with heq | hlt
    · rw [take_left' heq]
      exact takeWhile_ne_self h0
    · obtain ⟨k, rfl⟩ := Nat.exists_eq_add_of_lt hlt
      rw [Nat.add_assoc, take_length_add_append]
      exact takeWhile_ne_nul h0
  · rw [take_left' heq]
    exact takeWhile_ne_self h0

lemma stringBytes_sized {mem chars : List UInt8} (hhave : pv.havesize = true)
    (h0 : 0 ∉ chars) (hle : chars.length ≤ pv.size) (h : HoldsString mem chars pv.size) :
    stringBytes pv mem = chars ++ replicate (pv.size - chars.length) 0 := by
  have hat : (mem.take pv.size).takeWhile (· ≠ 0) = chars := stringAt_of_holds h0 hle h
  have hlen : strnlen mem pv.size = chars.length := by
    rw [strnlen, strlen, hat]
  have htake : mem.take chars.length = chars := by
    rcases h with h | h
    · exact (prefix_iff_eq_take.mp ((prefix_append _ _).trans h)).symm
    · exact (prefix_iff_eq_take.mp h.2).symm
  rw [stringBytes, if_pos hhave]
  dsimp only
  rw [hlen, htake]
  congr 2
  split_ifs <;> omega

lemma stringBytes_unsized {mem chars : List UInt8} (hhave : pv.havesize = false)
    (h0 : 0 ∉ chars) (h : chars ++ [0] <+: mem) : stringBytes pv mem = chars ++ [0] := by
  obtain ⟨rest, rfl⟩ := h
  have hlen : strlen (chars ++ [0] ++ rest) = chars.length := by
    rw [strlen, append_assoc, singleton_append, takeWhile_ne_nul h0]
  rw [stringBytes, if_neg (by simp [hhave]), hlen, append_assoc, take_left]
  rfl

/-! ### Reading a field -/

lemma takeBytes_of_le {p n maxlen : ℕ} (h : n ≤ maxlen) : takeBytes p n maxlen = .ok (p + n) :=
  if_neg (not_sizeFails_of_le h)

lemma readBytes_at (pre bs post : List UInt8) :
    readBytes (pre ++ (bs ++ post)) pre.length bs.length = .ok bs := by
  rw [readBytes, if_pos (by simp), drop_left, take_left]

lemma readStrlen_at (pre post : List UInt8) (h0 : 0 ∉ chars) :
    readStrlen (pre ++ (chars ++ [0] ++ post)) pre.length = .ok chars.length := by
  rw [readStrlen, drop_left, if_pos (by simp), strlen, append_assoc,
    singleton_append, takeWhile_ne_nul h0]

lemma castInt_of_range {w : ℕ} {x : ℤ} (hw : w = 8 ∨ w = 16 ∨ w = 32)
    (h : -2 ^ (w - 1) ≤ x ∧ x < 2 ^ (w - 1)) : castInt w x = x := by
  unfold castInt
  rcases hw with rfl | rfl | rfl <;> norm_num at h ⊢ <;> omega

/-- What `__unpack_read` and `WT_UNPACK_PUT` do with a field at `p` in the bytes. -/
def ReadsBack (pv : PackValue) (v : ColumnValue) (buf : List UInt8) (p n maxlen : ℕ) : Prop :=
  ∃ out out', unpackRead pv buf p maxlen = .ok (out, p + n) ∧
    (∀ outs, unpackPut pv out outs = outs ++ [out']) ∧ out'.value buf = some v

variable {havesize : Bool} {size : ℕ} (pre post : List UInt8)

lemma readsBack_s {mem : List UInt8} (h : Passes ⟨.s, havesize, size⟩ (.str chars) (.str mem))
    (hpos : 1 ≤ size) (hmax : (mem.take size ++ post).length = maxlen) :
    ReadsBack ⟨.s, havesize, size⟩ (.str chars) (pre ++ (mem.take size ++ post)) pre.length
      (mem.take size).length maxlen := by
  obtain ⟨h0, hle, hmem, hholds⟩ := h
  dsimp only at hle hmem hholds
  have hlen : (mem.take size).length = size := by
    rw [length_take]
    omega
  rw [length_append, hlen] at hmax
  refine ⟨.str pre.length (some size), .str pre.length (some size), ?_, fun outs => rfl, ?_⟩
  · simp only [unpackRead]
    rw [takeBytes_of_le (by omega), if_pos (by omega), hlen]
    rfl
  · show some (ColumnValue.str ((take size _).takeWhile _)) = _
    rw [drop_left, take_left' hlen]
    exact congrArg (fun l => some (ColumnValue.str l)) (stringAt_of_holds h0 hle hholds)

lemma readsBack_S {mem : List UInt8} (h : Passes ⟨.S, havesize, size⟩ (.str chars) (.str mem))
    (hpos : 1 ≤ size) (hmax : (stringBytes ⟨.S, havesize, size⟩ mem ++ post).length = maxlen) :
    ReadsBack ⟨.S, havesize, size⟩ (.str chars)
      (pre ++ (stringBytes ⟨.S, havesize, size⟩ mem ++ post)) pre.length
      (stringBytes ⟨.S, havesize, size⟩ mem).length maxlen := by
  obtain ⟨h0, h⟩ := h
  cases havesize with
  | true =>
    obtain ⟨hle, hholds⟩ := h
    have hbytes := @stringBytes_sized ⟨.S, true, size⟩ _ _ rfl h0 hle hholds
    dsimp only at hle hbytes
    have hlen : (chars ++ replicate (size - chars.length) 0).length = size := by
      rw [length_append, length_replicate]
      omega
    rw [hbytes] at hmax ⊢
    rw [length_append, hlen] at hmax
    rw [hlen]
    refine ⟨.str pre.length (some size), .str pre.length (some size), ?_, fun outs => rfl, ?_⟩
    · simp only [unpackRead, if_true]
      rw [takeBytes_of_le (by omega), if_pos (by omega)]
      rfl
    · show some (ColumnValue.str ((take size _).takeWhile _)) = _
      rw [drop_left, take_left' hlen]
      rw [takeWhile_ne_append h0]
      simp
  | false =>
    have hbytes := @stringBytes_unsized ⟨.S, false, size⟩ _ _ rfl h0 h
    rw [hbytes] at hmax ⊢
    have hlen : (chars ++ [(0 : UInt8)]).length = chars.length + 1 := by simp
    rw [length_append, hlen] at hmax
    rw [hlen]
    refine ⟨.str pre.length none, .str pre.length none, ?_, fun outs => rfl, ?_⟩
    · simp only [unpackRead, Bool.false_eq_true, if_false]
      rw [readStrlen_at pre post h0]
      show (takeBytes _ _ _ >>= _) = _
      rw [takeBytes_of_le (by omega)]
      rfl
    · show some (ColumnValue.str (takeWhile _ _)) = _
      rw [drop_left, append_assoc, singleton_append, takeWhile_ne_nul h0]

lemma itemBytes_of_exact {data : List UInt8}
    (h : pv.havesize → data.length = pv.size) : itemBytes pv data = data := by
  have hsizes : itemSizes pv data.length = (data.length, 0) := by
    unfold itemSizes
    split_ifs with h1 h2
    · have := h h1.1
      omega
    · have := h h2
      simp only [Prod.mk.injEq, true_and]
      omega
    · rfl
  rw [itemBytes, hsizes]
  simp

lemma readsBack_u {data : List UInt8}
    (h : Passes ⟨.u, havesize, size⟩ (.item data) (.item data))
    (hlast : havesize = false → post = []) (hmax : (data ++ post).length = maxlen) :
    ReadsBack ⟨.u, havesize, size⟩ (.item data) (pre ++ (data ++ post)) pre.length
      data.length maxlen := by
  have hs : (if havesize then size else maxlen) = data.length := by
    cases havesize with
    | false => simp [← hmax, hlast rfl]
    | true => exact (h.2.2 rfl).symm
  refine ⟨.item pre.length data.length, .item pre.length data.length, ?_, fun outs => rfl, ?_⟩
  · simp only [unpackRead]
    rw [hs, takeBytes_of_le (by rw [← hmax]; simp)]
    rfl
  · show some (ColumnValue.item (take _ _)) = _
    rw [drop_left, take_left]

lemma readsBack_U {data : List UInt8}
    (h : Passes ⟨.U, havesize, size⟩ (.item data) (.item data))
    (hmax : ((codeUint data.length).bytes ++ data ++ post).length = maxlen) :
    ReadsBack ⟨.U, havesize, size⟩ (.item data)
      (pre ++ ((codeUint data.length).bytes ++ data ++ post)) pre.length
      ((codeUint data.length).bytes ++ data).length maxlen := by
  obtain ⟨-, hlt, hsize⟩ := h
  have hs : (if havesize then size else data.length) = data.length := by
    cases havesize with
    | false => rfl
    | true => exact (hsize rfl).symm
  simp only [length_append, Code.length_bytes] at hmax
  have hv := @vsizeUint_eq data.length
  refine ⟨.item (pre.length + vsizeUint data.length) data.length,
    .item (pre.length + vsizeUint data.length) data.length, ?_, fun outs => rfl, ?_⟩
  · simp only [unpackRead]
    rw [takeBytes_of_le (by omega), drop_left, append_assoc,
      vunpackUint_code hlt (not_sizeFails_of_le (by omega))]
    show (takeBytes _ _ _ >>= _) = _
    rw [hs, takeBytes_of_le (by omega), length_append, Code.length_bytes, hv]
    simp only [add_assoc]
    rfl
  · show some (ColumnValue.item (take _ _)) = _
    rw [hv, ← Code.length_bytes, ← drop_drop, drop_left, append_assoc,
      drop_left, take_left]

/-- The field is read as a number of the length its first byte says. -/
def ReadsNumber {α : Type} (pv : PackValue) (maxlen : ℕ)
    (unpack : ℕ → List UInt8 → Except ReadError (α × ℕ)) (out : α → Out) : Prop :=
  ∀ buf p, unpackRead pv buf p maxlen = do
    let _ ← takeBytes p 1 maxlen
    let (x, n) ← unpack maxlen (buf.drop p)
    .ok (out x, p + n)

lemma ReadsNumber.readsBack {α : Type} {unpack} {out : α → Out} {x : α} {v : ColumnValue}
    {code : Code} (hread : ReadsNumber pv maxlen unpack out)
    (hunpack : ¬ sizeFails (code.len + 1) maxlen →
      unpack maxlen (code.bytes ++ post) = .ok (x, code.len + 1))
    (hput : ∀ outs, unpackPut pv (out x) outs = outs ++ [out x])
    (hval : ∀ buf, (out x).value buf = some v) (hmax : (code.bytes ++ post).length = maxlen) :
    ReadsBack pv v (pre ++ (code.bytes ++ post)) pre.length code.bytes.length maxlen := by
  rw [length_append, Code.length_bytes] at hmax
  refine ⟨out x, out x, ?_, hput, hval _⟩
  rw [hread, takeBytes_of_le (by omega), drop_left, hunpack (not_sizeFails_of_le (by omega)),
    Code.length_bytes]
  rfl

lemma readsBack_int {x : ℤ} (hx : -2 ^ 63 ≤ x) (hx' : x < 2 ^ 63)
    (hread : ReadsNumber pv maxlen vunpackInt .int)
    (hput : ∀ outs, unpackPut pv (.int x) outs = outs ++ [.int x])
    (hmax : ((codeInt x).bytes ++ post).length = maxlen) :
    ReadsBack pv (.int x) (pre ++ ((codeInt x).bytes ++ post)) pre.length
      (codeInt x).bytes.length maxlen := by
  refine hread.readsBack pre post (fun h => ?_) hput (fun _ => rfl) hmax
  rw [← vsizeInt_eq] at h ⊢
  exact vunpackInt_code hx hx' h post

lemma readsBack_uint {x : ℕ} (hx : x < 2 ^ 64) (hread : ReadsNumber pv maxlen vunpackUint .uint)
    (hput : ∀ outs, unpackPut pv (.uint x) outs = outs ++ [.uint x])
    (hmax : ((codeUint x).bytes ++ post).length = maxlen) :
    ReadsBack pv (.uint x) (pre ++ ((codeUint x).bytes ++ post)) pre.length
      (codeUint x).bytes.length maxlen := by
  refine hread.readsBack pre post (fun h => ?_) hput (fun _ => rfl) hmax
  rw [← vsizeUint_eq] at h ⊢
  exact vunpackUint_code hx h post

lemma readsBack_b {x : ℤ} (hx : -2 ^ 7 ≤ x) (hx' : x < 2 ^ 7)
    (hmax : ([UInt8.ofNat ((x + 0x80) % 256).toNat] ++ post).length = maxlen) :
    ReadsBack ⟨.b, havesize, size⟩ (.int x)
      (pre ++ ([UInt8.ofNat ((x + 0x80) % 256).toNat] ++ post)) pre.length 1 maxlen := by
  have hbyte : ((UInt8.ofNat ((x + 0x80) % 256).toNat).toNat : ℤ) - 0x80 = x := by
    rw [UInt8.toNat_ofNat']
    omega
  have hread := readBytes_at pre [UInt8.ofNat ((x + 0x80) % 256).toNat] post
  rw [length_append] at hmax
  refine ⟨.int x, .int x, ?_, fun outs => ?_, rfl⟩
  · simp only [unpackRead]
    rw [takeBytes_of_le (by rw [← hmax]; simp)]
    rw [show (1 : ℕ) = [UInt8.ofNat ((x + 0x80) % 256).toNat].length from rfl, hread]
    show ok (int (((UInt8.ofNat ((x + 0x80) % 256).toNat).toNat : ℤ) - 0x80), _) = _
    rw [hbyte]
  · show outs ++ [int (castInt 8 x)] = _
    rw [castInt_of_range (.inl rfl) ⟨hx, hx'⟩]

lemma readsBack_byte {x maxlen : ℕ} (htype : type = .B ∨ type = .t)
    (hx : x < 2 ^ 8) (hmax : ([UInt8.ofNat x] ++ post).length = maxlen) :
    ReadsBack ⟨type, havesize, size⟩ (.uint x) (pre ++ ([UInt8.ofNat x] ++ post)) pre.length 1
      maxlen := by
  have hbyte : (UInt8.ofNat x).toNat = x := by
    rw [UInt8.toNat_ofNat']
    omega
  have hread := readBytes_at pre [UInt8.ofNat x] post
  rw [length_append] at hmax
  have hone : 1 ≤ maxlen := by rw [← hmax]; simp
  refine ⟨.uint x, .uint x, ?_, fun outs => ?_, rfl⟩
  · have hrhs : (ok (uint x, pre.length + 1) : Except ReadError (Out × ℕ)) =
        .ok (.uint (UInt8.ofNat x).toNat, pre.length + 1) := by rw [hbyte]
    rw [hrhs]
    rcases htype with rfl | rfl <;>
    · simp only [unpackRead]
      rw [takeBytes_of_le hone]
      rw [show (1 : ℕ) = [UInt8.ofNat x].length from rfl, hread]
      rfl
  · rcases htype with rfl | rfl <;>
    · show outs ++ [uint (x % 2 ^ 8)] = _
      rw [mod_eq_of_lt hx]

lemma readsBack_R {x maxlen : ℕ} (hx : x < 2 ^ 64)
    (hmax : (nativeBytes x ++ post).length = maxlen) :
    ReadsBack ⟨.R, havesize, size⟩ (.uint x) (pre ++ (nativeBytes x ++ post)) pre.length 8
      maxlen := by
  have hval : beValue 0 (nativeBytes x).reverse = x := by
    rw [nativeBytes, reverse_reverse, beValue_beBytes, zero_mul, zero_add]
    exact mod_eq_of_lt hx
  have hread := readBytes_at pre (nativeBytes x) post
  rw [length_nativeBytes] at hread
  rw [length_append, length_nativeBytes] at hmax
  refine ⟨.uint x, .uint x, ?_, fun outs => rfl, rfl⟩
  simp only [unpackRead]
  rw [takeBytes_of_le (by omega)]
  rw [hread]
  show ok (uint (beValue 0 (nativeBytes x).reverse), _) = _
  rw [hval]

/-- **A field is read back** from the place it was written to, if only the last field takes what is
left. -/
lemma readsBack_field {v : ColumnValue} {u : Arg} (h : Passes pv v u)
    (hpos : 1 ≤ pv.size) (hlast : pv.type = .u → pv.havesize = false → post = [])
    (hmax : (fieldBytes pv u ++ post).length = maxlen) :
    ReadsBack pv v (pre ++ (fieldBytes pv u ++ post)) pre.length (fieldBytes pv u).length
      maxlen := by
  obtain ⟨type, havesize, size⟩ := pv
  have h' := h
  cases type <;> cases v <;> cases u <;> simp only [Passes] at h' <;> try exact h'.elim
  case S.str.str chars mem => exact readsBack_S pre post h hpos hmax
  case s.str.str chars mem => exact readsBack_s pre post h hpos hmax
  all_goals obtain ⟨rfl, h'⟩ := h'
  case u.item.item =>
    have hitem := @itemBytes_of_exact ⟨.u, havesize, size⟩ _ h'.2
    simp only [fieldBytes, hitem] at hmax ⊢
    exact readsBack_u pre post h (hlast rfl) hmax
  case U.item.item =>
    have hitem := @itemBytes_of_exact ⟨.U, havesize, size⟩ _ h'.2
    simp only [fieldBytes, hitem] at hmax ⊢
    exact readsBack_U pre post h hmax
  case b.int.int => exact readsBack_b pre post h'.1 h'.2 hmax
  case h.int.int =>
    refine readsBack_int pre post (by omega) (by omega) (fun _ _ => rfl) (fun outs => ?_) hmax
    show outs ++ [int (castInt 16 _)] = _
    rw [castInt_of_range (.inr (.inl rfl)) h']
  case i.int.int | l.int.int =>
    refine readsBack_int pre post (by omega) (by omega) (fun _ _ => rfl) (fun outs => ?_) hmax
    show outs ++ [int (castInt 32 _)] = _
    rw [castInt_of_range (.inr (.inr rfl)) h']
  case q.int.int =>
    exact readsBack_int pre post h'.1 h'.2 (fun _ _ => rfl) (fun outs => rfl) hmax
  case B.uint.uint => exact readsBack_byte pre post (.inl rfl) h' hmax
  case t.uint.uint => exact readsBack_byte pre post (.inr rfl) h' hmax
  case H.uint.uint | I.uint.uint | L.uint.uint =>
    refine readsBack_uint pre post (by omega) (fun _ _ => rfl) (fun outs => ?_) hmax
    show outs ++ [uint (_ % 2 ^ _)] = _
    rw [mod_eq_of_lt h']
  case Q.uint.uint | r.uint.uint =>
    exact readsBack_uint pre post h' (fun _ _ => rfl) (fun outs => rfl) hmax
  case R.uint.uint =>
    have := @readsBack_R havesize size pre post _ _ h' hmax
    simpa [fieldBytes] using this

/-! ### Reading all fields -/

lemma structBytes_pad (hx : pv.type = .x) (pvs : List PackValue)
    (args : List Arg) :
    structBytes (pv :: pvs) args = replicate pv.size 0 ++ structBytes pvs args := by
  obtain ⟨type, havesize, size⟩ := pv
  obtain rfl : type = .x := hx
  rfl

lemma unpackLoop_structBytes {vs : List ColumnValue} {args : List Arg} (h : PassesAll pvs vs args)
    (hpos : ∀ pv ∈ pvs, 1 ≤ pv.size) (hlast : UnsizedLast pvs) (e : Option Errno)
    {buf pre : List UInt8} (outs : List Out) (hbuf : buf = pre ++ structBytes pvs args)
    (hlt : buf.length < 2 ^ 64) :
    ∃ outs', unpackLoop buf pvs e pre.length outs = ⟨outs ++ outs', buf.length, e.map .errno⟩ ∧
      outs'.map (value buf) = vs.map some := by
  induction h generalizing pre outs with
  | nil =>
    rw [structBytes, append_nil] at hbuf
    exact ⟨[], by simp [unpackLoop, hbuf], rfl⟩
  | @pad pv pvs vs args hx hrest ih =>
    rw [structBytes_pad hx, ← append_assoc] at hbuf
    have hlen : buf.length = pre.length + pv.size + (structBytes pvs args).length := by
      simp [hbuf, add_assoc]
    have hread : unpackRead pv buf pre.length (subSize buf.length pre.length) =
        .ok (.unset, (pre ++ replicate pv.size 0).length) := by
      rw [subSize_of_le (by omega) hlt]
      simp only [unpackRead, hx]
      rw [takeBytes_of_le (by omega), length_append, length_replicate]
      rfl
    have hput : unpackPut pv .unset outs = outs := by
      simp [unpackPut, hx]
    obtain ⟨outs', hloop, hmap⟩ :=
      ih (fun pv hpv => hpos pv (mem_cons_of_mem _ hpv)) hlast.2 outs hbuf
    refine ⟨outs', ?_, hmap⟩
    rw [unpackLoop, hread]
    dsimp only
    rw [hput, hloop]
  | @field pv pvs v vs u args hp hrest ih =>
    obtain ⟨hx, hu⟩ := hp.argValid
    rw [structBytes, packGet_field hx hu] at hbuf
    have hlen : buf.length - pre.length = (fieldBytes pv u ++ structBytes pvs args).length := by
      simp [hbuf]
    have hle : pre.length ≤ buf.length := by simp [hbuf]
    have hempty : pv.type = .u → pv.havesize = false → structBytes pvs args = [] := by
      intro htype hhave
      rw [hlast.1 htype hhave, structBytes]
    obtain ⟨out, out', hread, hput, hval⟩ := readsBack_field pre (structBytes pvs args) hp
      (hpos pv mem_cons_self) hempty rfl
    rw [← hbuf, ← hlen, ← length_append] at hread
    rw [← hbuf] at hval
    rw [← append_assoc] at hbuf
    obtain ⟨outs', hloop, hmap⟩ := ih (fun pv hpv => hpos pv (mem_cons_of_mem _ hpv))
      hlast.2 (outs ++ [out']) hbuf
    refine ⟨out' :: outs', ?_, ?_⟩
    · rw [unpackLoop, subSize_of_le hle hlt, hread]
      dsimp only
      rw [hput, hloop, append_assoc, singleton_append]
    · rw [map_cons, hval, hmap, map_cons]

/-! ### Formats of one character -/

lemma exists_of_singleType {fmt : List Char} {t : Option PackType}
    (h : singleType fmt = some t) : ∃ c, fmt = [c] ∧ t = PackType.ofChar c := by
  unfold singleType at h
  split at h
  · cases h
    exact ⟨_, rfl, rfl⟩
  · cases h

/-- A format of one character has one field. -/
lemma formatFields_single (h : PackType.ofChar c = some type) :
    formatFields [c] = ([.init type], none) := by
  unfold PackType.ofChar at h
  split at h <;> cases h <;> rfl

lemma nextField_single_none (h : PackType.ofChar c = none) (fuel : ℕ) :
    nextField (fuel + 1) [c] = .einval := by
  unfold nextField readSize
  by_cases hd : c.isDigit <;> simp [hd, h]

/-- A character that is no type is no format. -/
lemma formatFields_single_none (h : PackType.ofChar c = none) :
    formatFields [c] = ([], some .einval) := by
  unfold formatFields packInit
  dsimp only
  by_cases h1 : c = '@' ∨ c = '<' ∨ c = '>'
  · rw [if_pos h1]
  · rw [if_neg h1]
    split_ifs with h2
    · rfl
    · simp [Pack.fields, fieldsFrom, replicate_zero, length_cons,
        length_nil, nextField_single_none h]

/-- Sizing, packing and unpacking as for a format of several characters. -/
structure FollowsLoops (fmt : List Char) (pvs : List PackValue) : Prop where
  sizev : ∀ args, structSizev fmt args = sizeLoop pvs none args 0
  packv : ∀ size < 2 ^ 64, ∀ args, structPackv size fmt args = packLoop size pvs none args []
  unpackv : ∀ buf : List UInt8, buf.length < 2 ^ 64 →
    structUnpackv buf fmt = unpackLoop buf pvs none 0 []

lemma followsLoops_single (h : PackType.ofChar c = some type) :
    FollowsLoops [c] [.init type] := by
  have hs : singleType [c] = some (some type) := congrArg some h
  constructor
  · intro args
    rw [structSizev, hs]
    simp [sizeLoop, zero_add]
  · intro size hsize args
    rw [structPackv, hs]
    simp only [packLoop, nil_append, length_nil, subSize_zero hsize]
    cases packGet (.init type) args with
    | none => rfl
    | some ua =>
      dsimp only
      cases hw : packWrite (.init type) ua.1 size with
      | mk bytes err => cases err <;> rfl
  · intro buf hbuf
    rw [structUnpackv, hs]
    simp only [unpackLoop]
    rw [subSize_zero hbuf]
    cases unpackRead (.init type) buf 0 buf.length <;> rfl

/-- A format that is accepted is worked through field by field, also if it has one character. -/
lemma followsLoops {fmt : List Char} (h : formatFields fmt = (pvs, none)) :
    FollowsLoops fmt pvs := by
  cases hs : singleType fmt with
  | none =>
    constructor
    · intro args
      rw [structSizev, hs, h]
    · intro size _ args
      rw [structPackv, hs, h]
    · intro buf _
      rw [structUnpackv, hs, h]
  | some t =>
    obtain ⟨c, rfl, rfl⟩ := exists_of_singleType hs
    cases hc : PackType.ofChar c with
    | none =>
      rw [formatFields_single_none hc] at h
      cases h
    | some type =>
      rw [formatFields_single hc] at h
      cases h
      exact followsLoops_single hc

/-! ### The round trip -/

/-- **What is packed is unpacked.**  For every format that is accepted and all values of its
fields, the packed size is computed; a buffer of this size is written to its end, and unpacking it
gives the values.  A format of one character, for which there is a path of its own, is treated as
the loops over the fields would treat it. -/
theorem struct_roundTrip {fmt : List Char} {pvs : List PackValue} {vs : List ColumnValue}
    {args : List Arg} (hfmt : formatFields fmt = (pvs, none)) (hpos : ∀ pv ∈ pvs, 1 ≤ pv.size)
    (hp : PassesAll pvs vs args) :
    FollowsLoops fmt pvs ∧
    ∃ size, structSizev fmt args = .ok size ∧
      (size < 2 ^ 64 →
        ∃ bytes outs, structPackv size fmt args = ⟨bytes, none⟩ ∧ bytes.length = size ∧
          structUnpackv bytes fmt = ⟨outs, size, none⟩ ∧
          outs.map (value bytes) = vs.map some) := by
  have hfollow := followsLoops hfmt
  have hlast := unsizedLast_formatFields fmt
  rw [hfmt] at hlast
  refine ⟨hfollow, (structBytes pvs args).length, ?_, fun hlt => ?_⟩
  · rw [hfollow.sizev, sizeLoop_eq hp.argsValid]
    simp
  · obtain ⟨outs, hloop, hmap⟩ := unpackLoop_structBytes hp hpos hlast none []
      (nil_append _).symm hlt
    refine ⟨structBytes pvs args, outs, ?_, rfl, ?_, hmap⟩
    · rw [hfollow.packv _ hlt, packLoop_of_le hp.argsValid hlt none (by simp)]
      rfl
    · rw [hfollow.unpackv _ hlt]
      exact hloop

/-- The format `Su5si`, with an item of one byte and a string of two characters in five bytes. -/
theorem struct_roundTrip_example :
    ∃ size, structSizev ['S', 'u', '5', 's', 'i']
        [.str [104, 105, 0], .item [7], .str [97, 98, 0, 1, 2], .int (-70)] = .ok size ∧
      (size < 2 ^ 64 → ∃ bytes outs, structPackv size ['S', 'u', '5', 's', 'i']
          [.str [104, 105, 0], .item [7], .str [97, 98, 0, 1, 2], .int (-70)] = ⟨bytes, none⟩ ∧
        bytes.length = size ∧ structUnpackv bytes ['S', 'u', '5', 's', 'i'] = ⟨outs, size, none⟩ ∧
        outs.map (value bytes) =
          [ColumnValue.str [104, 105], .item [7], .str [97, 98], .int (-70)].map some) :=
  (@struct_roundTrip ['S', 'u', '5', 's', 'i']
    [⟨.S, false, 1⟩, ⟨.U, false, 1⟩, ⟨.s, true, 5⟩, ⟨.i, false, 1⟩]
    [.str [104, 105], .item [7], .str [97, 98], .int (-70)]
    [.str [104, 105, 0], .item [7], .str [97, 98, 0, 1, 2], .int (-70)]
    (by decide) (by decide)
    (.field ⟨by decide, [], rfl⟩
      (.field ⟨rfl, by decide, by decide⟩
        (.field ⟨by decide, by decide, by decide, .inl ⟨[1, 2], rfl⟩⟩
          (.field ⟨rfl, by decide, by decide⟩ .nil))))).2

end WiredTiger
