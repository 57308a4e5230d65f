/-
# Packing structures (`include/packing_inline.h`)

The fields of a format are sized, packed or unpacked one after the other.  What is packed are
arguments; a string is the memory at its address, the terminating NUL and what is behind it
included.  What is unpacked are numbers, and places in the packed bytes: a string or an item is not
copied.

Sizes are `size_t` and so is the difference of two addresses; sums of sizes of objects in memory do
not wrap around.
-/
import WiredTiger.Pack.Format
import WiredTiger.Pack.IntPackProps

namespace WiredTiger

open Lib List

/-- The difference of two sizes or addresses, which wraps around. -/
def subSize (a b : ℕ) : ℕ := (a + (2 ^ 64 - b % 2 ^ 64)) % 2 ^ 64

lemma subSize_of_le {a b : ℕ} (h : b ≤ a) (ha : a < 2 ^ 64) : subSize a b = a - b := by
  unfold subSize
  omega

lemma subSize_zero {a : ℕ} (ha : a < 2 ^ 64) : subSize a 0 = a := subSize_of_le (Nat.zero_le a) ha

/-! ### Arguments -/

/-- An argument of a packing routine. -/
inductive Arg
  /-- A signed number, or none for a field that takes no argument. -/
  | int (x : ℤ)
  | uint (x : ℕ)
  /-- The memory at the address of a string. -/
  | str (mem : List UInt8)
  | item (data : List UInt8)
  deriving DecidableEq, Repr

/-- The argument is one that `va_arg` takes for the type. -/
def PackType.takes : PackType → Arg → Bool
  | .s, .str _ | .S, .str _ => true
  | .U, .item _ | .u, .item _ => true
  | .b, .int _ | .h, .int _ | .i, .int _ | .l, .int _ | .q, .int _ => true
  | .B, .uint _ | .H, .uint _ | .I, .uint _ | .L, .uint _ | .t, .uint _ => true
  | .Q, .uint _ | .r, .uint _ | .R, .uint _ => true
  | _, _ => false

/-- `WT_PACK_GET`: the value of the field and the arguments that are left. -/
def packGet (pv : PackValue) (args : List Arg) : Option (Arg × List Arg) :=
  if pv.type = .x then some (.int 0, args)
  else
    match args with
    | [] => none
    | a :: args => if pv.type.takes a then some (a, args) else none

/-! ### Strings -/

/-- `strlen`, of memory that has a NUL. -/
def strlen (mem : List UInt8) : ℕ := (mem.takeWhile (· ≠ 0)).length

/-- `__wt_strnlen`. -/
def strnlen (mem : List UInt8) (n : ℕ) : ℕ := strlen (mem.take n)

/-! ### One field -/

/-- The bytes of an item that are packed and the padding, `s` and `pad` of `__pack_size` and
`__pack_write`. -/
def itemSizes (pv : PackValue) (size : ℕ) : ℕ × ℕ :=
  if pv.havesize ∧ pv.size < size then (pv.size, 0)
  else if pv.havesize then (size, pv.size - size)
  else (size, 0)

/-- `__pack_size`. -/
def packSize (pv : PackValue) (u : Arg) : ℕ :=
  match pv.type, u with
  | .x, _ => pv.size
  | .s, _ => pv.size
  | .S, .str mem => if pv.havesize then pv.size else strlen mem + 1
  | .U, .item data =>
    let (s, pad) := itemSizes pv data.length
    s + vsizeUint (s + pad) + pad
  | .u, .item data =>
    let (s, pad) := itemSizes pv data.length
    s + pad
  | .b, _ | .B, _ | .t, _ => 1
  | .h, .int x | .i, .int x | .l, .int x | .q, .int x => vsizeInt x
  | .H, .uint x | .I, .uint x | .L, .uint x | .Q, .uint x | .r, .uint x => vsizeUint x
  | .R, _ => 8
  | _, _ => 0

/-- A field of known bytes is written if there is room. -/
def writeBytes (bytes : List UInt8) (maxlen : ℕ) : Written :=
  if sizeFails bytes.length maxlen then ⟨[], some .enomem⟩ else ⟨bytes, none⟩

/-- A number in the order of bytes of the machine. -/
def nativeBytes (x : ℕ) : List UInt8 := (beBytes 8 x).reverse

/-- The bytes of an item and its padding. -/
def itemBytes (pv : PackValue) (data : List UInt8) : List UInt8 :=
  let (s, pad) := itemSizes pv data.length
  data.take s ++ replicate pad 0

/-- The bytes of a string and its padding. -/
def stringBytes (pv : PackValue) (mem : List UInt8) : List UInt8 :=
  if pv.havesize then
    let s := strnlen mem pv.size
    let pad := if s < pv.size then pv.size - s else 0
    mem.take s ++ replicate pad 0
  else mem.take (strlen mem) ++ replicate 1 0

/-- `__pack_write`. -/
def packWrite (pv : PackValue) (u : Arg) (maxlen : ℕ) : Written :=
  match pv.type, u with
  | .x, _ => writeBytes (replicate pv.size 0) maxlen
  | .s, .str mem => writeBytes (mem.take pv.size) maxlen
  | .S, .str mem => writeBytes (stringBytes pv mem) maxlen
  | .U, .item data =>
    if sizeFails 1 maxlen then ⟨[], some .enomem⟩
    else
      let w := vpackUint maxlen (itemBytes pv data).length
      if w.err.isSome then w
      else
        let w' := writeBytes (itemBytes pv data) (subSize maxlen w.bytes.length)
        ⟨w.bytes ++ w'.bytes, w'.err⟩
  | .u, .item data => writeBytes (itemBytes pv data) maxlen
  | .b, .int x => writeBytes [UInt8.ofNat ((x + 0x80) % 256).toNat] maxlen
  | .B, .uint x | .t, .uint x => writeBytes [UInt8.ofNat x] maxlen
  | .h, .int x | .i, .int x | .l, .int x | .q, .int x =>
    if sizeFails 1 maxlen then ⟨[], some .enomem⟩ else vpackInt maxlen x
  | .H, .uint x | .I, .uint x | .L, .uint x | .Q, .uint x | .r, .uint x =>
    if sizeFails 1 maxlen then ⟨[], some .enomem⟩ else vpackUint maxlen x
  | .R, .uint x => writeBytes (nativeBytes x) maxlen
  | _, _ => ⟨[], some .einval⟩

/-- What is unpacked. -/
inductive Out
  | int (x : ℤ)
  | uint (x : ℕ)
  /-- The address of a string, and its size if the format has one. -/
  | str (p : ℕ) (size : Option ℕ)
  | item (p size : ℕ)
  /-- Nothing is set: the field has no value, or the value is what it was. -/
  | unset
  deriving DecidableEq, Repr

/-- A read of `n` bytes at `p`. -/
def readBytes (buf : List UInt8) (p n : ℕ) : Except ReadError (List UInt8) :=
  if p + n ≤ buf.length then .ok ((buf.drop p).take n) else .error .fault

/-- `strlen` in the packed bytes. -/
def readStrlen (buf : List UInt8) (p : ℕ) : Except ReadError ℕ :=
  if (0 : UInt8) ∈ buf.drop p then .ok (strlen (buf.drop p)) else .error .fault

/-- The end of an unpacked field of `n` bytes at `p`, `WT_SIZE_CHECK_UNPACK` and the step behind
it. -/
def takeBytes (p n maxlen : ℕ) : Except ReadError ℕ :=
  if sizeFails n maxlen then .error (.errno .einval) else .ok (p + n)

/-- `__unpack_read`: the value, and the place behind it. -/
def unpackRead (pv : PackValue) (buf : List UInt8) (p maxlen : ℕ) :
    Except ReadError (Out × ℕ) :=
  match pv.type with
  | .x => do
    let p' ← takeBytes p pv.size maxlen
    .ok (.unset, p')
  | .s => do
    let p' ← takeBytes p pv.size maxlen
    .ok (if 0 < pv.size then .str p (some pv.size) else .unset, p')
  | .S => do
    if pv.havesize then
      let p' ← takeBytes p pv.size maxlen
      .ok (if 0 < pv.size then .str p (some pv.size) else .unset, p')
    else
      let len ← readStrlen buf p
      let p' ← takeBytes p (len + 1) maxlen
      .ok (.str p none, p')
  | .U => do
    let _ ← takeBytes p 1 maxlen
    let (x, n) ← vunpackUint maxlen (buf.drop p)
    let s := if pv.havesize then pv.size else x
    -- the length that is left is not made smaller by the bytes of the size
    let p' ← takeBytes (p + n) s maxlen
    .ok (.item (p + n) s, p')
  | .u => do
    let s := if pv.havesize then pv.size else maxlen
    let p' ← takeBytes p s maxlen
    .ok (.item p s, p')
  | .b => do
    let p' ← takeBytes p 1 maxlen
    let bs ← readBytes buf p 1
    .ok (.int ((bs.headD 0).toNat - 0x80), p')
  | .B | .t => do
    let p' ← takeBytes p 1 maxlen
    let bs ← readBytes buf p 1
    .ok (.uint (bs.headD 0).toNat, p')
  | .h | .i | .l | .q => do
    let _ ← takeBytes p 1 maxlen
    let (x, n) ← vunpackInt maxlen (buf.drop p)
    .ok (.int x, p + n)
  | .H | .I | .L | .Q | .r => do
    let _ ← takeBytes p 1 maxlen
    let (x, n) ← vunpackUint maxlen (buf.drop p)
    .ok (.uint x, p + n)
  | .R => do
    let p' ← takeBytes p 8 maxlen
    let bs ← readBytes buf p 8
    .ok (.uint (beValue 0 bs.reverse), p')

/-- A cast to a signed type of `w` bits. -/
def castInt (w : ℕ) (x : ℤ) : ℤ := (x + 2 ^ (w - 1)) % 2 ^ w - 2 ^ (w - 1)

/-- `WT_UNPACK_PUT`: the value is put where the next argument points, cast to its type; a field
without value takes no argument. -/
def unpackPut (pv : PackValue) (out : Out) (outs : List Out) : List Out :=
  match pv.type, out with
  | .x, _ => outs
  | .b, .int x => outs ++ [.int (castInt 8 x)]
  | .h, .int x => outs ++ [.int (castInt 16 x)]
  | .i, .int x | .l, .int x => outs ++ [.int (castInt 32 x)]
  | .B, .uint x | .t, .uint x => outs ++ [.uint (x % 2 ^ 8)]
  | .H, .uint x => outs ++ [.uint (x % 2 ^ 16)]
  | .I, .uint x | .L, .uint x => outs ++ [.uint (x % 2 ^ 32)]
  | _, out => outs ++ [out]

/-! ### Structures -/

/-- The loop of `__wt_struct_sizev`. -/
def sizeLoop : List PackValue → Option Errno → List Arg → ℕ → Except Errno ℕ
  | [], none, _, size => .ok size
  | [], some e, _, _ => .error e
  | pv :: pvs, e, args, size =>
    match packGet pv args with
    | none => .error .undefined
    | some (u, args) => sizeLoop pvs e args (size + packSize pv u)

/-- The loop of `__wt_struct_packv`, with what is written. -/
def packLoop (size : ℕ) : List PackValue → Option Errno → List Arg → List UInt8 → Written
  | [], e, _, bytes => ⟨bytes, e⟩
  | pv :: pvs, e, args, bytes =>
    match packGet pv args with
    | none => ⟨bytes, some .undefined⟩
    | some (u, args) =>
      let w := packWrite pv u (subSize size bytes.length)
      if w.err.isSome then ⟨bytes ++ w.bytes, w.err⟩
      else packLoop size pvs e args (bytes ++ w.bytes)

/-- What `__wt_struct_unpackv` has put, the place it is at, and its error, if there is one. -/
structure Unpacked where
  outs : List Out
  pos : ℕ
  err : Option ReadError
  deriving DecidableEq, Repr

/-- The loop of `__wt_struct_unpackv`. -/
def unpackLoop (buf : List UInt8) : List PackValue → Option Errno → ℕ → List Out → Unpacked
  | [], e, p, outs => ⟨outs, p, e.map .errno⟩
  | pv :: pvs, e, p, outs =>
    match unpackRead pv buf p (subSize buf.length p) with
    | .error err => ⟨outs, p, some err⟩
    | .ok (out, p') => unpackLoop buf pvs e p' (unpackPut pv out outs)

/-- A format of one character, which is not parsed. -/
def singleType : List Char → Option (Option PackType)
  | [c] => some (PackType.ofChar c)
  | _ => none

/-- `__wt_struct_sizev`. -/
def structSizev (fmt : List Char) (args : List Arg) : Except Errno ℕ :=
  match singleType fmt with
  | some none => .error .panic
  | some (some type) =>
    match packGet (.init type) args with
    | none => .error .undefined
    | some (u, _) => .ok (packSize (.init type) u)
  | none => sizeLoop (formatFields fmt).1 (formatFields fmt).2 args 0

/-- `__wt_struct_packv` into a buffer of `size` bytes. -/
def structPackv (size : ℕ) (fmt : List Char) (args : List Arg) : Written :=
  match singleType fmt with
  | some none => ⟨[], some .panic⟩
  | some (some type) =>
    match packGet (.init type) args with
    | none => ⟨[], some .undefined⟩
    | some (u, _) => packWrite (.init type) u size
  | none => packLoop size (formatFields fmt).1 (formatFields fmt).2 args []

/-- `__wt_struct_unpackv`.  A character that is no type is found by `__unpack_read`. -/
def structUnpackv (buf : List UInt8) (fmt : List Char) : Unpacked :=
  match singleType fmt with
  | some none => ⟨[], 0, some (.errno .einval)⟩
  | some (some type) =>
    match unpackRead (.init type) buf 0 buf.length with
    | .error err => ⟨[], 0, some err⟩
    | .ok (out, p) => ⟨unpackPut (.init type) out [], p, none⟩
  | none => unpackLoop buf (formatFields fmt).1 (formatFields fmt).2 0 []

end WiredTiger
