/-
# Variable-length integers (`include/intpack_inline.h`)

Integers are packed so that their bytes sort as the numbers do.  The first byte has a marker that
tells the sign and the length; small numbers are in it, or in it and one more byte, and larger ones
follow it in big-endian order.

A packing routine writes bytes from a place on and may fail, also after it has written some; an
unpacking routine reads bytes from a place on.  A length of 0 means that nothing is checked.
-/
import WiredTiger.Lib.SortCode

namespace WiredTiger

open Lib UInt8

/-- The errors of packing. -/
inductive Errno
  | enomem
  | einval
  /-- `WT_PANIC`, of `__wt_illegal_value`. -/
  | panic
  /-- The arguments are not those of the format, and what happens is not defined. -/
  | undefined
  deriving DecidableEq, Repr

/-- What a packing routine has written, and its error, if there is one.  Without an error the place
to write to next is behind what is written. -/
structure Written where
  bytes : List UInt8
  err : Option Errno
  deriving DecidableEq, Repr

/-- Why an unpacking routine does not return. -/
inductive ReadError
  | errno (e : Errno)
  /-- It reads behind the end of the bytes. -/
  | fault
  deriving DecidableEq, Repr

/-! ### Markers and bounds -/

def negMultiMarker : UInt8 := 0x10
def neg2ByteMarker : UInt8 := 0x20
def neg1ByteMarker : UInt8 := 0x40
def pos1ByteMarker : UInt8 := 0x80
def pos2ByteMarker : UInt8 := 0xc0
def posMultiMarker : UInt8 := 0xe0

def neg1ByteMin : ℤ := -2 ^ 6
def neg2ByteMin : ℤ := -2 ^ 13 + neg1ByteMin
def pos1ByteMax : ℕ := 2 ^ 6 - 1
def pos2ByteMax : ℕ := 2 ^ 13 + pos1ByteMax

/-- `GET_BITS`. -/
def getBits (x start stop : ℕ) : ℕ := (x &&& (2 ^ start - 1)) >>> stop

/-- The test of `WT_SIZE_CHECK_PACK` and `WT_SIZE_CHECK_UNPACK`. -/
def sizeFails (l maxl : ℕ) : Prop := maxl ≠ 0 ∧ maxl < l

instance (l maxl : ℕ) : Decidable (sizeFails l maxl) := inferInstanceAs (Decidable (_ ∧ _))

/-- `WT_LEADING_ZEROS`: leading zero bytes of a 64-bit number. -/
def leadingZeros (x : ℕ) : ℕ := if x = 0 then 8 else (63 - Nat.log2 x) / 8

/-- A 64-bit number as signed. -/
def toInt64 (u : ℕ) : ℤ := if u < 2 ^ 63 then u else (u : ℤ) - 2 ^ 64

/-- `(uint64_t)x`. -/
def toUint64 (x : ℤ) : ℕ := (x % 2 ^ 64).toNat

/-! ### Packing -/

/-- `__wt_vpack_posint`, with the marker that is in the first byte already. -/
def vpackPosint (marker : UInt8) (maxlen x : ℕ) : Written :=
  let lz := leadingZeros x
  let len := 8 - lz
  if sizeFails (len + 1) maxlen then ⟨[marker], some .enomem⟩
  else ⟨(marker ||| ofNat (len &&& 0xf)) :: beBytes len x, none⟩

/-- `__wt_vpack_negint`, with the marker that is in the first byte already. -/
def vpackNegint (marker : UInt8) (maxlen x : ℕ) : Written :=
  let lz := leadingZeros (2 ^ 64 - 1 - x)
  let len := 8 - lz
  if sizeFails (len + 1) maxlen then ⟨[marker], some .enomem⟩
  else ⟨(marker ||| ofNat (lz &&& 0xf)) :: beBytes len x, none⟩

/-- `__wt_vpack_uint`. -/
def vpackUint (maxlen x : ℕ) : Written :=
  if sizeFails 1 maxlen then ⟨[], some .enomem⟩
  else if x ≤ pos1ByteMax then ⟨[pos1ByteMarker ||| ofNat (getBits x 6 0)], none⟩
  else if x ≤ pos2ByteMax then
    if sizeFails 2 maxlen then ⟨[], some .enomem⟩
    else
      let x := x - (pos1ByteMax + 1)
      ⟨[pos2ByteMarker ||| ofNat (getBits x 13 8), ofNat (getBits x 8 0)], none⟩
  else if x = pos2ByteMax + 1 then
    -- the number that is left is 0, which takes a byte all the same
    ⟨[posMultiMarker ||| 0x1, 0], none⟩
  else vpackPosint posMultiMarker maxlen (x - (pos2ByteMax + 1))

/-- `__wt_vpack_int`. -/
def vpackInt (maxlen : ℕ) (x : ℤ) : Written :=
  if sizeFails 1 maxlen then ⟨[], some .enomem⟩
  else if x < neg2ByteMin then vpackNegint negMultiMarker maxlen (toUint64 x)
  else if x < neg1ByteMin then
    if sizeFails 2 maxlen then ⟨[], some .enomem⟩
    else
      let x := (x - neg2ByteMin).toNat
      ⟨[neg2ByteMarker ||| ofNat (getBits x 13 8), ofNat (getBits x 8 0)], none⟩
  else if x < 0 then
    ⟨[neg1ByteMarker ||| ofNat (getBits (x - neg1ByteMin).toNat 6 0)], none⟩
  else vpackUint maxlen (toUint64 x)

/-! ### Unpacking -/

/-- The loop that reads `len` bytes into a 64-bit number. -/
def readBe (x : ℕ) : ℕ → List UInt8 → Except ReadError ℕ
  | 0, _ => .ok x
  | _ + 1, [] => .error .fault
  | len + 1, b :: p => readBe (((x <<< 8) ||| b.toNat) % 2 ^ 64) len p

/-- `__wt_vunpack_posint`: the number and how many bytes are read. -/
def vunpackPosint (maxlen : ℕ) : List UInt8 → Except ReadError (ℕ × ℕ)
  | [] => .error .fault
  | b :: p =>
    let len := (b &&& 0xf).toNat
    if sizeFails (len + 1) maxlen then .error (.errno .einval)
    else (readBe 0 len p).map fun x => (x, len + 1)

/-- `__wt_vunpack_negint`; the length is a byte, and too many leading 0xff wrap around. -/
def vunpackNegint (maxlen : ℕ) : List UInt8 → Except ReadError (ℕ × ℕ)
  | [] => .error .fault
  | b :: p =>
    let len := (8 - (b &&& 0xf)).toNat
    if sizeFails (len + 1) maxlen then .error (.errno .einval)
    else (readBe (2 ^ 64 - 1) len p).map fun x => (x, len + 1)

/-- `__wt_vunpack_uint`. -/
def vunpackUint (maxlen : ℕ) (p : List UInt8) : Except ReadError (ℕ × ℕ) :=
  if sizeFails 1 maxlen then .error (.errno .einval)
  else
    match p with
    | [] => .error .fault
    | b :: q =>
      let m := b &&& 0xf0
      if m = pos1ByteMarker ∨ m = pos1ByteMarker ||| 0x10 ∨ m = pos1ByteMarker ||| 0x20 ∨
          m = pos1ByteMarker ||| 0x30 then
        .ok (getBits b.toNat 6 0, 1)
      else if m = pos2ByteMarker ∨ m = pos2ByteMarker ||| 0x10 then
        if sizeFails 2 maxlen then .error (.errno .einval)
        else
          match q with
          | [] => .error .fault
          | c :: _ => .ok (((getBits b.toNat 5 0 <<< 8) ||| c.toNat) + (pos1ByteMax + 1), 2)
      else if m = posMultiMarker then
        (vunpackPosint maxlen p).map fun xn => ((xn.1 + (pos2ByteMax + 1)) % 2 ^ 64, xn.2)
      else .error (.errno .einval)

/-- `__wt_vunpack_int`. -/
def vunpackInt (maxlen : ℕ) (p : List UInt8) : Except ReadError (ℤ × ℕ) :=
  if sizeFails 1 maxlen then .error (.errno .einval)
  else
    match p with
    | [] => .error .fault
    | b :: q =>
      let m := b &&& 0xf0
      if m = negMultiMarker then
        (vunpackNegint maxlen p).map fun xn => (toInt64 xn.1, xn.2)
      else if m = neg2ByteMarker ∨ m = neg2ByteMarker ||| 0x10 then
        if sizeFails 2 maxlen then .error (.errno .einval)
        else
          match q with
          | [] => .error .fault
          | c :: _ => .ok ((((getBits b.toNat 5 0 <<< 8) ||| c.toNat : ℕ) : ℤ) + neg2ByteMin, 2)
      else if m = neg1ByteMarker ∨ m = neg1ByteMarker ||| 0x10 ∨ m = neg1ByteMarker ||| 0x20 ∨
          m = neg1ByteMarker ||| 0x30 then
        .ok (neg1ByteMin + getBits b.toNat 6 0, 1)
      else (vunpackUint maxlen p).map fun xn => (toInt64 xn.1, xn.2)

/-! ### Sizes -/

/-- `WT_INTPACK64_MAXSIZE`. -/
def intpack64Maxsize : ℕ := 9

/-- `__wt_vsize_posint`. -/
def vsizePosint (x : ℕ) : ℕ := intpack64Maxsize - leadingZeros x

/-- `__wt_vsize_negint`. -/
def vsizeNegint (x : ℕ) : ℕ := intpack64Maxsize - leadingZeros (2 ^ 64 - 1 - x)

/-- `__wt_vsize_uint`. -/
def vsizeUint (x : ℕ) : ℕ :=
  if x ≤ pos1ByteMax then 1
  else if x ≤ pos2ByteMax + 1 then 2
  else vsizePosint (x - (pos2ByteMax + 1))

/-- `__wt_vsize_int`. -/
def vsizeInt (x : ℤ) : ℕ :=
  if x < neg2ByteMin then vsizeNegint (toUint64 x)
  else if x < neg1ByteMin then 2
  else if x < 0 then 1
  else vsizeUint (toUint64 x)

end WiredTiger
