/-
# Unpacking cells (`__wt_cell_unpack_safe`)

A cell is unpacked at a place of a page image.  With the end of the page given, as verification
does, reads are checked against it.  A copy cell leads on to the cell it is a copy of; its own
window, count and length are kept.  Places are offsets from the start of the page.
-/
import WiredTiger.Cell.Pack

namespace WiredTiger

open Lib CellType

/-- Why unpacking a cell does not return. -/
inductive CellError
  /-- `WT_ERROR`. -/
  | error
  | read (e : ReadError)
  /-- Copy cells lead in a circle. -/
  | loops
  deriving DecidableEq, Repr

/-- Which of `unpack_addr` and `unpack_value` is filled in. -/
inductive UnpackInto
  | addr
  | value
  deriving DecidableEq, Repr

/-- `WT_CELL_UNPACK_ADDR` and `WT_CELL_UNPACK_KV`; the window of the other one has its default. -/
structure CellUnpack where
  cell : ℕ
  /-- The RLE count or the record number. -/
  v : ℕ
  /-- The place of the data; 0 is `NULL`. -/
  data : ℕ
  size : ℕ
  /-- `__len`. -/
  len : ℕ
  pfx : UInt8
  raw : CellType
  type : CellType
  /-- `WT_CELL_UNPACK_OVERFLOW`. -/
  overflow : Bool
  ta : TimeAggregate
  tw : TimeWindow
  deriving DecidableEq, Repr

/-- `__wt_cell_rle`. -/
def CellUnpack.rle (u : CellUnpack) : ℕ := if u.v < 2 then 1 else u.v

/-- `__wt_cell_type_raw`, if it is one of the types. -/
def cellTypeRaw (desc : UInt8) : Option CellType :=
  if desc &&& 0x03 = keyShort.code then some .keyShort
  else if desc &&& 0x03 = keyShortPfx.code then some .keyShortPfx
  else if desc &&& 0x03 = valueShort.code then some .valueShort
  else
    [addrDel, .addrInt, .addrLeaf, .addrLeafNo, .del, .key, .keyOvfl, .keyOvflRm, .keyPfx,
      .value, .valueCopy, .valueOvfl, .valueOvflRm].find? fun t => desc &&& 0xf0 = t.code

/-- `__wt_cell_type`: special types are collapsed. -/
def CellType.collapse : CellType → CellType
  | .keyShort | .keyShortPfx | .keyPfx => .key
  | .valueShort => .value
  | .keyOvflRm => .keyOvfl
  | .valueOvflRm => .valueOvfl
  | t => t

/-! ### Reading -/

/-- Reads from a place on. -/
abbrev CellReader := StateT ℕ (Except CellError)

section Read

variable (img : List UInt8) (pageEnd : Option ℕ)

/-- `WT_CELL_LEN_CHK`, at a place of the page. -/
def cellLenChk (t len : ℕ) : Except CellError Unit :=
  match pageEnd with
  | none => .ok ()
  | some e => if e < t + len then .error .error else .ok ()

def readByteAt (p : ℕ) : Except CellError UInt8 :=
  match img[p]? with
  | some b => .ok b
  | none => .error (.read .fault)

def readByte : CellReader UInt8 := fun p => (readByteAt img p).map fun b => (b, p + 1)

/-- `__wt_vunpack_uint`.  Behind the end the difference of the pointers is so large that nothing is
checked, as it is for 0. -/
def readUint : CellReader ℕ := fun p =>
  match vunpackUint (pageEnd.elim 0 fun e => e - p) (img.drop p) with
  | .ok (x, n) => .ok (x, p + n)
  | .error e => .error (.read e)

/-- A number that is there if its flag is set. -/
def readField (flags flag : UInt8) (dflt : ℕ) : CellReader ℕ :=
  if flags &&& flag ≠ 0 then readUint img pageEnd else pure dflt

/-- A number that is there as a difference to another one. -/
def readDiff (flags flag : UInt8) (base dflt : ℕ) : CellReader ℕ :=
  if flags &&& flag ≠ 0 then do
    let x ← readUint img pageEnd
    pure (add64 x base)
  else pure dflt

/-! ### The validity window -/

/-- The window of a value; durable times that are not there are those they are the durable times
of. -/
def readValueValidity : CellReader TimeWindow := do
  let flags ← readByte img
  let startTs ← readField img pageEnd flags cellTsStart tsNone
  let startTxn ← readField img pageEnd flags cellTxnStart txnNone
  let durableStartTs ← readDiff img pageEnd flags cellTsDurableStart startTs startTs
  let stopTs ← readDiff img pageEnd flags cellTsStop startTs tsMax
  let stopTxn ← readDiff img pageEnd flags cellTxnStop startTxn txnMax
  let durableStopTs ← readDiff img pageEnd flags cellTsDurableStop stopTs
    (if stopTs ≠ tsMax then stopTs else tsNone)
  pure ⟨durableStartTs, startTs, startTxn, durableStopTs, stopTs, stopTxn,
    flags &&& cellPrepare ≠ 0⟩

/-- The aggregate of an address. -/
def readAddrValidity : CellReader TimeAggregate := do
  let flags ← readByte img
  let oldestStartTs ← readField img pageEnd flags cellTsStart tsNone
  let newestTxn ← readField img pageEnd flags cellTxnStart txnNone
  let newestStartDurableTs ← readDiff img pageEnd flags cellTsDurableStart oldestStartTs tsNone
  let newestStopTs ← readDiff img pageEnd flags cellTsStop oldestStartTs tsMax
  let newestStopTxn ← readDiff img pageEnd flags cellTxnStop newestTxn txnMax
  let newestStopDurableTs ← readDiff img pageEnd flags cellTsDurableStop newestStopTs tsNone
  pure ⟨newestStartDurableTs, newestStopDurableTs, oldestStartTs, newestTxn, newestStopTs,
    newestStopTxn, flags &&& cellPrepare ≠ 0, false⟩

def CellType.hasAddrValidity : CellType → Bool
  | .addrDel | .addrInt | .addrLeaf | .addrLeafNo => true
  | _ => false

def CellType.hasValueValidity : CellType → Bool
  | .del | .value | .valueCopy | .valueOvfl | .valueOvflRm => true
  | _ => false

/-- What is read of a cell in front of its length. -/
structure CellHeader where
  pfx : UInt8
  ta : TimeAggregate
  tw : TimeWindow
  v : ℕ

/-- The validity window, if the type has one; it is an error if a cell of this type is not what is
unpacked. -/
def readValidity (into : UnpackInto) (raw : Option CellType) (desc : UInt8) :
    CellReader (TimeAggregate × TimeWindow) :=
  if raw.any hasAddrValidity then
    if into ≠ .addr then throw .error
    else if desc &&& cellSecondDesc = 0 then pure (.init, .init)
    else do
      let ta ← readAddrValidity img pageEnd
      pure (ta, .init)
  else if raw.any hasValueValidity then
    if into ≠ .value then throw .error
    else if desc &&& cellSecondDesc = 0 then pure (.init, .init)
    else do
      let tw ← readValueValidity img pageEnd
      pure (.init, tw)
  else pure (.init, .init)

/-- The prefix byte of a key. -/
def readPfx (raw : Option CellType) : CellReader UInt8 :=
  if raw = some .keyPfx then do
    let pfx ← readByte img
    let p ← get
    cellLenChk pageEnd p 0
    pure pfx
  else pure 0

def readHeader (into : UnpackInto) (raw : Option CellType) (desc : UInt8) :
    CellReader CellHeader := do
  let pfx ← readPfx img pageEnd raw
  let (ta, tw) ← readValidity img pageEnd into raw desc
  let v ← readField img pageEnd desc cell64V 0
  pure ⟨pfx, ta, tw, v⟩

/-! ### Unpacking -/

/-- What is kept of a copy cell. -/
structure CopyCell where
  v : ℕ
  len : ℕ
  tw : TimeWindow

/-- The end of unpacking (`done`): a copy cell gets its own count, length and window. -/
def cellUnpackDone (cell : ℕ) (copy : Option CopyCell) (u : CellUnpack) :
    Except CellError CellUnpack :=
  let u := match copy with
    | some c => { u with v := c.v, len := c.len, raw := .valueCopy, tw := c.tw }
    | none => u
  (cellLenChk pageEnd cell u.len).map fun _ => u

/-- The size of the data is larger by the adjustment if it was what prevented a short cell. -/
def sizeAdjusted (raw : CellType) (desc : UInt8) (v : ℕ) : Bool :=
  raw = .key ∨ raw = .keyPfx ∨ (raw = .value ∧ v = 0 ∧ desc &&& cellSecondDesc = 0)

def CellType.isOvfl : CellType → Bool
  | .keyOvfl | .keyOvflRm | .valueOvfl | .valueOvflRm => true
  | _ => false

/-- What one pass comes to: the cell, or how far back the cell is that this one is a copy of. -/
inductive CellPass
  | data (u : CellUnpack)
  | copy (v : ℕ) (c : CopyCell)

/-- A short key or value, behind its descriptor byte and `n` more. -/
def shortCell (cell₀ cell n : ℕ) (desc pfx : UInt8) (raw : CellType) : CellUnpack :=
  let size := (desc >>> cellShortShift).toNat
  ⟨cell₀, 0, cell + 1 + n, size, 1 + n + size, pfx, raw, raw.collapse, false, .init, .init⟩

/-- The length of a cell that is not short, or the offset of a copy, is at `p`. -/
def unpackLong (cell₀ cell : ℕ) (desc : UInt8) (h : CellHeader) (p : ℕ) :
    Option CellType → Except CellError CellPass
  | some .valueCopy => do
    let (v, p) ← readUint img pageEnd p
    pure (.copy v ⟨h.v, (p - cell) % 2 ^ 32, h.tw⟩)
  | some .del =>
    pure (.data
      ⟨cell₀, h.v, 0, 0, (p - cell) % 2 ^ 32, h.pfx, .del, .del, false, h.ta, h.tw⟩)
  | some raw => do
    let (v, p) ← readUint img pageEnd p
    let v := if sizeAdjusted raw desc h.v then add64 v cellSizeAdjust else v
    let size := v % 2 ^ 32
    pure (.data
      ⟨cell₀, h.v, p, size, (p - cell + size) % 2 ^ 32, h.pfx, raw, raw.collapse, raw.isOvfl,
        h.ta, h.tw⟩)
  | none => throw .error

/-- One pass of `__wt_cell_unpack_safe`, for a type of cell. -/
def unpackPass (into : UnpackInto) (cell₀ cell : ℕ) (desc : UInt8) :
    Option CellType → Except CellError CellPass
  | some .keyShortPfx => do
    cellLenChk pageEnd cell 1
    let pfx ← readByteAt img (cell + 1)
    pure (.data (shortCell cell₀ cell 1 desc pfx .keyShortPfx))
  | some .keyShort => pure (.data (shortCell cell₀ cell 0 desc 0 .keyShort))
  | some .valueShort => pure (.data (shortCell cell₀ cell 0 desc 0 .valueShort))
  | raw => do
    let (h, p) ← readHeader img pageEnd into raw desc (cell + 1)
    unpackLong img pageEnd cell₀ cell desc h p raw

/-- The cell `v` bytes in front of another one.  Addresses have 64 bits, so that an offset that goes
below the page is one above it; as it is a page's length at most that is looked at from there, it is
enough to know that it is not on the page. -/
def copyTarget (cell v : ℕ) : ℕ := if v ≤ cell then cell - v else cell + 2 ^ 64 - v

/-- The loop of `__wt_cell_unpack_safe` from `copy_cell_restart` on: `cell₀` is the cell that is
unpacked, `cell` where the loop is, and `copy` what is kept of the last copy cell, with the window
of the first. -/
def cellUnpackLoop (into : UnpackInto) (cell₀ : ℕ) :
    ℕ → ℕ → Option CopyCell → Except CellError CellUnpack
  | 0, _, _ => .error .loops
  | fuel + 1, cell, copy => do
    cellLenChk pageEnd cell 0
    let desc ← readByteAt img cell
    match ← unpackPass img pageEnd into cell₀ cell desc (cellTypeRaw desc) with
    | .data u => cellUnpackDone pageEnd cell copy u
    | .copy v c =>
      cellUnpackLoop into cell₀ fuel (copyTarget cell v)
        (some { c with tw := (copy.map CopyCell.tw).getD c.tw })

/-- `__wt_cell_unpack_safe`.  A walk over more copy cells than the page has bytes has been at one of
them before, and never ends. -/
def cellUnpackSafe (into : UnpackInto) (cell : ℕ) : Except CellError CellUnpack :=
  cellUnpackLoop img pageEnd into cell (img.length + 2) cell none

end Read

end WiredTiger
