/-
# Packing cells (`include/cell.h`, `include/cell_inline.h`)

A cell starts with a descriptor byte.  Short keys and values have their length in it; otherwise it
has the type of the cell and tells whether a second descriptor byte and a 64-bit number follow.  The
second descriptor byte tells which fields of a time window follow; what is the default of a field is
not written, and later times are written as differences.
-/
import WiredTiger.Cell.TimeWindow
import WiredTiger.Pack.IntPack

namespace WiredTiger

open Lib

/-! ### Descriptor bytes -/

/-- `WT_CELL_*`, the types of cells. -/
inductive CellType
  | keyShort
  | keyShortPfx
  | valueShort
  | addrDel
  | addrInt
  | addrLeaf
  | addrLeafNo
  | del
  | key
  | keyOvfl
  | keyOvflRm
  | keyPfx
  | value
  | valueCopy
  | valueOvfl
  | valueOvflRm
  deriving DecidableEq, Repr

/-- The bits of a type in the descriptor byte. -/
def CellType.code : CellType → UInt8
  | .keyShort => 0x01
  | .keyShortPfx => 0x02
  | .valueShort => 0x03
  | .addrDel => 0x00
  | .addrInt => 0x10
  | .addrLeaf => 0x20
  | .addrLeafNo => 0x30
  | .del => 0x40
  | .key => 0x50
  | .keyOvfl => 0x60
  | .keyOvflRm => 0xc0
  | .keyPfx => 0x70
  | .value => 0x80
  | .valueCopy => 0x90
  | .valueOvfl => 0xa0
  | .valueOvflRm => 0xb0

/-- `WT_CELL_SHORT_MAX`. -/
def cellShortMax : ℕ := 63

/-- `WT_CELL_SHORT_SHIFT`. -/
def cellShortShift : UInt8 := 2

/-- `WT_CELL_SIZE_ADJUST`. -/
def cellSizeAdjust : ℕ := cellShortMax + 1

/-- `WT_CELL_64V`. -/
def cell64V : UInt8 := 0x04

/-- `WT_CELL_SECOND_DESC`. -/
def cellSecondDesc : UInt8 := 0x08

/-- `WT_CELL_PREPARE`. -/
def cellPrepare : UInt8 := 0x01

def cellTsDurableStart : UInt8 := 0x02
def cellTsDurableStop : UInt8 := 0x04
def cellTsStart : UInt8 := 0x08
def cellTsStop : UInt8 := 0x10
def cellTxnStart : UInt8 := 0x20
def cellTxnStop : UInt8 := 0x40

/-! ### The validity window -/

/-- The difference of two 64-bit numbers. -/
def sub64 (x y : ℕ) : ℕ := (x + 2 ^ 64 - y) % 2 ^ 64

/-- The sum of two 64-bit numbers. -/
def add64 (x y : ℕ) : ℕ := (x + y) % 2 ^ 64

/-- `__wt_vpack_uint`, with room for any number and its error ignored. -/
def packUint (x : ℕ) : List UInt8 := (vpackUint 0 x).bytes

/-- A field of a window: whether it is written, with which flag, and the number. -/
structure CellField where
  present : Bool
  flag : UInt8
  number : ℕ

def CellField.bytes (f : CellField) : List UInt8 := if f.present then packUint f.number else []

def CellField.bits (f : CellField) : UInt8 := if f.present then f.flag else 0

/-- A window is written as its flags and the fields that are set, and not at all if it is empty.
The bits are those for the first descriptor byte. -/
def packValidity (empty prepare : Bool) (fields : List CellField) : UInt8 × List UInt8 :=
  if empty then (0, [])
  else
    let flags := fields.foldl (fun flags f => flags ||| f.bits) 0
    (cellSecondDesc,
      (if prepare then flags ||| cellPrepare else flags) :: fields.flatMap CellField.bytes)

/-- The fields of a value's window, in the order in which they are written. -/
def TimeWindow.cellFields (tw : TimeWindow) : List CellField :=
  [⟨tw.startTs ≠ tsNone, cellTsStart, tw.startTs⟩,
    ⟨tw.startTxn ≠ txnNone, cellTxnStart, tw.startTxn⟩,
    ⟨tw.durableStartTs ≠ tsNone ∧ 0 < sub64 tw.durableStartTs tw.startTs, cellTsDurableStart,
      sub64 tw.durableStartTs tw.startTs⟩,
    ⟨tw.stopTs ≠ tsMax, cellTsStop, sub64 tw.stopTs tw.startTs⟩,
    ⟨tw.stopTxn ≠ txnMax, cellTxnStop, sub64 tw.stopTxn tw.startTxn⟩,
    ⟨tw.durableStopTs ≠ tsNone ∧ 0 < sub64 tw.durableStopTs tw.stopTs, cellTsDurableStop,
      sub64 tw.durableStopTs tw.stopTs⟩]

/-- `__cell_pack_value_validity`. -/
def cellPackValueValidity (tw : TimeWindow) : UInt8 × List UInt8 :=
  packValidity tw.isEmpty tw.prepare tw.cellFields

/-- The fields of an address's aggregate.  Other than for values, the durable times are written also
if the difference is zero. -/
def TimeAggregate.cellFields (ta : TimeAggregate) : List CellField :=
  [⟨ta.oldestStartTs ≠ tsNone, cellTsStart, ta.oldestStartTs⟩,
    ⟨ta.newestTxn ≠ txnNone, cellTxnStart, ta.newestTxn⟩,
    ⟨ta.newestStartDurableTs ≠ tsNone, cellTsDurableStart,
      sub64 ta.newestStartDurableTs ta.oldestStartTs⟩,
    ⟨ta.newestStopTs ≠ tsMax, cellTsStop, sub64 ta.newestStopTs ta.oldestStartTs⟩,
    ⟨ta.newestStopTxn ≠ txnMax, cellTxnStop, sub64 ta.newestStopTxn ta.newestTxn⟩,
    ⟨ta.newestStopDurableTs ≠ tsNone, cellTsDurableStop,
      sub64 ta.newestStopDurableTs ta.newestStopTs⟩]

/-- `__cell_pack_addr_validity`. -/
def cellPackAddrValidity (ta : TimeAggregate) : UInt8 × List UInt8 :=
  packValidity ta.isEmpty ta.prepare ta.cellFields

/-! ### Cells -/

/-- The types of addresses. -/
inductive AddrType
  | del
  | int
  | leaf
  | leafNo
  deriving DecidableEq, Repr

def AddrType.toCellType : AddrType → CellType
  | .del => .addrDel
  | .int => .addrInt
  | .leaf => .addrLeaf
  | .leafNo => .addrLeafNo

/-- `__wt_cell_pack_addr`; a record number of 0 is `WT_RECNO_OOB`. -/
def cellPackAddr (type : AddrType) (recno : ℕ) (ta : TimeAggregate) (size : ℕ) : List UInt8 :=
  let (desc, validity) := cellPackAddrValidity ta
  if recno = 0 then (desc ||| type.toCellType.code) :: (validity ++ packUint size)
  else
    (desc ||| (type.toCellType.code ||| cell64V)) :: (validity ++ packUint recno ++ packUint size)

/-- The descriptor byte of a short key or value. -/
def shortDesc (size : ℕ) (type : CellType) : UInt8 :=
  UInt8.ofNat size <<< cellShortShift ||| type.code

/-- `__wt_cell_pack_value`. -/
def cellPackValue (tw : TimeWindow) (rle size : ℕ) : List UInt8 :=
  let (desc, window) := cellPackValueValidity tw
  let validity := desc &&& cellSecondDesc ≠ 0
  if ¬validity ∧ rle < 2 ∧ size ≤ cellShortMax then [shortDesc size .valueShort]
  else if ¬validity ∧ rle < 2 then
    -- the size is larger than the adjustment
    (desc ||| CellType.value.code) :: (window ++ packUint (size - cellSizeAdjust))
  else
    (desc ||| (CellType.value.code ||| cell64V)) :: (window ++ packUint rle ++ packUint size)

/-- `__wt_cell_pack_copy`, of the value `v` bytes back. -/
def cellPackCopy (tw : TimeWindow) (rle v : ℕ) : List UInt8 :=
  let (desc, window) := cellPackValueValidity tw
  if rle < 2 then (desc ||| CellType.valueCopy.code) :: (window ++ packUint v)
  else
    (desc ||| (CellType.valueCopy.code ||| cell64V)) :: (window ++ packUint rle ++ packUint v)

/-- `__wt_cell_pack_del`. -/
def cellPackDel (tw : TimeWindow) (rle : ℕ) : List UInt8 :=
  let (desc, window) := cellPackValueValidity tw
  if rle < 2 then (desc ||| CellType.del.code) :: window
  else (desc ||| (CellType.del.code ||| cell64V)) :: (window ++ packUint rle)

/-- `__wt_cell_pack_int_key`. -/
def cellPackIntKey (size : ℕ) : List UInt8 :=
  if size ≤ cellShortMax then [shortDesc size .keyShort]
  else CellType.key.code :: packUint (size - cellSizeAdjust)

/-- `__wt_cell_pack_leaf_key`. -/
def cellPackLeafKey (pfx : UInt8) (size : ℕ) : List UInt8 :=
  if size ≤ cellShortMax then
    if pfx = 0 then [shortDesc size .keyShort] else [shortDesc size .keyShortPfx, pfx]
  else if pfx = 0 then CellType.key.code :: packUint (size - cellSizeAdjust)
  else CellType.keyPfx.code :: pfx :: packUint (size - cellSizeAdjust)

/-- The types of overflow cells. -/
inductive OvflType
  | key
  | keyRm
  | value
  | valueRm
  deriving DecidableEq, Repr

def OvflType.toCellType : OvflType → CellType
  | .key => .keyOvfl
  | .keyRm => .keyOvflRm
  | .value => .valueOvfl
  | .valueRm => .valueOvflRm

/-- A key has no window. -/
def ovflValidity (tw : TimeWindow) : OvflType → UInt8 × List UInt8
  | .key | .keyRm => (0, [])
  | .value | .valueRm => cellPackValueValidity tw

/-- `__wt_cell_pack_ovfl`. -/
def cellPackOvfl (type : OvflType) (tw : TimeWindow) (rle size : ℕ) : List UInt8 :=
  let (desc, window) := ovflValidity tw type
  if rle < 2 then (desc ||| type.toCellType.code) :: (window ++ packUint size)
  else
    (desc ||| (type.toCellType.code ||| cell64V)) :: (window ++ packUint rle ++ packUint size)

end WiredTiger
