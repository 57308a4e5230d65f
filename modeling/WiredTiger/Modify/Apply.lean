/-
# Applying a modify operation to a buffer (`support/modify.c`)

`__wt_modify_apply_item` rewrites a value in the memory that holds it.  It first overwrites
in place the leading entries that keep the length of what they replace; if the remaining
entries are sorted and leave one another alone it builds the new value in one pass from right
to left; otherwise it applies them one by one.

The value is a `WT_ITEM`.  Its memory from `value->data` on is a `Region`, so that an access
outside of it has no result, and the mark of the region tells how far the accesses reached.
Lengths and offsets are natural numbers: nothing here is about `size_t` wrapping around.
-/
import WiredTiger.Modify.Splice

namespace WiredTiger

open Lib

/-! ### The value: `WT_ITEM` -/

/-- A `WT_ITEM` that holds a value. -/
structure Item where
  /-- The bytes of the item's own memory in front of `data` (the page header of an overflow
  item). -/
  lead : List UInt8
  /-- The item's own memory from `data` on. -/
  region : Region UInt8
  /-- The bytes `data` points to when they are not in the item's own memory; the own memory
  is then all of `region`. -/
  page : Option (List UInt8)
  /-- The size of the value. -/
  size : ℕ
  deriving DecidableEq, Repr

namespace Item

/-- The memory from `value->data` on, wherever it is. -/
def data (it : Item) : List UInt8 := it.page.getD it.region.cells

/-- The value the item holds. -/
def value (it : Item) : List UInt8 := it.data.take it.size

/-- The value lies in the memory that `data` points to. -/
def WF (it : Item) : Prop := it.size ≤ it.data.length

instance (it : Item) : Decidable it.WF := inferInstanceAs (Decidable (_ ≤ _))

lemma WF.length_value {it : Item} (h : it.WF) : it.value.length = it.size := by
  rw [value, List.length_take]
  exact Nat.min_eq_left h

/-- `WT_DATA_IN_ITEM`. -/
def dataInItem (it : Item) : Bool := it.page.isNone && decide (0 < it.region.cells.length)

/-- `item_offset`: where in its own memory the item's data starts. -/
def itemOffset (it : Item) : ℕ := if it.dataInItem then it.lead.length else 0

end Item

/-- `__wt_buf_grow`: make the memory hold `n` bytes from `data` on and, if the data is not in
the item's own memory, copy it there.  New memory is not cleared. -/
def bufGrow (junk : ℕ → UInt8) (it : Item) (n : ℕ) : Option Item :=
  if it.dataInItem then
    if n + it.lead.length > it.lead.length + it.region.cells.length then
      some { it with region := it.region.extend junk n }
    else some it
  else
    let mem : Region UInt8 := ⟨it.lead ++ it.region.cells, it.region.top⟩
    ((mem.extend junk n).write 0 it.value).map fun r => ⟨[], r, none, it.size⟩

/-- `memcpy((uint8_t *)value->data + off, d, ..)`; there must be own memory to write to. -/
def Item.memcpy (it : Item) (off : ℕ) (d : List UInt8) : Option Item :=
  if it.page.isNone then
    (it.region.write off d).map fun r => { it with region := r }
  else none

/-- `memmove` inside the value's memory. -/
def Item.memmove (it : Item) (dst src n : ℕ) : Option Item :=
  if it.page.isNone then
    (it.region.move dst src n).map fun r => { it with region := r }
  else none

/-! ### The packed operation -/

/-- A packed operation: the number of entries, three words for each, and their data. -/
structure Packed where
  nentries : ℕ
  words : List ℕ
  data : List UInt8
  deriving DecidableEq, Repr

/-- `__wt_modify_pack`. -/
def modifyPack (entries : List Modify) : Packed where
  nentries := entries.length
  words := entries.flatMap fun m => [m.data.length, m.offset, m.size]
  data := entries.flatMap Modify.data

/-- `WT_MODIFY_FOREACH_BEGIN`: read `n` entries from the front of the words, with a pointer to
their data that moves along. -/
def foreachBegin : ℕ → List ℕ → List UInt8 → List Modify
  | n + 1, dsize :: offset :: size :: words, data =>
    ⟨data.take dsize, offset, size⟩ :: foreachBegin n words (data.drop dsize)
  | _, _, _ => []

/-- `WT_MODIFY_FOREACH_REVERSE`: read `n` entries from the end of the words, with a pointer
that moves down from the end of the data.  The words are given in reverse. -/
def foreachReverse : ℕ → List ℕ → List UInt8 → List Modify
  | n + 1, size :: offset :: dsize :: words, data =>
    ⟨data.drop (data.length - dsize), offset, size⟩ ::
      foreachReverse n words (data.take (data.length - dsize))
  | _, _, _ => []

/-- The entries of a packed operation from number `napplied` on, in order. -/
def Packed.foreach (p : Packed) (napplied : ℕ) : List Modify :=
  (foreachBegin p.nentries p.words p.data).drop napplied

/-- The entries of a packed operation from number `napplied` on, last one first; `datasz` is
the size of the data. -/
def Packed.foreachRev (p : Packed) (napplied datasz : ℕ) : List Modify :=
  foreachReverse (p.nentries - napplied) p.words.reverse (p.data.take datasz)

/-! ### One entry -/

/-- Initialize the gap bytes between the end of the value and an offset past it. -/
def fillGap (sformat : Bool) (value : Item) (offset : ℕ) : Option Item :=
  if value.size < offset then
    value.memcpy value.size (List.replicate (offset - value.size) (padByte sformat))
  else some value

/-- The case of `__modify_apply_one` where bytes are appended past the end of the value. -/
def modifyAppend (sformat : Bool) (value : Item) (modify : Modify) : Option Item := do
  let value ← fillGap sformat value modify.offset
  let value ← value.memcpy modify.offset modify.data
  some { value with size := modify.offset + modify.data.length }

/-- The cases of `__modify_apply_one` where `size` bytes of the value are replaced, none of
them past its end. -/
def modifyReplace (value : Item) (modify : Modify) (size : ℕ) : Option Item := do
  let dataSize := modify.data.length
  let offset := modify.offset
  if dataSize = size then
    -- overwrite; the new data must overlap the buffer's end
    let value ← value.memcpy offset modify.data
    some { value with size := offset + dataSize }
  else
    -- shrink or grow: move trailing data to its new location and copy in the new data
    let value ← value.memmove (offset + dataSize) (offset + size) (value.size - (offset + size))
    let value ← value.memcpy offset modify.data
    some { value with size := value.size + dataSize - size }

/-- `__modify_apply_one`. -/
def modifyApplyOne (junk : ℕ → UInt8) (sformat : Bool) (value : Item) (modify : Modify) :
    Option Item := do
  let dataSize := modify.data.length
  let offset := modify.offset
  let size := modify.size
  -- grow the buffer to the maximum size we'll need
  let value ← bufGrow junk value
    (value.itemOffset + max value.size offset + dataSize + (if sformat then 1 else 0))
  -- overwriting a set of bytes that already exist in the buffer
  if value.size > offset + dataSize ∧ dataSize = size then
    value.memcpy offset modify.data
  else if value.size ≤ offset then
    modifyAppend sformat value modify
  -- we can't replace more bytes than remain in the value
  else if value.size < offset + size then
    modifyReplace value modify (value.size - offset)
  else
    modifyReplace value modify size

/-- The loop that applies the entries one by one. -/
def modifyApplyLoop (junk : ℕ → UInt8) (sformat : Bool) : List Modify → Item → Option Item
  | [], value => some value
  | m :: ms, value => do
    let value ← modifyApplyOne junk sformat value m
    modifyApplyLoop junk sformat ms value

/-! ### The fast paths -/

/-- The variables of the loop in `__modify_fast_path` that survive an iteration. -/
structure FastState where
  datasz : ℕ
  destoff : ℕ
  /-- The last entry that was not applied in place; `none` while `first` is set. -/
  prev : Option Modify
  /-- `current` after the last iteration. -/
  current : Option Modify
  fastpath : Bool
  napplied : ℕ
  deriving DecidableEq, Repr

/-- What `__modify_fast_path` hands back: the value with the leading entries applied in place,
their number, and the sizes of the data and of the result unless the others overlap. -/
structure FastResult where
  value : Item
  napplied : ℕ
  /-- `datasz` and `destsz`, set when `overlap` is false. -/
  sizes : Option (ℕ × ℕ)
  deriving DecidableEq, Repr

/-- The checks on an entry that cannot be applied in place.  `none` is a `return` with
`overlap` set, otherwise `destoff` behind the entry. -/
def fastCheck (vsize destoff : ℕ) (prev : Option Modify) (current : Modify) : Option ℕ :=
  let destoff? :=
    match prev with
    | none => some current.offset
    | some prev =>
      -- check that entries are sorted and non-overlapping
      if current.offset < prev.offset + prev.size ∨
          current.offset < prev.offset + prev.data.length then none
      else some (destoff + (current.offset - (prev.offset + prev.size)))
  destoff?.bind fun destoff =>
    -- don't try to fast-path padding bytes
    if current.offset + current.size > vsize then none
    -- copying this block would overlap with the next one
    else if current.size ≠ current.data.length ∧ current.offset + current.size > destoff then none
    else some (destoff + current.data.length)

/-- The loop of `__modify_fast_path`. -/
def fastLoop : List Modify → FastState → Item → Option FastResult
  | [], st, value =>
    -- step over the final unmodified block
    let tail := st.current.elim 0 fun m => m.offset + m.size
    some ⟨value, st.napplied, some (st.datasz, st.destoff + (value.size - tail))⟩
  | m :: ms, st, value =>
    let datasz := st.datasz + m.data.length
    if st.fastpath ∧ m.data.length = m.size ∧ m.offset + m.size ≤ value.size then do
      let value ← value.memcpy m.offset m.data
      fastLoop ms { st with datasz, current := some m, napplied := st.napplied + 1 } value
    else
      match fastCheck value.size st.destoff st.prev m with
      | none => some ⟨value, st.napplied, none⟩
      | some destoff =>
        fastLoop ms ⟨datasz, destoff, some m, some m, false, st.napplied⟩ value

/-- `__modify_fast_path`. -/
def modifyFastPath (value : Item) (p : Packed) : Option FastResult :=
  fastLoop (p.foreach 0) ⟨0, 0, none, none, true, 0⟩ value

/-- Move an unmodified block into place if necessary. -/
def moveBlock (value : Item) (dst src sz : ℕ) : Option Item :=
  if dst ≠ src then value.memmove dst src sz else some value

/-- The variables of the loop in `__modify_apply_no_overlap`: `src` and `dst` stand for `from`
and `to`, as offsets from `value->data`. -/
structure NoOverlapState where
  src : ℕ
  dst : ℕ
  value : Item
  deriving DecidableEq, Repr

/-- The body of the loop in `__modify_apply_no_overlap`.  A pointer that would be moved in
front of the data, or an assertion that fails, has no result. -/
def noOverlapStep (st : NoOverlapState) (m : Modify) : Option NoOverlapState := do
  guard (m.offset + m.data.length ≤ st.dst)
  let sz := st.dst - (m.offset + m.data.length)
  guard (sz ≤ st.src ∧ sz ≤ st.dst ∧ st.src ≤ st.value.size)
  let value ← moveBlock st.value (st.dst - sz) (st.src - sz) sz
  guard (m.size ≤ st.src - sz ∧ m.data.length ≤ st.dst - sz)
  let value ← value.memcpy (st.dst - sz - m.data.length) m.data
  some ⟨st.src - sz - m.size, st.dst - sz - m.data.length, value⟩

/-- `__modify_apply_no_overlap`. -/
def modifyApplyNoOverlap (value : Item) (p : Packed) (napplied datasz destsz : ℕ) :
    Option Item := do
  let st ← (p.foreachRev napplied datasz).foldlM noOverlapStep ⟨value.size, destsz, value⟩
  some { st.value with size := destsz }

/-! ### The whole operation -/

/-- The start of `__wt_modify_apply_item`: ensure the value is in buffer-local memory and
decrement its size to discard the trailing nul of a string. -/
def modifyStart (junk : ℕ → UInt8) (sformat : Bool) (value : Item) : Option Item := do
  let value ← bufGrow junk value (value.itemOffset + value.size)
  some (if sformat then { value with size := value.size - 1 } else value)

/-- The part of `__wt_modify_apply_item` after the entries that can be applied in place have
been: nothing, the pass from right to left, or the loop. -/
def modifyRemaining (junk : ℕ → UInt8) (sformat : Bool) (itemOffset : ℕ) (fast : FastResult)
    (p : Packed) : Option Item :=
  if fast.napplied = p.nentries then some fast.value
  else
    match fast.sizes with
    | some (datasz, destsz) => do
      let value ← bufGrow junk fast.value
        (itemOffset + max destsz fast.value.size + (if sformat then 1 else 0))
      modifyApplyNoOverlap value p fast.napplied datasz destsz
    | none => modifyApplyLoop junk sformat (p.foreach fast.napplied) fast.value

/-- The end of `__wt_modify_apply_item`: restore the trailing nul. -/
def restoreNul (sformat : Bool) (value : Item) : Option Item :=
  if sformat then do
    let value ← value.memcpy value.size [0]
    some { value with size := value.size + 1 }
  else some value

/-- `__wt_modify_apply_item`. -/
def modifyApplyItem (junk : ℕ → UInt8) (fmt : ValueFormat) (value : Item) (p : Packed) :
    Option Item := do
  let start ← modifyStart junk fmt.sformat value
  let fast ← modifyFastPath start p
  let done ← modifyRemaining junk fmt.sformat value.itemOffset fast p
  restoreNul fmt.sformat done

end WiredTiger
