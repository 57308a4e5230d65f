/-
# Bulk loading a bitmap (`__wt_bulk_insert_fix_bitmap`)

A fixed-length column-store is loaded from chunks of a bitmap that is in memory.  As many records as
a page has room for are copied to its image, as whole bytes, and the rest of the chunk goes to the
next page.  Loaded records are read with `__bit_getv`.
-/
import WiredTiger.Lib.Region

namespace WiredTiger

open Lib

/-- A fixed-length column-store: the bits of a record, and the bytes that a page of the configured
size has behind its headers.  A page has 512MB at most, so that numbers of bits fit in 32 bits. -/
structure FixBtree where
  bitcnt : ℕ
  space : ℕ
  bitcnt_pos : 0 < bitcnt
  bitcnt_le : bitcnt ≤ 8
  space_pos : 0 < space
  space_lt : space < 2 ^ 29

/-- `WT_FIX_BYTES_TO_ENTRIES` for the space of a page: the records that it has room for. -/
def FixBtree.room (t : FixBtree) : ℕ := t.space * 8 / t.bitcnt

/-! ### Bit strings -/

/-- `__bitstr_size`: the bytes of a bit string. -/
def bitstrSize (nbits : ℕ) : ℕ := (nbits + 7) / 8

/-- `__bit_test`. -/
def bitTest (bitf : List UInt8) (bit : ℕ) : Bool := (bitf.getD (bit / 8) 0).toNat.testBit (bit % 8)

/-- The cases 7 to 1 of `__bit_getv`, each of which falls through to the next. -/
def bitGetvFrom (bitf : List UInt8) : ℕ → ℕ → ℕ
  | 0, _ => 0
  | width + 1, bit =>
    (if bitTest bitf bit then 2 ^ width else 0) ||| bitGetvFrom bitf width (bit + 1)

/-- `__bit_getv`. -/
def bitGetv (bitf : List UInt8) (entry width : ℕ) : ℕ :=
  let bit := entry * width
  if width = 8 then (bitf.getD (bit / 8) 0).toNat else bitGetvFrom bitf width bit

/-! ### The bulk cursor -/

/-- A page that has been written: its first record number, its number of records, and its bits. -/
structure FixPage where
  recno : ℕ
  entries : ℕ
  bitf : List UInt8
  deriving DecidableEq, Repr

/-- The bulk cursor and its reconciliation. -/
structure CursorBulk where
  /-- The pages written so far. -/
  pages : List FixPage
  /-- The records on the current page, and how many it has room for. -/
  entry : ℕ
  nrecs : ℕ
  /-- The record number of the next record, and of the first one of the current page. -/
  recno : ℕ
  chunkRecno : ℕ
  /-- The image of the current page from `first_free` on. -/
  image : List UInt8
  deriving DecidableEq, Repr

inductive BulkError
  /-- `EINVAL`: the load is not aligned on a byte boundary. -/
  | einval
  /-- Bytes that are not those of the chunk or of the image. -/
  | fault
  | loops
  deriving DecidableEq, Repr

namespace FixBtree

variable (t : FixBtree)

/-- An image is cleared when it is allocated. -/
def freshImage : List UInt8 := List.replicate t.space 0

/-- `__wt_bulk_init`. -/
def bulkInit : CursorBulk := ⟨[], 0, 0, 1, 1, t.freshImage⟩

/-- The current page as it is written. -/
def chunk (c : CursorBulk) : FixPage :=
  ⟨c.chunkRecno, c.entry, c.image.take (bitstrSize (c.entry * t.bitcnt))⟩

/-- `__wt_rec_split`, and what is in front of it. -/
def writeChunk (c : CursorBulk) : CursorBulk :=
  if c.entry ≠ 0 then
    { c with pages := c.pages ++ [t.chunk c], chunkRecno := c.recno, image := t.freshImage }
  else c

/-- `__rec_col_fix_bulk_insert_split_check`. -/
def splitCheck (c : CursorBulk) : CursorBulk :=
  if c.entry = c.nrecs then { t.writeChunk c with entry := 0, nrecs := t.room } else c

/-- So many records are copied to the current page. -/
def copyRecords (c : CursorBulk) (data : List UInt8) (pageEntries : ℕ) :
    Except BulkError CursorBulk :=
  let pageSize := bitstrSize (pageEntries * t.bitcnt)
  let offset := bitstrSize (c.entry * t.bitcnt)
  if pageSize ≤ data.length ∧ offset + pageSize ≤ c.image.length then
    .ok { c with
      image := blit c.image offset (data.take pageSize)
      entry := c.entry + pageEntries
      recno := c.recno + pageEntries }
  else .error .fault

/-- The loop of `__wt_bulk_insert_fix_bitmap`. -/
def bitmapLoop : ℕ → CursorBulk → List UInt8 → ℕ → Except BulkError CursorBulk
  | 0, c, _, entries => if entries = 0 then .ok c else .error .loops
  | fuel + 1, c, data, entries =>
    if entries = 0 then .ok c
    else
      let c := t.splitCheck c
      let pageEntries := min entries (c.nrecs - c.entry)
      (t.copyRecords c data pageEntries).bind fun c =>
        bitmapLoop fuel c (data.drop (bitstrSize (pageEntries * t.bitcnt)))
          (entries - pageEntries)

/-- A chunk of the bitmap: so many records, and the bytes that they are in. -/
structure BitmapChunk where
  size : ℕ
  data : List UInt8
  fits : data.length = bitstrSize (size * t.bitcnt)

/-- `__wt_bulk_insert_fix_bitmap`.  The number of records is taken as 32 bits.  Every turn of the
loop loads a record at least. -/
def bulkInsertFixBitmap (c : CursorBulk) (b : t.BitmapChunk) : Except BulkError CursorBulk :=
  if (c.recno - 1) * t.bitcnt % 8 ≠ 0 then .error .einval
  else t.bitmapLoop (b.size % 2 ^ 32) c b.data (b.size % 2 ^ 32)

/-- The last page, as `__wt_bulk_wrapup` writes it. -/
def bulkWrapup (c : CursorBulk) : List FixPage := (t.writeChunk c).pages

/-- The pages of a load. -/
def bulkLoad (chunks : List t.BitmapChunk) : Except BulkError (List FixPage) :=
  (chunks.foldlM t.bulkInsertFixBitmap t.bulkInit).map t.bulkWrapup

/-- `__bit_getv_recno`, on the page that has the record. -/
def readRecno (pages : List FixPage) (recno : ℕ) : Option ℕ :=
  (pages.find? fun p => p.recno ≤ recno ∧ recno < p.recno + p.entries).map fun p =>
    bitGetv p.bitf (recno - p.recno) t.bitcnt

/-- Every record of the chunks is in the loaded table, with the bits that it has there. -/
def Faithful (chunks : List t.BitmapChunk) : Prop :=
  ∃ pages, t.bulkLoad chunks = .ok pages ∧
    ∀ i < (chunks.map BitmapChunk.size).sum,
      t.readRecno pages (i + 1) = some (bitGetv (chunks.flatMap BitmapChunk.data) i t.bitcnt)

/-- Every chunk starts on a byte boundary, so that it is accepted. -/
def Accepted (sizes : List ℕ) : Prop :=
  ∀ k < sizes.length, (sizes.take k).sum * t.bitcnt % 8 = 0

end FixBtree

end WiredTiger
