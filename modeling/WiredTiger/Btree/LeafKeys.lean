/-
# Prefix-compressed keys on row-store leaf pages

Reconciliation leaves out the first bytes of a key if they are those of the key before it
(`__rec_cell_build_leaf_key`).  Overflow keys are not compressed and are skipped by the keys behind
them.  When a page is read, the largest group of keys that can be built from one key is noted
(`__inmem_row_leaf`); any other compressed key is found by rolling back to a key that is complete
and forward again (`__wt_row_leaf_key_work`).
-/
import WiredTiger.Lib.Lex

namespace WiredTiger

open Lib

/-! ### Building keys -/

/-- A key's cell: the number of bytes taken from the key before it and the other bytes, or an
overflow item. -/
inductive LeafKeyCell
  | key (pfx : ℕ) (data : List UInt8)
  | ovfl (data : List UInt8)
  deriving DecidableEq, Repr

def LeafKeyCell.isOvfl : LeafKeyCell → Bool
  | .key _ _ => false
  | .ovfl _ => true

/-- The configuration of a tree. -/
structure LeafKeyConf where
  /-- `key_pfx_compress_conf`. -/
  pfxCompress : Bool
  prefixCompressionMin : ℕ
  maxleafkey : ℕ

/-- The part of `WT_RECONCILE` that is used for keys. -/
structure RecKeyState where
  cur : List UInt8
  last : List UInt8
  keyPfxCompress : Bool
  keyPfxLast : ℕ

/-- Count the bytes that are the same. -/
def samePfx : ℕ → List UInt8 → List UInt8 → ℕ
  | pfxMax + 1, a :: as, b :: bs => if a = b then samePfx pfxMax as bs + 1 else 0
  | _, _, _ => 0

/-- `WT_KEY_PREFIX_PREVIOUS_MINIMUM`. -/
def keyPrefixPreviousMinimum : ℕ := 10

/-- How many bytes of the key are left out. -/
def leafKeyPfx (conf : LeafKeyConf) (r : RecKeyState) (data : List UInt8) : ℕ :=
  if r.keyPfxCompress then
    let pfx := samePfx (min (min 255 data.length) r.last.length) data r.last
    if pfx < conf.prefixCompressionMin then 0
    else if r.keyPfxLast ≠ 0 ∧ r.keyPfxLast < pfx ∧
        pfx < r.keyPfxLast + keyPrefixPreviousMinimum then
      r.keyPfxLast
    else pfx
  else 0

/-- `__rec_cell_build_leaf_key` without data: the key that was built last is built without
compression. -/
def rebuildLeafKey (conf : LeafKeyConf) (r : RecKeyState) : RecKeyState × LeafKeyCell :=
  ({ r with keyPfxLast := 0 },
    if conf.maxleafkey < r.cur.length then .ovfl r.cur else .key 0 r.cur)

/-- `__rec_cell_build_leaf_key`. -/
def buildLeafKey (conf : LeafKeyConf) (r : RecKeyState) (data : List UInt8) :
    RecKeyState × LeafKeyCell :=
  let pfx := leafKeyPfx conf r data
  let r := { r with cur := data, keyPfxLast := pfx }
  if conf.maxleafkey < (data.drop pfx).length then
    if pfx = 0 then (r, .ovfl data) else rebuildLeafKey conf r
  else (r, .key pfx (data.drop pfx))

/-- `__rec_key_state_update`. -/
def keyStateUpdate (conf : LeafKeyConf) (r : RecKeyState) (ovflKey : Bool) : RecKeyState :=
  if ovflKey then r
  else { r with cur := r.last, last := r.cur, keyPfxCompress := conf.pfxCompress }

/-- Where a key is with respect to the boundaries where a page can be split: it does not cross one,
it crosses one and the page goes on in the end, or it is the first key of a new page. -/
inductive Boundary
  | inside
  | crossing
  | newPage
  deriving DecidableEq, Repr

/-- Build a key.  At a boundary compression is turned off until a full key is written. -/
def leafKeyCell (conf : LeafKeyConf) (r : RecKeyState) (data : List UInt8) (bnd : Boundary) :
    RecKeyState × LeafKeyCell :=
  let (r, cell) := buildLeafKey conf r data
  if bnd ≠ .inside ∧ conf.pfxCompress then
    let r := { r with keyPfxCompress := false, keyPfxLast := 0 }
    if cell.isOvfl then (r, cell) else rebuildLeafKey conf r
  else (r, cell)

/-- Write keys to pages: the pages, with the keys beside their cells, the first one being the rest
of the current page. -/
def leafPages (conf : LeafKeyConf) : RecKeyState → List (List UInt8 × Boundary) →
    List (List (List UInt8 × LeafKeyCell))
  | _, [] => [[]]
  | r, (data, bnd) :: rows =>
    let (r, cell) := leafKeyCell conf r data bnd
    match leafPages conf (keyStateUpdate conf r cell.isOvfl) rows with
    | [] => [[(data, cell)]]
    | page :: pages =>
      if bnd = .newPage then [] :: ((data, cell) :: page) :: pages
      else ((data, cell) :: page) :: pages

/-- The state of a new page: compression is off, other fields are what they are. -/
def newPageState (cur last : List UInt8) (keyPfxLast : ℕ) : RecKeyState :=
  ⟨cur, last, false, keyPfxLast⟩

/-! ### Reading the page -/

/-- The variables of `__inmem_row_leaf` for groups of keys. -/
structure PrefixGroups where
  bestCount : ℕ
  bestStart : ℕ
  bestStop : ℕ
  lastSlot : ℕ
  count : ℕ
  start : ℕ
  stop : ℕ
  smallest : ℕ
  deriving DecidableEq, Repr

namespace PrefixGroups

/-- If the last group was the best, track it. -/
def track (g : PrefixGroups) : PrefixGroups :=
  if g.bestCount < g.count then
    { g with bestStart := g.start, bestStop := g.stop, bestCount := g.count }
  else g

/-- One key of `__inmem_row_leaf`. -/
def step (g : PrefixGroups) (slot : ℕ) : LeafKeyCell → PrefixGroups
  | .key pfx _ =>
    if pfx = 0 then { g.track with count := 0, start := slot }
    else if g.count = 0 ∨ (g.lastSlot + 1 = slot ∧ pfx ≤ g.smallest) then
      { g with smallest := pfx, lastSlot := slot, stop := slot, count := g.count + 1 }
    else g
  | .ovfl _ => { g with lastSlot := g.lastSlot + 1 }

/-- All keys from a slot on. -/
def walk (g : PrefixGroups) : ℕ → List LeafKeyCell → PrefixGroups
  | _, [] => g.track
  | slot, c :: cells => (g.step slot c).walk (slot + 1) cells

end PrefixGroups

/-- A row-store leaf page in memory; some keys may be instantiated. -/
structure LeafKeyPage where
  cells : List LeafKeyCell
  ikeys : ℕ → Option (List UInt8)
  prefixStart : ℕ
  prefixStop : ℕ

/-- `__inmem_row_leaf`. -/
def inmemRowLeaf (cells : List LeafKeyCell) : LeafKeyPage :=
  let g := PrefixGroups.walk ⟨0, 0, 0, 0, 0, 0, 0, 0⟩ 0 cells
  ⟨cells, fun _ => none, g.bestStart, g.bestStop⟩

/-! ### Keys of a page -/

/-- `WT_K_MAX_KEY_LEN`. -/
def maxEncodedKeyLen : ℕ := 0x80000 - 1

/-- What a slot refers to: an instantiated key and its cell, bytes on the page, or a cell. -/
inductive RowKeyInfo
  | ikey (key : List UInt8) (cell : LeafKeyCell)
  | onPage (pfx : ℕ) (data : List UInt8)
  | cell (cell : LeafKeyCell)

/-- `__wt_row_leaf_key_info` on what `__wt_row_leaf_key_set` has stored, or on an instantiated
key. -/
def rowLeafKeyInfo (page : LeafKeyPage) (slot : ℕ) : Option RowKeyInfo :=
  page.cells[slot]?.map fun c =>
    match page.ikeys slot with
    | some key => .ikey key c
    | none =>
      match c with
      | .key pfx data => if data.length ≤ maxEncodedKeyLen then .onPage pfx data else .cell c
      | .ovfl _ => .cell c

/-- The key of which a group is built, if it can be had without unpacking a cell. -/
def groupKey (page : LeafKeyPage) : Option (List UInt8) :=
  match rowLeafKeyInfo page page.prefixStart with
  | some (.ikey key _) => some key
  | some (.onPage _ data) => some data
  | _ => none

inductive LeafKeyError
  /-- A slot or bytes that are not there are accessed. -/
  | fault
  /-- `WT_ASSERT(session, keyb->size >= key_prefix)`. -/
  | shortKey
  /-- `WT_ASSERT(session, direction == BACKWARD)`. -/
  | notBackward
  /-- The loop does not end. -/
  | endless
  deriving DecidableEq, Repr

/-- The variables of `__wt_row_leaf_key_work`; `jump` is `jump_rip` and `jump_slot_offset`. -/
structure KeyWork where
  forward : Bool
  slot : ℕ
  slotOffset : ℕ
  jump : Option (ℕ × ℕ)
  lastPrefix : ℕ
  keyb : List UInt8

/-- What the loop does with a slot: it goes on, or it returns the key, perhaps to be instantiated.
-/
inductive KeyStep
  | goOn (st : KeyWork)
  | done (key : List UInt8) (instantiable : Bool)
  | failed (e : LeafKeyError)

namespace KeyWork

variable (page : LeafKeyPage) (st : KeyWork)

/-- `next`. -/
def next : KeyStep :=
  if st.forward then
    if st.slotOffset = 0 then .failed .fault
    else .goOn { st with slot := st.slot + 1, slotOffset := st.slotOffset - 1 }
  else if st.slot = 0 then .failed .fault
  else .goOn { st with slot := st.slot - 1, slotOffset := st.slotOffset + 1 }

/-- `switch_and_jump`. -/
def switchAndJump (keyb : List UInt8) : KeyStep :=
  if st.forward then .failed .notBackward
  else
    match st.jump with
    | none => .failed .fault
    | some (slot, slotOffset) =>
      .goOn { st with forward := true, slot := slot, slotOffset := slotOffset, keyb := keyb }

/-- A key that is complete: return it or roll forward. -/
def fullKey (key : List UInt8) : KeyStep :=
  if st.slotOffset = 0 then .done key false else st.switchAndJump key

/-- Rolling over a compressed key. -/
def roll (pfx : ℕ) (data : List UInt8) : KeyStep :=
  if st.forward then
    if st.keyb.length < pfx then .failed .shortKey
    else if st.slotOffset = 0 then .done (st.keyb.take pfx ++ data) true
    else { st with keyb := st.keyb.take pfx ++ data }.next
  else if st.slotOffset = 0 ∨ pfx < st.lastPrefix then
    { st with jump := some (st.slot, st.slotOffset), lastPrefix := pfx }.next
  else st.next

/-- `prefix_continue`. -/
def prefixContinue (pfx : ℕ) (data : List UInt8) : KeyStep :=
  if page.prefixStart < st.slot ∧ st.slot ≤ page.prefixStop then
    match groupKey page with
    | some key =>
      if key.length < pfx then .failed .fault else st.fullKey (key.take pfx ++ data)
    | none => st.roll pfx data
  else st.roll pfx data

/-- A cell that is not an overflow item. -/
def onPageKey (pfx : ℕ) (data : List UInt8) : KeyStep :=
  if pfx = 0 then st.fullKey data else st.prefixContinue page pfx data

/-- One slot of the loop of `__wt_row_leaf_key_work`. -/
def step : KeyStep :=
  match rowLeafKeyInfo page st.slot with
  | none => .failed .fault
  | some (.onPage pfx data) => st.onPageKey page pfx data
  | some (.ikey key cell) =>
    if st.slotOffset = 0 then .done key false
    else if cell.isOvfl then st.next
    else { st with keyb := key, forward := true }.next
  | some (.cell (.ovfl data)) => if st.slotOffset = 0 then .done data true else st.next
  | some (.cell (.key pfx data)) => st.onPageKey page pfx data

/-- The loop, with a bound for the number of slots it visits. -/
def loop (page : LeafKeyPage) : ℕ → KeyWork → Except LeafKeyError (List UInt8 × Bool)
  | 0, _ => .error .endless
  | fuel + 1, st =>
    match st.step page with
    | .goOn st => loop page fuel st
    | .done key instantiable => .ok (key, instantiable)
    | .failed e => .error e

end KeyWork

/-- Put an instantiated key into place, unless there is one. -/
def rowInstantiate (page : LeafKeyPage) (slot : ℕ) (key : List UInt8) : LeafKeyPage :=
  match page.ikeys slot with
  | some _ => page
  | none => { page with ikeys := fun i => if i = slot then some key else page.ikeys i }

/-- `__wt_row_leaf_key_work`. -/
def rowLeafKeyWork (page : LeafKeyPage) (slot : ℕ) (instantiate : Bool) :
    Except LeafKeyError (List UInt8 × LeafKeyPage) := do
  let (key, instantiable) ← KeyWork.loop page (2 * slot + 2) ⟨false, slot, 0, none, 0, []⟩
  return (key, if instantiate && instantiable then rowInstantiate page slot key else page)

end WiredTiger
