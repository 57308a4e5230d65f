/-
# Row-store cursors (`btree/bt_curnext.c`, `btree/bt_curprev.c`, `btree/bt_cursor.c`)

A cursor walks a leaf page along one numbering of its parts: part 1 is the insert list in front of
the rows, part 2 is row 0, part 3 the insert list of row 0, and so on.  It reads every key it comes
to and passes over those it sees no value of.  At the end of a page it goes on to the next leaf
page that is not skipped.

What a cursor sees of a key is a parameter, and so is which pages it skips.
-/
import WiredTiger.Btree.RowSearch
import WiredTiger.Txn.Read

namespace WiredTiger

open Lib

variable {α β : Type}

/-- How a cursor reads: the chain of an inserted key (`__wt_txn_read_upd_list`), and the chain of a
row with its cell and a key for the history store (`__wt_txn_read`). -/
structure Reader (α β : Type) where
  readUpdList : α → Except Stop UpdateValue
  read : Key → α → β → Except Stop UpdateValue

/-! ### Walking a leaf page -/

/-- How a walk along a page ends. -/
inductive RowMove
  | found (rowIterationSlot : ℕ) (ins : Option ℕ) (key : Key) (value : Value)
  /-- `WT_NOTFOUND` at the end of the page. -/
  | notFound
  /-- `WT_NOTFOUND` with `prefix_key_out_of_bounds`. -/
  | outOfBounds
  deriving DecidableEq, Repr

/-- The slot an insert list with an odd number belongs to. -/
def iterSlot (rowIterationSlot : ℕ) : Option ℕ :=
  if rowIterationSlot = 1 then none else some (rowIterationSlot / 2 - 1)

/-- The insert list with an odd number. -/
def Leaf.iterIns (l : Leaf α β) (rowIterationSlot : ℕ) : List (Insert α) :=
  l.insList (iterSlot rowIterationSlot)

/-- `WT_SKIP_FIRST`. -/
def skipFirst (ins : List (Insert α)) : Option ℕ := if ins.length = 0 then none else some 0

/-- `WT_SKIP_NEXT`. -/
def skipNext (ins : List (Insert α)) (j : ℕ) : Option ℕ :=
  if j + 1 < ins.length then some (j + 1) else none

/-- `WT_SKIP_LAST`. -/
def skipLast (ins : List (Insert α)) : Option ℕ :=
  if ins.length = 0 then none else some (ins.length - 1)

/-- `__cursor_skip_prev`. -/
def skipPrev (j : ℕ) : Option ℕ := if j = 0 then none else some (j - 1)

/-- The early exit of a prefix search: the key is behind all keys with the prefix. -/
def prefixOut (isa : Isa) (pfx : Option Key) (key : Key) : Bool :=
  match pfx with
  | none => false
  | some p => prefixMatch isa p key = .lt

section Walk

variable (rd : Reader α β) (isa : Isa) (pfx : Option Key) (l : Leaf α β)

/-- `__cursor_row_next` from the label `new_insert` on. -/
def cursorRowNext : ℕ → ℕ → Option ℕ → Except Stop RowMove
  | 0, _, _ => .ok .notFound
  | fuel + 1, slot, some j =>
    match (l.iterIns slot)[j]? with
    | none => .ok .notFound
    | some node =>
      if prefixOut isa pfx node.key then .ok .outOfBounds
      else
        match rd.readUpdList node.upd with
        | .error e => .error e
        | .ok (.standard value) => .ok (.found slot (some j) node.key value)
        | .ok _ => cursorRowNext fuel slot (skipNext (l.iterIns slot) j)
  | fuel + 1, slot, none =>
    if l.rows.length * 2 + 1 ≤ slot then .ok .notFound
    else if (slot + 1) % 2 = 1 then
      cursorRowNext fuel (slot + 1) (skipFirst (l.iterIns (slot + 1)))
    else
      match l.rows[(slot + 1) / 2 - 1]? with
      | none => .ok .notFound
      | some row =>
        if prefixOut isa pfx row.key then .ok .outOfBounds
        else
          match rd.read row.key row.upd row.cell with
          | .error e => .error e
          | .ok (.standard value) => .ok (.found (slot + 1) none row.key value)
          | .ok _ => cursorRowNext fuel (slot + 1) none

/-- `__cursor_row_prev` from the label `new_insert` on. -/
def cursorRowPrev : ℕ → ℕ → Option ℕ → Except Stop RowMove
  | 0, _, _ => .ok .notFound
  | fuel + 1, slot, some j =>
    match (l.iterIns slot)[j]? with
    | none => .ok .notFound
    | some node =>
      match rd.readUpdList node.upd with
      | .error e => .error e
      | .ok (.standard value) => .ok (.found slot (some j) node.key value)
      | .ok _ => cursorRowPrev fuel slot (skipPrev j)
  | fuel + 1, slot, none =>
    if slot = 1 then .ok .notFound
    else if (slot - 1) % 2 = 1 then
      cursorRowPrev fuel (slot - 1) (skipLast (l.iterIns (slot - 1)))
    else
      match l.rows[(slot - 1) / 2 - 1]? with
      | none => .ok .notFound
      | some row =>
        match rd.read row.key row.upd row.cell with
        | .error e => .error e
        | .ok (.standard value) => .ok (.found (slot - 1) none row.key value)
        | .ok _ => cursorRowPrev fuel (slot - 1) none

end Walk

/-- No walk along a page takes more turns than this. -/
def Leaf.turns (l : Leaf α β) : ℕ := l.recs.length + l.rows.length * 2 + 2

/-! ### Walking the tree -/

/-- The position of a cursor, as far as iteration uses it. -/
structure Cbt where
  /-- `ref`: the leaf page, as its number in the order of the tree. -/
  ref : Option ℕ
  rowIterationSlot : ℕ
  ins : Option ℕ
  deriving DecidableEq, Repr

/-- A cursor without a position. -/
def Cbt.unpositioned : Cbt := ⟨none, 0, none⟩

/-- `__wt_btcur_iterate_setup` after a search. -/
def iterateSetup (page : ℕ) (pos : LeafPos) : Cbt where
  ref := some page
  rowIterationSlot :=
    if !pos.insHead then (pos.slot + 1) * 2
    else if pos.smallest then 1
    else (pos.slot + 1) * 2 + 1
  ins := pos.ins

/-- The result of moving a cursor. -/
inductive Move
  | found (cbt : Cbt) (key : Key) (value : Value)
  /-- `WT_NOTFOUND`, with the position the cursor is left at. -/
  | notFound (cbt : Cbt)
  deriving DecidableEq, Repr

section Tree

variable (rd : Reader α β) (isa : Isa) (leaves : List (Leaf α β)) (skip : ℕ → Bool)

/-- The part of the loop of `__wt_btcur_next_prefix` after the page that is held: walk to the next
leaf page that is not skipped.  The list has the leaf pages from number `i` on. -/
def nextPages (pfx : Option Key) : List (Leaf α β) → ℕ → Except Stop Move
  | [], _ => .ok (.notFound .unpositioned)
  | l :: rest, i =>
    if skip i then nextPages pfx rest (i + 1)
    else
      match cursorRowNext rd isa pfx l l.turns 1 (skipFirst l.smallest) with
      | .error e => .error e
      | .ok (.found slot ins key value) => .ok (.found ⟨some i, slot, ins⟩ key value)
      | .ok .outOfBounds => .ok (.notFound ⟨some i, 1, none⟩)
      | .ok .notFound => nextPages pfx rest (i + 1)

/-- `__wt_btcur_next_prefix`; `pfx` is set for a prefix search. -/
def btcurNextPrefix (pfx : Option Key) (cbt : Cbt) : Except Stop Move :=
  match cbt.ref with
  | none => nextPages rd isa skip pfx leaves 0
  | some i =>
    match leaves[i]? with
    | none => .ok (.notFound .unpositioned)
    | some l =>
      let ins := cbt.ins.bind (skipNext (l.iterIns cbt.rowIterationSlot))
      match cursorRowNext rd isa pfx l l.turns cbt.rowIterationSlot ins with
      | .error e => .error e
      | .ok (.found slot ins key value) => .ok (.found ⟨some i, slot, ins⟩ key value)
      | .ok .outOfBounds => .ok (.notFound cbt)
      | .ok .notFound => nextPages rd isa skip pfx (leaves.drop (i + 1)) (i + 1)

/-- The part of the loop of `__wt_btcur_prev` after the page that is held: walk to the previous leaf
page that is not skipped, among the pages in front of number `i`.  `prefixSearch` is
`WT_CURSTD_PREFIX_SEARCH`. -/
def prevPages (prefixSearch : Bool) : ℕ → Except Stop Move
  | 0 => .ok (.notFound .unpositioned)
  | i + 1 =>
    if skip i then prevPages prefixSearch i
    else
      match leaves[i]? with
      | none => prevPages prefixSearch i
      | some l =>
        let slot := l.rows.length * 2 + 1
        match cursorRowPrev rd l l.turns slot (skipLast (l.iterIns slot)) with
        | .error e => .error e
        | .ok (.found slot ins key value) => .ok (.found ⟨some i, slot, ins⟩ key value)
        | .ok _ =>
          -- returned at once, without a reset
          if prefixSearch then .ok (.notFound ⟨some i, 1, none⟩)
          else prevPages prefixSearch i

/-- `__wt_btcur_prev`. -/
def btcurPrev (prefixSearch : Bool) (cbt : Cbt) : Except Stop Move :=
  match cbt.ref with
  | none => prevPages rd leaves skip prefixSearch leaves.length
  | some i =>
    match leaves[i]? with
    | none => .ok (.notFound .unpositioned)
    | some l =>
      match cursorRowPrev rd l l.turns cbt.rowIterationSlot (cbt.ins.bind skipPrev) with
      | .error e => .error e
      | .ok (.found slot ins key value) => .ok (.found ⟨some i, slot, ins⟩ key value)
      | .ok _ =>
        if prefixSearch then .ok (.notFound ⟨some i, 1, none⟩)
        else prevPages rd leaves skip prefixSearch i

/-- Calls of `__wt_btcur_prev` until one does not find a key: the keys, or why a call failed. -/
def prevRun (prefixSearch : Bool) : ℕ → Cbt → Except Stop (List Key)
  | 0, _ => .ok []
  | fuel + 1, cbt =>
    match btcurPrev rd leaves skip prefixSearch cbt with
    | .error e => .error e
    | .ok (.notFound _) => .ok []
    | .ok (.found cbt key _) =>
      match prevRun prefixSearch fuel cbt with
      | .error e => .error e
      | .ok keys => .ok (key :: keys)

end Tree

end WiredTiger
