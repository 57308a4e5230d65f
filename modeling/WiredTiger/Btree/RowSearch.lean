/-
# Searching a row-store tree (`btree/row_srch.c`)

`__wt_row_search` goes down from the root by binary search in the internal pages, and ends with a
binary search of a leaf page and a search of one of its insert lists.

To save comparisons it remembers how many leading bytes the search key shares with the greatest
smaller key and with the least greater key it has met: a key between them shares at least the
smaller number.  The upper count starts over on every page.  For appending cursors it first
compares with the last key of a page.

The model keeps a log of all comparisons with their results.
-/
import WiredTiger.Btree.Page
import WiredTiger.Lib.BinarySearch

namespace WiredTiger

open Lib

variable {α β : Type}

/-- What a search carries along. -/
structure Srch where
  skiplow : ℕ
  skiphigh : ℕ
  /-- `cbt->tmp`: the last key that was taken from a page to compare with. -/
  tmp : Key
  /-- The comparisons made so far, latest first. -/
  log : List (Key × Ordering)
  deriving DecidableEq, Repr

/-- Remember a comparison. -/
def Srch.record (s : Srch) (k : Key) (o : Ordering) : Srch := { s with log := (k, o) :: s.log }

/-- A comparison in the binary search of a page, in its short and its long version. -/
def compareItem (P : Platform) (srchKey item : Key) (s : Srch) : Option (Ordering × Srch) :=
  if srchKey.length ≤ compareShortMaxlen then do
    let cmp ← lexCompareShort srchKey item
    some (cmp, { s with tmp := item }.record item cmp)
  else do
    let (cmp, matched) ← lexCompareSkip P srchKey item (min s.skiplow s.skiphigh)
    some (cmp, { s with
      tmp := item
      skiplow := if cmp = Ordering.gt then matched else s.skiplow
      skiphigh := if cmp = Ordering.lt then matched else s.skiphigh }.record item cmp)

/-! ### Insert lists -/

/-- The variables of `__wt_search_insert`.  A node is known by the number of nodes behind it. -/
structure InsSrch where
  skiplow : ℕ
  skiphigh : ℕ
  matched : ℕ
  cmp : Ordering
  lastIns : Option ℕ
  log : List (Key × Ordering)
  deriving DecidableEq, Repr

/-- Compare with a node, unless that was the last one compared with. -/
def compareIns (P : Platform) (srchKey key : Key) (behind : ℕ) (s : InsSrch) : Option InsSrch :=
  if s.lastIns = some behind then some s
  else do
    let (cmp, matched) ← lexCompareSkip P srchKey key (min s.skiplow s.skiphigh)
    some { s with cmp, matched, lastIns := some behind, log := (key, cmp) :: s.log }

/-- Where the walk along one level stops. -/
structure LevelStop (α : Type) where
  /-- The nodes behind the last one that was stepped over: where `insp` points. -/
  here : List (Insert α)
  /-- `ins`: the node the walk stopped at, or `none` at the end of the level. -/
  ins : Option ℕ
  state : InsSrch

/-- Go as far as possible at level `i`.  `here` are the nodes behind `insp`, the last argument
those of them that are left to look at. -/
def walkLevel (P : Platform) (srchKey : Key) (i : ℕ) (here : List (Insert α)) (s : InsSrch) :
    List (Insert α) → Option (LevelStop α)
  | [] => some ⟨here, none, s⟩
  | ins :: rest =>
    -- a node that is not on this level
    if ins.depth ≤ i then walkLevel P srchKey i here s rest
    else do
      let s ← compareIns P srchKey ins.key rest.length s
      if s.cmp = .gt then
        walkLevel P srchKey i rest { s with skiplow := s.matched } rest
      else some ⟨here, some rest.length, s⟩

/-- Go down the levels; the result is `ins` with the last state. -/
def walkLevels (P : Platform) (srchKey : Key) :
    ℕ → List (Insert α) → Option ℕ → InsSrch → Option (Option ℕ × InsSrch)
  | 0, _, ins, s => some (ins, s)
  | i + 1, here, _, s => do
    let stop ← walkLevel P srchKey i here s here
    match stop.ins with
    | none => walkLevels P srchKey i stop.here none stop.state
    | some n =>
      if stop.state.cmp = .lt then
        walkLevels P srchKey i stop.here (some n)
          { stop.state with skiphigh := stop.state.matched }
      else some (some n, stop.state)

/-- What a search says about the cursor's position on a leaf page. -/
structure LeafPos where
  slot : ℕ
  /-- `WT_CBT_SEARCH_SMALLEST`. -/
  smallest : Bool
  /-- `ins_head` is set. -/
  insHead : Bool
  /-- `ins`, as its number in the insert list. -/
  ins : Option ℕ
  /-- How the key at the position compares with the search key. -/
  compare : Ordering
  srch : Srch
  deriving DecidableEq, Repr

/-- The insert list a position is about. -/
def LeafPos.insSlot (p : LeafPos) : Option ℕ := if p.smallest then none else some p.slot

/-- The place on the page. -/
def LeafPos.place (p : LeafPos) : Place :=
  match p.ins with
  | some j => .ins p.insSlot j
  | none => .row p.slot

/-- `__wt_search_insert`. -/
def searchInsert (P : Platform) (srchKey : Key) (insHead : List (Insert α)) (p : LeafPos) :
    Option LeafPos := do
  let (ins, s) ← walkLevels P srchKey skipMaxdepth insHead none
    ⟨0, 0, 0, .eq, none, p.srch.log⟩
  let behind := match ins with | some n => some n | none => s.lastIns
  some { p with
    compare := s.cmp.swap
    ins := behind.map fun n => insHead.length - 1 - n
    insHead := true
    srch := { p.srch with log := s.log } }

/-- `__search_insert_append`: is the search key at or behind the end of the list? -/
def searchInsertAppend (P : Platform) (srchKey : Key) (insHead : List (Insert α)) (p : LeafPos) :
    Bool × LeafPos :=
  match insHead.getLast? with
  | none => (false, p)
  | some ins =>
    let cmp := lexCompare P.isa false srchKey ins.key
    let p := { p with srch := p.srch.record ins.key cmp }
    if cmp ≠ .lt then
      (true, { p with compare := cmp.swap, ins := some (insHead.length - 1), insHead := true })
    else (false, p)

/-! ### Leaf pages -/

/-- The fast check for an append to the page. -/
def leafAppend (P : Platform) (srchKey : Key) (l : Leaf α β) (s : Srch) : Bool × LeafPos :=
  if l.rows.length = 0 then
    searchInsertAppend P srchKey l.smallest ⟨0, true, false, none, .eq, s⟩
  else
    let slot := l.rows.length - 1
    searchInsertAppend P srchKey (l.insList (some slot)) ⟨slot, false, false, none, .eq, s⟩

/-- The end of the search, when the binary search has not found the key and `base` is the smallest
index of a greater one. -/
def leafInserts (P : Platform) (srchKey : Key) (insert : Bool) (l : Leaf α β) (base : ℕ)
    (s : Srch) : Option LeafPos :=
  let p : LeafPos :=
    if base = 0 then ⟨0, true, false, none, .gt, s⟩ else ⟨base - 1, false, false, none, .lt, s⟩
  let insHead := l.insList p.insSlot
  if insHead = [] then some p
  else
    let (done, p') := if insert then searchInsertAppend P srchKey insHead p else (false, p)
    if done then some p' else searchInsert P srchKey insHead p'

/-- The part of `__wt_row_search` from the label `leaf_only` on. -/
def leafSearch (P : Platform) (srchKey : Key) (insert descendRight : Bool) (l : Leaf α β)
    (s : Srch) : Option LeafPos := do
  let (done, p) :=
    if insert && descendRight then leafAppend P srchKey l s
    else (false, ⟨0, false, false, none, .eq, s⟩)
  if done then some p
  else
    let s := if srchKey.length ≤ compareShortMaxlen then p.srch else { p.srch with skiphigh := 0 }
    let probed ← bsearch
      (fun indx s => do
        let row ← l.rows[indx]?
        compareItem P srchKey row.key s) 0 l.rows.length s
    match probed with
    | .found indx s => some ⟨indx, false, false, none, .eq, s⟩
    | .missing base s => leafInserts P srchKey insert l base s

/-! ### Internal pages -/

/-- How the search leaves an internal page. -/
structure Descent where
  /-- The entry of the index to descend to. -/
  indx : ℕ
  appendCheck : Bool
  descendRight : Bool
  srch : Srch
  deriving DecidableEq, Repr

/-- The fast path for appends on an internal page: `some` if the search descends to the last
entry. -/
def internalAppend (P : Platform) (srchKey : Key) (index : List (Key × Page α β)) (s : Srch) :
    Option (Bool × Srch) :=
  if index.length = 1 then some (true, s)
  else do
    let entry ← index.getLast?
    let cmp := lexCompare P.isa false srchKey entry.1
    some (decide (cmp ≠ .lt), { s with tmp := entry.1 }.record entry.1 cmp)

/-- The binary search of an internal page, from entry 1 on. -/
def internalSearch (P : Platform) (srchKey : Key) (index : List (Key × Page α β))
    (descendRight : Bool) (s : Srch) : Option Descent := do
  let s := if srchKey.length ≤ compareShortMaxlen then s else { s with skiphigh := 0 }
  let probed ← bsearch
    (fun indx s => do
      let entry ← index[indx]?
      compareItem P srchKey entry.1 s) 1 (index.length - 1) s
  match probed with
  | .found indx s => some ⟨indx, false, descendRight, s⟩
  | .missing base s =>
    some ⟨base - 1, false, if index.length ≠ base then false else descendRight, s⟩

/-- One turn of the loop of `__wt_row_search` over the internal pages. -/
def internalDescend (P : Platform) (srchKey : Key) (index : List (Key × Page α β))
    (appendCheck descendRight : Bool) (s : Srch) : Option Descent :=
  if appendCheck then do
    let (append, s) ← internalAppend P srchKey index s
    if append then some ⟨index.length - 1, true, descendRight, s⟩
    else internalSearch P srchKey index descendRight s
  else internalSearch P srchKey index descendRight s

/-- The leaf page a search ends on, as its number in the order of the tree, and the position on
it. -/
structure Found where
  page : ℕ
  pos : LeafPos
  deriving DecidableEq, Repr

/-- The loop over the internal pages and the search of the leaf page; `before` leaf pages are to
the left of the page.  The height of the page bounds the number of turns. -/
def searchDown (P : Platform) (srchKey : Key) (insert : Bool) :
    ℕ → Page α β → Bool → Bool → ℕ → Srch → Option Found
  | _, .leaf l, _, descendRight, before, s => do
    let pos ← leafSearch P srchKey insert descendRight l s
    some ⟨before, pos⟩
  | 0, .internal _, _, _, _, _ => none
  | fuel + 1, .internal index, appendCheck, descendRight, before, s => do
    let d ← internalDescend P srchKey index appendCheck descendRight s
    let entry ← index[d.indx]?
    searchDown P srchKey insert fuel entry.2 d.appendCheck d.descendRight
      (before + (Page.leavesList (index.take d.indx)).length) d.srch

/-- `__wt_row_search` of a tree, from its root; `appendTree` is the cursor's append history. -/
def rowSearch (P : Platform) (srchKey : Key) (insert appendTree : Bool) (root : Page α β) :
    Option Found :=
  searchDown P srchKey insert root.height root (insert && appendTree) true 0 ⟨0, 0, [], []⟩

end WiredTiger
