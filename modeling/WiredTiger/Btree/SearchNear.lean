/-
# Search near (`__wt_btcur_search_near` in `btree/bt_cursor.c`)

The search tries the page the cursor has pinned, then the whole tree.  If it ends on a key the
cursor sees, that is the result.  If not, the cursor walks forward from there, and if that does not
come to a key either, backward from the end of the tree.
-/
import WiredTiger.Btree.Session

namespace WiredTiger

open Lib

variable {α β : Type}

/-- What a read says about a key: the value, if there is one. -/
def readValid : Except Stop UpdateValue → Except Stop (Option Value)
  | .error e => .error e
  | .ok (.standard value) => .ok (some value)
  | .ok _ => .ok none

/-- `__wt_cursor_valid` of a row-store cursor, with the value it leaves in `upd_value`.  The key for
the history store is the last one the search took from a page. -/
def cursorValid (rd : Reader α β) (l : Leaf α β) (pos : LeafPos) : Except Stop (Option Value) :=
  match pos.ins with
  | some j =>
    match (l.insList pos.insSlot)[j]? with
    | none => .ok none
    | some node => readValid (rd.readUpdList node.upd)
  | none =>
    match l.rows[pos.slot]? with
    -- an empty page
    | none => .ok none
    | some row => readValid (rd.read pos.srch.tmp row.upd row.cell)

/-- `__key_return`. -/
def keyReturn (l : Leaf α β) (pos : LeafPos) : Key :=
  match pos.ins with
  | some j => ((l.insList pos.insSlot)[j]?.map Insert.key).getD []
  | none =>
    if pos.compare = .eq then pos.srch.tmp
    else (l.rows[pos.slot]?.map Row.key).getD []

/-- Where the search of a search near ends. -/
structure Landing where
  page : ℕ
  pos : LeafPos
  /-- The value, if the position is valid. -/
  valid : Option Value
  deriving DecidableEq, Repr

/-- A key near the search key; `exact` is how it compares with the search key. -/
structure Near where
  exact : Ordering
  key : Key
  value : Value
  deriving DecidableEq, Repr

section

variable (rd : Reader α β) (P : Platform) (root : Page α β) (srchKey : Key)

/-- The search of the pinned page, if there is one; its second component is `leaf_found`, what
`__check_leaf_key_range` says about the page.  It counts only if it ends on the search key or on a
slot inside the page. -/
def searchPinned (pinned : Option (ℕ × Bool)) : Option (Except Stop (Option Landing)) :=
  match pinned with
  | some (page, true) => do
    let l ← root.leaves[page]?
    let pos ← leafSearch P srchKey true true l ⟨0, 0, [], []⟩
    some <|
      if pos.compare = .eq ∨ (pos.slot ≠ 0 ∧ pos.slot + 1 ≠ l.rows.length) then
        match cursorValid rd l pos with
        | .error e => .error e
        | .ok none => .ok none
        | .ok (some value) => .ok (some ⟨page, pos, some value⟩)
      else .ok none
  | _ => some (.ok none)

/-- The search of the tree. -/
def searchTree (appendTree : Bool) : Option (Except Stop Landing) := do
  let f ← rowSearch P srchKey true appendTree root
  let l ← root.leaves[f.page]?
  some <|
    match cursorValid rd l f.pos with
    | .error e => .error e
    | .ok valid => .ok ⟨f.page, f.pos, valid⟩

/-- The two searches, one after the other. -/
def searchLanding (pinned : Option (ℕ × Bool)) (appendTree : Bool) :
    Option (Except Stop Landing) :=
  match searchPinned rd P root srchKey pinned with
  | none => none
  | some (.error e) => some (.error e)
  | some (.ok (some landing)) => some (.ok landing)
  | some (.ok none) => searchTree rd P root srchKey appendTree

/-- The loop that tries after the search key. -/
def nearNext (skip : ℕ → Bool) (pfx : Option Key) : ℕ → Cbt → Except Stop (Option Near)
  | 0, _ => .ok none
  | fuel + 1, cbt =>
    match btcurNextPrefix rd P.isa root.leaves skip pfx cbt with
    | .error e => .error e
    | .ok (.notFound _) => .ok none
    | .ok (.found cbt key value) =>
      let exact := lexCompare P.isa false key srchKey
      if exact ≠ .lt then .ok (some ⟨exact, key, value⟩)
      else nearNext skip pfx fuel cbt

/-- The loop that tries before the search key. -/
def nearPrev (skip : ℕ → Bool) : ℕ → Cbt → Except Stop (Option Near)
  | 0, _ => .ok none
  | fuel + 1, cbt =>
    match btcurPrev rd root.leaves skip false cbt with
    | .error e => .error e
    | .ok (.notFound _) => .ok none
    | .ok (.found cbt key value) =>
      let exact := lexCompare P.isa false key srchKey
      if exact ≠ .gt then .ok (some ⟨exact, key, value⟩)
      else nearPrev skip fuel cbt

/-- What follows when the landing is not the result. -/
def nearWalk (skip skip' : ℕ → Bool) (prefixSearch : Bool) (landing : Landing) :
    Except Stop (Option Near) :=
  match nearNext rd P root srchKey skip (if prefixSearch then some srchKey else none)
      (root.recs.length + 1) (iterateSetup landing.page landing.pos) with
  | .error e => .error e
  | .ok (some near) => .ok (some near)
  | .ok none =>
    if prefixSearch then .ok none
    else nearPrev rd P root srchKey skip' (root.recs.length + 1) .unpositioned

/-- What follows the searches. -/
def nearFrom (skip skip' : ℕ → Bool) (prefixSearch : Bool) (landing : Landing) :
    Except Stop (Option Near) :=
  match landing.valid, root.leaves[landing.page]? with
  | some value, some l =>
    let key := keyReturn l landing.pos
    if prefixSearch && prefixMatch P.isa srchKey key ≠ .eq then
      nearWalk rd P root srchKey skip skip' prefixSearch landing
    else .ok (some ⟨landing.pos.compare, key, value⟩)
  | _, _ => nearWalk rd P root srchKey skip skip' prefixSearch landing

/-- `__wt_btcur_search_near`.  The pages to skip are `skip` for the walk forward and `skip'` for the
walk backward: the walk forward may mark pages dirty.  The result is `WT_NOTFOUND` if there is no
key. -/
def searchNear (skip skip' : ℕ → Bool) (prefixSearch appendTree : Bool)
    (pinned : Option (ℕ × Bool)) : Option (Except Stop (Option Near)) :=
  match searchLanding rd P root srchKey pinned appendTree with
  | none => none
  | some (.error e) => some (.error e)
  | some (.ok landing) => some (nearFrom rd P root srchKey skip skip' prefixSearch landing)

end

end WiredTiger
