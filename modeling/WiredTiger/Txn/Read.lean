/-
# Reading a key (`__wt_txn_read` in `include/txn_inline.h`)

A read takes the first update of the chain that is visible, then the value on the page, then a
version in the history store.
-/
import WiredTiger.History.Find

namespace WiredTiger

/-- The value of a row on the disk image of a page. -/
structure Cell where
  tw : TimeWindow
  value : Value
  deriving DecidableEq, Repr

/-- The type of a `WT_UPDATE_VALUE` with its value. -/
inductive UpdateValue
  | invalid
  | standard (value : Value)
  | tombstone
  deriving DecidableEq, Repr

/-- What `__wt_txn_read_upd_list_internal` finds. -/
structure UpdList where
  /-- The first visible update, with the chain behind it. -/
  chain : List Update
  prepareUpd : Option Update
  restoredUpd : Option Update
  deriving DecidableEq, Repr

/-- `__wt_txn_read_upd_list_internal`, as far as it walks the chain. -/
def txnReadUpdList (w : View) :
    List Update → Option Update → Option Update → Except Stop UpdList
  | [], prepareUpd, restoredUpd => .ok ⟨[], prepareUpd, restoredUpd⟩
  | upd :: next, prepareUpd, restoredUpd =>
    if upd.data = .reserve then txnReadUpdList w next prepareUpd restoredUpd
    else
      match txnUpdVisibleType w upd with
      | .error e => .error e
      | .ok .true => .ok ⟨upd :: next, prepareUpd, restoredUpd⟩
      | .ok visible =>
        let prepareUpd :=
          if (upd.prepare = .inprogress ∨ upd.prepare = .locked) ∧ prepareUpd = none ∧
            upd.prepareRestoredFromDs then some upd else prepareUpd
        let restoredUpd :=
          match upd.data with
          | .standard _ => if upd.restoredFromHs then some upd else restoredUpd
          | _ => restoredUpd
        if visible = .prepare ∧ !w.ignorePrepare then .error .prepareConflict
        else txnReadUpdList w next prepareUpd restoredUpd

/-- `__wt_modify_reconstruct_from_upd_list`: the full value of the first update of a chain, over the
value on the page. -/
def modifyReconstruct (fmt : ValueFormat) (onpage : Option Value) : List Update → Option Value
  | [] => onpage
  | upd :: next =>
    if upd.txnid = txnAborted then modifyReconstruct fmt onpage next
    else
      match upd.data with
      | .standard value => some value
      | .tombstone => some []
      | .reserve => modifyReconstruct fmt onpage next
      | .modify entries => (modifyReconstruct fmt onpage next).map (applyModifies fmt entries)

/-- The value of the visible update at the head of a chain. -/
def updValueAssign (fmt : ValueFormat) (onpage : Option Value) : List Update → UpdateValue
  | [] => .invalid
  | upd :: next =>
    match upd.data with
    | .standard value => .standard value
    | .tombstone => .tombstone
    | .reserve => .invalid
    | .modify _ =>
      match modifyReconstruct fmt onpage (upd :: next) with
      | some value => .standard value
      | none => .invalid

/-- A lookup in the history store, with the base value for modifies. -/
def txnReadHs (w : View) (g : Global) (fmt : ValueFormat) (hs : List HsRec) (after : Bool)
    (base : Value) : UpdateValue :=
  match hsFindUpd w g hs fmt after base with
  | some value => .standard value
  | none => .invalid

/-- `__wt_txn_read`.  `hs` has the records of the history store for the key that is passed along,
and an inserted key has no cell. -/
def txnRead (w : View) (g : Global) (fmt : ValueFormat) (hs : List HsRec) (after : Bool)
    (cell : Option Cell) (upd : List Update) : Except Stop UpdateValue := do
  let found ← txnReadUpdList w upd none none
  if found.chain ≠ [] then
    .ok (updValueAssign fmt (cell.map Cell.value) found.chain)
  else
    match cell with
    | none => .ok .tombstone
    | some cell =>
      match found.restoredUpd with
      | some ⟨_, _, _, .standard value, _, _, _⟩ => .ok (txnReadHs w g fmt hs after value)
      | _ =>
        if txnTwStopVisible w cell.tw then .ok .tombstone
        else if txnTwStartVisible w cell.tw then .ok (.standard cell.value)
        else .ok (txnReadHs w g fmt hs after cell.value)

end WiredTiger
