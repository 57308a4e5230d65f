/-
# Logging operations and applying them (`__txn_op_log`, `__txn_op_apply`)

A transaction logs what it does to a table; recovery applies logged operations to the table again.
A modify is logged as it is if it keeps the length of every range it replaces, and as the complete
value otherwise.  Recovery uses cursors that overwrite, so that it is no error to remove what is not
there, and a modify of what is not there does nothing.
-/
import WiredTiger.Modify.Refine

namespace WiredTiger

open Lib

/-- The kinds of trees.  In a fixed-length column-store all records in front of one that is there
are there, too, and a record is deleted by setting it to 0. -/
inductive BtreeKind
  | row
  | colVar
  | colFix
  deriving DecidableEq, Repr

/-- What recovery knows of a file. -/
structure LogFile where
  kind : BtreeKind
  valueFormat : ValueFormat

section Table

variable {κ : Type} [LinearOrder κ]

/-- The records of a table, by their keys or record numbers. -/
abbrev LogTable (κ : Type) := κ → Option (List UInt8)

namespace LogFile

variable (f : LogFile)

/-- `WT_CURSOR.insert`, overwriting. -/
def insert (t : LogTable κ) (key : κ) (value : List UInt8) : LogTable κ := fun x =>
  if x = key then some value
  else if f.kind = .colFix ∧ x < key then some ((t x).getD [0])
  else t x

/-- What is left of a record that is removed. -/
def removed (value : Option (List UInt8)) : Option (List UInt8) :=
  if f.kind = .colFix then value.map fun _ => [0] else none

/-- `WT_CURSOR.remove`, overwriting. -/
def remove (t : LogTable κ) (key : κ) : LogTable κ := fun x =>
  if x = key then f.removed (t x) else t x

/-- The key is in a range, which may be open at either end. -/
def inRange (start stop : Option κ) (x : κ) : Prop := (∀ a ∈ start, a ≤ x) ∧ ∀ b ∈ stop, x ≤ b

instance (start stop : Option κ) (x : κ) : Decidable (inRange start stop x) :=
  inferInstanceAs (Decidable ((∀ a ∈ start, a ≤ x) ∧ ∀ b ∈ stop, x ≤ b))

/-- The records of a range are removed. -/
def removeRange (t : LogTable κ) (start stop : Option κ) : LogTable κ := fun x =>
  if inRange start stop x then f.removed (t x) else t x

end LogFile

/-! ### Logging -/

/-- An operation in the log: `WT_LOGOP_ROW_PUT` or `WT_LOGOP_COL_PUT`, and so on.  A truncate
without a start and without a stop is `WT_TXN_TRUNC_ALL`. -/
inductive LogOp (κ : Type)
  | put (key : κ) (value : List UInt8)
  | remove (key : κ)
  | truncate (start stop : Option κ)
  | modify (key : κ) (modify : Packed)
  deriving DecidableEq, Repr

/-- An operation of a transaction: an update of a record, with the value of the cursor, which has
a modify applied already; or a truncate, where both cursors are on records and in order. -/
inductive TxnOp (κ : Type) [LinearOrder κ]
  | standard (key : κ) (value : List UInt8)
  | modify (key : κ) (entries : List Modify) (cursorValue : List UInt8)
  | tombstone (key : κ)
  | truncate (start : κ) (stop : Option κ) (inOrder : ∀ b ∈ stop, start ≤ b)

/-- `__wt_modify_idempotent`. -/
def modifyIdempotent (p : Packed) : Bool := (p.foreach 0).all fun m => m.size = m.data.length

/-- `__txn_op_log` and, for truncates, `__wt_txn_truncate_log`. -/
def txnOpLog : TxnOp κ → LogOp κ
  | .standard key value => .put key value
  | .modify key entries cursorValue =>
    if modifyIdempotent (modifyPack entries) then .modify key (modifyPack entries)
    else .put key cursorValue
  | .tombstone key => .remove key
  | .truncate start stop _ => .truncate (some start) stop

/-! ### Applying -/

inductive LogApplyError
  /-- `EINVAL`: there is no range, or its ends are not in order. -/
  | einval
  /-- Memory outside of the value is accessed. -/
  | fault
  deriving DecidableEq, Repr

/-- A value as a search returns it: it is on the page. -/
def foundItem (value : List UInt8) : Item := ⟨[], ⟨[], 0⟩, some value, value.length⟩

/-- The ends of a range are in order. -/
def rangeInOrder (start stop : Option κ) : Bool :=
  match start, stop with
  | none, none => false
  | some a, some b => a ≤ b
  | _, _ => true

/-- `__txn_op_apply`. -/
def txnOpApply (f : LogFile) (junk : ℕ → UInt8) (t : LogTable κ) :
    LogOp κ → Except LogApplyError (LogTable κ)
  | .put key value => .ok (f.insert t key value)
  | .remove key => .ok (f.remove t key)
  | .truncate start stop =>
    if rangeInOrder start stop then .ok (f.removeRange t start stop) else .error .einval
  | .modify key p =>
    match t key with
    | none => .ok t
    | some value =>
      match modifyApplyItem junk f.valueFormat (foundItem value) p with
      | some item => .ok (f.insert t key item.value)
      | none => .error .fault

/-- Operations are applied one after the other, as `__txn_commit_apply` does those of a record. -/
def txnOpsApply (f : LogFile) (junk : ℕ → UInt8) (t : LogTable κ) (ops : List (LogOp κ)) :
    Except LogApplyError (LogTable κ) :=
  ops.foldlM (txnOpApply f junk) t

end Table

end WiredTiger
