/-
# Indices of a table (`cursor/cur_table.c`)

An index holds, for each row of a table, the indexed columns followed by the primary key.  The calls
that change a row keep the indices: the entry of the old row is removed and that of the new row is
inserted.  Both are made from what the cursors of the column groups hold, so that an update has to
put the new value aside while the old row is read.  An index that is declared immutable is left
alone by updates.

An update with overwrite of a key that is not there inserts a row, and it leaves the immutable
indices alone as well, although there is no old entry.  `__wt_curtable_set_key` leaves the cursors
behind the primary on the row of an earlier call, and an insert with overwrite then writes the
columns of the new row there.
-/
import WiredTiger.Table.ColGroups

namespace WiredTiger

open Lib

variable {κ ν ι : Type*}

section Model

variable [LinearOrder κ]

/-! ### Changes of the indices -/

/-- A `WT_INDEX` with what its tree holds.  The columns are taken from the values of the column
groups. -/
structure TableIndex (κ ν ι : Type*) where
  immutable : Bool
  columns : List ν → ι
  entries : Finset (ι × κ)

variable [DecidableEq ι]

/-- The insert method of an index cursor. -/
def indexInsert (overwrite : Bool) (e : ι × κ) (idx : TableIndex κ ν ι) :
    TableIndex κ ν ι × CursorRet :=
  if e ∈ idx.entries ∧ overwrite = false then (idx, .duplicateKey)
  else ({ idx with entries := insert e idx.entries }, .ok)

/-- The remove method of an index cursor. -/
def indexRemove (overwrite : Bool) (e : ι × κ) (idx : TableIndex κ ν ι) :
    TableIndex κ ν ι × CursorRet :=
  if e ∉ idx.entries ∧ overwrite = false then (idx, .notFound)
  else ({ idx with entries := idx.entries.erase e }, .ok)

/-- `__wt_schema_project_merge` along the plan of an index: the columns from the values of the
cursors, and the key of the primary. -/
def indexKey (idx : TableIndex κ ν ι) (cgs : List (Cg κ ν)) : Option (ι × κ) :=
  match cgs.head?.bind fun c => c.key.get, cgs.mapM fun c => c.value.get with
  | some k, some vs => some (idx.columns vs, k)
  | _, _ => none

/-- `__wt_apply_single_idx`. -/
def applySingleIdx (f : ι × κ → TableIndex κ ν ι → TableIndex κ ν ι × CursorRet)
    (cgs : List (Cg κ ν)) (idx : TableIndex κ ν ι) : TableIndex κ ν ι × CursorRet :=
  match indexKey idx cgs with
  | none => (idx, .einval)
  | some e => f e idx

/-- `__apply_idx`. -/
def applyIdx (f : ι × κ → TableIndex κ ν ι → TableIndex κ ν ι × CursorRet) (skipImmutable : Bool)
    (cgs : List (Cg κ ν)) : List (TableIndex κ ν ι) → List (TableIndex κ ν ι) × CursorRet
  | [] => ([], .ok)
  | idx :: rest =>
    if skipImmutable && idx.immutable then
      (idx :: (applyIdx f skipImmutable cgs rest).1, (applyIdx f skipImmutable cgs rest).2)
    else
      let r := applySingleIdx f cgs idx
      if r.2 = .ok then
        (r.1 :: (applyIdx f skipImmutable cgs rest).1, (applyIdx f skipImmutable cgs rest).2)
      else (r.1 :: rest, r.2)

/-! ### Calls that change a row -/

/-- The column groups with the cursors of a table cursor, and the indices. -/
structure TableStore (κ ν ι : Type*) where
  cgs : List (Cg κ ν)
  indices : List (TableIndex κ ν ι)

/-- The end of `__curtable_update`: update the column groups, then insert the new index keys. -/
def updateColumns (overwrite : Bool) (t : TableStore κ ν ι) : TableStore κ ν ι × CursorRet :=
  let u := applyCg (curfileUpdate overwrite) t.cgs .ok
  if u.2 = .ok then
    let i := applyIdx (indexInsert overwrite) true u.1 t.indices
    (⟨u.1, i.1⟩, i.2)
  else (⟨u.1, t.indices⟩, u.2)

/-- `__curtable_update`.  The new value is put aside before the old row is searched for
(`value_copy`), and put back after the old index keys are removed. -/
def curtableUpdate (overwrite : Bool) (t : TableStore κ ν ι) : TableStore κ ν ι × CursorRet :=
  if t.indices.isEmpty then updateColumns overwrite t
  else
    let valueCopy := t.cgs.map Cg.value
    let s := applyCg Cg.search t.cgs .ok
    if s.2 = .ok then
      let i := applyIdx (indexRemove overwrite) true s.1 t.indices
      if i.2 = .ok then
        updateColumns overwrite
          ⟨s.1.zipWith (fun c v => { c with value := v }) valueCopy, i.1⟩
      else (⟨s.1, i.1⟩, i.2)
    else if s.2 = .notFound then updateColumns overwrite ⟨s.1, t.indices⟩
    else (⟨s.1, t.indices⟩, s.2)

/-- A loop over the cursors that ends with the first failure (`WT_ERR`). -/
def eachCg (f : Cg κ ν → Cg κ ν × CursorRet) : List (Cg κ ν) → List (Cg κ ν) × CursorRet
  | [] => ([], .ok)
  | c :: cs =>
    let r := f c
    if r.2 = .ok then (r.1 :: (eachCg f cs).1, (eachCg f cs).2) else (r.1 :: cs, r.2)

/-- `__curtable_insert`.  With indices the primary is told not to overwrite, so that a key that is
there is detected. -/
def curtableInsert (overwrite : Bool) (t : TableStore κ ν ι) : TableStore κ ν ι × CursorRet :=
  match t.cgs with
  | [] => (t, .ok)
  | primary :: cs =>
    let r := curfileInsert (if t.indices.isEmpty then overwrite else false) primary
    if r.2 = .duplicateKey ∧ overwrite = true then
      let u := curtableUpdate overwrite ⟨r.1 :: cs, t.indices⟩
      if u.2 = .ok then (⟨u.1.cgs.map Cg.reset, u.1.indices⟩, .ok) else u
    else if r.2 = .ok then
      let s := eachCg (curfileInsert overwrite) cs
      if s.2 = .ok then
        let i := applyIdx (indexInsert overwrite) false (r.1 :: s.1) t.indices
        (⟨r.1 :: s.1, i.1⟩, i.2)
      else (⟨r.1 :: s.1, t.indices⟩, s.2)
    else (⟨r.1 :: cs, t.indices⟩, r.2)

/-- A record that is not there is what a remove with overwrite asks for. -/
def foundOrOverwrite (overwrite : Bool) (ret : CursorRet) : CursorRet :=
  if ret = .notFound ∧ overwrite = true then .ok else ret

/-- The label `notfound` of `__curtable_remove`: only a table cursor that was positioned stays so.
-/
def removeDone (overwrite positioned : Bool) (t : TableStore κ ν ι) (ret : CursorRet) :
    TableStore κ ν ι × CursorRet :=
  (⟨if positioned then t.cgs else t.cgs.map Cg.reset, t.indices⟩, foundOrOverwrite overwrite ret)

/-- `__curtable_remove`. -/
def curtableRemove (overwrite : Bool) (t : TableStore κ ν ι) : TableStore κ ν ι × CursorRet :=
  let positioned := t.cgs.head?.any fun c => c.pinned.isSome
  let s := if t.indices.isEmpty then (t.cgs, CursorRet.ok) else applyCg Cg.search t.cgs .ok
  if s.2 = .ok then
    let i := if t.indices.isEmpty then (t.indices, CursorRet.ok)
      else applyIdx (indexRemove overwrite) false s.1 t.indices
    if i.2 = .ok then
      let r := applyCg (curfileRemove overwrite) s.1 .ok
      if r.2 = .ok ∨ r.2 = .notFound then removeDone overwrite positioned ⟨r.1, i.1⟩ r.2
      else (⟨r.1, i.1⟩, r.2)
    else (⟨s.1, i.1⟩, i.2)
  else if s.2 = .notFound then removeDone overwrite positioned ⟨s.1, t.indices⟩ s.2
  else (⟨s.1, t.indices⟩, s.2)

/-! ### Truncating a range -/

/-- The loop of `__wt_table_range_truncate`: each row that is passed loses its index keys.  The
cursor is moved by `move` as long as its key says that there is `more`; no row is passed twice, so
that `fuel` is never used up if it exceeds the number of rows. -/
def truncateIndices (overwrite : Bool) (move : Cg κ ν → Cg κ ν × CursorRet) (more : κ → Bool) :
    ℕ → TableStore κ ν ι → List (TableIndex κ ν ι) × CursorRet
  | 0, t => (t.indices, .ok)
  | fuel + 1, t =>
    let s := applyCg Cg.search t.cgs .ok
    if s.2 = .ok then
      let i := applyIdx (indexRemove overwrite) false s.1 t.indices
      if i.2 = .ok then
        if (s.1.head?.bind fun c => c.key.get).any more then
          let n := applyCg move s.1 .ok
          if n.2 = .ok then truncateIndices overwrite move more fuel ⟨n.1, i.1⟩
          else (i.1, if n.2 = .notFound then .ok else n.2)
        else (i.1, .ok)
      else (i.1, i.2)
    else (t.indices, s.2)

/-- `__wt_range_truncate` on a column group; the key is compared before the record is removed. -/
def rangeTruncate (overwrite : Bool) (move : Cg κ ν → Cg κ ν × CursorRet) (more : κ → Bool) :
    ℕ → Cg κ ν → Cg κ ν × CursorRet
  | 0, c => (c, .ok)
  | fuel + 1, c =>
    let r := curfileRemove overwrite c
    if r.2 = .ok then
      if c.key.get.any more then
        let n := move r.1
        if n.2 = .ok then rangeTruncate overwrite move more fuel n.1
        else (n.1, if n.2 = .notFound then .ok else n.2)
      else r
    else r

/-- The rows and the indices of a table. -/
structure IndexedTable (κ ν ι : Type*) where
  /-- The column groups: the keys, and the columns in the row of a key. -/
  groups : List (Finset κ × (κ → ν))
  indices : List (TableIndex κ ν ι)

namespace IndexedTable

variable (t : IndexedTable κ ν ι)

/-- The primary keys. -/
def keys : Finset κ := (t.groups.head?.map Prod.fst).getD ∅

/-- The values of the column groups in the row of `k`. -/
def row (k : κ) : List ν := t.groups.map fun g => g.2 k

/-- The cursors of a table cursor that stands on the row of `k`. -/
def cursorsAt (k : κ) : List (Cg κ ν) :=
  t.groups.map fun g => ⟨g.1, g.2, .int k, some k, .int (g.2 k)⟩

/-- What is in the trees. -/
def of (s : TableStore κ ν ι) : IndexedTable κ ν ι :=
  ⟨s.cgs.map fun c => (c.keys, c.column), s.indices⟩

/-- `__wt_table_range_truncate` from the row of `p`: the index keys go first, and then, from `p`
again, the rows of one column group after the other. -/
def truncateFrom (overwrite : Bool) (move : Cg κ ν → Cg κ ν × CursorRet) (more : κ → Bool) (p : κ) :
    IndexedTable κ ν ι × CursorRet :=
  let fuel := t.keys.card + 1
  let i := if t.indices.isEmpty then (t.indices, CursorRet.ok)
    else truncateIndices overwrite move more fuel ⟨t.cursorsAt p, t.indices⟩
  if i.2 = .ok then
    let c := eachCg (rangeTruncate overwrite move more fuel) (t.cursorsAt p)
    (of ⟨c.1, i.1⟩, c.2)
  else (⟨t.groups, i.1⟩, i.2)

/-- `__wt_table_range_truncate`, for cursors that stand on rows: without a start the rows are
passed from the stop backwards, and otherwise from the start forwards until the stop is met. -/
def tableRangeTruncate (overwrite : Bool) : Option κ → Option κ → IndexedTable κ ν ι × CursorRet
  | none, none => (t, .einval)
  | none, some q => t.truncateFrom overwrite Cg.prev (fun _ => true) q
  | some p, stop => t.truncateFrom overwrite Cg.next (fun k => stop.all fun q => k < q) p

/-! ### Sequences of calls -/

/-- A cursor on a column group after `set_key`.  `__wt_curtable_set_key` only sets
`WT_CURSTD_KEY_EXT`: a cursor with a position `p` still has `WT_CURSTD_KEY_INT`. -/
def loaded (p : Option κ) (k : κ) (g : Finset κ × (κ → ν)) (v : Held ν) : Cg κ ν :=
  ⟨g.1, g.2, if p.isSome then .int k else .ext k, p, v⟩

/-- `set_key` and `set_value` on a table cursor with these positions. -/
def load (pos : ℕ → Option κ) (k : κ) (vs : List ν) : TableStore κ ν ι :=
  ⟨(t.groups.zip vs).zipIdx.map fun a => loaded (pos a.2) k a.1.1 (.ext a.1.2), t.indices⟩

/-- `set_key` alone. -/
def loadKey (pos : ℕ → Option κ) (k : κ) : TableStore κ ν ι :=
  ⟨t.groups.zipIdx.map fun a => loaded (pos a.2) k a.1 .unset, t.indices⟩

/-- The indexed columns of a row that is there are not changed, for the immutable indices. -/
def KeepsImmutable (k : κ) (vs : List ν) : Prop :=
  k ∈ t.keys → ∀ idx ∈ t.indices, idx.immutable = true → idx.columns vs = idx.columns (t.row k)

instance (k : κ) (vs : List ν) : Decidable (t.KeepsImmutable k vs) :=
  inferInstanceAs (Decidable (_ → _))

/-- The column groups have the same keys, and each index holds one entry for each row, with the
indexed columns and the primary key of the row, and no other entry. -/
structure Matching : Prop where
  ne : t.groups ≠ []
  same : ∀ g ∈ t.groups, g.1 = t.keys
  entries : ∀ idx ∈ t.indices, idx.entries = t.keys.image fun k => (idx.columns (t.row k), k)

end IndexedTable

/-- A call on a table cursor `cur`.  The key is that of the cursor's position if none is given, and
`used` are the cursors that a range was given by. -/
inductive Call (κ ν : Type*)
  | insert (cur : ℕ) (overwrite : Bool) (key : Option κ) (vs : List ν)
  | update (cur : ℕ) (overwrite : Bool) (key : Option κ) (vs : List ν)
  | remove (cur : ℕ) (overwrite : Bool) (key : Option κ)
  | truncate (overwrite : Bool) (start stop : Option κ) (used : List ℕ)
  /-- A call that reads leaves the cursors on the row of `k`. -/
  | seek (cur : ℕ) (k : κ)
  /-- A position is given up by a reset, or its page is flagged for forced eviction. -/
  | unpin (cur i : ℕ)

/-- A table with the table cursors that are open on it. -/
structure OpenTable (κ ν ι : Type*) where
  table : IndexedTable κ ν ι
  /-- The positions that the cursors of a table cursor hold, by column group. -/
  pos : ℕ → ℕ → Option κ

namespace OpenTable

variable (s : OpenTable κ ν ι)

/-- The key of a call. -/
def keyFor (cur : ℕ) (key : Option κ) : Option κ := key.or (s.pos cur 0)

/-- The positions when a call is made: the primary gives up its own when a key is set. -/
def posFor (cur : ℕ) (key : Option κ) : ℕ → Option κ :=
  if key.isSome then Function.update (s.pos cur) 0 none else s.pos cur

/-- What a call has left in the trees and on the cursors, if it was successful. -/
def settle (cur : ℕ) (r : TableStore κ ν ι × CursorRet) : Option (OpenTable κ ν ι) :=
  if r.2 = .ok then
    some ⟨.of r.1, Function.update s.pos cur fun i => r.1.cgs[i]?.bind Cg.pinned⟩
  else none

/-- A call that writes the row `vs`.  It has a value for each column group, and the immutable
columns are not changed. -/
def write (call : TableStore κ ν ι → TableStore κ ν ι × CursorRet) (cur : ℕ) (key : Option κ)
    (vs : List ν) : Option (OpenTable κ ν ι) :=
  (s.keyFor cur key).bind fun k =>
    if vs.length = s.table.groups.length ∧ s.table.KeepsImmutable k vs then
      s.settle cur (call (s.table.load (s.posFor cur key) k vs))
    else none

/-- A successful call.  The ends of a range are rows, at least one of them is given, and they are in
order. -/
def step : Call κ ν → Option (OpenTable κ ν ι)
  | .insert cur overwrite key vs => s.write (curtableInsert overwrite) cur key vs
  | .update cur overwrite key vs => s.write (curtableUpdate overwrite) cur key vs
  | .remove cur overwrite key =>
    (s.keyFor cur key).bind fun k =>
      s.settle cur (curtableRemove overwrite (s.table.loadKey (s.posFor cur key) k))
  | .truncate overwrite start stop used =>
    if (∀ p ∈ start, p ∈ s.table.keys) ∧ (∀ q ∈ stop, q ∈ s.table.keys) ∧
        (∀ p ∈ start, ∀ q ∈ stop, p ≤ q) ∧ (start.isSome ∨ stop.isSome) then
      let r := s.table.tableRangeTruncate overwrite start stop
      if r.2 = .ok then some ⟨r.1, fun c => if c ∈ used then fun _ => none else s.pos c⟩ else none
    else none
  | .seek cur k =>
    if k ∈ s.table.keys then
      some { s with pos := Function.update s.pos cur fun _ => some k }
    else none
  | .unpin cur i =>
    some { s with pos := Function.update s.pos cur (Function.update (s.pos cur) i none) }

/-- The indices match the rows. -/
def Matching : Prop := s.table.Matching

/-- An update finds its row, or there is no immutable index.  An insert with overwrite finds its
row, or none of the cursors behind the primary stands on another one. -/
def FindsRow : Call κ ν → Prop
  | .update cur _ key _ => ∀ k ∈ s.keyFor cur key,
    k ∈ s.table.keys ∨ ∀ idx ∈ s.table.indices, idx.immutable = false
  | .insert cur overwrite key _ => ∀ k ∈ s.keyFor cur key,
    overwrite = true → k ∉ s.table.keys →
      ∀ i, 0 < i → i < s.table.groups.length → ∀ p ∈ s.pos cur i, p = k
  | _ => True

end OpenTable

end Model

end WiredTiger
