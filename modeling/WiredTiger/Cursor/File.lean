/-
# Cursors on a tree (`cursor/cur_file.c`, `cursor/cur_std.c`)

A cursor holds a key and a value, which the application has set or which are those of the record it
stands on.  A call that changes a record is made where the cursor stands if its key is the one in
the tree, and otherwise for the key that has been set.
-/
import WiredTiger.Lib.Neighbour

namespace WiredTiger

open Lib

/-! ### What a cursor holds and returns -/

/-- What a cursor holds of a key or a value (`WT_CURSTD_KEY_EXT` and its siblings): nothing, what
the application has set, or what is in the tree at the position of the cursor. -/
inductive Held (α : Type*)
  | unset
  | ext (a : α)
  | int (a : α)
  deriving DecidableEq

namespace Held

variable {α : Type*}

def get : Held α → Option α
  | unset => none
  | ext a => some a
  | int a => some a

/-- `__wt_cursor_localkey`. -/
def localCopy : Held α → Held α
  | int a => ext a
  | h => h

/-- `__cursor_novalue`. -/
def novalue : Held α → Held α
  | int _ => unset
  | h => h

@[simp] lemma get_localCopy (h : Held α) : h.localCopy.get = h.get := by
  cases h <;> rfl

end Held

/-- What a cursor call returns. -/
inductive CursorRet
  | ok
  | notFound
  | duplicateKey
  | einval
  deriving DecidableEq, Repr

/-- `WT_TRET`, as far as these values go. -/
def CursorRet.tret (ret r : CursorRet) : CursorRet :=
  if r ≠ .ok ∧ (ret = .ok ∨ ret = .duplicateKey ∨ ret = .notFound) then r else ret

/-! ### A cursor on a column group -/

/-- A column group with the table cursor's cursor on it. -/
structure Cg (κ ν : Type*) where
  keys : Finset κ
  /-- The columns of the group in the row of a key. -/
  column : κ → ν
  key : Held κ
  /-- The key of the record the cursor stands on. -/
  pos : Option κ
  value : Held ν

variable {κ ν : Type*} [LinearOrder κ]

namespace Cg

/-- The cursor on the record of `k`. -/
def place (k : κ) (c : Cg κ ν) : Cg κ ν :=
  { c with key := .int k, pos := some k, value := .int (c.column k) }

/-- A search has failed: the position is lost, and what the application has set is kept
(`__cursor_reset`, `__cursor_state_restore`). -/
def lose (c : Cg κ ν) : Cg κ ν :=
  { c with key := c.key.localCopy, pos := none, value := c.value.novalue }

/-- `__wt_btcur_reset`. -/
def reset (c : Cg κ ν) : Cg κ ν := { c with key := .unset, pos := none, value := .unset }

/-- `__curfile_search`. -/
def search (c : Cg κ ν) : Cg κ ν × CursorRet :=
  match c.key.get with
  | none => (c, .einval)
  | some k => if k ∈ c.keys then (c.place k, .ok) else (c.lose, .notFound)

/-- The cursor goes to a record, or past the end of the tree. -/
def move (dest : Option κ) (c : Cg κ ν) : Cg κ ν × CursorRet :=
  match dest with
  | none => (c.reset, .notFound)
  | some k => (c.place k, .ok)

/-- `__curfile_next`. -/
def next (c : Cg κ ν) : Cg κ ν × CursorRet :=
  c.move (match c.pos with
    | none => least c.keys
    | some k => above c.keys k)

/-- `__curfile_prev`. -/
def prev (c : Cg κ ν) : Cg κ ν × CursorRet :=
  c.move (match c.pos with
    | none => greatest c.keys
    | some k => below c.keys k)

/-- `__curfile_search_near`; without the key itself, where the search ends in the tree (`down`)
tells which of its neighbours is returned. -/
def searchNear (down : Bool) (c : Cg κ ν) : Cg κ ν × CursorRet :=
  match c.key.get with
  | none => (c, .einval)
  | some k =>
    match near c.keys k down with
    | none => (c.lose, .notFound)
    | some k' => (c.place k', .ok)

/-- `__wt_curfile_next_random`: the record that is picked, or the first one if the descent fails. -/
def nextRandom (pick : κ) (c : Cg κ ν) : Cg κ ν × CursorRet :=
  c.move (if pick ∈ c.keys then some pick else least c.keys)

/-- `__wt_cursor_set_key`. -/
def setKey (k : κ) (c : Cg κ ν) : Cg κ ν := { c with key := .ext k }

/-- The key of the primary is copied. -/
def copyKey (primary c : Cg κ ν) : Cg κ ν :=
  match primary.key.get with
  | none => c
  | some k => c.setKey k

/-! ### Changes of the records -/

/-- What is in the tree is copied before the position is given up (`__wt_cursor_localkey`,
`__cursor_localvalue`). -/
def keep (c : Cg κ ν) : Cg κ ν :=
  { c with key := c.key.localCopy, pos := none, value := c.value.localCopy }

/-- The record of `k` is written. -/
def store (k : κ) (v : ν) (c : Cg κ ν) : Cg κ ν :=
  { c with keys := insert k c.keys, column := Function.update c.column k v }

/-- The record of `k` is removed. -/
def erase (k : κ) (c : Cg κ ν) : Cg κ ν := { c with keys := c.keys.erase k }

/-- The record of `k`, where the cursor stays, is removed. -/
def strike (k : κ) (c : Cg κ ν) : Cg κ ν := { c.erase k with value := .unset }

/-- `__cursor_page_pinned`, for calls other than searches: with `WT_CURSTD_KEY_INT` the call is made
where the cursor stands. -/
def pinned (c : Cg κ ν) : Option κ :=
  match c.key with
  | .int _ => c.pos
  | _ => none

end Cg

/-- `__curfile_insert`.  With overwrite a cursor on a pinned page writes where it stands.  A
successful insert clears the flags of the key and the value and leaves the items, which are what the
callers read. -/
def curfileInsert (overwrite : Bool) (c : Cg κ ν) : Cg κ ν × CursorRet :=
  match c.key.get, c.value.get with
  | some k, some v =>
    if overwrite then (c.keep.store (c.pinned.getD k) v, .ok)
    else if k ∈ c.keys then (c.keep, .duplicateKey)
    else (c.keep.store k v, .ok)
  | _, _ => (c, .einval)

/-- `__curfile_update`; a cursor on a pinned page writes where it stands, and keeps its key. -/
def curfileUpdate (overwrite : Bool) (c : Cg κ ν) : Cg κ ν × CursorRet :=
  match c.key.get, c.value.get with
  | some k, some v =>
    if c.pinned = none ∧ k ∉ c.keys ∧ overwrite = false then (c.keep, .notFound)
    else
      let p := c.pinned.getD k
      ({ c.store p v with key := .int k, pos := some p, value := .int v }, .ok)
  | _, _ => (c, .einval)

/-- `__curfile_remove`; a cursor on a pinned page removes what it stands on and stays there. -/
def curfileRemove (overwrite : Bool) (c : Cg κ ν) : Cg κ ν × CursorRet :=
  match c.key.get, c.pinned with
  | none, _ => (c, .einval)
  | some _, some p => (c.strike p, .ok)
  | some k, none =>
    if k ∈ c.keys then ((c.erase k).reset, .ok)
    else if overwrite then ({ c.lose with value := .unset }, .ok)
    else (c.lose, .notFound)

end WiredTiger
