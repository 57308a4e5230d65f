/-
# LSM cursors (`lsm/lsm_cursor.c`)

The records of an LSM tree are in its chunks, each of them a tree of its own: the newest chunk that
holds a key has its record, and a deleted record leaves a tombstone in a newer chunk.  An LSM cursor
has a cursor on each of the chunks and merges what they read.  To walk in one direction it keeps
each of them on the first key of its chunk that has not been passed, and the first of these keys is
the next one; on turning round, or after a search, all but the current cursor are positioned anew.

The chunks do not change while the cursor is used, and the chunk cursors read a fixed snapshot.
-/
import WiredTiger.Cursor.File
import WiredTiger.Lib.Direction

namespace WiredTiger

open Lib

/-! ### Tombstones -/

/-- `__tombstone`. -/
def tombstone : List UInt8 := [0x14, 0x14]

/-- `__clsm_deleted`. -/
def clsmDeleted (item : List UInt8) : Bool :=
  item.length == tombstone.length && item.take tombstone.length == tombstone

/-- `__clsm_deleted_encode`. -/
def clsmDeletedEncode (value : List UInt8) : List UInt8 :=
  if value.length ≥ tombstone.length ∧ value.take tombstone.length = tombstone then
    value ++ tombstone.take 1
  else value

/-- `__clsm_deleted_decode`. -/
def clsmDeletedDecode (value : List UInt8) : List UInt8 :=
  if value.length > tombstone.length ∧ value.take tombstone.length = tombstone then
    value.dropLast
  else value

/-! ### Chunks and the cursors on them -/

/-- A chunk: a sorted map from keys to values or tombstones, with a Bloom filter if it has one. -/
structure LsmChunk (κ : Type*) where
  keys : Finset κ
  /-- The value of a key, or `none` for a tombstone. -/
  entry : κ → Option (List UInt8)
  bloom : Option (κ → Bool)
  bloom_of_mem : ∀ b ∈ bloom, ∀ k ∈ keys, b k = true

namespace LsmChunk

variable {κ : Type*}

/-- The value as the tree of the chunk has it. -/
def raw (c : LsmChunk κ) (k : κ) : List UInt8 :=
  match c.entry k with
  | none => tombstone
  | some v => clsmDeletedEncode v

/-- The Bloom filter tells that the key is not in the chunk. -/
def bloomMiss (c : LsmChunk κ) (k : κ) : Bool :=
  match c.bloom with
  | none => false
  | some b => !b k

end LsmChunk

/-- A chunk with the cursor on it, which has a key (`WT_CURSTD_KEY_INT`) while it has a position. -/
structure ChunkCursor (κ : Type*) where
  chunk : LsmChunk κ
  pos : Option κ

variable {κ : Type*} [LinearOrder κ]

namespace ChunkCursor

def reset (c : ChunkCursor κ) : ChunkCursor κ := { c with pos := none }

/-- `next` and `prev` of the chunk cursor; it has no position after the last record. -/
def move (d : Dir) (c : ChunkCursor κ) : ChunkCursor κ :=
  { c with
    pos := match c.pos with
      | none => d.first c.chunk.keys
      | some k => d.next c.chunk.keys k }

/-- `set_key` and `search` of the chunk cursor; it has no position if nothing is found. -/
def search (k : κ) (c : ChunkCursor κ) : ChunkCursor κ :=
  { c with pos := if k ∈ c.chunk.keys then some k else none }

/-- `set_key` and `search_near` of the chunk cursor.  Without the key itself, where the search ends
in the tree (`down`) tells which of its neighbours is returned. -/
def searchNear (k : κ) (down : Bool) (c : ChunkCursor κ) : ChunkCursor κ :=
  { c with pos := near c.chunk.keys k down }

/-- `__clsm_position_chunk`, which returns how the record found by the search compares with the key,
or nothing for `WT_NOTFOUND`. -/
def positionChunk (d : Dir) (k : κ) (down : Bool) (c : ChunkCursor κ) :
    ChunkCursor κ × Option Ordering :=
  let c := c.searchNear k down
  match c.pos with
  | none => (c, none)
  | some k' =>
    if d.Before k' k then
      let c := c.move d
      (c, if c.pos.isSome then some (compare k' k) else none)
    else (c, some (compare k' k))

end ChunkCursor

/-! ### The LSM cursor -/

/-- An LSM cursor. -/
structure Clsm (κ : Type*) where
  /-- The chunk cursors, from the newest chunk to the oldest. -/
  cursors : List (ChunkCursor κ)
  /-- The place of the current chunk cursor. -/
  current : Option ℕ
  /-- `WT_CLSM_ITERATE_NEXT` or `WT_CLSM_ITERATE_PREV`; to set one of them clears the other. -/
  iterate : Option Dir
  /-- `WT_CLSM_MULTIPLE`. -/
  multiple : Bool
  key : Held κ
  value : Held (List UInt8)

namespace Clsm

/-- An LSM cursor that has just been opened. -/
def opened (chunks : List (LsmChunk κ)) : Clsm κ where
  cursors := chunks.map fun c => ⟨c, none⟩
  current := none
  iterate := none
  multiple := false
  key := .unset
  value := .unset

/-- The chunk cursors are searched for the first key in the direction of the walk; returned are the
place of the newest cursor on that key, and whether there is more than one. -/
def frontCursor (d : Dir) :
    ℕ → Option (ℕ × κ) → Bool → List (ChunkCursor κ) → Option (ℕ × κ) × Bool
  | _, current, multiple, [] => (current, multiple)
  | i, current, multiple, c :: cs =>
    match c.pos with
    | none => frontCursor d (i + 1) current multiple cs
    | some k =>
      match current with
      | none => frontCursor d (i + 1) (some (i, k)) multiple cs
      | some (j, k') =>
        if d.Before k k' then frontCursor d (i + 1) (some (i, k)) false cs
        else if k = k' then frontCursor d (i + 1) (some (j, k')) true cs
        else frontCursor d (i + 1) (some (j, k')) multiple cs

/-- The value the chunk cursor at a place has for its key. -/
def rawAt (cursors : List (ChunkCursor κ)) (i : ℕ) (k : κ) : List UInt8 :=
  match cursors[i]? with
  | none => []
  | some c => c.chunk.raw k

/-- `__clsm_get_current`: the cursor and whether it is on a tombstone, or nothing for
`WT_NOTFOUND`. -/
def getCurrent (d : Dir) (s : Clsm κ) : Clsm κ × Option Bool :=
  match frontCursor d 0 none false s.cursors with
  | (none, _) => ({ s with current := none, key := .unset, value := .unset }, none)
  | (some (i, k), multiple) =>
    let value := rawAt s.cursors i k
    let deleted := clsmDeleted value
    ({ s with
        current := some i
        multiple := multiple
        key := if deleted then .unset else .int k
        value := if deleted then .unset else .int value }, some deleted)

/-- The loop that gets a walk started: without a key each chunk cursor goes to its first record,
otherwise all but the current one are positioned at the key. -/
def getStarted (d : Dir) (key : Option κ) (down : ℕ → κ → Bool) :
    ℕ → Option ℕ → List (ChunkCursor κ) → List (ChunkCursor κ) × Option ℕ
  | _, current, [] => ([], current)
  | i, current, c :: cs =>
    match key with
    | none =>
      let (cs, current) := getStarted d key down (i + 1) current cs
      (c.reset.move d :: cs, current)
    | some k =>
      if current = some i then
        let (cs, current) := getStarted d key down (i + 1) current cs
        (c :: cs, current)
      else
        let (c, cmp) := c.positionChunk d k (down i k)
        let current := if cmp = some .eq ∧ current = none then some i else current
        let (cs, current) := getStarted d key down (i + 1) current cs
        (c :: cs, current)

/-- From `retry` on: the cursors on the current key move, the current one last. -/
def stepOff (d : Dir) (s : Clsm κ) : Clsm κ :=
  match s.current.bind fun i => (s.cursors[i]?).map fun c => (i, c) with
  | none => s
  | some (i, current) =>
    let cursors :=
      if s.multiple then
        s.cursors.mapIdx fun j c =>
          if j ≠ i ∧ c.pos.isSome ∧ c.pos = current.pos then c.move d else c
      else s.cursors
    { s with cursors := cursors.modify i (ChunkCursor.move d) }

/-- The walk goes on while it comes to tombstones. -/
def findLive (d : Dir) : ℕ → Clsm κ → Clsm κ × CursorRet
  | 0, s => (s, .notFound)
  | fuel + 1, s =>
    match s.getCurrent d with
    | (s, none) => (s, .notFound)
    | (s, some true) => findLive d fuel (s.stepOff d)
    | (s, some false) =>
      ({ s with
          value := match s.value with
            | .int v => .int (clsmDeletedDecode v)
            | v => v }, .ok)

/-- The keys of all chunks. -/
def allKeys : List (LsmChunk κ) → Finset κ
  | [] => ∅
  | c :: cs => c.keys ∪ allKeys cs

/-- `__clsm_next` and `__clsm_prev`.  A walk does not come to a key twice, so the number of keys
limits how often it goes on. -/
def move (d : Dir) (down : ℕ → κ → Bool) (s : Clsm κ) : Clsm κ × CursorRet :=
  let fuel := (allKeys (s.cursors.map (·.chunk))).card + 1
  let s := { s with value := s.value.novalue }
  if s.current = none ∨ s.iterate ≠ some d then
    let (cursors, current) := getStarted d s.key.get down 0 s.current s.cursors
    let s := { s with
      cursors := cursors
      current := current
      iterate := some d
      multiple := true }
    if current.isSome then findLive d fuel (s.stepOff d) else findLive d fuel s
  else findLive d fuel (s.stepOff d)

/-- `__clsm_next`. -/
def next (down : ℕ → κ → Bool) (s : Clsm κ) : Clsm κ × CursorRet := s.move .up down

/-- `__clsm_prev`. -/
def prev (down : ℕ → κ → Bool) (s : Clsm κ) : Clsm κ × CursorRet := s.move .down down

/-- `__clsm_reset_cursors`. -/
def resetCursors (s : Clsm κ) : Clsm κ :=
  if s.current = none ∧ s.iterate = none then s
  else { s with cursors := s.cursors.map ChunkCursor.reset, current := none, iterate := none }

/-- How `search` and `search_near` begin, with the key the application has set. -/
def enter (k : κ) (s : Clsm κ) : Clsm κ :=
  let s := { s with key := .ext k, value := s.value.novalue }
  { s.resetCursors with iterate := none }

/-- The loop of `__clsm_lookup`: the chunk cursors, and the place and the value that is found.  If
nothing is found the last cursor that was looked at is reset. -/
def lookup (k : κ) :
    ℕ → List (ChunkCursor κ) → List (ChunkCursor κ) × Option (ℕ × List UInt8)
  | _, [] => ([], none)
  | i, c :: cs =>
    let c := if c.chunk.bloomMiss k then c else c.search k
    if !c.chunk.bloomMiss k && c.pos.isSome then
      let value := c.chunk.raw k
      if clsmDeleted value then (c.reset :: cs, none) else (c :: cs, some (i, value))
    else
      match cs with
      | [] => ([c.reset], none)
      | _ :: _ =>
        let (cs, found) := lookup k (i + 1) cs
        (c :: cs, found)

/-- `set_key` and `__clsm_search`. -/
def search (k : κ) (s : Clsm κ) : Clsm κ × CursorRet :=
  let s := s.enter k
  match lookup k 0 s.cursors with
  | (cursors, none) => ({ s with cursors := cursors }, .notFound)
  | (cursors, some (i, value)) =>
    ({ s with
        cursors := cursors
        current := some i
        key := .int k
        value := .int (clsmDeletedDecode value) }, .ok)

/-- The loop of `__clsm_search_near`: the chunk cursors, the place and the key of the closest one,
and whether it is an exact match. -/
def findClosest (k : κ) (down : ℕ → κ → Bool) :
    ℕ → Option (ℕ × κ) → List (ChunkCursor κ) → List (ChunkCursor κ) × Option (ℕ × κ) × Bool
  | _, closest, [] => ([], closest, false)
  | i, closest, c :: cs =>
    let c := c.searchNear k (down i k)
    match c.pos with
    | none =>
      let (cs, r) := findClosest k down (i + 1) closest cs
      (c :: cs, r)
    | some k' =>
      if k' = k then (c :: cs, some (i, k), true)
      else
        let c := if k' < k then c.move .up else c
        match c.pos with
        | none =>
          let (cs, r) := findClosest k down (i + 1) closest cs
          (c :: cs, r)
        | some k' =>
          let closest := match closest with
            | none => some (i, k')
            | some (j, b) => if k' < b then some (i, k') else some (j, b)
          let (cs, r) := findClosest k down (i + 1) closest cs
          (c :: cs, r)

/-- How `__clsm_search_near` ends. -/
def leaveNear (s : Clsm κ) (ret : CursorRet) (exact : Ordering) :
    Clsm κ × CursorRet × Ordering :=
  if ret = .ok then (s, ret, exact)
  else ({ s with key := .unset, value := .unset, current := none }, ret, exact)

/-- The last attempt of `__clsm_search_near`: nothing is found forwards. -/
def nearPrev (down : ℕ → κ → Bool) (s : Clsm κ) : Clsm κ × CursorRet × Ordering :=
  let (s, ret) := prev down { s with current := none }
  s.leaveNear ret .lt

/-- `set_key` and `__clsm_search_near`, with how the key found compares with the key searched
for. -/
def searchNear (k : κ) (down : ℕ → κ → Bool) (s : Clsm κ) : Clsm κ × CursorRet × Ordering :=
  let s := s.enter k
  match findClosest k down 0 none s.cursors with
  | (cursors, none, _) => nearPrev down { s with cursors := cursors }
  | (cursors, some (i, k'), exact) =>
    let s := { s with cursors := cursors, current := some i, key := .int k' }
    let value := rawAt cursors i k'
    if clsmDeleted value then
      match next down s with
      | (s, .ok) => s.leaveNear .ok .gt
      | (s, _) => nearPrev down s
    else
      { s with value := .int (clsmDeletedDecode value) }.leaveNear .ok
        (if exact then .eq else .gt)

end Clsm

/-! ### Calls and what they return -/

/-- A call on an LSM cursor; `down` tells where the searches in the chunks end that do not find the
key. -/
inductive LsmCall (κ : Type*)
  | search (k : κ)
  | searchNear (k : κ) (down : ℕ → κ → Bool)
  | next (down : ℕ → κ → Bool)
  | prev (down : ℕ → κ → Bool)

/-- What the application sees of a call: the return value, the key and the value if both are set,
and for `search_near` how the key compares with the key searched for. -/
structure LsmResult (κ : Type*) where
  ret : CursorRet
  record : Option (κ × List UInt8)
  exact : Option Ordering
  deriving DecidableEq

namespace Clsm

/-- `get_key` and `get_value`. -/
def record (s : Clsm κ) : Option (κ × List UInt8) :=
  s.key.get.bind fun k => s.value.get.map fun v => (k, v)

def call (s : Clsm κ) : LsmCall κ → Clsm κ × LsmResult κ
  | .search k => let (s, ret) := s.search k; (s, ⟨ret, s.record, none⟩)
  | .searchNear k down =>
    let (s, ret, exact) := s.searchNear k down
    (s, ⟨ret, s.record, if ret = .ok then some exact else none⟩)
  | .next down => let (s, ret) := s.next down; (s, ⟨ret, s.record, none⟩)
  | .prev down => let (s, ret) := s.prev down; (s, ⟨ret, s.record, none⟩)

/-- What a sequence of calls returns. -/
def results (s : Clsm κ) : List (LsmCall κ) → List (LsmResult κ)
  | [] => []
  | a :: as => (s.call a).2 :: (s.call a).1.results as

end Clsm

/-! ### The merged map -/

/-- The value of a key in an LSM tree: the newest chunk that holds the key decides. -/
def merged (chunks : List (LsmChunk κ)) (k : κ) : Option (List UInt8) :=
  (chunks.find? fun c => k ∈ c.keys).bind fun c => c.entry k

/-- The keys with a value. -/
def live (chunks : List (LsmChunk κ)) : Finset κ :=
  (Clsm.allKeys chunks).filter fun k => (merged chunks k).isSome

/-- Where a cursor on a sorted map is: it has no position, it is on the record of a key, or a search
for a key has found nothing. -/
inductive MapPlace (κ : Type*)
  | start
  | on (k : κ)
  | missed (k : κ)
  deriving DecidableEq

namespace MapPlace

/-- The record of `k` is found. -/
def found (value : κ → Option (List UInt8)) (k : κ) (exact : Option Ordering) :
    MapPlace κ × LsmResult κ :=
  (on k, ⟨.ok, (value k).map fun v => (k, v), exact⟩)

def notFound (p : MapPlace κ) : MapPlace κ × LsmResult κ := (p, ⟨.notFound, none, none⟩)

/-- A step to the next or the previous record. -/
def move (d : Dir) (keys : Finset κ) (value : κ → Option (List UInt8)) (p : MapPlace κ) :
    MapPlace κ × LsmResult κ :=
  let dest := match p with
    | start => d.first keys
    | on k => d.next keys k
    | missed k => d.next keys k
  match dest with
  | none => start.notFound
  | some k => found value k none

/-- A call on a cursor on the sorted map with these keys and values; `miss` tells where a search
leaves the cursor that finds nothing. -/
def call (miss : κ → MapPlace κ) (keys : Finset κ) (value : κ → Option (List UInt8))
    (p : MapPlace κ) : LsmCall κ → MapPlace κ × LsmResult κ
  | .search k => if k ∈ keys then found value k none else (miss k).notFound
  | .searchNear k _ =>
    match near keys k false with
    | none => start.notFound
    | some k' => found value k' (some (compare k' k))
  | .next _ => p.move .up keys value
  | .prev _ => p.move .down keys value

/-- What a sequence of calls returns. -/
def results (miss : κ → MapPlace κ) (keys : Finset κ) (value : κ → Option (List UInt8)) :
    MapPlace κ → List (LsmCall κ) → List (LsmResult κ)
  | _, [] => []
  | p, a :: as =>
    (p.call miss keys value a).2 :: results miss keys value (p.call miss keys value a).1 as

end MapPlace

end WiredTiger
