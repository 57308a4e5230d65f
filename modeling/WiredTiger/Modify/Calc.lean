/-
# Computing a modify operation from two values (`conn/api_calc_modify.c`)

`__wt_calc_modify` looks for ranges that the old and the new value have in common and
describes the new value by entries for what lies between them.  It walks through the new value
with two markers in the old one; when the eight bytes at the walk's position equal the eight
bytes at a marker, it extends the match in both directions, and takes it if it is long enough.

Pointers into the values are offsets from their starts.  Every read of a byte or a block is
checked against the value it reads from; a read outside of it, or a pointer that would be moved
in front of it, has no result (`none`).
-/
import WiredTiger.Modify.Splice

namespace WiredTiger

open Lib

/-- `WT_CM_BLOCKSIZE`: the bytes in a fingerprint. -/
def cmBlocksize : ℕ := 8

/-- `WT_CM_MINMATCH`: the length from which on a match is taken. -/
def cmMinmatch : ℕ := 64

/-- `WT_CM_STARTGAP`: the first distance of the two markers. -/
def cmStartgap : ℕ := cmBlocksize / 2

/-- The two values. -/
structure Images where
  /-- The pre-image. -/
  old : List UInt8
  /-- The after-image. -/
  new : List UInt8
  deriving DecidableEq, Repr

/-- `WT_CM_STATE`, with the entries produced so far. -/
structure CmState where
  /-- End of the pre-image. -/
  e1 : ℕ
  /-- End of the after-image. -/
  e2 : ℕ
  /-- The pre-image is used up to here. -/
  used1 : ℕ
  /-- The after-image is used up to here. -/
  used2 : ℕ
  maxdiff : ℕ
  maxentries : ℤ
  entries : List Modify
  deriving DecidableEq, Repr

/-- `WT_CM_MATCH`. -/
structure CmMatch where
  m1 : ℕ
  m2 : ℕ
  len : ℕ
  deriving DecidableEq, Repr

/-- The outcome of a call: 0, or an error code. -/
inductive CmResult (α : Type)
  | ok (a : α)
  | notfound
  deriving DecidableEq, Repr

/-- `n` bytes of a value from position `p` on, as `memcmp` and `memcpy` read them. -/
def readBlock (v : List UInt8) (p n : ℕ) : Option (List UInt8) :=
  if p + n ≤ v.length then some (slice v p n) else none

/-- `__cm_add_modify`; `p2` is always `used2`.  The data of the entry is not copied, it points
into the new value. -/
def cmAddModify (im : Images) (cms : CmState) (m1 m2 : ℕ) : Option (CmResult CmState) := do
  guard (cms.used1 ≤ m1 ∧ cms.used2 ≤ m2)
  let len1 := m1 - cms.used1
  let len2 := m2 - cms.used2
  if (cms.entries.length : ℤ) ≥ cms.maxentries ∨ len2 > cms.maxdiff then
    some .notfound
  else
    some (.ok { cms with
      maxdiff := cms.maxdiff - len2
      entries := cms.entries ++ [⟨slice im.new cms.used2 len2, cms.used2, len1⟩] })

/-- The first loop of `__cm_extend`: skip half of the remaining bytes while they compare equal.
Each turn brings `p1` closer to `e1`, so `fuel` turns are enough if that many bytes remain. -/
def cmSkipHalves (im : Images) (cms : CmState) : ℕ → ℕ → ℕ → Option (ℕ × ℕ)
  | 0, _, _ => none
  | fuel + 1, p1, p2 =>
    let n := min (cms.e1 - p1) (cms.e2 - p2) / 2
    if n > 8 then do
      let a ← readBlock im.old p1 n
      let b ← readBlock im.new p2 n
      if a = b then cmSkipHalves im cms fuel (p1 + n) (p2 + n) else some (p1, p2)
    else some (p1, p2)

/-- The second loop of `__cm_extend`, forward over at most `n` equal bytes. -/
def cmForward (im : Images) : ℕ → ℕ → ℕ → Option (ℕ × ℕ)
  | 0, p1, p2 => some (p1, p2)
  | n + 1, p1, p2 => do
    let a ← im.old[p1]?
    let b ← im.new[p2]?
    if a = b then cmForward im n (p1 + 1) (p2 + 1) else some (p1, p2)

/-- The third loop of `__cm_extend`, backward over at most `n` equal bytes. -/
def cmBackward (im : Images) : ℕ → ℕ → ℕ → Option (ℕ × ℕ)
  | 0, m1, m2 => some (m1, m2)
  | n + 1, m1, m2 => do
    let a ← im.old[m1]?
    let b ← im.new[m2]?
    if a = b then do
      guard (0 < m1 ∧ 0 < m2)
      cmBackward im n (m1 - 1) (m2 - 1)
    else some (m1, m2)

/-- `__cm_extend`: given a potential match, extend to find the complete match. -/
def cmExtend (im : Images) (cms : CmState) (m1 m2 : ℕ) : Option CmMatch := do
  let (p1, p2) ← cmSkipHalves im cms (cms.e1 - m1 + 1) m1 m2
  let (p1, _) ← cmForward im (min (cms.e1 - p1) (cms.e2 - p2)) p1 p2
  let (m1, m2) ← cmBackward im (min (m1 - cms.used1) (m2 - cms.used2)) m1 m2
  some ⟨m1 + 1, m2 + 1, if p1 > m1 then p1 - m1 - 1 else 0⟩

/-- `__cm_fingerprint`: a block of bytes as a number. -/
def cmFingerprint (v : List UInt8) (p : ℕ) : Option ℕ :=
  (readBlock v p cmBlocksize).map fun b => b.foldr (fun x h => x.toNat + 256 * h) 0

/-- The variables of the main loop of `__wt_calc_modify`. -/
structure CmWalk where
  cms : CmState
  p1 : ℕ
  p2 : ℕ
  i : ℕ
  gap : ℕ
  start : Bool
  hstart : ℕ
  hend : ℕ
  deriving DecidableEq, Repr

/-- How a part of the loop's body ends: with the next statement, with a `break`, or with a
`return`. -/
inductive CmFlow
  | next (w : CmWalk)
  | brk (cms : CmState)
  | notfound
  deriving DecidableEq, Repr

/-- The fingerprint at the first marker: at the start it is computed, later the first marker
takes the place of the second. -/
def cmHstart (im : Images) (w : CmWalk) (p1 : ℕ) : Option ℕ :=
  if w.start then cmFingerprint im.old p1 else some w.hend

/-- The first statement of the loop's body: at the start, and when the walk has covered the
distance between the markers, move the markers. -/
def cmMarkers (im : Images) (maxdiff : ℕ) (w : CmWalk) : Option CmFlow :=
  if w.start ∨ w.i = w.gap then
    let p1 := w.p1 + w.gap
    let gap := if w.start then cmStartgap else w.gap * 2
    if p1 + gap + cmBlocksize ≥ w.cms.e1 then some (.brk w.cms)
    else if gap > maxdiff then some .notfound
    else do
      let hstart ← cmHstart im w p1
      let hend ← cmFingerprint im.old (p1 + gap)
      some (.next { w with p1, gap, hstart, hend, start := false, i := 0 })
  else some (.next w)

/-- The potential match at the walk's position. -/
def cmMatch (im : Images) (w : CmWalk) : Option CmMatch := do
  let h ← cmFingerprint im.new w.p2
  if h = w.hstart then cmExtend im w.cms w.p1 w.p2
  else if h = w.hend then cmExtend im w.cms (w.p1 + w.gap) w.p2
  else some ⟨0, 0, 0⟩

/-- The loop's body from the fingerprint on, with the increments at its end. -/
def cmBody (im : Images) (w : CmWalk) : Option CmFlow := do
  let m ← cmMatch im w
  if m.len < cmMinmatch then
    some (.next { w with p2 := w.p2 + 1, i := w.i + 1 })
  else do
    let r ← cmAddModify im w.cms m.m1 m.m2
    match r with
    | .notfound => some .notfound
    | .ok cms =>
      some (.next { w with
        cms := { cms with used1 := m.m1 + m.len, used2 := m.m2 + m.len }
        p1 := m.m1 + m.len
        p2 := m.m2 + m.len + 1
        i := w.i + 1
        start := true })

/-- The main loop; `.ok` is where it falls through or breaks to `end`.  Each turn moves the walk
forward, so `fuel` turns are enough if that many bytes remain. -/
def cmLoop (im : Images) (maxdiff : ℕ) : ℕ → CmWalk → Option (CmResult CmState)
  | 0, _ => none
  | fuel + 1, w =>
    if w.p1 + cmBlocksize ≤ w.cms.e1 ∧ w.p2 + cmBlocksize ≤ w.cms.e2 then do
      let flow ← cmMarkers im maxdiff w
      match flow with
      | .brk cms => some (.ok cms)
      | .notfound => some .notfound
      | .next w => do
        let flow ← cmBody im w
        match flow with
        | .brk cms => some (.ok cms)
        | .notfound => some .notfound
        | .next w => cmLoop im maxdiff fuel w
    else some (.ok w.cms)

/-- The code at `end`: an entry for what is left between the last match and the suffix. -/
def cmEnd (im : Images) (cms : CmState) : Option (CmResult (List Modify)) :=
  if cms.used1 < cms.e1 ∨ cms.used2 < cms.e2 then do
    let r ← cmAddModify im cms cms.e1 cms.e2
    match r with
    | .notfound => some .notfound
    | .ok cms => some (.ok cms.entries)
  else some (.ok cms.entries)

/-- The start of `__wt_calc_modify`: ignore matches at the beginning and the end. -/
def cmTrim (im : Images) (cms : CmState) : Option CmState := do
  let m ← cmExtend im cms 0 0
  let cms := { cms with used1 := cms.used1 + m.len, used2 := cms.used2 + m.len }
  if cms.used1 < cms.e1 ∧ cms.used2 < cms.e2 then do
    let m ← cmExtend im cms (cms.e1 - 1) (cms.e2 - 1)
    some { cms with e1 := cms.e1 - m.len, e2 := cms.e2 - m.len }
  else some cms

/-- `__wt_calc_modify`. -/
def calcModify (im : Images) (maxdiff : ℕ) (maxentries : ℤ) :
    Option (CmResult (List Modify)) :=
  if im.old.length < cmMinmatch ∨ im.new.length < cmMinmatch then some .notfound
  else do
    let cms ← cmTrim im ⟨im.old.length, im.new.length, 0, 0, maxdiff, maxentries, []⟩
    if cms.used1 + cmBlocksize ≥ cms.e1 ∨ cms.used2 + cmBlocksize ≥ cms.e2 then cmEnd im cms
    else do
      let r ← cmLoop im maxdiff (im.new.length + 2) ⟨cms, cms.used1, cms.used2, 0, 0, true, 0, 0⟩
      match r with
      | .notfound => some .notfound
      | .ok cms => cmEnd im cms

end WiredTiger
