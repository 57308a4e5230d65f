/-
# What a modify operation means

A `WT_MODIFY` entry replaces a range of bytes of a value by other bytes.  An operation is a
list of entries, each of which is applied to the value the previous ones left: offsets are
offsets into that value.  This file says so without mentioning buffers.
-/
import WiredTiger.Lib.Region

namespace WiredTiger

open List

/-- A `WT_MODIFY` entry. -/
structure Modify where
  /-- The replacement bytes; `data.size` is their number. -/
  data : List UInt8
  /-- Where in the value the replacement goes. -/
  offset : ℕ
  /-- How many bytes of the value are replaced. -/
  size : ℕ
  deriving DecidableEq, Repr

/-- The value formats a modify can be applied to: raw bytes, and nul-terminated strings. -/
inductive ValueFormat
  | u
  | S
  deriving DecidableEq, Repr

/-- `sformat`: is the value a nul-terminated string? -/
def ValueFormat.sformat : ValueFormat → Bool
  | .u => false
  | .S => true

/-- The byte that fills the gap between the end of a value and an offset past it. -/
def padByte (sformat : Bool) : UInt8 := if sformat then 32 else 0

/-- The value extended by padding so that it reaches position `n`. -/
def padTo (pad : UInt8) (n : ℕ) (v : List UInt8) : List UInt8 :=
  v ++ replicate (n - v.length) pad

/-- One entry, as a splice: pad the value up to the offset, and there replace
`min size remaining` bytes by the data. -/
def splice (pad : UInt8) (m : Modify) (v : List UInt8) : List UInt8 :=
  let w := padTo pad m.offset v
  w.take m.offset ++ m.data ++ w.drop (m.offset + min m.size (w.length - m.offset))

/-- The entries of an operation, one after another. -/
def splices (pad : UInt8) : List Modify → List UInt8 → List UInt8
  | [], v => v
  | m :: ms, v => splices pad ms (splice pad m v)

/-- The length of the longest value that occurs while the entries are applied. -/
def peak (pad : UInt8) : List Modify → List UInt8 → ℕ
  | [], v => v.length
  | m :: ms, v => max v.length (peak pad ms (splice pad m v))

/-- A whole operation on a stored value: the terminating nul of a string is not part of what
the entries see, and is put back at the end. -/
def applyModifies (fmt : ValueFormat) (ms : List Modify) (v : List UInt8) : List UInt8 :=
  match fmt with
  | .u => splices (padByte false) ms v
  | .S => splices (padByte true) ms v.dropLast ++ [0]

variable (pad : UInt8) {m : Modify} (ms ms' : List Modify) (v : List UInt8)

lemma splices_append : splices pad (ms ++ ms') v = splices pad ms' (splices pad ms v) := by
  induction ms generalizing v with
  | nil => rfl
  | cons m ms ih => exact ih _

lemma length_le_peak : v.length ≤ peak pad ms v := by
  cases ms with
  | nil => exact le_rfl
  | cons m ms => exact le_max_left _ _

lemma peak_splices_le : peak pad ms' (splices pad ms v) ≤ peak pad (ms ++ ms') v := by
  induction ms generalizing v with
  | nil => exact le_rfl
  | cons m ms ih => exact le_trans (ih _) (le_max_right _ _)

lemma length_splices_le_peak : (splices pad ms v).length ≤ peak pad ms v := by
  have h := peak_splices_le pad ms [] v
  simpa [peak] using h

/-! ### The three shapes of a splice -/

variable {v}

lemma padTo_of_le {n : ℕ} (h : n ≤ v.length) : padTo pad n v = v := by
  rw [padTo, Nat.sub_eq_zero_of_le h, replicate_zero, append_nil]

/-- Inside the value nothing is padded and nothing is cut short. -/
lemma splice_of_le (h : m.offset + m.size ≤ v.length) :
    splice pad m v = v.take m.offset ++ m.data ++ v.drop (m.offset + m.size) := by
  rw [splice, padTo_of_le pad (by omega), Nat.min_eq_left (by omega)]

lemma length_splice_of_le (h : m.offset + m.size ≤ v.length) :
    (splice pad m v).length + m.size = v.length + m.data.length := by
  rw [splice_of_le pad h]
  simp only [length_append, length_take, length_drop]
  omega

/-- Past the end of the value the splice appends. -/
lemma splice_of_ge (h : v.length ≤ m.offset) :
    splice pad m v = v ++ replicate (m.offset - v.length) pad ++ m.data := by
  have hlen : (padTo pad m.offset v).length = m.offset := by
    simp only [padTo, length_append, length_replicate]
    omega
  rw [splice, take_of_length_le hlen.le, drop_eq_nil_of_le (by omega), padTo]
  simp

/-- A splice that reaches past the end of the value replaces what is there. -/
lemma splice_of_lt (hoff : m.offset < v.length) (h : v.length ≤ m.offset + m.size) :
    splice pad m v = v.take m.offset ++ m.data := by
  rw [splice, padTo_of_le pad hoff.le, drop_eq_nil_of_le (by omega), append_nil]

/-- An entry that keeps the length of the range it replaces is a `blit`. -/
lemma splice_eq_blit (hd : m.data.length = m.size) (h : m.offset + m.size ≤ v.length) :
    splice pad m v = Lib.blit v m.offset m.data := by
  rw [splice_of_le pad h, Lib.blit, hd]

end WiredTiger
