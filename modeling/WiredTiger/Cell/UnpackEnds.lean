/-
# When unpacking a cell ends

A copy cell says how far in front of it the cell is that it is a copy of, and unpacking starts over
there.  Nothing keeps the offsets from leading back to a cell that unpacking has been at, and then
it goes round for ever; if they do not, it is over after as many passes as the page has bytes.
-/
import WiredTiger.Cell.Unpack
import WiredTiger.Lib.Fallible

namespace WiredTiger

open Lib

variable {img : List UInt8} {pageEnd : Option ℕ} {into : UnpackInto} {cell₀ cell fuel : ℕ}
  {copy : Option CopyCell}

/-- One pass of the loop, from `copy_cell_restart` on. -/
def cellPass (img : List UInt8) (pageEnd : Option ℕ) (into : UnpackInto) (cell₀ cell : ℕ) :
    Except CellError CellPass := do
  cellLenChk pageEnd cell 0
  let desc ← readByteAt img cell
  unpackPass img pageEnd into cell₀ cell desc (cellTypeRaw desc)

/-- Where the loop starts over, if the pass has come to a copy cell. -/
def copyRestart (img : List UInt8) (pageEnd : Option ℕ) (into : UnpackInto) (cell₀ cell : ℕ) :
    Option ℕ :=
  match cellPass img pageEnd into cell₀ cell with
  | .ok (.copy v _) => some (copyTarget cell v)
  | _ => none

lemma cellUnpackLoop_succ :
    cellUnpackLoop img pageEnd into cell₀ (fuel + 1) cell copy =
      cellPass img pageEnd into cell₀ cell >>= fun
        | .data u => cellUnpackDone pageEnd cell copy u
        | .copy v c => cellUnpackLoop img pageEnd into cell₀ fuel (copyTarget cell v)
            (some { c with tw := (copy.map CopyCell.tw).getD c.tw }) := by
  refine Eq.symm ((bind_assoc _ _ _).trans ?_)
  exact congrArg _ (funext fun _ => bind_assoc _ _ _)

/-- There is a byte wherever the loop starts over from. -/
lemma lt_of_copyRestart {c : ℕ} (h : copyRestart img pageEnd into cell₀ cell = some c) :
    cell < img.length := by
  by_contra hge
  have hread : readByteAt img cell = .error (.read .fault) := by
    rw [readByteAt, List.getElem?_eq_none (not_lt.mp hge)]
  rw [copyRestart, cellPass, hread] at h
  generalize cellLenChk pageEnd cell 0 = chk at h
  cases chk with
  | error e => cases h
  | ok u => cases h

/-- Once the loop has returned, it does not matter how many more passes it could make. -/
lemma loop_of_returned {k : ℕ} (h : iter (copyRestart img pageEnd into cell₀) k cell = none)
    (fuel : ℕ) (copy : Option CopyCell) :
    cellUnpackLoop img pageEnd into cell₀ (k + fuel) cell copy =
      cellUnpackLoop img pageEnd into cell₀ k cell copy := by
  induction k generalizing cell copy with
  | zero => cases h
  | succ k ih =>
    rw [iter, copyRestart] at h
    rw [add_right_comm, cellUnpackLoop_succ, cellUnpackLoop_succ]
    generalize cellPass img pageEnd into cell₀ cell = pass at h ⊢
    rcases pass with e | u | ⟨v, c⟩
    · rfl
    · rfl
    · exact ih h _

/-- A cell is returned only if copy cells lead to one with data. -/
lemma exists_data_of_ok {u : CellUnpack}
    (h : cellUnpackLoop img pageEnd into cell₀ fuel cell copy = .ok u) :
    ∃ i c u', iter (copyRestart img pageEnd into cell₀) i cell = some c ∧
      cellPass img pageEnd into cell₀ c = .ok (.data u') := by
  induction fuel generalizing cell copy with
  | zero => cases h
  | succ fuel ih =>
    rw [cellUnpackLoop_succ] at h
    rcases hpass : cellPass img pageEnd into cell₀ cell with e | u' | ⟨v, c⟩
    · rw [hpass] at h
      cases h
    · exact ⟨0, cell, u', rfl, hpass⟩
    · rw [hpass] at h
      obtain ⟨i, c, u', hi, hdata⟩ := ih h
      refine ⟨i + 1, c, u', iter_succ_eq_some.mpr ⟨copyTarget cell v, ?_, hi⟩, hdata⟩
      rw [copyRestart, hpass]

/-- **Unpacking a cell ends exactly if no cell is come to twice.**  It has then returned after some
number of passes, and it has returned an error unless copy cells lead to a cell with data. -/
theorem cellUnpack_returns_iff (img : List UInt8) (into : UnpackInto) (cell : ℕ) :
    (∃ k r, iter (copyRestart img (some img.length) into cell) k cell = none ∧
      (∀ fuel, cellUnpackLoop img (some img.length) into cell (k + fuel) cell none = r) ∧
      ∀ u, r = .ok u → ∃ i c u',
        iter (copyRestart img (some img.length) into cell) i cell = some c ∧
        cellPass img (some img.length) into cell c = .ok (.data u')) ↔
    ∀ i j c, iter (copyRestart img (some img.length) into cell) i cell = some c →
      iter (copyRestart img (some img.length) into cell) j cell = some c → i = j := by
  rw [← exists_iter_eq_none_iff (S := Finset.range img.length) fun a b hab =>
    Finset.mem_range.mpr (lt_of_copyRestart hab)]
  constructor
  · rintro ⟨k, -, hk, -⟩
    exact ⟨k, hk⟩
  · rintro ⟨k, hk⟩
    exact ⟨k, _, hk, fun fuel => loop_of_returned hk fuel none, fun u hu => exists_data_of_ok hu⟩

/-- A copy cell with an offset of 0: it is a copy of itself. -/
theorem cellUnpack_never_returns :
    ¬ ∃ k, iter (copyRestart [0x90, 0x80] (some 2) .value 0) k 0 = none := by
  rintro ⟨k, hk⟩
  induction k with
  | zero => cases hk
  | succ k ih => exact ih hk

end WiredTiger
