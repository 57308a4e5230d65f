/-
# Regions of memory

A buffer is a list of cells.  Copying a run of cells into it is `blit`; the three
library calls that C code moves bytes with (`memcpy`, `memset`, `memmove`) are `blit`s of
cells that come from elsewhere, from a constant, or from the buffer itself.

A `Region` is a buffer together with a mark that remembers how far into the buffer any
access has reached.  Accesses are checked: one that leaves the buffer has no result.
A bound on the mark says more than the absence of such failures, since a buffer is often
larger than the part of it that an algorithm is entitled to.

Pieces of a buffer, each with a start and a length, tile it from a place on if each starts where the
one before it ends: none overlaps another.
-/
import Mathlib

namespace Lib

open List

variable {α : Type*} {l d : List α} {i : ℕ}

/-- The `n` cells of `l` from position `i` on. -/
def slice (l : List α) (i n : ℕ) : List α := (l.drop i).take n

/-- Overwrite the cells of `l` from position `i` on by `d`. -/
def blit (l : List α) (i : ℕ) (d : List α) : List α := l.take i ++ d ++ l.drop (i + d.length)

lemma length_slice {l : List α} {i n : ℕ} (h : i + n ≤ l.length) : (slice l i n).length = n := by
  simp only [slice, length_take, length_drop]
  omega

lemma slice_append_slice (l : List α) (i n m : ℕ) :
    slice l i n ++ slice l (i + n) m = slice l i (n + m) := by
  simp [slice, take_add, drop_drop]

lemma take_append_slice (l : List α) (i n : ℕ) : l.take i ++ slice l i n = l.take (i + n) := by
  simp [slice, take_add]

lemma slice_append_drop (l : List α) (i n : ℕ) : slice l i n ++ l.drop (i + n) = l.drop i := by
  simp [slice, ← drop_drop, take_append_drop]

lemma slice_take {l : List α} {i n k : ℕ} (h : i + n ≤ k) : slice (l.take k) i n = slice l i n := by
  simp only [slice, drop_take, take_take]
  congr 1
  omega

lemma take_eq_of_take_eq {l l' : List α} {k n : ℕ} (h : l.take n = l'.take n) (hk : k ≤ n) :
    l.take k = l'.take k := by
  have h' := congrArg (take k) h
  rwa [take_take, take_take, min_eq_left hk] at h'

lemma slice_eq_of_take_eq {l l' : List α} {i k n : ℕ} (h : l.take n = l'.take n) (hk : i + k ≤ n) :
    slice l i k = slice l' i k := by
  rw [← slice_take hk, h, slice_take hk]

lemma slice_length_sub (l : List α) (i : ℕ) : slice l i (l.length - i) = l.drop i := by
  rw [slice, take_of_length_le (by simp)]

@[simp]
lemma blit_nil (l : List α) (i : ℕ) : blit l i [] = l := by
  simp [blit]

@[simp]
lemma length_blit (h : i + d.length ≤ l.length) :
    (blit l i d).length = l.length := by
  simp only [blit, length_append, length_take, length_drop]
  omega

/-- A `blit` leaves what is below it. -/
lemma take_blit_of_le {i n : ℕ} (hn : n ≤ i) (hi : i ≤ l.length) :
    (blit l i d).take n = l.take n := by
  have h : n ≤ (l.take i).length := by simp only [length_take]; omega
  rw [blit, append_assoc, take_append_of_le_length h, take_take]
  congr 1
  omega

/-- From its start on, a `blit` shows the new cells and then the old ones. -/
lemma drop_blit (hi : i ≤ l.length) :
    (blit l i d).drop i = d ++ l.drop (i + d.length) := by
  have hlen : (l.take i).length = i := by simp only [length_take]; omega
  rw [blit, append_assoc, drop_append, drop_eq_nil_of_le (by omega), hlen]
  simp

/-- Up to a point past its end, a `blit` is the old front, the new cells and the old rest. -/
lemma take_blit {i n : ℕ} (hn : i + d.length ≤ n) (hi : i ≤ l.length) :
    (blit l i d).take n = l.take i ++ d ++ slice l (i + d.length) (n - (i + d.length)) := by
  have hlen : (l.take i ++ d).length = i + d.length := by
    simp only [length_append, length_take]
    omega
  rw [blit, take_append, take_of_length_le (by omega), hlen, slice]

lemma take_blit_end (hi : i ≤ l.length) :
    (blit l i d).take (i + d.length) = l.take i ++ d := by
  rw [take_blit le_rfl hi]
  simp [slice]

lemma slice_blit_self (hi : i ≤ l.length) :
    slice (blit l i d) i d.length = d := by
  rw [slice, drop_blit hi, take_left]

/-! ### Regions -/

/-- A buffer and the mark `top`: no access so far has reached a cell at or above it. -/
structure Region (α : Type*) where
  /-- The cells of the buffer. -/
  cells : List α
  /-- One past the highest cell that has been read or written. -/
  top : ℕ
  deriving DecidableEq, Repr

namespace Region

/-- Write `d` at position `i` (`memcpy` into the region, and `memset` for a constant `d`). -/
def write (r : Region α) (i : ℕ) (d : List α) : Option (Region α) :=
  if i + d.length ≤ r.cells.length then
    some ⟨blit r.cells i d, max r.top (i + d.length)⟩
  else none

/-- Copy `n` cells from position `src` to position `dst`; the two ranges may overlap
(`memmove`). -/
def move (r : Region α) (dst src n : ℕ) : Option (Region α) :=
  if src + n ≤ r.cells.length then
    write ⟨r.cells, max r.top (src + n)⟩ dst (slice r.cells src n)
  else none

/-- Enlarge the region to at least `n` cells; the new ones hold what `junk` says, as memory
that was never written does. -/
def extend (junk : ℕ → α) (r : Region α) (n : ℕ) : Region α :=
  ⟨r.cells ++ (range (n - r.cells.length)).map junk, r.top⟩

lemma write_eq_some {r : Region α} {d : List α} (h : i + d.length ≤ r.cells.length) :
    r.write i d = some ⟨blit r.cells i d, max r.top (i + d.length)⟩ := if_pos h

lemma move_eq_some {r : Region α} {dst src n : ℕ} (hs : src + n ≤ r.cells.length)
    (hd : dst + n ≤ r.cells.length) :
    r.move dst src n =
      some ⟨blit r.cells dst (slice r.cells src n), max (max r.top (src + n)) (dst + n)⟩ := by
  have hlen := length_slice hs
  rw [move, if_pos hs, write_eq_some (by rw [hlen]; exact hd), hlen]

variable (junk : ℕ → α) (r : Region α)

@[simp] lemma extend_length (n : ℕ) :
    (r.extend junk n).cells.length = max r.cells.length n := by
  simp only [extend, length_append, length_map, length_range]
  omega

lemma extend_take {n k : ℕ} (h : k ≤ r.cells.length) :
    (r.extend junk n).cells.take k = r.cells.take k := by
  simp [extend, take_append_of_le_length h]

/-! ### The value at the front of a region -/

/-- The region has `len` cells, shows the value `v` at its front, and no access has reached
beyond `hi`. -/
structure Shows (r : Region α) (v : List α) (len hi : ℕ) : Prop where
  length_eq : r.cells.length = len
  length_le : v.length ≤ len
  take_eq : r.cells.take v.length = v
  top_le : r.top ≤ hi

namespace Shows

variable {r : Region α} {v d : List α} {len hi : ℕ} (h : r.Shows v len hi)
include h

lemma mono {hi' : ℕ} (hle : hi ≤ hi') : r.Shows v len hi' :=
  { h with top_le := le_trans h.top_le hle }

lemma take_cells {k : ℕ} (hk : k ≤ v.length) : r.cells.take k = v.take k :=
  take_eq_of_take_eq (h.take_eq.trans (take_length).symm) hk

lemma slice_cells {i n : ℕ} (hn : i + n ≤ v.length) : slice r.cells i n = slice v i n :=
  slice_eq_of_take_eq (h.take_eq.trans (take_length).symm) hn

lemma extend (junk : ℕ → α) (n : ℕ) : (r.extend junk n).Shows v (max len n) hi where
  length_eq := by rw [extend_length, h.length_eq]
  length_le := le_trans h.length_le (le_max_left _ _)
  take_eq := by rw [extend_take junk r (h.length_eq ▸ h.length_le), h.take_eq]
  top_le := h.top_le

/-- Overwriting cells of the value. -/
lemma write_inside (hd : i + d.length ≤ v.length) (hhi : v.length ≤ hi) :
    ∃ r', r.write i d = some r' ∧ r'.Shows (blit v i d) len hi := by
  have hlen := h.length_eq
  have hle := h.length_le
  have htop := h.top_le
  refine ⟨_, write_eq_some (by omega), ?_, ?_, ?_, by simp only; omega⟩
  · rw [length_blit (by omega), hlen]
  · rw [length_blit hd]
    exact hle
  · rw [length_blit hd, take_blit hd (by omega), h.take_cells (by omega),
      h.slice_cells (by omega), blit, slice_length_sub]

/-- Writing right behind the value makes it longer. -/
lemma write_behind (hd : v.length + d.length ≤ len) :
    ∃ r', r.write v.length d = some r' ∧
      r'.Shows (v ++ d) len (max hi (v.length + d.length)) := by
  have hlen := h.length_eq
  have htop := h.top_le
  refine ⟨_, write_eq_some (by omega), ?_, ?_, ?_, by simp only; omega⟩
  · rw [length_blit (by omega), hlen]
  · simpa using hd
  · rw [length_append, take_blit_end (by omega), h.take_eq]

/-- Replacing `s` cells of the value by other cells: the cells behind them are moved to where
they belong, and then the new ones are copied in. -/
lemma replace {i s : ℕ} (hs : i + s ≤ v.length) (hd : v.length - s + d.length ≤ len) :
    ∃ r₁ r₂, r.move (i + d.length) (i + s) (v.length - (i + s)) = some r₁ ∧
      r₁.write i d = some r₂ ∧
      r₂.Shows (v.take i ++ d ++ v.drop (i + s)) len
        (max hi (max v.length (v.length - s + d.length))) := by
  have hlen := h.length_eq
  have hle := h.length_le
  have htop := h.top_le
  have hslen : (slice r.cells (i + s) (v.length - (i + s))).length = v.length - (i + s) :=
    length_slice (by omega)
  have hblen : (blit r.cells (i + d.length) (slice r.cells (i + s) (v.length - (i + s)))).length =
      r.cells.length := length_blit (by omega)
  have hnew : (v.take i ++ d ++ v.drop (i + s)).length =
      i + d.length + (slice r.cells (i + s) (v.length - (i + s))).length := by
    simp only [length_append, length_take, length_drop, hslen]
    omega
  refine ⟨_, _, move_eq_some (by omega) (by omega), write_eq_some (by simp only; omega),
    ?_, ?_, ?_, by simp only; omega⟩
  · dsimp only
    rw [length_blit (by omega), hblen, hlen]
  · omega
  · dsimp only
    rw [hnew, take_blit (by omega) (by omega), take_blit_of_le (by omega) (by omega),
      Nat.add_sub_cancel_left, slice_blit_self (by omega), h.take_cells (by omega),
      h.slice_cells (by omega), slice_length_sub]

end Shows

end Region

/-! ### Pieces without gaps -/

section

variable {α : Type*} {start len : α → ℕ}

/-- Each piece starts where the one before it ends, and the first at `a`. -/
def Tiles (start len : α → ℕ) : ℕ → List α → Prop
  | _, [] => True
  | a, x :: xs => start x = a ∧ Tiles start len (a + len x) xs

section

variable {a : ℕ} {xs : List α} (h : Tiles start len a xs)
include h

/-- A piece is added at the end of the others. -/
lemma Tiles.concat {x : α} (hx : start x = a + (xs.map len).sum) :
    Tiles start len a (xs ++ [x]) := by
  induction xs generalizing a with
  | nil => exact ⟨by simpa using hx, trivial⟩
  | cons y ys ih =>
    refine ⟨h.1, ih h.2 ?_⟩
    rw [hx, map_cons, sum_cons, add_assoc]

lemma Tiles.le_start {x : α} (hx : x ∈ xs) : a ≤ start x := by
  induction xs generalizing a with
  | nil => cases hx
  | cons y ys ih =>
    rcases mem_cons.mp hx with rfl | hmem
    · exact Nat.le_of_eq h.1.symm
    · exact Nat.le_trans (Nat.le_add_right _ _) (ih h.2 hmem)

/-- No piece overlaps a later one. -/
lemma Tiles.pairwise : xs.Pairwise fun x y => start x + len x ≤ start y := by
  induction xs generalizing a with
  | nil => exact .nil
  | cons y ys ih =>
    refine .cons (fun x hx => ?_) (ih h.2)
    rw [h.1]
    exact h.2.le_start hx

end

end

end Lib
