/-
# Sorting a snapshot (`txn/txn.c`)

The ids of a snapshot are sorted by a quicksort that leaves short ranges as they are, and by an
insertion sort over the whole array behind it.  The pivot is the median of three ids, so that the
scans of the first turn of a partition stop inside the range, and the ids that are swapped stop those
of the next turn.
-/
import WiredTiger.Txn.Visible

namespace WiredTiger

open List Nat

/-- `while (pivot < array[--j])`.  Below 0 the index wraps around, and no array is that long. -/
def scanDown (array : List ℕ) (pivot : ℕ) : ℕ → Option ℕ
  | 0 => none
  | j + 1 => do
    let v ← array[j]?
    if pivot < v then scanDown array pivot j else some j

/-- `while (array[++i] < pivot)`, given what there is of the array from the first index on. -/
def scanUp (pivot : ℕ) : List ℕ → ℕ → Option ℕ
  | [], _ => none
  | v :: rest, i => if v < pivot then scanUp pivot rest (i + 1) else some i

/-- The loop of `__snapsort_partition`; `i` is the index that `++i` gives next, which is `f` at first
also if `f - 1` has wrapped around. -/
def snapsortPartition (pivot : ℕ) : ℕ → List ℕ → ℕ → ℕ → Option (List ℕ × ℕ)
  | 0, _, _, _ => none
  | fuel + 1, array, i, j => do
    let j ← scanDown array pivot j
    let i ← scanUp pivot (array.drop i) i
    if i < j then
      let tmp ← array[i]?
      let v ← array[j]?
      snapsortPartition pivot fuel ((array.set i v).set j tmp) (i + 1) j
    else some (array, j)

/-- The pivot. -/
def snapsortMedian (v1 v2 v3 : ℕ) : ℕ :=
  if v1 < v2 then if v3 < v1 then v1 else min v2 v3 else if v3 < v2 then v2 else min v1 v3

/-- `__snapsort_impl`. -/
def snapsortImpl : ℕ → List ℕ → ℕ → ℕ → Option (List ℕ)
  | 0, _, _, _ => none
  | fuel + 1, array, f, l =>
    if (f + 16) % 2 ^ 32 < l then do
      let v1 ← array[f]?
      let v2 ← array[l]?
      let v3 ← array[(f + l) % 2 ^ 32 / 2]?
      let (array, m) ← snapsortPartition (snapsortMedian v1 v2 v3) (l + 1) array f (l + 1)
      let array ← snapsortImpl fuel array f m
      snapsortImpl fuel array ((m + 1) % 2 ^ 32) l
    else some array

/-- The inner loop of `WT_INSERTION_SORT`, from `__j` on, and the assignment behind it.  What is
written has been read before. -/
def insertionShift (v : ℕ) : ℕ → List ℕ → Option (List ℕ)
  | 0, array => some (array.set 0 v)
  | j + 1, array => do
    let x ← array[j]?
    if v < x then insertionShift v j (array.set (j + 1) x) else some (array.set (j + 1) v)

/-- The outer loop, for the next `n` values of `__i`. -/
def insertionLoop : ℕ → ℕ → List ℕ → Option (List ℕ)
  | 0, _, array => some array
  | n + 1, i, array => do
    let v ← array[i]?
    insertionLoop n (i + 1) (← insertionShift v i array)

/-- `WT_INSERTION_SORT`, for a number of elements that is taken for an `int`. -/
def insertionSortArray (array : List ℕ) (size : ℕ) : Option (List ℕ) :=
  let n : ℤ := if size < 2 ^ 31 then size else size - 2 ^ 32
  if n = 2 then do
    let v ← array[1]?
    let x ← array[0]?
    some (if v < x then (array.set 1 x).set 0 v else array)
  else if 2 < n then insertionLoop (n.toNat - 1) 1 array
  else some array

/-- `__snapsort`. -/
def snapsort (fuel : ℕ) (array : List ℕ) : Option (List ℕ) := do
  let size := array.length
  insertionSortArray (← snapsortImpl fuel array 0 ((size + 2 ^ 32 - 1) % 2 ^ 32)) size

/-! ### The partition -/

variable {a p : List ℕ} {pivot f l i j k : ℕ}

/-- The scan down stops at the latest at an id that is not greater than the pivot. -/
lemma scanDown_ok (hk : k < j) (hj : j ≤ a.length) (hle : a.getD k 0 ≤ pivot) :
    ∃ j', scanDown a pivot j = some j' ∧ k ≤ j' ∧ j' < j ∧ a.getD j' 0 ≤ pivot := by
  induction j with
  | zero => omega
  | succ j ih =>
    have hget := getD_eq_getElem a 0 hj
    rw [scanDown, getElem?_eq_getElem hj]
    dsimp only [bind, Option.bind]
    split_ifs with hlt
    · have hne : k ≠ j := by
        rintro rfl
        omega
      obtain ⟨j', hscan, hkj', hj', hle'⟩ := ih (by omega) (by omega)
      exact ⟨j', hscan, hkj', by omega, hle'⟩
    · exact ⟨j, rfl, by omega, lt_succ_self j, by omega⟩

lemma scanUp_ok (hik : i ≤ k) (hk : k < a.length) (hle : pivot ≤ a.getD k 0) :
    ∃ i', scanUp pivot (a.drop i) i = some i' ∧ i ≤ i' ∧ i' ≤ k ∧ pivot ≤ a.getD i' 0 := by
  induction hik using Nat.decreasingInduction with
  | self =>
    rw [getD_eq_getElem a 0 hk] at hle
    rw [drop_eq_getElem_cons hk, scanUp, if_neg (not_lt.mpr hle)]
    exact ⟨k, rfl, le_rfl, le_rfl, (getD_eq_getElem a 0 hk).symm ▸ hle⟩
  | of_succ i hik ih =>
    have hi : i < a.length := hik.trans hk
    rw [drop_eq_getElem_cons hi, scanUp]
    split_ifs with hlt
    · obtain ⟨i', hscan, hi', hrest⟩ := ih
      exact ⟨i', hscan, by omega, hrest⟩
    · exact ⟨i, rfl, le_rfl, hik.le, by rw [getD_eq_getElem a 0 hi]; omega⟩

/-- **A partition** stays in its range, and leaves less than the range on both sides. -/
lemma snapsortPartition_ok {fuel : ℕ} (hl : l < a.length) (hfi : f ≤ i) (hj : j ≤ l + 1)
    (hfuel : j ≤ fuel) (hlow : ∃ k, f ≤ k ∧ k < j ∧ a.getD k 0 ≤ pivot)
    (hhigh : ∃ k, i ≤ k ∧ k ≤ l ∧ (j ≤ l ∨ k < l) ∧ pivot ≤ a.getD k 0) :
    ∃ a' m, snapsortPartition pivot fuel a i j = some (a', m) ∧ a'.Perm a ∧ f ≤ m ∧ m < l := by
  induction fuel generalizing a i j with
  | zero => omega
  | succ fuel ih =>
    obtain ⟨k, hfk, hkj, hle⟩ := hlow
    obtain ⟨k', hik, hkl, hlt, hge⟩ := hhigh
    obtain ⟨j', hdown, hkj', hj', hlej⟩ := scanDown_ok hkj (by omega) hle
    obtain ⟨i', hup, hii', hik', hgei⟩ := scanUp_ok hik (by omega) hge
    have hi : i' < a.length := by omega
    have hj'' : j' < a.length := by omega
    rw [snapsortPartition, hdown]
    dsimp only [bind, Option.bind]
    rw [hup]
    dsimp only
    split_ifs with hij
    · rw [getElem?_eq_getElem hi, getElem?_eq_getElem hj'']
      dsimp only
      rw [getD_eq_getElem a 0 hj''] at hlej
      rw [getD_eq_getElem a 0 hi] at hgei
      -- the two ids that are swapped stop the scans of the next turn
      obtain ⟨a', m, hrest, hperm, hm⟩ := @ih ((a.set i' a[j']).set j' a[i']) (i' + 1) j'
        (by simpa using hl) (by omega) (by omega) (by omega)
        ⟨i', by omega, hij, by simpa [getD_eq_getElem?_getD, getElem?_set, hij.ne', hi] using hlej⟩
        ⟨j', by omega, by omega, .inl (by omega),
          by simpa [getD_eq_getElem?_getD, getElem?_set, hj''] using hgei⟩
      exact ⟨a', m, hrest, hperm.trans (set_set_perm hi hj''), hm⟩
    · exact ⟨a, j', rfl, .refl _, by omega, by omega⟩

/-- One of the ids in front of the last is not greater than the median, and one not less. -/
lemma snapsortMedian_spec (v1 v2 v3 : ℕ) :
    (v1 ≤ snapsortMedian v1 v2 v3 ∨ v3 ≤ snapsortMedian v1 v2 v3) ∧
      (snapsortMedian v1 v2 v3 ≤ v1 ∨ snapsortMedian v1 v2 v3 ≤ v3) := by
  unfold snapsortMedian
  split_ifs <;> omega

/-- The quicksort ends, inside the array, and permutes it. -/
lemma snapsortImpl_ok {fuel : ℕ} (hfl : f ≤ l) (hl : l < a.length)
    (hlen : a.length < 2 ^ 31) (hfuel : l - f < fuel) :
    ∃ a', snapsortImpl fuel a f l = some a' ∧ a'.Perm a := by
  induction fuel generalizing a f l with
  | zero => omega
  | succ fuel ih =>
    rw [snapsortImpl, mod_eq_of_lt (by omega : f + 16 < 2 ^ 32)]
    split_ifs with hrun
    swap
    · exact ⟨a, rfl, .refl _⟩
    obtain ⟨mid, hmid⟩ : ∃ mid, (f + l) % 2 ^ 32 / 2 = mid := ⟨_, rfl⟩
    have hf : f < a.length := by omega
    have hm : mid < a.length := by omega
    rw [hmid, getElem?_eq_getElem hf, getElem?_eq_getElem hl, getElem?_eq_getElem hm]
    dsimp only [bind, Option.bind]
    obtain ⟨hlow, hhigh⟩ := snapsortMedian_spec a[f] a[l] a[mid]
    generalize snapsortMedian a[f] a[l] a[mid] = pivot at hlow hhigh ⊢
    have hfirst := getD_eq_getElem a 0 hf
    have hmiddle := getD_eq_getElem a 0 hm
    obtain ⟨a₁, m, hpart, hperm₁, hfm, hml⟩ := @snapsortPartition_ok a pivot f l f (l + 1) (l + 1)
      hl le_rfl le_rfl le_rfl
      (hlow.elim (fun h => ⟨f, le_rfl, by omega, by omega⟩)
        fun h => ⟨mid, by omega, by omega, by omega⟩)
      (hhigh.elim (fun h => ⟨f, le_rfl, hfl, .inr (by omega), by omega⟩)
        fun h => ⟨mid, by omega, by omega, .inr (by omega), by omega⟩)
    have hlen₁ := hperm₁.length_eq
    obtain ⟨a₂, hfront, hperm₂⟩ := @ih a₁ f m hfm (by omega) (by omega) (by omega)
    have hlen₂ := hperm₂.length_eq
    obtain ⟨a₃, hback, hperm₃⟩ := @ih a₂ (m + 1) l hml (by omega) (by omega) (by omega)
    rw [hpart]
    dsimp only
    rw [hfront, mod_eq_of_lt (by omega : m + 1 < 2 ^ 32)]
    exact ⟨a₃, hback, hperm₃.trans (hperm₂.trans hperm₁)⟩

/-! ### The insertion sort -/

/-- An id is moved to its place in the sorted part in front of it. -/
lemma insertionShift_ok (hp : p.Pairwise (· ≤ ·)) (v x : ℕ) (r : List ℕ) :
    ∃ s, insertionShift v p.length (p ++ x :: r) = some (s ++ r) ∧ s.Perm (v :: p) ∧
      s.Pairwise (· ≤ ·) := by
  induction p using reverseRecOn generalizing x r with
  | nil => exact ⟨[v], rfl, .refl _, pairwise_singleton _ v⟩
  | append_singleton p y ih =>
    obtain ⟨hp, hle⟩ : p.Pairwise (· ≤ ·) ∧ ∀ z ∈ p, z ≤ y := by
      simpa [pairwise_append] using hp
    have hget : (p ++ [y] ++ x :: r)[p.length]? = some y := by simp
    have hset : ∀ w, (p ++ [y] ++ x :: r).set (p.length + 1) w = p ++ y :: w :: r := by simp
    rw [length_append, length_singleton, insertionShift, hget]
    dsimp only [bind, Option.bind]
    split_ifs with hlt
    · rw [hset]
      obtain ⟨s, hs, hperm, hsorted⟩ := ih hp y (y :: r)
      refine ⟨s ++ [y], by rw [append_assoc]; exact hs, hperm.append_right [y], ?_⟩
      have hsle : ∀ z ∈ s, z ≤ y := by
        intro z hz
        rcases mem_cons.mp (hperm.mem_iff.mp hz) with rfl | hz
        · exact hlt.le
        · exact hle z hz
      simpa [pairwise_append, hsorted] using hsle
    · refine ⟨p ++ [y] ++ [v], by rw [hset]; simp, perm_append_singleton v _, ?_⟩
      have hyv : y ≤ v := not_lt.mp hlt
      simpa [pairwise_append, hp, hyv] using fun z hz => ⟨hle z hz, (hle z hz).trans hyv⟩

lemma insertionLoop_ok (hp : p.Pairwise (· ≤ ·)) (r : List ℕ) :
    ∃ s, insertionLoop r.length p.length (p ++ r) = some s ∧ s.Perm (p ++ r) ∧
      s.Pairwise (· ≤ ·) := by
  induction r generalizing p with
  | nil => exact ⟨p, by rw [append_nil]; rfl, by rw [append_nil], hp⟩
  | cons v r ih =>
    obtain ⟨s, hs, hperm, hsorted⟩ := insertionShift_ok hp v v r
    have hlen : p.length + 1 = s.length := by rw [hperm.length_eq, length_cons]
    obtain ⟨t, ht, hperm', htsorted⟩ := ih hsorted
    have hget : (p ++ v :: r)[p.length]? = some v := by simp
    rw [length_cons, insertionLoop, hget]
    dsimp only [bind, Option.bind]
    rw [hs, hlen]
    exact ⟨t, ht, hperm'.trans ((hperm.append_right r).trans perm_middle.symm), htsorted⟩

lemma insertionSortArray_ok (hlen : a.length < 2 ^ 31) :
    ∃ s, insertionSortArray a a.length = some s ∧ s.Perm a ∧ s.Pairwise (· ≤ ·) := by
  unfold insertionSortArray
  rw [if_pos hlen]
  match a with
  | [] => exact ⟨[], rfl, .refl _, .nil⟩
  | [x] => exact ⟨[x], rfl, .refl _, pairwise_singleton _ x⟩
  | [x, y] =>
    by_cases hlt : y < x
    · exact ⟨[y, x], congrArg some (if_pos hlt), .swap x y [], by simpa using hlt.le⟩
    · exact ⟨[x, y], congrArg some (if_neg hlt), .refl _, by simpa using hlt⟩
  | x :: y :: z :: r =>
    have hn : ((x :: y :: z :: r).length : ℤ).toNat - 1 = (y :: z :: r).length := by
      simp only [length_cons]
      omega
    dsimp only
    rw [if_neg (by simp; omega), if_pos (by simp; omega), hn]
    exact @insertionLoop_ok [x] (pairwise_singleton _ x) (y :: z :: r)

/-- **A snapshot is sorted.**  For every array of ids that is not empty, and whose size is an `int`,
the sort ends, within the array, and leaves the ids in ascending order; this is the snapshot that
`sortSnapshot` says. -/
theorem snapsort_sorts {ids : List ℕ} (hne : ids ≠ []) (hlen : ids.length < 2 ^ 31) {fuel : ℕ}
    (hfuel : ids.length ≤ fuel) :
    ∃ sorted, snapsort fuel ids = some sorted ∧ sorted.Perm ids ∧ sorted.Pairwise (· ≤ ·) ∧
      ∀ snapMax, (sortSnapshot ids snapMax).ids = sorted := by
  have hpos := length_pos_iff.mpr hne
  have hl : (ids.length + 2 ^ 32 - 1) % 2 ^ 32 = ids.length - 1 := by omega
  obtain ⟨a, himpl, hperm⟩ := @snapsortImpl_ok ids 0 (ids.length - 1) fuel (Nat.zero_le _)
    (by omega) hlen (by omega)
  obtain ⟨sorted, hsort, hperm', hsorted⟩ := @insertionSortArray_ok a (hperm.length_eq ▸ hlen)
  refine ⟨sorted, ?_, hperm'.trans hperm, hsorted, fun snapMax => ?_⟩
  · rw [snapsort, hl, himpl, ← hperm.length_eq]
    exact hsort
  · refine (((perm_insertionSort (· ≤ ·) ids).trans (hperm'.trans hperm).symm)).eq_of_pairwise
      (fun _ _ _ _ => le_antisymm) ?_ hsorted
    exact pairwise_insertionSort _ ids

/-- Three ids. -/
theorem snapsort_sorts_three : ∃ sorted, snapsort 3 [7, 9, 4] = some sorted ∧
    sorted.Perm [7, 9, 4] ∧ sorted.Pairwise (· ≤ ·) ∧
      ∀ snapMax, (sortSnapshot [7, 9, 4] snapMax).ids = sorted :=
  snapsort_sorts (by decide) (by decide) le_rfl

/-- Of an empty array the element in front of the first is read. -/
theorem snapsort_nil : ¬∃ fuel sorted, snapsort fuel [] = some sorted := by
  rintro ⟨_ | fuel, sorted, h⟩ <;> cases h

end WiredTiger
