/-
# A size that counts its own field (`__wt_struct_size_adjust`)

A packed structure may begin with its own size.  How long that field is depends on the size, so the
size is made larger until it counts the field it needs.
-/
import WiredTiger.Pack.IntPackProps

namespace WiredTiger

/-- The loop of `__wt_struct_size_adjust`; sizes wrap around at 64 bits. -/
def structSizeAdjustLoop : ℕ → ℕ → ℕ → Option ℕ
  | 0, _, _ => none
  | fuel + 1, currSize, prevFieldSize =>
    let fieldSize := vsizeUint currSize
    if fieldSize ≠ prevFieldSize then
      structSizeAdjustLoop fuel ((currSize + (2 ^ 64 + fieldSize - prevFieldSize)) % 2 ^ 64)
        fieldSize
    else some currSize

/-- `__wt_struct_size_adjust`. -/
def structSizeAdjust (fuel size : ℕ) : Option ℕ := structSizeAdjustLoop fuel size 1

/-- The sizes from `s` on that have room for themselves in place of one byte of `s`. -/
def adjustedSizes (s : ℕ) : Set ℕ := {r | s ≤ r ∧ r + 1 = s + vsizeUint r}

lemma vsizeUint_le (x : ℕ) : vsizeUint x ≤ 9 := by
  unfold vsizeUint vsizePosint intpack64Maxsize
  split_ifs <;> omega

lemma vsizeUint_mono {x y : ℕ} (h : x ≤ y) (hy : y < 2 ^ 64) : vsizeUint x ≤ vsizeUint y := by
  have hlz : leadingZeros (y - (pos2ByteMax + 1)) ≤ leadingZeros (x - (pos2ByteMax + 1)) :=
    leadingZeros_anti (Nat.sub_le_sub_right h _) (by omega)
  have hlz' : pos2ByteMax + 1 < y → leadingZeros (y - (pos2ByteMax + 1)) ≤ 7 := fun hlt =>
    (pow_leadingZeros_le (by omega)).1
  unfold vsizeUint vsizePosint intpack64Maxsize
  split_ifs <;> omega

/-- The size grows with its field, and is never above a size that counts itself. -/
lemma isLeast_structSizeAdjustLoop {s : ℕ} (hs : s + 8 < 2 ^ 64) (fuel curr prev : ℕ)
    (hcurr : curr + 1 = s + prev) (hprev : 1 ≤ prev) (hle : prev ≤ vsizeUint curr)
    (hleast : curr ∈ lowerBounds (adjustedSizes s)) (hfuel : 9 < fuel + prev) :
    ∃ r, structSizeAdjustLoop fuel curr prev = some r ∧ IsLeast (adjustedSizes s) r := by
  induction fuel generalizing curr prev with
  | zero =>
    have := vsizeUint_le curr
    omega
  | succ fuel ih =>
    have hnine := vsizeUint_le curr
    rw [structSizeAdjustLoop]
    split_ifs with hfield
    · have hnext : (curr + (2 ^ 64 + vsizeUint curr - prev)) % 2 ^ 64 + 1 = s + vsizeUint curr := by
        omega
      refine ih _ _ hnext (by omega) (vsizeUint_mono (by omega) (Nat.mod_lt _ (by decide))) ?_
        (by omega)
      rintro r ⟨hsr, hr⟩
      have := vsizeUint_mono (hleast ⟨hsr, hr⟩) (by have := vsizeUint_le r; omega)
      omega
    · exact ⟨curr, rfl, ⟨by omega, by omega⟩, hleast⟩

/-- **The size field is a fixed point.** The adjusted size is the smallest that counts its own size
field; the loop goes round ten times at most. -/
theorem structSizeAdjust_isLeast {s : ℕ} (hs : s + 8 < 2 ^ 64) :
    ∃ r, (∀ fuel, 9 ≤ fuel → structSizeAdjust fuel s = some r) ∧ IsLeast (adjustedSizes s) r := by
  have hrun : ∀ fuel, 9 ≤ fuel →
      ∃ r, structSizeAdjust fuel s = some r ∧ IsLeast (adjustedSizes s) r := fun fuel hfuel =>
    isLeast_structSizeAdjustLoop hs fuel s 1 rfl le_rfl (vsizeUint_pos s) (fun _ h => h.1)
      (by omega)
  obtain ⟨r, -, hr⟩ := hrun 9 le_rfl
  refine ⟨r, fun fuel hfuel => ?_, hr⟩
  obtain ⟨r', hr', hleast⟩ := hrun fuel hfuel
  rw [hr', hleast.unique hr]

theorem structSizeAdjust_isLeast_large :
    ∃ r, (∀ fuel, 9 ≤ fuel → structSizeAdjust fuel 8510 = some r) ∧
      IsLeast (adjustedSizes 8510) r :=
  structSizeAdjust_isLeast (by decide)

/-- A size whose field does not fit 64 bits wraps around, and the loop turns back and forth. -/
theorem structSizeAdjust_never : ¬∃ fuel r, structSizeAdjust fuel (2 ^ 64 - 1) = some r := by
  have hturn : ∀ fuel, structSizeAdjustLoop fuel (2 ^ 64 - 1) 1 = none ∧
      structSizeAdjustLoop fuel 7 9 = none := by
    intro fuel
    induction fuel with
    | zero => exact ⟨rfl, rfl⟩
    | succ fuel ih => exact ⟨ih.2, ih.1⟩
  rintro ⟨fuel, r, h⟩
  cases (hturn fuel).1.symm.trans h

end WiredTiger
