/-
# Matching value cells (`__wt_cell_pack_value_match`)

Reconciliation looks for a value on the page with the data of the one it is about to write.  Windows
and counts are skipped, and the lengths are compared as they are stored.  A cell with neither of
them stores its length less the adjustment, and then the last bytes of the value are not compared.
-/
import WiredTiger.Cell.RoundTrip

namespace WiredTiger

open Lib List Nat CellType

variable {img : List UInt8} {p : ℕ}

/-- The numbers whose flags are set are skipped. -/
def skipFields (img : List UInt8) (flags : UInt8) : List UInt8 → CellReader Unit
  | [] => pure ()
  | flag :: rest => do
    let _ ← readField img none flags flag 0
    skipFields img flags rest

/-- The flags of a window, in the order in which they are looked at. -/
def matchFlags : List UInt8 :=
  [cellTsDurableStart, cellTsDurableStop, cellTsStart, cellTsStop, cellTxnStart, cellTxnStop]

/-- The window of a value is skipped. -/
def skipWindow (img : List UInt8) (desc : UInt8) : CellReader Unit :=
  if desc &&& cellSecondDesc ≠ 0 then do
    let flags ← readByte img
    skipFields img flags matchFlags
  else pure ()

/-- The length that a value cell stores; nothing is read of another cell. -/
def matchLen (img : List UInt8) : CellReader (Option ℕ) := do
  let desc ← readByte img
  if desc &&& 0x03 = valueShort.code then pure (some (desc >>> cellShortShift).toNat)
  else if desc &&& 0xf0 = value.code then do
    skipWindow img desc
    let _ ← readField img none desc cell64V 0
    let len ← readUint img none
    pure (some len)
  else pure none

/-- `__wt_cell_pack_value_match`, of the cell at a place of a page and a cell with its data. -/
def cellPackValueMatch (page : List UInt8) (pageCell : ℕ) (valCell valData : List UInt8) :
    Except CellError Bool :=
  match matchLen page pageCell with
  | .error e => .error e
  | .ok (none, _) => .ok false
  | .ok (some alen, a) =>
    match matchLen valCell 0 with
    | .error e => .error e
    | .ok (none, _) => .ok false
    | .ok (some blen, _) =>
      if alen ≠ blen then .ok false
      else if page.length < a + alen ∨ valData.length < alen then .error (.read .fault)
      else .ok (decide ((page.drop a).take alen = valData.take alen))

/-- A value, with the window and the count of its cell. -/
structure CellValue where
  tw : TimeWindow
  rle : ℕ
  data : List UInt8

namespace CellValue

def cell (v : CellValue) : List UInt8 := cellPackValue v.tw v.rle v.data.length

/-- All numbers have 64 bits. -/
structure Ok (v : CellValue) : Prop where
  tw : v.tw.Fits
  rle : v.rle < 2 ^ 64
  size : v.data.length < 2 ^ 64

/-- The length is stored less the adjustment. -/
def Adjusted (v : CellValue) : Prop :=
  v.tw.isEmpty = true ∧ v.rle < 2 ∧ cellShortMax < v.data.length

instance (v : CellValue) : Decidable v.Adjusted := inferInstanceAs (Decidable (_ ∧ _ ∧ _))

/-- The value without as many bytes as the adjustment. -/
def short (v : CellValue) : List UInt8 := v.data.take (v.data.length - cellSizeAdjust)

/-- No two values are taken for one another.  Of two cells with adjusted lengths the last bytes are
not compared; and an adjusted length is not that of the same value in another cell, but may be that
of a shorter one. -/
def Apart (a b : CellValue) : Prop :=
  (a.Adjusted → b.Adjusted → a.short = b.short → a.data = b.data) ∧
  (a.Adjusted → ¬b.Adjusted → a.data ≠ b.data ∧ a.short ≠ b.data) ∧
  (¬a.Adjusted → b.Adjusted → a.data ≠ b.data ∧ a.data ≠ b.short)

end CellValue

/-! ### The stored length -/

/-- So many numbers are skipped as there are flags. -/
lemma skipFields_ok {flags : UInt8} {fs : List UInt8} {xs : List ℕ} (hxs : ∀ x ∈ xs, x < 2 ^ 64)
    (hcount : fs.countP (fun f => flags &&& f ≠ 0) = xs.length)
    (h : Here img none p (xs.flatMap packUint)) :
    skipFields img flags fs p = .ok ((), p + (xs.flatMap packUint).length) := by
  induction fs generalizing p xs with
  | nil =>
    obtain rfl := length_eq_zero_iff.mp hcount.symm
    rfl
  | cons f fs ih =>
    rw [skipFields, readField]
    by_cases hf : flags &&& f ≠ 0
    · rw [countP_cons_of_pos (by simpa using hf)] at hcount
      obtain ⟨x, xs, rfl⟩ := exists_cons_of_length_eq_add_one hcount.symm
      rw [flatMap_cons] at h
      rw [if_pos hf, flatMap_cons, length_append, ← add_assoc]
      exact (reader_bind_ok (readUint_ok (hxs x mem_cons_self) h.left)).trans
        (ih (fun y hy => hxs y (mem_cons_of_mem x hy)) (succ.inj hcount) h.right)
    · rw [countP_cons_of_neg (by simpa using hf)] at hcount
      rw [if_neg hf]
      exact (reader_bind_ok rfl).trans (ih hxs hcount h)

lemma flatMap_bytes (fields : List CellField) : fields.flatMap CellField.bytes =
    ((fields.filter (·.present)).map (·.number)).flatMap packUint := by
  induction fields with
  | nil => rfl
  | cons f fields ih =>
    rw [flatMap_cons, ih, CellField.bytes, filter_cons]
    cases f.present <;> rfl

/-- Windows are written in another order, but with the same number of fields. -/
lemma countP_secondDesc : ∀ a b c d e f g : Bool,
    matchFlags.countP (fun flag => secondDesc a b c d e f g &&& flag ≠ 0) =
      [a, b, c, d, e, f].countP id := by
  decide

lemma skipWindow_ok {tw : TimeWindow} (htw : tw.Fits) {desc : UInt8}
    (hdesc : desc &&& cellSecondDesc = 0 ↔ (!tw.isEmpty) = false)
    (h : Here img none p tw.cellBytes) :
    skipWindow img desc p = .ok ((), p + tw.cellBytes.length) := by
  rw [skipWindow]
  unfold TimeWindow.cellBytes cellPackValueValidity at h ⊢
  cases hempty : tw.isEmpty with
  | true =>
    rw [if_neg (not_not.mpr (hdesc.mpr (by rw [hempty]; rfl)))]
    rfl
  | false =>
    have hcount := countP_secondDesc (decide (tw.startTs ≠ tsNone)) (decide (tw.startTxn ≠ txnNone))
      (decide (tw.durableStartTs ≠ tsNone ∧ 0 < sub64 tw.durableStartTs tw.startTs))
      (decide (tw.stopTs ≠ tsMax)) (decide (tw.stopTxn ≠ txnMax))
      (decide (tw.durableStopTs ≠ tsNone ∧ 0 < sub64 tw.durableStopTs tw.stopTs)) tw.prepare
    have hnumbers : ∀ f ∈ tw.cellFields, f.number < 2 ^ 64 := by
      simp only [TimeWindow.cellFields, forall_mem_cons]
      exact ⟨htw.startTs, htw.startTxn, sub64_lt _ _, sub64_lt _ _, sub64_lt _ _, sub64_lt _ _,
        nofun⟩
    rw [hempty] at h
    rw [if_pos (fun h => by simpa [hempty] using hdesc.mp h)]
    have hfields := h.tail
    rw [flatMap_bytes] at hfields
    refine (reader_bind_ok (readByte_ok h)).trans ?_
    refine (skipFields_ok ?_ ?_ hfields).trans ?_
    · intro x hx
      obtain ⟨f, hf, rfl⟩ := mem_map.mp hx
      exact hnumbers f (mem_filter.mp hf).1
    · rw [length_map, ← countP_eq_length_filter]
      exact hcount
    · rw [← flatMap_bytes, add_assoc, add_comm 1]
      rfl

lemma valueDesc_read : ∀ second v64 : Bool,
    longDesc second v64 .value &&& 0x03 ≠ valueShort.code ∧
      longDesc second v64 .value &&& 0xf0 = value.code := by
  decide

lemma valueShort_read : ∀ size < 64,
    shortDesc size .valueShort &&& 0x03 = valueShort.code := by
  decide

lemma matchLen_long {tw : TimeWindow} {v64 : Bool} {rle n : ℕ} (htw : tw.Fits) (hrle : rle < 2 ^ 64)
    (hn : n < 2 ^ 64) {bs : List UInt8} (hbs : bs = longDesc (!tw.isEmpty) v64 .value ::
      ((tw.cellBytes ++ numBytes v64 rle) ++ packUint n)) (h : Here img none p bs) :
    matchLen img p = .ok (some n, p + bs.length) := by
  subst hbs
  obtain ⟨-, hsecond, h64⟩ := longDesc_read .value rfl (!tw.isEmpty) v64
  obtain ⟨hshort, hvalue⟩ := valueDesc_read (!tw.isEmpty) v64
  have hlen := h.tail.right
  rw [length_append, ← add_assoc] at hlen
  refine (reader_bind_ok (readByte_ok h)).trans ?_
  rw [if_neg hshort, if_pos hvalue]
  refine (reader_bind_ok (skipWindow_ok htw hsecond h.tail.left.left)).trans ?_
  refine (reader_bind_ok (readField_ok (f := ⟨v64, cell64V, rle⟩) (x := if v64 then rle else 0) h64
    hrle h.tail.left.right (fun hv => ?_) fun hv => (if_pos hv).symm)).trans ?_
  · exact (if_neg (by rw [show v64 = false from hv]; decide)).symm
  refine (reader_bind_ok (readUint_ok hn hlen)).trans ?_
  refine congrArg (fun q => Except.ok (some n, q)) ?_
  simp only [length_cons, length_append, numBytes]
  omega

namespace CellValue

variable {a b v : CellValue}

/-- The bytes that are compared. -/
def compared (v : CellValue) : List UInt8 := if v.Adjusted then v.short else v.data

lemma length_short (v : CellValue) : v.short.length = v.data.length - cellSizeAdjust :=
  length_take_of_le (sub_le _ _)

lemma compared_initial (v : CellValue) : v.compared <+: v.data := by
  rw [compared]
  split_ifs
  · exact take_prefix _ _
  · exact prefix_rfl

/-- The length that is stored is that of what is compared. -/
lemma matchLen_cell (hv : v.Ok) (h : Here img none p v.cell) :
    matchLen img p = .ok (some v.compared.length, p + v.cell.length) := by
  have hsize := hv.size
  rw [compared]
  by_cases hno : v.tw.isEmpty = true ∧ v.rle < 2
  · by_cases hshort : v.data.length ≤ cellShortMax
    · rw [cell, CellItem.cellPackValue_short hno.2 hno.1 hshort] at h ⊢
      rw [if_neg fun hadj => absurd hshort (Nat.not_le.mpr hadj.2.2)]
      refine (reader_bind_ok (readByte_ok h)).trans ?_
      have hlt : v.data.length < 64 := Nat.lt_succ_of_le hshort
      rw [if_pos (valueShort_read _ hlt), (shortDesc_read .valueShort rfl _ hlt).2]
      rfl
    · rw [if_pos ⟨hno.1, hno.2, Nat.lt_of_not_le hshort⟩, length_short]
      exact matchLen_long hv.tw hv.rle (by omega) (cellPackValue_long hno.2 hno.1 hshort) h
  · rw [if_neg fun hadj => hno ⟨hadj.1, hadj.2.1⟩]
    exact matchLen_long hv.tw hv.rle hv.size (cellPackValue_window hno) h

/-- **What matching compares.** -/
lemma match_eq (ha : a.Ok) (hb : b.Ok) (pre post : List UInt8) :
    cellPackValueMatch (pre ++ (a.cell ++ (a.data ++ post))) pre.length b.cell b.data =
      .ok (decide (a.compared = b.compared)) := by
  have hpage : Here (pre ++ (a.cell ++ (a.data ++ post))) none pre.length a.cell :=
    ⟨⟨a.data ++ post, by rw [drop_left]⟩, nofun⟩
  have hcell : Here b.cell none 0 b.cell := ⟨prefix_rfl, nofun⟩
  have hdrop : (pre ++ (a.cell ++ (a.data ++ post))).drop (pre.length + a.cell.length) =
      a.data ++ post := by
    rw [← drop_drop, drop_left, drop_left]
  have hta := prefix_iff_eq_take.mp (a.compared_initial.trans (prefix_append a.data post))
  have htb := prefix_iff_eq_take.mp b.compared_initial
  have hla := a.compared_initial.length_le
  have hlb := b.compared_initial.length_le
  simp only [cellPackValueMatch, matchLen_cell ha hpage, matchLen_cell hb hcell]
  by_cases hlen : a.compared.length = b.compared.length
  · have hin : ¬((pre ++ (a.cell ++ (a.data ++ post))).length <
        pre.length + a.cell.length + a.compared.length ∨ b.data.length < a.compared.length) := by
      simp only [length_append]
      omega
    rw [if_neg (not_not.mpr hlen), if_neg hin, hdrop, ← hta, hlen, ← htb]
  · rw [if_pos hlen, decide_eq_false fun h => hlen (congrArg length h)]

lemma length_short_lt (h : v.Adjusted) : v.short.length < v.data.length := by
  have := h.2.2
  rw [length_short, cellSizeAdjust]
  omega

/-- A value without its last bytes tells whether the value is some other one only if it is not. -/
lemma short_exact_iff (h : v.Adjusted) {x : List UInt8} :
    (v.short = x ↔ v.data = x) ↔ v.data ≠ x ∧ v.short ≠ x := by
  constructor
  · intro hiff
    have hne : v.data ≠ x := by
      rintro rfl
      exact (length_short_lt h).ne (congrArg length (hiff.mpr rfl))
    exact ⟨hne, mt hiff.mp hne⟩
  · rintro ⟨hne, hshort⟩
    exact iff_of_false hshort hne

end CellValue

/-- **When matching is exact.** Of any two values, with any windows and counts, a match is reported
exactly if they are the same, if and only if the adjustment of their lengths does not matter. -/
theorem cellPackValueMatch_exact_iff {a b : CellValue} (ha : a.Ok) (hb : b.Ok)
    (pre post : List UInt8) :
    cellPackValueMatch (pre ++ (a.cell ++ (a.data ++ post))) pre.length b.cell b.data =
      .ok (decide (a.data = b.data)) ↔ a.Apart b := by
  rw [CellValue.match_eq ha hb, Except.ok.injEq, decide_eq_decide, CellValue.compared,
    CellValue.compared, CellValue.Apart]
  by_cases hadj : a.Adjusted
  · by_cases hbdj : b.Adjusted
    · simp only [hadj, hbdj, if_true, true_imp_iff, not_true, false_imp_iff, and_true]
      refine ⟨Iff.mp, fun h => ⟨h, fun heq => ?_⟩⟩
      rw [CellValue.short, CellValue.short, heq]
    · simpa [hadj, hbdj] using CellValue.short_exact_iff hadj
  · by_cases hbdj : b.Adjusted
    · simpa [hadj, hbdj, eq_comm (a := a.data)] using CellValue.short_exact_iff hbdj
    · simp [hadj, hbdj]

/-- Two short values. -/
theorem cellPackValueMatch_exact_iff_short :
    cellPackValueMatch ([3, 7] ++ ([7] ++ ([5] ++ []))) 2 [7] [6] = .ok false := by
  have hfits : TimeWindow.init.Fits := by constructor <;> decide
  exact (cellPackValueMatch_exact_iff (a := ⟨.init, 0, [5]⟩) (b := ⟨.init, 0, [6]⟩)
    ⟨hfits, by decide, by decide⟩ ⟨hfits, by decide, by decide⟩ [3, 7] []).mpr
    ⟨fun h => absurd h (by decide), fun h => absurd h (by decide), fun _ h => absurd h (by decide)⟩

/-- Two values of 64 bytes that differ in each of them match. -/
theorem cellPackValueMatch_ignores_bytes :
    cellPackValueMatch (cellPackValue .init 0 64 ++ replicate 64 0) 0 (cellPackValue .init 0 64)
      (replicate 64 1) = .ok true := by
  decide

end WiredTiger
