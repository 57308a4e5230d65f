/-
# When unpacking a cell stays on the page

With the end of the page given, unpacking a cell is meant to read bytes of the page only, and to
return a cell whose data is on the page.  It does exactly if every byte and every number of the cell
starts on the page, the length of the cell does not wrap around, and, for a copy cell, the data of
the cell it leads to is on the page.
-/
import WiredTiger.Cell.CellReads
import WiredTiger.Lib.Fallible

namespace WiredTiger

open Lib Option Except List

variable {img : List UInt8} {into : UnpackInto} {cell₀ cell : ℕ}

/-! ### What the bytes of a cell say -/

/-- What a cell is: data, with its place and size and the length of the cell in 32 bits, or a copy
of the cell so many bytes in front of it, with its own length. -/
inductive CellShape
  | data (data size len : ℕ)
  | copy (v len : ℕ)
  deriving DecidableEq, Repr

/-- What a cell that is not short is, from its number and the place behind its header. -/
def longShape (img : List UInt8) (desc : UInt8) (cell v p : ℕ) : Option CellType → Option CellShape
  | none => none
  | some .del => some (.data 0 0 ((p - cell) % 2 ^ 32))
  | some .valueCopy => (numberAt img p).map fun xq => .copy xq.1 ((xq.2 - cell) % 2 ^ 32)
  | some raw => (numberAt img p).map fun xq =>
    let size := (if sizeAdjusted raw desc v then add64 xq.1 cellSizeAdjust else xq.1) % 2 ^ 32
    .data xq.2 size ((xq.2 - cell + size) % 2 ^ 32)

/-- What the cell at a place is, if its bytes are those of a cell. -/
def cellShape (img : List UInt8) (into : UnpackInto) (cell : ℕ) : Option CellShape :=
  let desc := img.getD cell 0
  let size := (desc >>> cellShortShift).toNat
  match cellTypeRaw desc with
  | some .keyShortPfx =>
    if cell + 1 < img.length then some (.data (cell + 2) size (2 + size)) else none
  | some .keyShort | some .valueShort => some (.data (cell + 1) size (1 + size))
  | raw =>
    if mismatch into raw ∨ (hasByte raw desc ∧ img.length ≤ cell + 1) then none
    else (headerAt img raw desc cell).bind fun vp => longShape img desc cell vp.1 vp.2 raw

/-- The data of a cell has a length, and a copy cell an offset. -/
def tailNumbers : Option CellType → ℕ
  | some .del | none => 0
  | some _ => 1

/-- Every byte and every number of a cell starts on the page. -/
def CellStarts (img : List UInt8) (into : UnpackInto) (cell : ℕ) : Prop :=
  let desc := img.getD cell 0
  match cellTypeRaw desc with
  | some .keyShortPfx => cell + 1 < img.length
  | some .keyShort | some .valueShort => True
  | raw => mismatch into raw = false →
      (hasByte raw desc = true → cell + 1 < img.length) ∧
        NumbersStart img (headerNumbers img raw desc cell + tailNumbers raw)
          (numbersPlace raw desc cell)

/-! ### A pass -/

/-- What a pass comes to. -/
def CellPass.shape : CellPass → CellShape
  | .data u => .data u.data u.size u.len
  | .copy v c => .copy v c.len

/-- A pass leaves the page unless something holds, and comes to a shape. -/
structure PassIs (r : Except CellError CellPass) (starts : Prop) (shape : Option CellShape) :
    Prop where
  stays : starts → r ≠ .error (.read .fault)
  leaves : ¬starts → r = .error (.read .fault)
  shape_iff : ∀ s, (∃ c, r = .ok c ∧ c.shape = s) ↔ shape = some s

lemma PassIs.congr {r : Except CellError CellPass} {starts starts' : Prop}
    {shape : Option CellShape} (h : PassIs r starts shape) (hiff : starts ↔ starts') :
    PassIs r starts' shape := by
  rwa [← propext hiff]

/-- A number is read, and that is all. -/
lemma passIs_number (p : ℕ) (f : ℕ × ℕ → CellPass) :
    PassIs (readUint img (some img.length) p >>= fun xq => pure (f xq)) (NumbersStart img 1 p)
      ((numberAt img p).map fun xq => (f xq).shape) where
  stays h heq := by
    rcases bind_eq_error heq with hread | ⟨xq, -, hpure⟩
    · exact readUint_stays h.1 hread
    · cases hpure
  leaves h := by
    rw [counts_readUint.leaves p h]
    rfl
  shape_iff s := by
    rw [map_eq_some_iff]
    constructor
    · rintro ⟨c, hc, rfl⟩
      obtain ⟨xq, hread, hpure⟩ := exists_of_bind_ok hc
      cases hpure
      exact ⟨xq, readUint_eq_ok.mp hread, rfl⟩
    · rintro ⟨xq, hxq, rfl⟩
      refine ⟨f xq, ?_, rfl⟩
      rw [readUint_eq_ok.mpr hxq]
      rfl

lemma passIs_pure (c : CellPass) : PassIs (.ok c) True (some c.shape) where
  stays _ h := by cases h
  leaves h := absurd trivial h
  shape_iff s := by
    rw [some.injEq]
    constructor
    · rintro ⟨c', hc', rfl⟩
      rw [ok.inj hc']
    · intro h
      exact ⟨c, rfl, h⟩

lemma passIs_error {r : Except CellError CellPass} {e : CellError} {starts : Prop}
    {shape : Option CellShape} (hr : r = .error e) (he : e = .read .fault ↔ ¬starts)
    (hs : shape = none) : PassIs r starts shape where
  stays h heq := he.mp (error.inj (hr.symm.trans heq)) h
  leaves h := by rw [hr, he.mpr h]
  shape_iff s := by
    rw [hs, hr]
    constructor
    · rintro ⟨c, hc, -⟩
      cases hc
    · intro h
      cases h

/-- What follows the header. -/
lemma passIs_unpackLong (cell₀ cell : ℕ) (desc : UInt8) (h : CellHeader) (p : ℕ)
    (raw : Option CellType) :
    PassIs (unpackLong img (some img.length) cell₀ cell desc h p raw)
      (NumbersStart img (tailNumbers raw) p) (longShape img desc cell h.v p raw) := by
  rcases raw with - | raw
  · exact passIs_error rfl ⟨nofun, fun h => absurd trivial h⟩ rfl
  · cases raw
    case del => exact passIs_pure _
    all_goals exact passIs_number p _

/-- The numbers of the header, and what follows it. -/
lemma passIs_header {raw : Option CellType} {desc : UInt8} (cell₀ : ℕ)
    (hmis : mismatch into raw = false) (hbyte : hasByte raw desc = true → cell + 1 < img.length) :
    PassIs (readHeader img (some img.length) into raw desc (cell + 1) >>= fun hp =>
        unpackLong img (some img.length) cell₀ cell desc hp.1 hp.2 raw)
      (NumbersStart img (headerNumbers img raw desc cell + tailNumbers raw)
        (numbersPlace raw desc cell))
      ((headerAt img raw desc cell).bind fun vp => longShape img desc cell vp.1 vp.2 raw) := by
  obtain ⟨m, hm, heq⟩ := header_counts hmis hbyte
  rw [numbersStart_add]
  cases hread : readHeader img (some img.length) into raw desc (cell + 1) with
  | error e =>
    have hnone : headerAt img raw desc cell = none := by
      rw [eq_none_iff_forall_ne_some]
      rintro ⟨v, p⟩ hvp
      obtain ⟨h, hok, -⟩ := (readHeader_iff hmis hbyte).mpr hvp
      rw [hread] at hok
      cases hok
    refine passIs_error (e := e) rfl ?_ (by rw [hnone]; rfl)
    constructor
    · rintro rfl ⟨hstart, -⟩
      exact hm.stays _ hstart (heq.symm.trans hread)
    · intro hstart
      have hbehind : ∀ q, behindNumbers img (headerNumbers img raw desc cell)
          (numbersPlace raw desc cell) ≠ some q := by
        intro q hq
        obtain ⟨h, hok⟩ := (hm.behind _ q).mpr hq
        rw [← heq, hread] at hok
        cases hok
      have hleaves := hm.leaves (numbersPlace raw desc cell) fun h =>
        hstart ⟨h, fun q hq => absurd hq (hbehind q)⟩
      rw [← heq, hread] at hleaves
      exact error.inj hleaves
  | ok hq =>
    obtain ⟨h, q⟩ := hq
    have hq := (hm.behind _ q).mp ⟨h, heq.symm.trans hread⟩
    have hstart : NumbersStart img (headerNumbers img raw desc cell)
        (numbersPlace raw desc cell) := by
      by_contra hno
      have hleaves := hm.leaves _ hno
      rw [← heq, hread] at hleaves
      cases hleaves
    rw [(readHeader_iff hmis hbyte).mp ⟨h, hread, rfl⟩]
    refine (passIs_unpackLong cell₀ cell desc h q raw).congr ?_
    constructor
    · intro htail
      refine ⟨hstart, fun q' hq' => ?_⟩
      rwa [← some.inj (hq.symm.trans hq')]
    · rintro ⟨-, htail⟩
      exact htail q hq

/-- A pass over a cell that is not short. -/
lemma passIs_long (raw : Option CellType) (desc : UInt8) (into : UnpackInto) (cell₀ cell : ℕ) :
    PassIs (readHeader img (some img.length) into raw desc (cell + 1) >>= fun hp =>
        unpackLong img (some img.length) cell₀ cell desc hp.1 hp.2 raw)
      (mismatch into raw = false → (hasByte raw desc = true → cell + 1 < img.length) ∧
        NumbersStart img (headerNumbers img raw desc cell + tailNumbers raw)
          (numbersPlace raw desc cell))
      (if mismatch into raw ∨ (hasByte raw desc ∧ img.length ≤ cell + 1) then none
      else (headerAt img raw desc cell).bind fun vp => longShape img desc cell vp.1 vp.2 raw) := by
  cases hmis : mismatch into raw with
  | true =>
    refine passIs_error (e := .error) ?_ ?_ (if_pos (.inl rfl))
    · rw [readHeader_mismatch hmis]
      rfl
    · simp
  | false =>
    by_cases hbyte : hasByte raw desc = true → cell + 1 < img.length
    · have hno : ¬(false = true ∨ (hasByte raw desc = true ∧ img.length ≤ cell + 1)) := by
        rintro (h | ⟨h, hle⟩)
        · cases h
        · exact absurd (hbyte h) (not_lt.mpr hle)
      rw [if_neg hno]
      refine (passIs_header cell₀ hmis hbyte).congr ?_
      exact ⟨fun h _ => ⟨hbyte, h⟩, fun h => (h rfl).2⟩
    · have hend : hasByte raw desc = true ∧ img.length ≤ cell + 1 := by
        simpa using hbyte
      refine passIs_error (e := .read .fault) ?_ ?_ (if_pos (.inr hend))
      · rw [readHeader_eq, reader_bind_error (front_leaves hmis hend.1 hend.2)]
        rfl
      · simp only [true_iff]
        intro h
        exact hbyte (h trivial).1

/-- The prefix byte of a short key is read if the byte in front of it is on the page. -/
lemma passIs_keyShortPfx (desc : UInt8) (cell₀ : ℕ) (hcell : cell < img.length) :
    PassIs (unpackPass img (some img.length) into cell₀ cell desc (some .keyShortPfx))
      (cell + 1 < img.length)
      (if cell + 1 < img.length then some (.data (cell + 2) (desc >>> cellShortShift).toNat
        (2 + (desc >>> cellShortShift).toNat)) else none) := by
  have hchk : cellLenChk (some img.length) cell 1 = .ok () := if_neg (not_lt.mpr hcell)
  have hpass : unpackPass img (some img.length) into cell₀ cell desc (some .keyShortPfx) =
      readByteAt img (cell + 1) >>= fun pfx =>
        .ok (.data (shortCell cell₀ cell 1 desc pfx .keyShortPfx)) := by
    unfold unpackPass
    rw [hchk]
    rfl
  rw [hpass, readByteAt]
  by_cases h : cell + 1 < img.length
  · rw [getElem?_eq_getElem h, if_pos h]
    exact (passIs_pure _).congr (by simp [h])
  · rw [getElem?_eq_none (not_lt.mp h), if_neg h]
    exact passIs_error rfl (by simp [h]) rfl

/-- What a pass does is told by the bytes of the cell. -/
lemma passIs_unpackPass (into : UnpackInto) (cell₀ : ℕ) (hcell : cell < img.length) :
    PassIs (unpackPass img (some img.length) into cell₀ cell (img.getD cell 0)
      (cellTypeRaw (img.getD cell 0))) (CellStarts img into cell) (cellShape img into cell) := by
  dsimp only [CellStarts, cellShape]
  generalize img.getD cell 0 = desc
  cases cellTypeRaw desc with
  | none => exact passIs_long none _ _ _ _
  | some raw =>
    cases raw
    case keyShort => exact passIs_pure _
    case valueShort => exact passIs_pure _
    case keyShortPfx => exact passIs_keyShortPfx desc cell₀ hcell
    all_goals exact passIs_long (some _) _ _ _ _

/-! ### The loop -/

/-- The cell that a copy cell leads to. -/
def nextCell (img : List UInt8) (into : UnpackInto) (cell : ℕ) : Option ℕ :=
  if cell < img.length then
    match cellShape img into cell with
    | some (.copy v _) => some (copyTarget cell v)
    | _ => none
  else none

/-- Unpacking the cell stays on the page, and so does the cell it returns. -/
structure StaysInside (img : List UInt8) (cell₀ : ℕ) (r : Except CellError CellUnpack) : Prop where
  reads : r ≠ .error (.read .fault)
  returns : ∀ u, r = .ok u → cell₀ + u.len ≤ img.length ∧ u.data + u.size ≤ img.length

/-- There is room on the page for a cell and for what it is a copy of: every cell that copy cells
lead to starts on the page, with all of its bytes and numbers; a cell whose length passes the check
has its data on the page; and so has the cell that a copy cell leads to, if the length of the copy
passes the check there, where the length has to be one that the first cell has room for. -/
structure CellRoom (img : List UInt8) (into : UnpackInto) (cell₀ : ℕ) : Prop where
  starts : ∀ k c, iter (nextCell img into) k cell₀ = some c → c ≤ img.length →
    c < img.length ∧ CellStarts img into c
  own : ∀ d s len, cellShape img into cell₀ = some (.data d s len) →
    cell₀ + len ≤ img.length → d + s ≤ img.length
  copied : ∀ k c v len d s len', iter (nextCell img into) k cell₀ = some c → c < img.length →
    cellShape img into c = some (.copy v len) → copyTarget c v < img.length →
    cellShape img into (copyTarget c v) = some (.data d s len') →
    copyTarget c v + len ≤ img.length → d + s ≤ img.length ∧ cell₀ + len ≤ img.length

section Loop

variable {fuel : ℕ} {copy : Option CopyCell}

lemma loop_behind (h : img.length < cell) :
    cellUnpackLoop img (some img.length) into cell₀ (fuel + 1) cell copy = .error .error := by
  rw [cellUnpackLoop, cellLenChk, if_pos (by omega)]
  rfl

lemma loop_end (h : img.length = cell) :
    cellUnpackLoop img (some img.length) into cell₀ (fuel + 1) cell copy =
      .error (.read .fault) := by
  rw [cellUnpackLoop, cellLenChk, if_neg (by omega), readByteAt, getElem?_eq_none h.le]
  rfl

/-- On the page the loop makes a pass. -/
lemma loop_pass (h : cell < img.length) :
    cellUnpackLoop img (some img.length) into cell₀ (fuel + 1) cell copy =
      unpackPass img (some img.length) into cell₀ cell (img.getD cell 0)
          (cellTypeRaw (img.getD cell 0)) >>= fun
        | .data u => cellUnpackDone (some img.length) cell copy u
        | .copy v c => cellUnpackLoop img (some img.length) into cell₀ fuel (copyTarget cell v)
            (some { c with tw := (copy.map CopyCell.tw).getD c.tw }) := by
  rw [cellUnpackLoop, cellLenChk, if_neg (by omega), readByteAt, getD_eq_getElem?_getD,
    getElem?_eq_getElem h]
  rfl

lemma loop_leaves (h : cell < img.length) (hstarts : ¬CellStarts img into cell) :
    cellUnpackLoop img (some img.length) into cell₀ (fuel + 1) cell copy =
      .error (.read .fault) := by
  rw [loop_pass h, (passIs_unpackPass into cell₀ h).leaves hstarts]
  rfl

section

variable (cell₀ fuel : ℕ) (copy : Option CopyCell) (h : cell < img.length)
include h

lemma loop_of_data {d s len : ℕ} (hshape : cellShape img into cell = some (.data d s len)) :
    ∃ u : CellUnpack, u.data = d ∧ u.size = s ∧ u.len = len ∧
      cellUnpackLoop img (some img.length) into cell₀ (fuel + 1) cell copy =
        cellUnpackDone (some img.length) cell copy u := by
  obtain ⟨c, hpass, hc⟩ := ((passIs_unpackPass into cell₀ h).shape_iff _).mpr hshape
  rcases c with u | ⟨v, c⟩
  · obtain ⟨hd, hs, hlen⟩ := CellShape.data.inj hc
    refine ⟨u, hd, hs, hlen, ?_⟩
    rw [loop_pass h, hpass]
    rfl
  · cases hc

lemma loop_of_copy {v len : ℕ} (hshape : cellShape img into cell = some (.copy v len)) :
    ∃ c : CopyCell, c.len = len ∧
      cellUnpackLoop img (some img.length) into cell₀ (fuel + 1) cell copy =
        cellUnpackLoop img (some img.length) into cell₀ fuel (copyTarget cell v) (some c) := by
  obtain ⟨c, hpass, hc⟩ := ((passIs_unpackPass into cell₀ h).shape_iff _).mpr hshape
  rcases c with u | ⟨v', c⟩
  · cases hc
  · obtain ⟨rfl, hlen⟩ := CellShape.copy.inj hc
    refine ⟨{ c with tw := (copy.map CopyCell.tw).getD c.tw }, hlen, ?_⟩
    rw [loop_pass h, hpass]
    rfl

end

lemma nextCell_eq_some {c : ℕ} : nextCell img into cell = some c ↔
    cell < img.length ∧ ∃ v len, cellShape img into cell = some (.copy v len) ∧
      copyTarget cell v = c := by
  unfold nextCell
  by_cases h : cell < img.length
  · rw [if_pos h]
    rcases cellShape img into cell with - | ⟨d, s, len⟩ | ⟨v, len⟩
    · simp
    · simp
    · simp [h]
  · simp [h]

/-- The loop follows copy cells. -/
lemma loop_walk {k c : ℕ} (h : iter (nextCell img into) k cell = some c) (fuel : ℕ)
    (copy : Option CopyCell) :
    ∃ copy', cellUnpackLoop img (some img.length) into cell₀ (fuel + k) cell copy =
      cellUnpackLoop img (some img.length) into cell₀ fuel c copy' := by
  induction k generalizing cell copy with
  | zero =>
    cases h
    exact ⟨copy, rfl⟩
  | succ k ih =>
    obtain ⟨b, hb, hrest⟩ := iter_succ_eq_some.mp h
    obtain ⟨hcell, v, len, hshape, rfl⟩ := nextCell_eq_some.mp hb
    obtain ⟨cc, -, heq⟩ := loop_of_copy cell₀ (fuel + k) copy hcell hshape
    obtain ⟨copy', hcopy'⟩ := ih hrest (some cc)
    exact ⟨copy', heq.trans hcopy'⟩

/-- A pass that comes to nothing ends the loop. -/
lemma loop_of_none (h : cell < img.length) (hshape : cellShape img into cell = none) :
    ∃ e, cellUnpackLoop img (some img.length) into cell₀ (fuel + 1) cell copy = .error e ∧
      (CellStarts img into cell → e ≠ .read .fault) := by
  have hpass := passIs_unpackPass into cell₀ h
  rw [loop_pass h]
  cases hr : unpackPass img (some img.length) into cell₀ cell (img.getD cell 0)
      (cellTypeRaw (img.getD cell 0)) with
  | error e =>
    refine ⟨e, rfl, ?_⟩
    rintro hstarts rfl
    exact hpass.stays hstarts hr
  | ok c => exact absurd (hshape.symm.trans ((hpass.shape_iff _).mp ⟨c, hr, rfl⟩)) (by simp)

/-- The end of the loop: the length, which is that of a copy cell, is checked. -/
lemma done_eq (cell : ℕ) (copy : Option CopyCell) (u : CellUnpack) :
    ∃ u', u'.data = u.data ∧ u'.size = u.size ∧ u'.len = (copy.map CopyCell.len).getD u.len ∧
      cellUnpackDone (some img.length) cell copy u =
        if img.length < cell + u'.len then .error .error else .ok u' := by
  cases copy with
  | none =>
    refine ⟨u, rfl, rfl, rfl, ?_⟩
    dsimp only [cellUnpackDone, cellLenChk]
    split_ifs <;> rfl
  | some c =>
    refine ⟨{ u with v := c.v, len := c.len, raw := .valueCopy, tw := c.tw }, rfl, rfl, rfl, ?_⟩
    dsimp only [cellUnpackDone, cellLenChk]
    split_ifs <;> rfl

lemma staysInside_error {e : CellError} (he : e ≠ .read .fault) :
    StaysInside img cell₀ (.error e) where
  reads h := he (error.inj h)
  returns u h := by cases h

/-- Where the loop is: at the first cell, or where the last copy cell led. -/
def LoopAt (img : List UInt8) (into : UnpackInto) (cell₀ cell : ℕ) : Option CopyCell → Prop
  | none => cell = cell₀
  | some cc => ∃ k c v, iter (nextCell img into) k cell₀ = some c ∧ c < img.length ∧
      cellShape img into c = some (.copy v cc.len) ∧ cell = copyTarget c v

lemma LoopAt.reached (h : LoopAt img into cell₀ cell copy) :
    ∃ k, iter (nextCell img into) k cell₀ = some cell := by
  cases copy with
  | none =>
    obtain rfl : cell = cell₀ := h
    exact ⟨0, rfl⟩
  | some cc =>
    obtain ⟨k, c, v, hk, hc, hshape, rfl⟩ := h
    exact ⟨k + 1, iter_succ_last.mpr ⟨c, hk, nextCell_eq_some.mpr ⟨hc, v, _, hshape, rfl⟩⟩⟩

/-- With room for the cell the loop stays inside, from wherever copy cells lead. -/
lemma CellRoom.loop (hroom : CellRoom img into cell₀) (hat : LoopAt img into cell₀ cell copy) :
    StaysInside img cell₀
      (cellUnpackLoop img (some img.length) into cell₀ fuel cell copy) := by
  induction fuel generalizing cell copy with
  | zero => exact staysInside_error nofun
  | succ fuel ih =>
    obtain ⟨k, hk⟩ := hat.reached
    rcases lt_or_ge img.length cell with hbehind | hle
    · rw [loop_behind hbehind]
      exact staysInside_error nofun
    obtain ⟨hlt, hstarts⟩ := hroom.starts k cell hk hle
    rcases hshape : cellShape img into cell with - | ⟨d, s, len⟩ | ⟨v, len⟩
    · obtain ⟨e, heq, he⟩ := @loop_of_none img into cell₀ cell fuel copy hlt hshape
      rw [heq]
      exact staysInside_error (he hstarts)
    · obtain ⟨u, rfl, rfl, rfl, heq⟩ := loop_of_data cell₀ fuel copy hlt hshape
      obtain ⟨u', hd, hs, hlen, hdone⟩ := @done_eq img cell copy u
      rw [heq, hdone]
      split_ifs with hlong
      · exact staysInside_error nofun
      have hroom' := not_lt.mp hlong
      refine ⟨nofun, ?_⟩
      rintro _ ⟨⟩
      rw [hd, hs]
      cases copy with
      | none =>
        obtain rfl : cell = cell₀ := hat
        rw [hlen] at hroom' ⊢
        exact ⟨hroom', hroom.own _ _ _ hshape hroom'⟩
      | some cc =>
        obtain ⟨j, c, v, hj, hc, hcopy, rfl⟩ := hat
        rw [hlen] at hroom' ⊢
        exact (hroom.copied j c v cc.len _ _ _ hj hc hcopy hlt hshape hroom').symm
    · obtain ⟨cc, rfl, heq⟩ := loop_of_copy cell₀ fuel copy hlt hshape
      rw [heq]
      exact ih ⟨k, cell, v, hk, hlt, hshape, rfl⟩

end Loop

lemma reached_soon {k c : ℕ} (h : iter (nextCell img into) k cell = some c) :
    ∃ j ≤ img.length, iter (nextCell img into) j cell = some c := by
  obtain ⟨j, hj, heq⟩ := exists_iter_le_card (S := Finset.range img.length) (fun a b hab =>
    Finset.mem_range.mpr (nextCell_eq_some.mp hab).1) h
  exact ⟨j, by simpa using hj, heq⟩

/-- **Unpacking a cell with the end of the page given reads bytes of the page only and returns a
cell whose bytes and data are on the page, exactly if there is room on the page for the cell and for
what it is a copy of.** -/
theorem cellUnpackSafe_staysInside_iff (img : List UInt8) (into : UnpackInto) (cell : ℕ) :
    StaysInside img cell (cellUnpackSafe img (some img.length) into cell) ↔
      CellRoom img into cell := by
  constructor
  · intro hstays
    -- whatever copy cells lead to is reached with fuel for it and for one more cell
    have hwalk : ∀ k c, iter (nextCell img into) k cell = some c → ∃ fuel copy,
        cellUnpackSafe img (some img.length) into cell =
          cellUnpackLoop img (some img.length) into cell (fuel + 2) c copy := by
      intro k c hk
      obtain ⟨j, hj, hjc⟩ := reached_soon hk
      obtain ⟨copy, hcopy⟩ := @loop_walk img into cell cell j c hjc (img.length - j + 2) none
      refine ⟨img.length - j, copy, ?_⟩
      rw [← hcopy, show img.length - j + 2 + j = img.length + 2 by omega]
      rfl
    have hstarts : ∀ k c, iter (nextCell img into) k cell = some c → c ≤ img.length →
        c < img.length ∧ CellStarts img into c := by
      intro k c hk hle
      obtain ⟨fuel, copy, heq⟩ := hwalk k c hk
      rw [heq] at hstays
      have hlt : c < img.length := by
        rcases lt_or_ge c img.length with hlt | hge
        · exact hlt
        · exact absurd (loop_end (by omega)) hstays.reads
      refine ⟨hlt, ?_⟩
      by_contra hno
      exact hstays.reads (loop_leaves hlt hno)
    refine ⟨hstarts, fun d s len hshape hlen => ?_,
      fun k c v len d s len' hk hc hcopy ht hdata hlen => ?_⟩
    · have hlt := (hstarts 0 cell rfl (by omega)).1
      obtain ⟨u, rfl, rfl, rfl, hu⟩ := loop_of_data cell (img.length + 1) none hlt hshape
      obtain ⟨u', hd, hs, hl, hdone⟩ := @done_eq img cell none u
      rw [cellUnpackSafe, hu, hdone, if_neg (by rw [hl]; exact not_lt.mpr hlen)] at hstays
      have hright := (hstays.returns u' rfl).2
      rwa [hd, hs] at hright
    · obtain ⟨fuel, copy, heq⟩ := hwalk k c hk
      obtain ⟨cc, rfl, hcc⟩ := loop_of_copy cell (fuel + 1) copy hc hcopy
      obtain ⟨u, rfl, rfl, rfl, hu⟩ := loop_of_data cell fuel (some cc) ht hdata
      obtain ⟨u', hd, hs, hl, hdone⟩ := @done_eq img (copyTarget c v) (some cc) u
      rw [heq, hcc, hu, hdone, if_neg (by rw [hl]; exact not_lt.mpr hlen)] at hstays
      obtain ⟨hleft, hright⟩ := hstays.returns u' rfl
      rw [hd, hs] at hright
      rw [hl] at hleft
      exact ⟨hright, hleft⟩
  · intro hroom
    exact @CellRoom.loop img into cell cell _ none hroom rfl

/-- A value cell of which the page has the descriptor byte only: its length is read behind the end.
And a copy of a short value whose five bytes are not on the page: it is returned. -/
theorem cell_unpack_leaves_page :
    cellUnpackSafe [0x80] (some 1) .value 0 = .error (.read .fault) ∧
      ∃ u, cellUnpackSafe [0x17, 0x90, 0x81] (some 3) .value 1 = .ok u ∧
        u.data = 1 ∧ u.size = 5 :=
  ⟨rfl, _, rfl, rfl, rfl⟩

end WiredTiger
