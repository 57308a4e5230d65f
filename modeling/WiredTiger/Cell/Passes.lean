/-
# A pass of unpacking over one cell

The descriptor byte tells the type of the cell and what follows it.  From what is read in front of
the length, one pass of `__wt_cell_unpack_safe` comes to the data of the cell, or to how far back
the cell is that this one is a copy of.
-/
import WiredTiger.Cell.Validity

namespace WiredTiger

open Lib Option Except TimeAggregate

variable {img : List UInt8} {pageEnd : Option ℕ} {p : ℕ} {raw : CellType} {desc : UInt8}
  {bs : List UInt8} {hdr : CellHeader}
variable {ta : TimeAggregate} {v64 : Bool}

/-! ### Descriptor bytes -/

def CellType.isShort : CellType → Bool
  | .keyShort | .keyShortPfx | .valueShort => true
  | _ => false

/-- The descriptor byte of a cell that is not short. -/
def longDesc (second v64 : Bool) (raw : CellType) : UInt8 :=
  (if second then cellSecondDesc else 0) ||| (if v64 then raw.code ||| cell64V else raw.code)

lemma longDesc_read (raw : CellType) (h : raw.isShort = false) : ∀ second v64 : Bool,
    cellTypeRaw (longDesc second v64 raw) = some raw ∧
    (longDesc second v64 raw &&& cellSecondDesc = 0 ↔ second = false) ∧
    (longDesc second v64 raw &&& cell64V ≠ 0 ↔ v64 = true) := by
  cases raw <;> revert h <;> decide

lemma shortDesc_read (raw : CellType) (h : raw.isShort = true) : ∀ size < 64,
    cellTypeRaw (shortDesc size raw) = some raw ∧
      (shortDesc size raw >>> cellShortShift).toNat = size := by
  cases raw <;> revert h <;> decide

/-! ### In front of the length -/

lemma cellLenChk_ok {t len : ℕ} (h : ∀ e ∈ pageEnd, t + len ≤ e) :
    cellLenChk pageEnd t len = .ok () := by
  cases pageEnd with
  | none => rfl
  | some e => exact if_neg (not_lt.mpr (h e rfl))

lemma readValidity_value (hraw : raw.hasValueValidity = true) {tw : TimeWindow}
    (htw : tw.Ok) (hdesc : desc &&& cellSecondDesc = 0 ↔ (!tw.isEmpty) = false)
    (h : Here img pageEnd p tw.cellBytes) :
    readValidity img pageEnd .value (some raw) desc p =
      .ok ((.init, tw), p + tw.cellBytes.length) := by
  have haddr : raw.hasAddrValidity = false := by
    cases raw <;> revert hraw <;> decide
  unfold readValidity
  rw [any_some, any_some, haddr, hraw, if_neg Bool.false_ne_true, if_pos rfl,
    if_neg (not_not.mpr rfl)]
  cases hempty : tw.isEmpty with
  | true =>
    rw [if_pos (hdesc.mpr (by rw [hempty]; rfl))]
    obtain rfl : tw = .init := of_decide_eq_true hempty
    rfl
  | false =>
    rw [if_neg (fun h => by simpa [hempty] using hdesc.mp h)]
    exact reader_bind_ok (readValueValidity_ok htw hempty h)

/-- An aggregate that is accepted and empty is the default one. -/
lemma TimeAggregate.Ok.eq_init (hta : ta.Ok) (h : ta.isEmpty = true) :
    { ta with initMerge := false } = init := by
  obtain ⟨parent, hparent⟩ := hta.accepted
  have hle := (timeAggregateValidate_ok.mp hparent).1.1
  unfold isEmpty at h
  split_ifs at h with hmerge
  · obtain rfl : ta = .mergeInit := of_decide_eq_true h
    exact absurd hle (by decide)
  · obtain rfl : ta = .init := of_decide_eq_true h
    rfl

lemma readValidity_addr (hraw : raw.hasAddrValidity = true) (hta : ta.Ok)
    (hdesc : desc &&& cellSecondDesc = 0 ↔ (!ta.isEmpty) = false)
    (h : Here img pageEnd p ta.cellBytes) :
    readValidity img pageEnd .addr (some raw) desc p =
      .ok (({ ta with initMerge := false }, .init), p + ta.cellBytes.length) := by
  unfold readValidity
  rw [any_some, hraw, if_pos rfl, if_neg (not_not.mpr rfl)]
  cases hempty : ta.isEmpty with
  | true =>
    rw [if_pos (hdesc.mpr (by rw [hempty]; rfl)), hta.eq_init hempty]
    have hbytes : ta.cellBytes = [] := by
      rw [cellBytes, cellPackAddrValidity, hempty]
      rfl
    rw [hbytes]
    rfl
  | false =>
    rw [if_neg (fun h => by simpa [hempty] using hdesc.mp h)]
    exact reader_bind_ok (readAddrValidity_ok hta.toFits hempty h)

lemma readValidity_key (haddr : raw.hasAddrValidity = false)
    (hvalue : raw.hasValueValidity = false) (into : UnpackInto) (desc : UInt8) :
    readValidity img pageEnd into (some raw) desc p = .ok ((.init, .init), p) := by
  unfold readValidity
  rw [any_some, any_some, haddr, hvalue, if_neg Bool.false_ne_true,
    if_neg Bool.false_ne_true]
  rfl

lemma readHeader_ok {into : UnpackInto} {desc pfx : UInt8} {p₁ p₂ n : ℕ} {tw : TimeWindow}
    (hpfx : readPfx img pageEnd (some raw) p = .ok (pfx, p₁))
    (hwin : readValidity img pageEnd into (some raw) desc p₁ = .ok ((ta, tw), p₂))
    (hdesc : desc &&& cell64V ≠ 0 ↔ v64 = true) (hn : n < 2 ^ 64)
    (h : Here img pageEnd p₂ (CellField.bytes ⟨v64, cell64V, n⟩)) :
    readHeader img pageEnd into (some raw) desc p = .ok (⟨pfx, ta, tw, if v64 then n else 0⟩,
      p₂ + (CellField.bytes ⟨v64, cell64V, n⟩).length) := by
  refine (reader_bind_ok hpfx).trans ?_
  refine (reader_bind_ok hwin).trans ?_
  have hv : readField img pageEnd desc cell64V 0 p₂ = .ok (if v64 then n else 0, _) :=
    readField_ok (f := ⟨v64, cell64V, n⟩) hdesc hn h
      (fun hp => (if_neg (by simp [show v64 = false from hp])).symm) fun hp => (if_pos hp).symm
  exact reader_bind_ok hv

lemma readPfx_of_ne {raw : Option CellType} (h : raw ≠ some .keyPfx) :
    readPfx img pageEnd raw p = .ok (0, p) := by
  unfold readPfx
  rw [if_neg h]
  rfl

lemma readPfx_keyPfx {pfx : UInt8} (h : Here img pageEnd p (pfx :: bs)) :
    readPfx img pageEnd (some .keyPfx) p = .ok (pfx, p + 1) := by
  unfold readPfx
  rw [if_pos rfl]
  refine (reader_bind_ok (readByte_ok h)).trans ?_
  have hchk : cellLenChk pageEnd (p + 1) 0 = .ok () := by
    refine cellLenChk_ok fun e he => ?_
    have := h.room e he
    rw [List.length_cons] at this
    omega
  have hget : (get : CellReader ℕ) (p + 1) = .ok (p + 1, p + 1) := rfl
  have hlift : (liftM (cellLenChk pageEnd (p + 1) 0) : CellReader Unit) (p + 1) =
      .ok ((), p + 1) := by
    rw [hchk]
    rfl
  exact (reader_bind_ok hget).trans (reader_bind_ok hlift)

/-! ### One pass of the loop -/

section Pass

variable {into : UnpackInto} {cell₀ fuel cell : ℕ} {copy : Option CopyCell}

lemma Here.lenChk_zero (h : Here img pageEnd cell bs) :
    cellLenChk pageEnd cell 0 = .ok () :=
  cellLenChk_ok fun e he => (Nat.le_add_right _ _).trans (h.room e he)

/-- The loop takes a pass that comes to data. -/
lemma loop_data {u : CellUnpack}
    (h : Here img pageEnd cell (desc :: bs))
    (hpass : unpackPass img pageEnd into cell₀ cell desc (cellTypeRaw desc) = .ok (.data u)) :
    cellUnpackLoop img pageEnd into cell₀ (fuel + 1) cell copy =
      cellUnpackDone pageEnd cell copy u := by
  rw [cellUnpackLoop, h.lenChk_zero, h.head]
  show (unpackPass img pageEnd into cell₀ cell desc (cellTypeRaw desc) >>= _) = _
  rw [hpass]
  rfl

/-- The loop takes a pass over a copy cell. -/
lemma loop_copy {v : ℕ} {c : CopyCell}
    (h : Here img pageEnd cell (desc :: bs))
    (hpass : unpackPass img pageEnd into cell₀ cell desc (cellTypeRaw desc) = .ok (.copy v c))
    (hv : v ≤ cell) :
    cellUnpackLoop img pageEnd into cell₀ (fuel + 1) cell none =
      cellUnpackLoop img pageEnd into cell₀ fuel (cell - v) (some c) := by
  rw [cellUnpackLoop, h.lenChk_zero, h.head]
  show (unpackPass img pageEnd into cell₀ cell desc (cellTypeRaw desc) >>= _) = _
  rw [hpass, ← show copyTarget cell v = cell - v from if_pos hv]
  rfl

lemma pass_short {size : ℕ} (hraw : raw = .keyShort ∨ raw = .valueShort)
    (hsize : size < 64) :
    unpackPass img pageEnd into cell₀ cell (shortDesc size raw)
        (cellTypeRaw (shortDesc size raw)) =
      .ok (.data ⟨cell₀, 0, cell + 1, size, 1 + size, 0, raw, raw.collapse, false, .init,
        .init⟩) := by
  obtain ⟨htype, hlen⟩ :=
    shortDesc_read raw (by rcases hraw with rfl | rfl <;> rfl) size hsize
  rw [htype]
  rcases hraw with rfl | rfl
  · show ok (CellPass.data (shortCell cell₀ cell 0 _ 0 _)) = _
    rw [shortCell, hlen]
  · show ok (CellPass.data (shortCell cell₀ cell 0 _ 0 _)) = _
    rw [shortCell, hlen]

lemma pass_keyShortPfx {size : ℕ} {pfx : UInt8} (hsize : size < 64)
    (h : Here img pageEnd cell [shortDesc size .keyShortPfx, pfx]) :
    unpackPass img pageEnd into cell₀ cell (shortDesc size .keyShortPfx)
        (cellTypeRaw (shortDesc size .keyShortPfx)) =
      .ok (.data ⟨cell₀, 0, cell + 2, size, 2 + size, pfx, .keyShortPfx, .key, false, .init,
        .init⟩) := by
  obtain ⟨htype, hlen⟩ := shortDesc_read .keyShortPfx rfl size hsize
  have hchk : cellLenChk pageEnd cell 1 = .ok () :=
    cellLenChk_ok fun e he => (Nat.add_le_add_left (by simp) cell).trans (h.room e he)
  rw [htype]
  unfold unpackPass
  rw [hchk, h.tail.head]
  show ok (CellPass.data (shortCell cell₀ cell 1 _ pfx _)) = _
  rw [shortCell, hlen]
  rfl

/-- A pass over a cell that is not short reads its header first. -/
lemma unpackPass_long
    (hraw : raw.isShort = false)
    (hhdr : readHeader img pageEnd into (some raw) desc (cell + 1) = .ok (hdr, p)) :
    unpackPass img pageEnd into cell₀ cell desc (some raw) =
      unpackLong img pageEnd cell₀ cell desc hdr p (some raw) := by
  have heq : unpackPass img pageEnd into cell₀ cell desc (some raw) =
      readHeader img pageEnd into (some raw) desc (cell + 1) >>= fun hp =>
        unpackLong img pageEnd cell₀ cell desc hp.1 hp.2 (some raw) := by
    cases raw <;> first | rfl | cases hraw
  rw [heq, hhdr]
  rfl

/-- What is unpacked of a cell that is not short, with its length in front of `p`. -/
def longCell (cell₀ cell p size : ℕ) (hdr : CellHeader) (raw : CellType) : CellUnpack :=
  ⟨cell₀, hdr.v, p, size % 2 ^ 32, (p - cell + size % 2 ^ 32) % 2 ^ 32, hdr.pfx, raw, raw.collapse,
    raw.isOvfl, hdr.ta, hdr.tw⟩

/-- A cell that is not short, from its header and length. -/
lemma pass_long {s : Bool} {n : ℕ} (hraw : raw.isShort = false) (hcopy : raw ≠ .valueCopy)
    (hdel : raw ≠ .del)
    (hhdr : readHeader img pageEnd into (some raw) (longDesc s v64 raw) (cell + 1) = .ok (hdr, p))
    (hn : n < 2 ^ 64) (hp : Here img pageEnd p (packUint n)) :
    unpackPass img pageEnd into cell₀ cell (longDesc s v64 raw)
        (cellTypeRaw (longDesc s v64 raw)) =
      .ok (.data (longCell cell₀ cell (p + (packUint n).length)
        (if sizeAdjusted raw (longDesc s v64 raw) hdr.v then add64 n cellSizeAdjust else n)
        hdr raw)) := by
  have heq : unpackLong img pageEnd cell₀ cell (longDesc s v64 raw) hdr p (some raw) =
      readUint img pageEnd p >>= fun vp => .ok (.data (longCell cell₀ cell vp.2
        (if sizeAdjusted raw (longDesc s v64 raw) hdr.v then add64 vp.1 cellSizeAdjust else vp.1)
        hdr raw)) := by
    cases raw <;> first | rfl | exact absurd rfl hcopy | exact absurd rfl hdel
  rw [(longDesc_read raw hraw s v64).1, unpackPass_long hraw hhdr, heq, readUint_ok hn hp]
  rfl

lemma pass_del {s : Bool}
    (hhdr : readHeader img pageEnd into (some .del) (longDesc s v64 .del) (cell + 1) =
      .ok (hdr, p)) :
    unpackPass img pageEnd into cell₀ cell (longDesc s v64 .del)
        (cellTypeRaw (longDesc s v64 .del)) =
      .ok (.data ⟨cell₀, hdr.v, 0, 0, (p - cell) % 2 ^ 32, hdr.pfx, .del, .del, false, hdr.ta,
        hdr.tw⟩) := by
  rw [(longDesc_read _ rfl s v64).1, unpackPass_long rfl hhdr]
  rfl

lemma pass_copy {s : Bool} {n : ℕ}
    (hhdr : readHeader img pageEnd into (some .valueCopy) (longDesc s v64 .valueCopy) (cell + 1) =
      .ok (hdr, p)) (hn : n < 2 ^ 64) (hp : Here img pageEnd p (packUint n)) :
    unpackPass img pageEnd into cell₀ cell (longDesc s v64 .valueCopy)
        (cellTypeRaw (longDesc s v64 .valueCopy)) =
      .ok (.copy n ⟨hdr.v, (p + (packUint n).length - cell) % 2 ^ 32, hdr.tw⟩) := by
  rw [(longDesc_read _ rfl s v64).1, unpackPass_long rfl hhdr, unpackLong, readUint_ok hn hp]
  rfl

end Pass

end WiredTiger
