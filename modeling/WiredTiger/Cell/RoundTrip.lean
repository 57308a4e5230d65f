/-
# Cells are read back as they were packed

Every kind of cell, packed and put somewhere on a page, is unpacked to what was packed.  A copy cell
is unpacked to the data of the cell it leads to, with its own window, count and length.
-/
import WiredTiger.Cell.Passes

namespace WiredTiger

open Lib List Nat Option CellField

variable {img : List UInt8} {pageEnd : Option ℕ} {p : ℕ}

/-! ### How cells are packed -/

lemma cellPackValueValidity_eq (tw : TimeWindow) :
    cellPackValueValidity tw = (if !tw.isEmpty then cellSecondDesc else 0, tw.cellBytes) := by
  unfold TimeWindow.cellBytes cellPackValueValidity packValidity
  cases tw.isEmpty <;> rfl

lemma cellPackAddrValidity_eq (ta : TimeAggregate) :
    cellPackAddrValidity ta = (if !ta.isEmpty then cellSecondDesc else 0, ta.cellBytes) := by
  unfold TimeAggregate.cellBytes cellPackAddrValidity packValidity
  cases ta.isEmpty <;> rfl

/-- The number behind the window. -/
def numBytes (v64 : Bool) (n : ℕ) : List UInt8 := bytes ⟨v64, cell64V, n⟩

lemma numBytes_false (n : ℕ) : numBytes false n = [] := rfl

lemma cellPackValue_long {tw : TimeWindow} {rle size : ℕ} (hrle : rle < 2)
    (htw : tw.isEmpty = true) (hsize : ¬size ≤ cellShortMax) :
    cellPackValue tw rle size =
      longDesc (!tw.isEmpty) false .value :: ((tw.cellBytes ++ numBytes false rle) ++
        packUint (size - cellSizeAdjust)) := by
  unfold cellPackValue
  rw [cellPackValueValidity_eq, htw]
  dsimp only
  rw [if_neg (fun h => hsize h.2.2), if_pos ⟨by decide, hrle⟩, append_assoc]
  rfl

lemma cellPackValue_window {tw : TimeWindow} {rle size : ℕ} (h : ¬(tw.isEmpty = true ∧ rle < 2)) :
    cellPackValue tw rle size =
      longDesc (!tw.isEmpty) true .value :: ((tw.cellBytes ++ numBytes true rle) ++
        packUint size) := by
  have hval : ¬(¬(if !tw.isEmpty then cellSecondDesc else 0) &&& cellSecondDesc ≠ 0 ∧ rle < 2) := by
    rintro ⟨hv, hrle⟩
    refine h ⟨?_, hrle⟩
    cases hempty : tw.isEmpty with
    | true => rfl
    | false =>
      rw [hempty] at hv
      exact absurd (by decide) hv
  unfold cellPackValue
  rw [cellPackValueValidity_eq]
  dsimp only
  rw [if_neg (fun h => hval ⟨h.1, h.2.1⟩), if_neg hval]
  rfl

/-! ### Headers of packed cells -/

section Header

variable {cell n : ℕ} {raw : CellType} {v64 : Bool} {tail : List UInt8}

lemma header_value (hraw : raw.hasValueValidity = true) {tw : TimeWindow} (htw : tw.Ok)
    (hn : n < 2 ^ 64)
    (h : Here img pageEnd cell (longDesc (!tw.isEmpty) v64 raw ::
      ((tw.cellBytes ++ numBytes v64 n) ++ tail))) :
    readHeader img pageEnd .value (some raw) (longDesc (!tw.isEmpty) v64 raw) (cell + 1) =
      .ok (⟨0, .init, tw, if v64 then n else 0⟩,
        cell + 1 + (tw.cellBytes ++ numBytes v64 n).length) := by
  have hshort : raw.isShort = false := by cases raw <;> revert hraw <;> decide
  have hpfx : raw ≠ .keyPfx := by
    rintro rfl
    cases hraw
  obtain ⟨-, hsecond, h64⟩ := longDesc_read raw hshort (!tw.isEmpty) v64
  rw [length_append, ← add_assoc]
  exact readHeader_ok (readPfx_of_ne (mt some.inj hpfx))
    (readValidity_value hraw htw hsecond h.tail.left.left) h64 hn h.tail.left.right

lemma header_addr (hraw : raw.hasAddrValidity = true) {ta : TimeAggregate} (hta : ta.Ok)
    (hn : n < 2 ^ 64)
    (h : Here img pageEnd cell (longDesc (!ta.isEmpty) v64 raw ::
      ((ta.cellBytes ++ numBytes v64 n) ++ tail))) :
    readHeader img pageEnd .addr (some raw) (longDesc (!ta.isEmpty) v64 raw) (cell + 1) =
      .ok (⟨0, { ta with initMerge := false }, .init, if v64 then n else 0⟩,
        cell + 1 + (ta.cellBytes ++ numBytes v64 n).length) := by
  have hshort : raw.isShort = false := by cases raw <;> revert hraw <;> decide
  have hpfx : raw ≠ .keyPfx := by
    rintro rfl
    cases hraw
  obtain ⟨-, hsecond, h64⟩ := longDesc_read raw hshort (!ta.isEmpty) v64
  rw [length_append, ← add_assoc]
  exact readHeader_ok (readPfx_of_ne (mt some.inj hpfx))
    (readValidity_addr hraw hta hsecond h.tail.left.left) h64 hn h.tail.left.right

lemma header_key (hraw : raw = .key ∨ raw = .keyOvfl ∨ raw = .keyOvflRm) (into : UnpackInto)
    (hn : n < 2 ^ 64)
    (h : Here img pageEnd cell (longDesc false v64 raw :: (numBytes v64 n ++ tail))) :
    readHeader img pageEnd into (some raw) (longDesc false v64 raw) (cell + 1) =
      .ok (⟨0, .init, .init, if v64 then n else 0⟩, cell + 1 + (numBytes v64 n).length) := by
  have hkey : raw.isShort = false ∧ raw ≠ .keyPfx ∧ raw.hasAddrValidity = false ∧
      raw.hasValueValidity = false := by
    rcases hraw with rfl | rfl | rfl <;> decide
  obtain ⟨-, -, h64⟩ := longDesc_read raw hkey.1 false v64
  exact readHeader_ok (readPfx_of_ne (mt some.inj hkey.2.1))
    (readValidity_key hkey.2.2.1 hkey.2.2.2 into _) h64 hn h.tail.left

lemma header_keyPfx {pfx : UInt8} (into : UnpackInto)
    (h : Here img pageEnd cell (longDesc false false .keyPfx :: pfx :: tail)) :
    readHeader img pageEnd into (some .keyPfx) (longDesc false false .keyPfx) (cell + 1) =
      .ok (⟨pfx, .init, .init, 0⟩, cell + 1 + 1) := by
  obtain ⟨-, -, h64⟩ := longDesc_read .keyPfx rfl false false
  have hnone : Here img pageEnd (cell + 1 + 1) (bytes ⟨false, cell64V, 0⟩) :=
    @Here.left img pageEnd (cell + 1 + 1) [] tail h.tail.tail
  exact readHeader_ok (readPfx_keyPfx h.tail) (readValidity_key rfl rfl into _) h64 (by decide)
    hnone

end Header

/-! ### The cells -/

/-- A cell that is no copy, with what it is packed from. -/
inductive CellItem
  | value (tw : TimeWindow) (rle size : ℕ)
  | del (tw : TimeWindow) (rle : ℕ)
  | intKey (size : ℕ)
  | leafKey (pfx : UInt8) (size : ℕ)
  | ovfl (type : OvflType) (tw : TimeWindow) (rle size : ℕ)
  | addr (type : AddrType) (recno : ℕ) (ta : TimeAggregate) (size : ℕ)

variable {c : CellItem}

namespace CellItem

def pack : CellItem → List UInt8
  | value tw rle size => cellPackValue tw rle size
  | del tw rle => cellPackDel tw rle
  | intKey size => cellPackIntKey size
  | leafKey pfx size => cellPackLeafKey pfx size
  | ovfl type tw rle size => cellPackOvfl type tw rle size
  | addr type recno ta size => cellPackAddr type recno ta size

/-- The type of the cell, with short types and removed ones collapsed. -/
def type : CellItem → CellType
  | value .. => .value
  | del .. => .del
  | intKey .. | leafKey .. => .key
  | ovfl type .. => type.toCellType.collapse
  | addr type .. => type.toCellType

def pfx : CellItem → UInt8
  | leafKey pfx _ => pfx
  | _ => 0

/-- The size of the data. -/
def size : CellItem → ℕ
  | value _ _ size | intKey size | leafKey _ size | ovfl _ _ _ size | addr _ _ _ size => size
  | del .. => 0

/-- The data is behind the cell; a deleted value has none. -/
def dataAt (c : CellItem) (cell : ℕ) : ℕ :=
  match c with
  | del .. => 0
  | _ => cell + c.pack.length

/-- The count of a value, which is at least one, or the record number of an address. -/
def count : CellItem → ℕ
  | value _ rle _ | del _ rle | ovfl _ _ rle _ => if rle < 2 then 1 else rle
  | intKey .. | leafKey .. => 1
  | addr _ recno _ _ => recno

/-- How the count of an unpacked cell is asked for. -/
def countOf (c : CellItem) (u : CellUnpack) : ℕ :=
  match c with
  | addr .. => u.v
  | _ => u.rle

def tw : CellItem → TimeWindow
  | value tw _ _ | del tw _ | ovfl .value tw _ _ | ovfl .valueRm tw _ _ => tw
  | _ => .init

/-- The aggregate; that it was made for a merge is not written. -/
def ta : CellItem → TimeAggregate
  | addr _ _ ta _ => { ta with initMerge := false }
  | _ => .init

/-- Addresses are unpacked as such, values are unpacked as values, and keys as either. -/
def unpacksInto : CellItem → UnpackInto → Bool
  | value .., into | del .., into | ovfl .value .., into | ovfl .valueRm .., into => into = .value
  | addr .., into => into = .addr
  | _, _ => true

/-- The arguments are 64-bit numbers, and the window or the aggregate is accepted. -/
def Ok : CellItem → Prop
  | value tw rle size => tw.Ok ∧ rle < 2 ^ 64 ∧ size < 2 ^ 64
  | del tw rle => tw.Ok ∧ rle < 2 ^ 64
  | intKey size | leafKey _ size => size < 2 ^ 64
  | ovfl type tw rle size =>
    (type = .value ∨ type = .valueRm → tw.Ok) ∧ rle < 2 ^ 64 ∧ size < 2 ^ 64
  | addr _ recno ta size => ta.Ok ∧ recno < 2 ^ 64 ∧ size < 2 ^ 64

/-- What is unpacked is what was packed. -/
structure Unpacks (c : CellItem) (cell : ℕ) (u : CellUnpack) : Prop where
  type : u.type = c.type
  pfx : u.pfx = c.pfx
  size : u.size = c.size
  data : u.data = c.dataAt cell
  count : c.countOf u = c.count
  tw : u.tw = c.tw
  ta : u.ta = c.ta
  len : u.len = c.pack.length + c.size

/-! ### A pass over each kind of cell -/

section Items

variable {cell₀ cell : ℕ} {into : UnpackInto} {tw : TimeWindow} {rle size : ℕ} {type : OvflType}

/-- A pass over the cell comes to what was packed. -/
def Passes (img : List UInt8) (pageEnd : Option ℕ) (into : UnpackInto) (cell₀ cell : ℕ)
    (c : CellItem) : Prop :=
  ∃ desc bs u, c.pack = desc :: bs ∧
    unpackPass img pageEnd into cell₀ cell desc (cellTypeRaw desc) = .ok (.data u) ∧
    u.cell = cell₀ ∧ c.Unpacks cell u

/-- A cell with its length behind its header. -/
lemma passes_of_long {raw : CellType} {second v64 : Bool} {mid : List UInt8} {n : ℕ}
    {hdr : CellHeader} (hpack : c.pack = longDesc second v64 raw :: (mid ++ packUint n))
    (hraw : raw.isShort = false) (hcopy : raw ≠ .valueCopy) (hdel : raw ≠ .del)
    (h : Here img pageEnd cell c.pack)
    (hhdr : readHeader img pageEnd into (some raw) (longDesc second v64 raw) (cell + 1) =
      .ok (hdr, cell + 1 + mid.length)) (hn : n < 2 ^ 64)
    (hsize : (if sizeAdjusted raw (longDesc second v64 raw) hdr.v then add64 n cellSizeAdjust
      else n) = c.size) (hsmall : c.pack.length + c.size < 2 ^ 32) (htype : raw.collapse = c.type)
    (hpfx : hdr.pfx = c.pfx) (hdata : c.dataAt cell = cell + c.pack.length)
    (hcount : ∀ u : CellUnpack, u.v = hdr.v → c.countOf u = c.count) (htw : hdr.tw = c.tw)
    (hta : hdr.ta = c.ta) : c.Passes img pageEnd into cell₀ cell := by
  have hlen : cell + 1 + mid.length + (packUint n).length = cell + c.pack.length := by
    rw [hpack, length_cons, length_append]
    omega
  have hlong : longCell cell₀ cell (cell + c.pack.length) c.size hdr raw =
      ⟨cell₀, hdr.v, cell + c.pack.length, c.size, c.pack.length + c.size, hdr.pfx, raw,
        raw.collapse, raw.isOvfl, hdr.ta, hdr.tw⟩ := by
    unfold longCell
    rw [Nat.mod_eq_of_lt (show c.size < 2 ^ 32 by omega), Nat.add_sub_cancel_left,
      Nat.mod_eq_of_lt hsmall]
  have hbytes : Here img pageEnd (cell + 1 + mid.length) (packUint n) := by
    rw [hpack] at h
    exact h.tail.right
  refine ⟨_, _, _, hpack, pass_long hraw hcopy hdel hhdr hn hbytes, ?_⟩
  rw [hlen, hsize, hlong]
  exact ⟨rfl, htype, hpfx, rfl, hdata.symm, hcount _ rfl, htw, hta, rfl⟩

lemma cellPackValue_short (hrle : rle < 2)
    (htw : tw.isEmpty = true) (hsize : size ≤ cellShortMax) :
    cellPackValue tw rle size = [shortDesc size .valueShort] := by
  unfold cellPackValue
  rw [cellPackValueValidity_eq, htw]
  dsimp only
  rw [if_pos ⟨by decide, hrle, hsize⟩]

lemma add64_adjust {size : ℕ} (hsize : size < 2 ^ 64) (h : ¬size ≤ cellShortMax) :
    add64 (size - cellSizeAdjust) cellSizeAdjust = size := by
  unfold add64 cellSizeAdjust cellShortMax at *
  omega

lemma passes_value (hc : (value tw rle size).Ok)
    (hsmall : (value tw rle size).pack.length + size < 2 ^ 32)
    (h : Here img pageEnd cell (value tw rle size).pack) :
    (value tw rle size).Passes img pageEnd .value cell₀ cell := by
  obtain ⟨htw, hrle, hsize⟩ := hc
  by_cases hno : tw.isEmpty = true ∧ rle < 2
  · obtain ⟨hempty, hrle2⟩ := hno
    by_cases hshort : size ≤ cellShortMax
    · have hpack : (value tw rle size).pack = [shortDesc size .valueShort] :=
        cellPackValue_short hrle2 hempty hshort
      refine ⟨_, _, _, hpack, pass_short (.inr rfl) (lt_succ_of_le hshort), rfl, ?_⟩
      refine ⟨rfl, rfl, rfl, ?_, (if_pos hrle2).symm, (of_decide_eq_true hempty).symm, rfl, ?_⟩
      · simp [dataAt, hpack]
      · simp [hpack, CellItem.size]
    · have hpack : (value tw rle size).pack = _ := cellPackValue_long hrle2 hempty hshort
      refine passes_of_long hpack rfl (by decide) (by decide) h
        (header_value rfl htw hrle (hpack ▸ h)) (by omega) ?_ hsmall rfl rfl rfl
        (fun u hu => ?_) rfl rfl
      · -- the size is what prevented a short cell
        rw [hempty]
        exact add64_adjust hsize hshort
      · show u.rle = if rle < 2 then 1 else rle
        rw [CellUnpack.rle, hu, if_pos hrle2]
        rfl
  · have hpack : (value tw rle size).pack = _ := cellPackValue_window hno
    refine passes_of_long hpack rfl (by decide) (by decide) h
      (header_value rfl htw hrle (hpack ▸ h)) hsize ?_ hsmall rfl rfl rfl
      (fun u hu => ?_) rfl rfl
    · -- the size is written as it is, with a window or a count
      refine if_neg fun hadj => ?_
      rcases of_decide_eq_true hadj with hk | hk | ⟨-, hv, hsecond⟩
      · cases hk
      · cases hk
      · have hv : rle = 0 := hv
        have hempty := (longDesc_read .value rfl (!tw.isEmpty) true).2.1.mp hsecond
        exact hno ⟨by simpa using hempty, by omega⟩
    · show u.rle = if rle < 2 then 1 else rle
      rw [CellUnpack.rle, hu]
      rfl

/-- The number that is written if it is not a default, and its count. -/
lemma rle_of_v {u : CellUnpack} {rle : ℕ} (hu : u.v = if decide (2 ≤ rle) then rle else 0) :
    u.rle = if rle < 2 then 1 else rle := by
  rw [CellUnpack.rle, hu]
  by_cases hrle : rle < 2
  · rw [decide_eq_false (not_le.mpr hrle), if_pos hrle]
    rfl
  · rw [decide_eq_true (not_lt.mp hrle), if_pos rfl]

lemma cellPackDel_eq (tw : TimeWindow) (rle : ℕ) :
    cellPackDel tw rle = longDesc (!tw.isEmpty) (decide (2 ≤ rle)) .del ::
      (tw.cellBytes ++ numBytes (decide (2 ≤ rle)) rle) := by
  unfold cellPackDel
  rw [cellPackValueValidity_eq]
  by_cases hrle : rle < 2
  · rw [decide_eq_false (not_le.mpr hrle), numBytes_false, append_nil]
    exact if_pos hrle
  · rw [decide_eq_true (not_lt.mp hrle)]
    exact if_neg hrle

lemma passes_del {rle : ℕ} (hc : (del tw rle).Ok)
    (hsmall : (del tw rle).pack.length < 2 ^ 32) (h : Here img pageEnd cell (del tw rle).pack) :
    (del tw rle).Passes img pageEnd .value cell₀ cell := by
  obtain ⟨htw, hrle⟩ := hc
  have hpack : (del tw rle).pack = _ := cellPackDel_eq tw rle
  have hhdr : readHeader img pageEnd .value (some .del)
      (longDesc (!tw.isEmpty) (decide (2 ≤ rle)) .del) (cell + 1) = _ :=
    header_value rfl htw hrle (by rwa [append_nil, ← hpack])
  refine ⟨_, _, _, hpack, pass_del hhdr, rfl, rfl, rfl, rfl, rfl, ?_, rfl, rfl, ?_⟩
  · exact rle_of_v rfl
  · have hlen : cell + 1 + (tw.cellBytes ++ numBytes (decide (2 ≤ rle)) rle).length - cell =
        (del tw rle).pack.length := by
      rw [hpack, length_cons]
      omega
    show _ % 2 ^ 32 = (del tw rle).pack.length + 0
    rw [hlen, mod_eq_of_lt hsmall, add_zero]

/-- A key of a leaf page; that of an internal page is packed as one without a prefix. -/
lemma passes_key (hpack : c.pack = cellPackLeafKey c.pfx c.size) (hsize : c.size < 2 ^ 64)
    (hsmall : c.pack.length + c.size < 2 ^ 32) (h : Here img pageEnd cell c.pack)
    (htype : .key = c.type) (hdata : c.dataAt cell = cell + c.pack.length)
    (hcount : ∀ u : CellUnpack, u.v = 0 → c.countOf u = c.count) (htw : .init = c.tw)
    (hta : .init = c.ta) : c.Passes img pageEnd into cell₀ cell := by
  unfold cellPackLeafKey at hpack
  by_cases hshort : c.size ≤ cellShortMax
  · rw [if_pos hshort] at hpack
    have hlt : c.size < 64 := lt_succ_of_le hshort
    by_cases hpfx : c.pfx = 0
    · rw [if_pos hpfx] at hpack
      refine ⟨_, _, _, hpack, pass_short (.inl rfl) hlt, rfl, ?_⟩
      refine ⟨htype, hpfx.symm, rfl, ?_, hcount _ rfl, htw, hta, ?_⟩
      · rw [hdata, hpack]
        rfl
      · rw [hpack]
        rfl
    · rw [if_neg hpfx] at hpack
      refine ⟨_, _, _, hpack, pass_keyShortPfx hlt (hpack ▸ h), rfl, ?_⟩
      refine ⟨htype, rfl, rfl, ?_, hcount _ rfl, htw, hta, ?_⟩
      · rw [hdata, hpack]
        rfl
      · rw [hpack]
        rfl
  · rw [if_neg hshort] at hpack
    have hadj := add64_adjust hsize hshort
    by_cases hpfx : c.pfx = 0
    · rw [if_pos hpfx] at hpack
      have hpack' : c.pack =
          longDesc false false .key :: ([] ++ packUint (c.size - cellSizeAdjust)) :=
        hpack
      have hhdr : readHeader img pageEnd into (some .key) (longDesc false false .key)
          (cell + 1) = _ :=
        header_key (n := 0) (.inl rfl) into (by decide) (hpack ▸ h)
      exact passes_of_long hpack' rfl (by decide) (by decide) h hhdr (by omega) hadj hsmall htype
        hpfx.symm hdata (fun u hu => hcount u hu) htw hta
    · rw [if_neg hpfx] at hpack
      have hpack' : c.pack =
          longDesc false false .keyPfx :: ([c.pfx] ++ packUint (c.size - cellSizeAdjust)) :=
        hpack
      exact passes_of_long hpack' rfl (by decide) (by decide) h (header_keyPfx into (hpack ▸ h))
        (by omega) hadj hsmall htype rfl hdata (fun u hu => hcount u hu) htw hta

lemma cellPackOvfl_value (htype : type = .value ∨ type = .valueRm)
    (tw : TimeWindow) (rle size : ℕ) :
    cellPackOvfl type tw rle size = longDesc (!tw.isEmpty) (decide (2 ≤ rle)) type.toCellType ::
      ((tw.cellBytes ++ numBytes (decide (2 ≤ rle)) rle) ++ packUint size) := by
  have hwin : ovflValidity tw type =
      (if !tw.isEmpty then cellSecondDesc else 0, tw.cellBytes) := by
    rcases htype with rfl | rfl <;> exact cellPackValueValidity_eq tw
  unfold cellPackOvfl
  rw [hwin]
  by_cases hrle : rle < 2
  · rw [decide_eq_false (not_le.mpr hrle), numBytes_false, append_nil]
    exact if_pos hrle
  · rw [decide_eq_true (not_lt.mp hrle)]
    exact if_neg hrle

lemma cellPackOvfl_key (htype : type = .key ∨ type = .keyRm)
    (tw : TimeWindow) (rle size : ℕ) :
    cellPackOvfl type tw rle size = longDesc false (decide (2 ≤ rle)) type.toCellType ::
      (numBytes (decide (2 ≤ rle)) rle ++ packUint size) := by
  by_cases hrle : rle < 2
  · rw [decide_eq_false (not_le.mpr hrle)]
    rcases htype with rfl | rfl <;> exact if_pos hrle
  · rw [decide_eq_true (not_lt.mp hrle)]
    rcases htype with rfl | rfl <;> exact if_neg hrle

section

variable (hc : (ovfl type tw rle size).Ok)
  (hsmall : (ovfl type tw rle size).pack.length + size < 2 ^ 32)
  (h : Here img pageEnd cell (ovfl type tw rle size).pack)
include hc hsmall h

lemma passes_ovfl_value (htype : type = .value ∨ type = .valueRm) :
    (ovfl type tw rle size).Passes img pageEnd .value cell₀ cell := by
  obtain ⟨htw, hrle, hsize⟩ := hc
  have hpack : (ovfl type tw rle size).pack = _ := cellPackOvfl_value htype tw rle size
  have hok := htw htype
  rcases htype with rfl | rfl
  all_goals
    exact passes_of_long hpack rfl (by decide) (by decide) h
      (header_value rfl hok hrle (hpack ▸ h)) hsize rfl hsmall rfl rfl rfl
      (fun u hu => rle_of_v hu) rfl rfl

lemma passes_ovfl_key (htype : type = .key ∨ type = .keyRm) :
    (ovfl type tw rle size).Passes img pageEnd into cell₀ cell := by
  obtain ⟨-, hrle, hsize⟩ := hc
  have hpack : (ovfl type tw rle size).pack = _ := cellPackOvfl_key htype tw rle size
  rcases htype with rfl | rfl
  all_goals
    exact passes_of_long hpack rfl (by decide) (by decide) h
      (header_key (by decide) into hrle (hpack ▸ h)) hsize rfl hsmall rfl rfl rfl
      (fun u hu => rle_of_v hu) rfl rfl

end

lemma cellPackAddr_eq (type : AddrType) (recno : ℕ) (ta : TimeAggregate) (size : ℕ) :
    cellPackAddr type recno ta size =
      longDesc (!ta.isEmpty) (decide (recno ≠ 0)) type.toCellType ::
        ((ta.cellBytes ++ numBytes (decide (recno ≠ 0)) recno) ++ packUint size) := by
  unfold cellPackAddr
  rw [cellPackAddrValidity_eq]
  by_cases hrecno : recno = 0
  · rw [decide_eq_false (not_not.mpr hrecno), numBytes_false, append_nil]
    exact if_pos hrecno
  · rw [decide_eq_true hrecno]
    exact if_neg hrecno

lemma passes_addr {type : AddrType} {recno : ℕ} {ta : TimeAggregate} {size : ℕ}
    (hc : (addr type recno ta size).Ok)
    (hsmall : (addr type recno ta size).pack.length + size < 2 ^ 32)
    (h : Here img pageEnd cell (addr type recno ta size).pack) :
    (addr type recno ta size).Passes img pageEnd .addr cell₀ cell := by
  obtain ⟨hta, hrecno, hsize⟩ := hc
  have hpack : (addr type recno ta size).pack = _ := cellPackAddr_eq type recno ta size
  have hraw : type.toCellType.hasAddrValidity = true ∧ type.toCellType.isShort = false ∧
      type.toCellType ≠ .valueCopy ∧ type.toCellType ≠ .del ∧
      type.toCellType.collapse = type.toCellType := by
    cases type <;> decide
  have hadj : ∀ desc v, sizeAdjusted type.toCellType desc v = false := by
    intro desc v
    cases type <;> exact decide_eq_false (by simp [AddrType.toCellType])
  refine passes_of_long hpack hraw.2.1 hraw.2.2.1 hraw.2.2.2.1 h
    (header_addr hraw.1 hta hrecno (hpack ▸ h)) hsize ?_ hsmall hraw.2.2.2.2 rfl rfl
    (fun u hu => ?_) rfl rfl
  · rw [hadj]
    rfl
  · show u.v = recno
    rw [hu]
    by_cases hzero : recno = 0
    · rw [hzero]
      rfl
    · exact if_pos (decide_eq_true hzero)

/-- A pass over any of the cells comes to what was packed. -/
lemma passes (c : CellItem) (hc : c.Ok) (hinto : c.unpacksInto into = true)
    (hsmall : c.pack.length + c.size < 2 ^ 32) (h : Here img pageEnd cell c.pack) :
    c.Passes img pageEnd into cell₀ cell := by
  cases c with
  | value tw rle size =>
    obtain rfl : into = .value := of_decide_eq_true hinto
    exact passes_value hc hsmall h
  | del tw rle =>
    obtain rfl : into = .value := of_decide_eq_true hinto
    exact passes_del hc hsmall h
  | intKey | leafKey =>
    exact passes_key rfl hc hsmall h rfl rfl
      (fun u hu => by simp [countOf, CellUnpack.rle, hu, count]) rfl rfl
  | ovfl type tw rle size =>
    cases type with
    | key => exact passes_ovfl_key hc hsmall h (.inl rfl)
    | keyRm => exact passes_ovfl_key hc hsmall h (.inr rfl)
    | value =>
      obtain rfl : into = .value := of_decide_eq_true hinto
      exact passes_ovfl_value hc hsmall h (.inl rfl)
    | valueRm =>
      obtain rfl : into = .value := of_decide_eq_true hinto
      exact passes_ovfl_value hc hsmall h (.inr rfl)
  | addr type recno ta size =>
    obtain rfl : into = .addr := of_decide_eq_true hinto
    exact passes_addr hc hsmall h

end Items

end CellItem

/-! ### Lengths -/

lemma length_vpackPosint_le (marker : UInt8) (maxlen x : ℕ) :
    (vpackPosint marker maxlen x).bytes.length ≤ 9 := by
  unfold vpackPosint
  dsimp only
  split_ifs
  · simp
  · rw [length_cons, length_beBytes]
    omega

lemma length_packUint_le (x : ℕ) : (packUint x).length ≤ 9 := by
  unfold packUint vpackUint
  split_ifs
  all_goals first
    | exact length_vpackPosint_le _ _ _
    | simp

lemma CellField.length_bytes_le (f : CellField) : f.bytes.length ≤ 9 := by
  unfold bytes
  split_ifs
  · exact length_packUint_le _
  · exact zero_le _

lemma length_flatMap_bytes_le (fields : List CellField) :
    (fields.flatMap bytes).length ≤ 9 * fields.length := by
  induction fields with
  | nil => simp
  | cons f fields ih =>
    have := f.length_bytes_le
    rw [flatMap_cons, length_append, length_cons]
    omega

lemma length_packValidity_le (empty prepare : Bool) (fields : List CellField) :
    (packValidity empty prepare fields).2.length ≤ 1 + 9 * fields.length := by
  have := length_flatMap_bytes_le fields
  cases empty with
  | true => exact zero_le _
  | false =>
    show (_ :: _).length ≤ _
    rw [length_cons]
    omega

lemma TimeWindow.length_cellBytes_le (tw : TimeWindow) : tw.cellBytes.length ≤ 55 :=
  length_packValidity_le _ _ tw.cellFields

lemma cellPackCopy_eq (tw : TimeWindow) (rle v : ℕ) :
    cellPackCopy tw rle v = longDesc (!tw.isEmpty) (decide (2 ≤ rle)) .valueCopy ::
      ((tw.cellBytes ++ numBytes (decide (2 ≤ rle)) rle) ++ packUint v) := by
  unfold cellPackCopy
  rw [cellPackValueValidity_eq]
  by_cases hrle : rle < 2
  · rw [decide_eq_false (not_le.mpr hrle), numBytes_false, append_nil]
    exact if_pos hrle
  · rw [decide_eq_true (not_lt.mp hrle)]
    exact if_neg hrle

lemma length_cellPackCopy_le (tw : TimeWindow) (rle v : ℕ) :
    (cellPackCopy tw rle v).length ≤ 74 := by
  have h₁ := tw.length_cellBytes_le
  have h₂ : (numBytes (decide (2 ≤ rle)) rle).length ≤ 9 := length_bytes_le _
  have h₃ := length_packUint_le v
  rw [cellPackCopy_eq, length_cons, length_append, length_append]
  omega

/-! ### The round trip -/

/-- A copy cell is unpacked to the data of the cell it is a copy of, with its own window, count and
length. -/
structure CopyUnpacks (c : CellItem) (tw : TimeWindow) (rle v cell : ℕ) (u : CellUnpack) :
    Prop where
  raw : u.raw = .valueCopy
  type : u.type = c.type
  pfx : u.pfx = c.pfx
  size : u.size = c.size
  data : u.data = c.dataAt (cell - v)
  count : u.rle = if rle < 2 then 1 else rle
  window : u.tw = tw
  len : u.len = (cellPackCopy tw rle v).length

/-- The first pass over a copy cell. -/
lemma pass_cellPackCopy {rle v : ℕ} {tw : TimeWindow} (htw : tw.Ok) (hrle : rle < 2 ^ 64)
    (hv : v < 2 ^ 64) (cell₀ : ℕ) {cell : ℕ} (h : Here img pageEnd cell (cellPackCopy tw rle v)) :
    ∃ desc bs, cellPackCopy tw rle v = desc :: bs ∧
      unpackPass img pageEnd .value cell₀ cell desc (cellTypeRaw desc) =
        .ok (.copy v
          ⟨if decide (2 ≤ rle) then rle else 0, (cellPackCopy tw rle v).length, tw⟩) := by
  have hpack := cellPackCopy_eq tw rle v
  have hlen : cell + 1 + (tw.cellBytes ++ numBytes (decide (2 ≤ rle)) rle).length +
      (packUint v).length - cell = (cellPackCopy tw rle v).length := by
    rw [hpack, length_cons, @length_append _ _ (packUint v)]
    omega
  have hmod : (cellPackCopy tw rle v).length % 2 ^ 32 = (cellPackCopy tw rle v).length :=
    mod_eq_of_lt (lt_of_le_of_lt (length_cellPackCopy_le tw rle v) (by decide))
  rw [hpack] at h
  have hpass : unpackPass img pageEnd .value cell₀ cell _ _ = _ :=
    pass_copy (header_value rfl htw hrle h) hv h.tail.right
  rw [hlen, hmod] at hpass
  exact ⟨_, _, hpack, hpass⟩

/-- **Cells are read back.**  A cell that is packed and put on a page is unpacked, with or without
the end of the page given, to the type, prefix, size, data, count, window and length it was packed
with, provided that it has less than 4 GiB with its data. -/
theorem cell_roundTrip (img : List UInt8) (pageEnd : Option ℕ) :
    (∀ (c : CellItem) (into : UnpackInto) (cell : ℕ), c.Ok → c.unpacksInto into = true →
      c.pack.length + c.size < 2 ^ 32 → Here img pageEnd cell c.pack →
      (∀ e ∈ pageEnd, cell + (c.pack.length + c.size) ≤ e) →
      ∃ u, cellUnpackSafe img pageEnd into cell = .ok u ∧ u.cell = cell ∧ c.Unpacks cell u) ∧
    (∀ (c : CellItem) (tw : TimeWindow) (rle v cell : ℕ), c.Ok → c.unpacksInto .value = true →
      c.pack.length + c.size < 2 ^ 32 → Here img pageEnd (cell - v) c.pack → tw.Ok →
      rle < 2 ^ 64 → v < 2 ^ 64 → v ≤ cell → Here img pageEnd cell (cellPackCopy tw rle v) →
      ∃ u, cellUnpackSafe img pageEnd .value cell = .ok u ∧ u.cell = cell ∧
        CopyUnpacks c tw rle v cell u) := by
  unfold cellUnpackSafe
  constructor
  · intro c into cell hc hinto hsmall h hend
    obtain ⟨desc, bs, u, hpack, hpass, hcell, hu⟩ := c.passes hc hinto hsmall h
    refine ⟨u, ?_, hcell, hu⟩
    rw [loop_data (hpack ▸ h) hpass, cellUnpackDone, cellLenChk_ok (by rwa [hu.len])]
    rfl
  · intro c tw rle v cell hc hinto hsmall h htw hrle hv hle hcopy
    obtain ⟨desc, bs, u, hpack, hpass, hcell, hu⟩ :=
      @CellItem.passes _ _ cell _ _ c hc hinto hsmall h
    obtain ⟨desc', bs', hpack', hpass'⟩ := pass_cellPackCopy htw hrle hv cell hcopy
    have hchk : cellLenChk pageEnd (cell - v) (cellPackCopy tw rle v).length = .ok () := by
      refine cellLenChk_ok fun e he => ?_
      have := hcopy.room e he
      omega
    refine ⟨{ u with
      v := if decide (2 ≤ rle) then rle else 0
      len := (cellPackCopy tw rle v).length
      raw := .valueCopy
      tw := tw }, ?_, hcell, rfl, hu.type, hu.pfx, hu.size, hu.data, CellItem.rle_of_v rfl, rfl,
      rfl⟩
    rw [loop_copy (hpack' ▸ hcopy) hpass' hle, loop_data (hpack ▸ h) hpass, cellUnpackDone, hchk]
    rfl

/-- A window with all of its fields. -/
def exampleWindow : TimeWindow := ⟨12, 10, 5, 25, 20, 7, false⟩

lemma exampleWindow_ok : exampleWindow.Ok where
  durableStartTs := by decide
  startTs := by decide
  startTxn := by decide
  durableStopTs := by decide
  stopTs := by decide
  stopTxn := by decide
  accepted := ⟨none, rfl⟩
  durable_stop := by decide

/-- A value with a window and a copy of it that has another count. -/
def examplePage : List UInt8 :=
  cellPackValue exampleWindow 1 2 ++ [0x61, 0x62] ++ cellPackCopy exampleWindow 3 12

theorem cell_roundTrip_page :
    (∃ u, cellUnpackSafe examplePage (some 24) .value 0 = .ok u ∧ u.tw = exampleWindow ∧
      u.size = 2 ∧ u.data = 10) ∧
    ∃ u, cellUnpackSafe examplePage (some 24) .value 12 = .ok u ∧ u.data = 10 ∧ u.rle = 3 := by
  have hvalue : Here examplePage (some 24) 0 (cellPackValue exampleWindow 1 2) :=
    ⟨⟨_, (append_assoc _ _ _).symm⟩, by decide⟩
  have hcopy : Here examplePage (some 24) 12 (cellPackCopy exampleWindow 3 12) :=
    ⟨⟨[], rfl⟩, by decide⟩
  have hok : (CellItem.value exampleWindow 1 2).Ok := ⟨exampleWindow_ok, by decide, by decide⟩
  constructor
  · obtain ⟨u, hu, -, h⟩ := (cell_roundTrip examplePage (some 24)).1 (.value exampleWindow 1 2)
      .value 0 hok rfl (by decide) hvalue (by decide)
    exact ⟨u, hu, h.tw, h.size, h.data⟩
  · obtain ⟨u, hu, -, h⟩ := (cell_roundTrip examplePage (some 24)).2 (.value exampleWindow 1 2)
      exampleWindow 3 12 12 hok rfl (by decide) hvalue exampleWindow_ok (by decide) (by decide)
      (by decide) hcopy
    exact ⟨u, hu, h.data, h.count⟩

/-- A value of 4 GiB is unpacked as one without data. -/
theorem cell_size_truncated :
    (cellUnpackSafe (cellPackValue .init 0 (2 ^ 32)) none .value 0).map CellUnpack.size =
      .ok 0 := by
  decide +kernel

end WiredTiger
