/-
# Reading back the validity window of a cell

The fields of a window are read in the order in which they are written, each with the flag that
tells whether it is there.
-/
import WiredTiger.Cell.Unpack
import WiredTiger.Pack.IntPackProps

namespace WiredTiger

open Lib List CellField

variable {img : List UInt8} {pageEnd : Option ℕ} {p : ℕ}

/-! ### Bytes at a place -/

/-- The bytes are at this place of the image, inside the page if its end is given. -/
structure Here (img : List UInt8) (pageEnd : Option ℕ) (p : ℕ) (bs : List UInt8) : Prop where
  bytes : bs <+: img.drop p
  room : ∀ e ∈ pageEnd, p + bs.length ≤ e

lemma Here.left {bs cs : List UInt8} (h : Here img pageEnd p (bs ++ cs)) :
    Here img pageEnd p bs where
  bytes := (prefix_append bs cs).trans h.bytes
  room e he := by
    have := h.room e he
    rw [length_append] at this
    omega

lemma Here.right {bs cs : List UInt8} (h : Here img pageEnd p (bs ++ cs)) :
    Here img pageEnd (p + bs.length) cs where
  bytes := by
    obtain ⟨rest, hrest⟩ := h.bytes
    refine ⟨rest, ?_⟩
    rw [← drop_drop, ← hrest, append_assoc, drop_left]
  room e he := by
    have := h.room e he
    rw [length_append] at this
    omega

section

variable {b : UInt8} {bs : List UInt8} (h : Here img pageEnd p (b :: bs))
include h

lemma Here.tail : Here img pageEnd (p + 1) bs :=
  @Here.right img pageEnd p [b] bs h

lemma Here.head : readByteAt img p = .ok b := by
  obtain ⟨rest, hrest⟩ := h.bytes
  have hp : img[p]? = some b := by
    rw [← add_zero p, ← getElem?_drop, ← hrest]
    rfl
  rw [readByteAt, hp]

/-! ### Readers -/

omit h in
lemma reader_bind_ok {α β : Type} {m : CellReader α} {f : α → CellReader β} {a : α} {p' : ℕ}
    (h : m p = .ok (a, p')) : (m >>= f) p = f a p' := by
  show (m p >>= fun ap => f ap.1 ap.2) = _
  rw [h]
  rfl

lemma readByte_ok : readByte img p = .ok (b, p + 1) := by
  rw [readByte, h.head]
  rfl

end

lemma packUint_eq (x : ℕ) : packUint x = (codeUint x).bytes := by
  rw [packUint, vpackUint_of_fits fun h => h.1 rfl]

lemma readUint_ok {x : ℕ} (hx : x < 2 ^ 64) (h : Here img pageEnd p (packUint x)) :
    readUint img pageEnd p = .ok (x, p + (packUint x).length) := by
  have hlen : (packUint x).length = vsizeUint x := by
    rw [packUint_eq, Code.length_bytes, vsizeUint_eq]
  obtain ⟨rest, hrest⟩ := h.bytes
  have hsize : ¬ sizeFails (vsizeUint x) (pageEnd.elim 0 fun e => e - p) := by
    cases hend : pageEnd with
    | none => exact fun hf => hf.1 rfl
    | some e =>
      have := h.room e hend
      rintro ⟨-, hlt⟩
      dsimp only [Option.elim] at hlt
      omega
  rw [readUint, ← hrest, packUint_eq, vunpackUint_code hx hsize rest, ← packUint_eq, hlen]

section Field

variable {f : CellField} {flags : UInt8} {x base dflt : ℕ}
  (hflag : flags &&& f.flag ≠ 0 ↔ f.present = true) (hf : f.number < 2 ^ 64)
  (h : Here img pageEnd p f.bytes) (hdflt : f.present = false → dflt = x)
include hflag hf h hdflt

/-- A number of `64` bits that is there if its flag is set. -/
lemma readField_ok (hthere : f.present = true → f.number = x) :
    readField img pageEnd flags f.flag dflt p = .ok (x, p + f.bytes.length) := by
  unfold readField bytes at *
  cases hp : f.present with
  | true =>
    rw [hp] at h
    rw [if_pos (hflag.mpr hp), ← hthere hp]
    exact readUint_ok hf h
  | false =>
    rw [if_neg (fun hne => by simp [hflag.mp hne] at hp), ← hdflt hp]
    rfl

/-- A difference that is there if its flag is set. -/
lemma readDiff_ok (hthere : f.present = true → add64 f.number base = x) :
    readDiff img pageEnd flags f.flag base dflt p = .ok (x, p + f.bytes.length) := by
  unfold readDiff bytes at *
  cases hp : f.present with
  | true =>
    rw [hp] at h
    rw [if_pos (hflag.mpr hp), reader_bind_ok (readUint_ok hf h), hthere hp]
    rfl
  | false =>
    rw [if_neg (fun hne => by simp [hflag.mp hne] at hp), ← hdflt hp]
    rfl

end Field

/-! ### Flags -/

lemma sub64_lt (x y : ℕ) : sub64 x y < 2 ^ 64 := Nat.mod_lt _ (by decide)

lemma add64_sub64 {x y : ℕ} (hx : x < 2 ^ 64) (hy : y < 2 ^ 64) : add64 (sub64 x y) y = x := by
  unfold add64 sub64
  omega

lemma sub64_eq_zero {x y : ℕ} (hx : x < 2 ^ 64) (hy : y < 2 ^ 64) : sub64 x y = 0 ↔ x = y := by
  unfold sub64
  omega

/-- The second descriptor byte, by which of its fields are written. -/
def secondDesc (start txn durable stop stopTxn durableStop prepare : Bool) : UInt8 :=
  let flags :=
    (((((0 ||| (if start then cellTsStart else 0)) ||| (if txn then cellTxnStart else 0)) |||
      (if durable then cellTsDurableStart else 0)) ||| (if stop then cellTsStop else 0)) |||
      (if stopTxn then cellTxnStop else 0)) ||| (if durableStop then cellTsDurableStop else 0)
  if prepare then flags ||| cellPrepare else flags

lemma secondDesc_flags : ∀ a b c d e f g : Bool,
    (secondDesc a b c d e f g &&& cellTsStart ≠ 0 ↔ a = true) ∧
    (secondDesc a b c d e f g &&& cellTxnStart ≠ 0 ↔ b = true) ∧
    (secondDesc a b c d e f g &&& cellTsDurableStart ≠ 0 ↔ c = true) ∧
    (secondDesc a b c d e f g &&& cellTsStop ≠ 0 ↔ d = true) ∧
    (secondDesc a b c d e f g &&& cellTxnStop ≠ 0 ↔ e = true) ∧
    (secondDesc a b c d e f g &&& cellTsDurableStop ≠ 0 ↔ f = true) ∧
    (secondDesc a b c d e f g &&& cellPrepare ≠ 0 ↔ g = true) := by
  decide

/-- The fields of a window, and those of an aggregate: `durable` and `stop` say which of the durable
times are written. -/
def sixFields (a b c d e f : ℕ) (durable stop : Bool) : List CellField :=
  [⟨a ≠ tsNone, cellTsStart, a⟩, ⟨b ≠ txnNone, cellTxnStart, b⟩,
    ⟨durable, cellTsDurableStart, sub64 c a⟩, ⟨d ≠ tsMax, cellTsStop, sub64 d a⟩,
    ⟨e ≠ txnMax, cellTxnStop, sub64 e b⟩, ⟨stop, cellTsDurableStop, sub64 f d⟩]

/-- What reads such fields, with what a durable time is that is not there. -/
def readSix {α : Type} (img : List UInt8) (pageEnd : Option ℕ) (g h : ℕ → ℕ)
    (k : ℕ → ℕ → ℕ → ℕ → ℕ → ℕ → Bool → α) : CellReader α := do
  let flags ← readByte img
  let a ← readField img pageEnd flags cellTsStart tsNone
  let b ← readField img pageEnd flags cellTxnStart txnNone
  let c ← readDiff img pageEnd flags cellTsDurableStart a (g a)
  let d ← readDiff img pageEnd flags cellTsStop a tsMax
  let e ← readDiff img pageEnd flags cellTxnStop b txnMax
  let f ← readDiff img pageEnd flags cellTsDurableStop d (h d)
  pure (k a b c d e f (flags &&& cellPrepare ≠ 0))

lemma eq_of_decide_ne {x y : ℕ} (h : decide (x ≠ y) = false) : y = x :=
  (not_not.mp (of_decide_eq_false h)).symm

lemma readSix_ok {α : Type} {g h : ℕ → ℕ} {k : ℕ → ℕ → ℕ → ℕ → ℕ → ℕ → Bool → α}
    {a b c d e f : ℕ} {durable stop prepare : Bool} (ha : a < 2 ^ 64) (hb : b < 2 ^ 64)
    (hc : c < 2 ^ 64) (hd : d < 2 ^ 64) (he : e < 2 ^ 64) (hf : f < 2 ^ 64)
    (hdurable : durable = false → g a = c) (hstop : stop = false → h d = f)
    (hhere : Here img pageEnd p
      (packValidity false prepare (sixFields a b c d e f durable stop)).2) :
    readSix img pageEnd g h k p = .ok (k a b c d e f prepare,
      p + (packValidity false prepare (sixFields a b c d e f durable stop)).2.length) := by
  obtain ⟨f₁, f₂, f₃, f₄, f₅, f₆, f₇⟩ := secondDesc_flags (decide (a ≠ tsNone))
    (decide (b ≠ txnNone)) durable (decide (d ≠ tsMax)) (decide (e ≠ txnMax)) stop prepare
  -- the second descriptor byte, and the fields one after the other
  rw [show (packValidity false prepare (sixFields a b c d e f durable stop)).2 =
    secondDesc _ _ durable _ _ stop prepare :: (bytes _ ++ (bytes _ ++
      (bytes _ ++ (bytes _ ++ (bytes _ ++
        (bytes _ ++ [])))))) from rfl] at hhere ⊢
  generalize secondDesc _ _ _ _ _ _ _ = flags at hhere f₁ f₂ f₃ f₄ f₅ f₆ f₇ ⊢
  have h₁ := hhere.tail
  refine (reader_bind_ok (readByte_ok hhere)).trans ?_
  refine (reader_bind_ok (readField_ok f₁ ha h₁.left eq_of_decide_ne fun _ => rfl)).trans ?_
  refine (reader_bind_ok
    (readField_ok f₂ hb h₁.right.left eq_of_decide_ne fun _ => rfl)).trans ?_
  refine (reader_bind_ok (readDiff_ok f₃ (sub64_lt _ _) h₁.right.right.left hdurable
    fun _ => add64_sub64 hc ha)).trans ?_
  refine (reader_bind_ok (readDiff_ok f₄ (sub64_lt _ _) h₁.right.right.right.left eq_of_decide_ne
    fun _ => add64_sub64 hd ha)).trans ?_
  refine (reader_bind_ok (readDiff_ok f₅ (sub64_lt _ _) h₁.right.right.right.right.left
    eq_of_decide_ne fun _ => add64_sub64 he hb)).trans ?_
  refine (reader_bind_ok (readDiff_ok f₆ (sub64_lt _ _) h₁.right.right.right.right.right.left hstop
    fun _ => add64_sub64 hf hd)).trans ?_
  have hprepare : decide (flags &&& cellPrepare ≠ 0) = prepare := by
    rw [Bool.eq_iff_iff, decide_eq_true_iff]
    exact f₇
  rw [hprepare]
  simp only [length_cons, length_append, length_nil, add_zero]
  refine congrArg (fun q => Except.ok (k a b c d e f prepare, q)) ?_
  omega

/-! ### Windows of values -/

/-- What packing and unpacking a window needs of it: it is accepted, and has no durable stop time
without a stop time. -/
structure TimeWindow.Ok (tw : TimeWindow) : Prop extends tw.Fits where
  accepted : ∃ parent, timeValueValidate tw parent = .ok ()
  durable_stop : tw.stopTs = tsMax → tw.durableStopTs = tsNone

lemma durableStart_eq {tw : TimeWindow} (h : tw.Ok)
    (hp : decide (tw.durableStartTs ≠ tsNone ∧ 0 < sub64 tw.durableStartTs tw.startTs) = false) :
    tw.startTs = tw.durableStartTs := by
  obtain ⟨parent, hparent⟩ := h.accepted
  have hle := (timeValueValidate_ok.mp hparent).1.2.2.1
  rw [decide_eq_false_iff_not, not_and_or, not_not, not_lt, Nat.le_zero,
    sub64_eq_zero h.durableStartTs h.startTs] at hp
  rcases hp with hnone | heq
  · have : tsNone = 0 := rfl
    omega
  · exact heq.symm

lemma durableStop_eq {tw : TimeWindow} (h : tw.Ok)
    (hp : decide (tw.durableStopTs ≠ tsNone ∧ 0 < sub64 tw.durableStopTs tw.stopTs) = false) :
    (if tw.stopTs ≠ tsMax then tw.stopTs else tsNone) = tw.durableStopTs := by
  obtain ⟨parent, hparent⟩ := h.accepted
  have hle := (timeValueValidate_ok.mp hparent).1.2.2.2.1
  by_cases hmax : tw.stopTs = tsMax
  · rw [if_neg (not_not.mpr hmax), h.durable_stop hmax]
  · rw [if_pos hmax]
    rw [decide_eq_false_iff_not, not_and_or, not_not, not_lt, Nat.le_zero,
      sub64_eq_zero h.durableStopTs h.stopTs] at hp
    rcases hp with hnone | heq
    · have : tsNone = 0 := rfl
      omega
    · exact heq.symm

/-- The bytes of a window that is written. -/
def TimeWindow.cellBytes (tw : TimeWindow) : List UInt8 := (cellPackValueValidity tw).2

lemma readValueValidity_ok {tw : TimeWindow} (htw : tw.Ok) (hne : tw.isEmpty = false)
    (h : Here img pageEnd p tw.cellBytes) :
    readValueValidity img pageEnd p = .ok (tw, p + tw.cellBytes.length) := by
  unfold TimeWindow.cellBytes cellPackValueValidity at h ⊢
  rw [hne] at h ⊢
  exact readSix_ok (k := fun a b c d e f prepare => (⟨c, a, b, f, d, e, prepare⟩ : TimeWindow))
    htw.startTs htw.startTxn htw.durableStartTs htw.stopTs htw.stopTxn htw.durableStopTs
    (durableStart_eq htw) (durableStop_eq htw) h

/-! ### Aggregates of addresses -/

/-- What packing and unpacking an aggregate needs of it. -/
structure TimeAggregate.Ok (ta : TimeAggregate) : Prop extends ta.Fits where
  accepted : ∃ parent, timeAggregateValidate ta parent = .ok ()

/-- The bytes of an aggregate that is written. -/
def TimeAggregate.cellBytes (ta : TimeAggregate) : List UInt8 := (cellPackAddrValidity ta).2

lemma readAddrValidity_ok {ta : TimeAggregate} (hta : ta.Fits) (hne : ta.isEmpty = false)
    (h : Here img pageEnd p ta.cellBytes) :
    readAddrValidity img pageEnd p =
      .ok ({ ta with initMerge := false }, p + ta.cellBytes.length) := by
  unfold TimeAggregate.cellBytes cellPackAddrValidity at h ⊢
  rw [hne] at h ⊢
  exact readSix_ok (g := fun _ => tsNone) (h := fun _ => tsNone)
    (k := fun a b c d e f prepare => (⟨c, f, a, b, d, e, prepare, false⟩ : TimeAggregate))
    hta.oldestStartTs hta.newestTxn hta.newestStartDurableTs hta.newestStopTs hta.newestStopTxn
    hta.newestStopDurableTs eq_of_decide_ne eq_of_decide_ne h

end WiredTiger
