/-
# Where the numbers of a cell are

What follows the descriptor byte of a cell are one byte at most and numbers, one behind the other,
and how many there are is told by the descriptor bytes.  With the end of the page given, reading a
number stays on the page exactly if the number starts there: a number that would start at the end
has no bytes left for it, and a length of 0 means that nothing is checked.
-/
import WiredTiger.Cell.Passes
import WiredTiger.Pack.Bounds

namespace WiredTiger

open Lib Except List CellType

variable {img : List UInt8} {p q k l : ℕ} {α β : Type}
variable {m : CellReader α} {f : α → CellReader β}

/-! ### Numbers -/

/-- The number at a place of a page, and the place behind it. -/
def numberAt (img : List UInt8) (p : ℕ) : Option (ℕ × ℕ) :=
  match vunpackUint (img.length - p) (img.drop p) with
  | .ok (x, n) => some (x, p + n)
  | .error _ => none

/-- The place behind so many numbers. -/
def behindNumbers (img : List UInt8) : ℕ → ℕ → Option ℕ
  | 0, p => some p
  | k + 1, p => (numberAt img p).bind fun xq => behindNumbers img k xq.2

/-- Each of so many numbers starts on the page, as far as those in front of it are numbers. -/
def NumbersStart (img : List UInt8) : ℕ → ℕ → Prop
  | 0, _ => True
  | k + 1, p => p < img.length ∧ ∀ x q, numberAt img p = some (x, q) → NumbersStart img k q

lemma behindNumbers_add (k l p : ℕ) :
    behindNumbers img (k + l) p = (behindNumbers img k p).bind (behindNumbers img l) := by
  induction k generalizing p with
  | zero => simp [behindNumbers]
  | succ k ih =>
    rw [add_right_comm, behindNumbers, behindNumbers]
    cases numberAt img p with
    | none => rfl
    | some xq => exact ih xq.2

lemma numbersStart_add {p : ℕ} : NumbersStart img (k + l) p ↔
    NumbersStart img k p ∧ ∀ q, behindNumbers img k p = some q → NumbersStart img l q := by
  induction k generalizing p with
  | zero => simp [NumbersStart, behindNumbers]
  | succ k ih =>
    rw [add_right_comm, NumbersStart, NumbersStart, behindNumbers]
    cases hnum : numberAt img p with
    | none => simp
    | some xq =>
      obtain ⟨x, q⟩ := xq
      simp only [Option.some.injEq, Prod.mk.injEq, Option.bind_some]
      constructor
      · rintro ⟨hp, hrest⟩
        obtain ⟨hk, hl⟩ := ih.mp (hrest x q ⟨rfl, rfl⟩)
        refine ⟨⟨hp, ?_⟩, hl⟩
        rintro x' q' ⟨rfl, rfl⟩
        exact hk
      · rintro ⟨⟨hp, hk⟩, hl⟩
        refine ⟨hp, ?_⟩
        rintro x' q' ⟨rfl, rfl⟩
        exact ih.mpr ⟨hk x q ⟨rfl, rfl⟩, hl⟩

/-! ### Readers that read numbers -/

/-- The reader reads so many numbers and nothing else.  The end of the page is given. -/
structure Counts (img : List UInt8) (m : CellReader α) (k : ℕ) : Prop where
  stays : ∀ p, NumbersStart img k p → m p ≠ .error (.read .fault)
  leaves : ∀ p, ¬NumbersStart img k p → m p = .error (.read .fault)
  behind : ∀ p q, (∃ a, m p = .ok (a, q)) ↔ behindNumbers img k p = some q

lemma readUint_eq_ok {x : ℕ} :
    readUint img (some img.length) p = .ok (x, q) ↔ numberAt img p = some (x, q) := by
  rw [readUint, numberAt]
  dsimp only [Option.elim]
  rcases vunpackUint (img.length - p) (img.drop p) with e | ⟨x', n⟩
  · simp
  · simp

/-- Behind the end there is nothing left, and nothing is checked. -/
lemma readUint_leaves (h : img.length ≤ p) :
    readUint img (some img.length) p = .error (.read .fault) := by
  unfold readUint
  dsimp only [Option.elim]
  rw [Nat.sub_eq_zero_of_le h, drop_eq_nil_of_le h]
  rfl

lemma readUint_stays (h : p < img.length) :
    readUint img (some img.length) p ≠ .error (.read .fault) := by
  obtain ⟨b, bs, hbs⟩ : ∃ b bs, img.drop p = b :: bs :=
    exists_cons_of_ne_nil fun hnil => absurd (drop_eq_nil_iff.mp hnil) (not_le.mpr h)
  have hlen : img.length - p = (b :: bs).length := by rw [← hbs, length_drop]
  unfold readUint
  dsimp only [Option.elim]
  rw [hlen, hbs]
  rcases vunpackUint_within b bs with ⟨e, he⟩ | ⟨x, n, hx, -⟩
  · rw [he]
    simp
  · rw [hx]
    simp

lemma counts_readUint : Counts img (readUint img (some img.length)) 1 where
  stays p h := readUint_stays h.1
  leaves p h := by
    refine readUint_leaves (not_lt.mp fun hp => h ⟨hp, ?_⟩)
    intro x q _
    trivial
  behind p q := by
    constructor
    · rintro ⟨x, hx⟩
      rw [behindNumbers, readUint_eq_ok.mp hx]
      rfl
    · intro h
      rw [behindNumbers] at h
      obtain ⟨⟨x, q'⟩, hx, hq⟩ := Option.bind_eq_some_iff.mp h
      cases hq
      exact ⟨x, readUint_eq_ok.mpr hx⟩

lemma counts_pure (a : α) : Counts img (pure a) 0 where
  stays p _ := by
    show ok (a, p) ≠ _
    simp
  leaves p h := absurd trivial h
  behind p q := by
    constructor
    · rintro ⟨b, hb⟩
      have hb : ok (a, p) = ok (b, q) := hb
      rw [(Prod.mk.inj (ok.inj hb)).2]
      rfl
    · intro h
      cases h
      exact ⟨a, rfl⟩

lemma reader_bind_error {e : CellError} (h : m p = .error e) : (m >>= f) p = .error e := by
  show (m p >>= fun ap => f ap.1 ap.2) = _
  rw [h]
  rfl

lemma Counts.bind (hm : Counts img m k) (hf : ∀ a, Counts img (f a) l) :
    Counts img (m >>= f) (k + l) where
  stays p h := by
    obtain ⟨hk, hl⟩ := numbersStart_add.mp h
    intro heq
    rcases bind_eq_error heq with hmp | ⟨⟨a, q⟩, hmp, hfq⟩
    · exact hm.stays p hk hmp
    · exact (hf a).stays q (hl q ((hm.behind p q).mp ⟨a, hmp⟩)) hfq
  leaves p h := by
    by_cases hk : NumbersStart img k p
    · obtain ⟨q, hq, hl⟩ : ∃ q, behindNumbers img k p = some q ∧ ¬NumbersStart img l q := by
        by_contra hcon
        refine h (numbersStart_add.mpr ⟨hk, fun q hq => ?_⟩)
        by_contra hl
        exact hcon ⟨q, hq, hl⟩
      obtain ⟨a, ha⟩ := (hm.behind p q).mpr hq
      exact (reader_bind_ok ha).trans ((hf a).leaves q hl)
    · exact reader_bind_error (hm.leaves p hk)
  behind p r := by
    rw [behindNumbers_add, Option.bind_eq_some_iff]
    constructor
    · rintro ⟨b, hb⟩
      obtain ⟨⟨a, q⟩, hmp, hb⟩ := exists_of_bind_ok hb
      exact ⟨q, (hm.behind p q).mp ⟨a, hmp⟩, ((hf a).behind q r).mp ⟨b, hb⟩⟩
    · rintro ⟨q, hq, hr⟩
      obtain ⟨a, ha⟩ := (hm.behind p q).mpr hq
      obtain ⟨b, hb⟩ := ((hf a).behind q r).mpr hr
      exact ⟨b, (reader_bind_ok ha).trans hb⟩

/-! ### The window -/

/-- A flag that is set stands for a number. -/
def flagNumbers (flags flag : UInt8) : ℕ := if flags &&& flag ≠ 0 then 1 else 0

/-- The numbers of a window, by its second descriptor byte. -/
def windowFlags (flags : UInt8) : ℕ :=
  flagNumbers flags cellTsStart + (flagNumbers flags cellTxnStart +
    (flagNumbers flags cellTsDurableStart + (flagNumbers flags cellTsStop +
      (flagNumbers flags cellTxnStop + (flagNumbers flags cellTsDurableStop + 0)))))

lemma counts_flag {m' : CellReader α} (hm : Counts img m 1) (hm' : Counts img m' 0)
    (flags flag : UInt8) :
    Counts img (if flags &&& flag ≠ 0 then m else m') (flagNumbers flags flag) := by
  unfold flagNumbers
  split_ifs
  · exact hm
  · exact hm'

lemma counts_readField (flags flag : UInt8) (dflt : ℕ) :
    Counts img (readField img (some img.length) flags flag dflt) (flagNumbers flags flag) :=
  counts_flag counts_readUint (counts_pure dflt) flags flag

lemma counts_readDiff (flags flag : UInt8) (base dflt : ℕ) :
    Counts img (readDiff img (some img.length) flags flag base dflt) (flagNumbers flags flag) :=
  counts_flag (counts_readUint.bind fun _ => counts_pure _) (counts_pure dflt) flags flag

/-- Behind its second descriptor byte a window has the numbers that the byte tells. -/
lemma readValueValidity_counts (img : List UInt8) : ∃ m : UInt8 → CellReader TimeWindow,
    readValueValidity img (some img.length) = (readByte img >>= m) ∧
      ∀ flags, Counts img (m flags) (windowFlags flags) := by
  refine ⟨_, rfl, fun flags => ?_⟩
  exact (counts_readField _ _ _).bind fun _ => (counts_readField _ _ _).bind fun _ =>
    (counts_readDiff _ _ _ _).bind fun _ => (counts_readDiff _ _ _ _).bind fun _ =>
      (counts_readDiff _ _ _ _).bind fun _ => (counts_readDiff _ _ _ _).bind fun _ => counts_pure _

lemma readAddrValidity_counts (img : List UInt8) : ∃ m : UInt8 → CellReader TimeAggregate,
    readAddrValidity img (some img.length) = (readByte img >>= m) ∧
      ∀ flags, Counts img (m flags) (windowFlags flags) := by
  refine ⟨_, rfl, fun flags => ?_⟩
  exact (counts_readField _ _ _).bind fun _ => (counts_readField _ _ _).bind fun _ =>
    (counts_readDiff _ _ _ _).bind fun _ => (counts_readDiff _ _ _ _).bind fun _ =>
      (counts_readDiff _ _ _ _).bind fun _ => (counts_readDiff _ _ _ _).bind fun _ => counts_pure _

/-! ### In front of the length -/

/-- The cell is not of a type that is unpacked. -/
def mismatch (into : UnpackInto) (raw : Option CellType) : Bool :=
  (raw.any hasAddrValidity ∧ into ≠ .addr) ∨
    (raw.any hasValueValidity ∧ into ≠ .value)

/-- The cell has a window. -/
def hasWindow (raw : Option CellType) (desc : UInt8) : Bool :=
  (raw.any hasAddrValidity || raw.any hasValueValidity) ∧
    desc &&& cellSecondDesc ≠ 0

/-- There is a byte between the descriptor byte and the numbers. -/
def hasByte (raw : Option CellType) (desc : UInt8) : Bool := raw = some .keyPfx ∨ hasWindow raw desc

/-- Where the numbers start. -/
def numbersPlace (raw : Option CellType) (desc : UInt8) (cell : ℕ) : ℕ :=
  if hasByte raw desc then cell + 2 else cell + 1

/-- How many numbers the window has. -/
def windowNumbers (img : List UInt8) (raw : Option CellType) (desc : UInt8) (cell : ℕ) : ℕ :=
  if hasWindow raw desc then windowFlags (img.getD (cell + 1) 0) else 0

/-- The number behind the window and the place behind it. -/
def headerAt (img : List UInt8) (raw : Option CellType) (desc : UInt8) (cell : ℕ) :
    Option (ℕ × ℕ) :=
  (behindNumbers img (windowNumbers img raw desc cell) (numbersPlace raw desc cell)).bind fun q =>
    if desc &&& cell64V ≠ 0 then numberAt img q else some (0, q)

lemma readByte_leaves (h : img.length ≤ p) : readByte img p = .error (.read .fault) := by
  rw [readByte, readByteAt, getElem?_eq_none h]
  rfl

lemma here_getD (h : p < img.length) : Here img (some img.length) p [img.getD p 0] where
  bytes := by
    rw [getD_eq_getElem?_getD, getElem?_eq_getElem h, drop_eq_getElem_cons h]
    exact ⟨_, rfl⟩
  room := by
    rintro e ⟨⟩
    exact h

section Header

variable {into : UnpackInto} {raw : Option CellType} {desc : UInt8} {cell : ℕ}

/-- What is read of a window, by its kind: it has one, it has none, or the type has none. -/
lemma readValidity_cases (img : List UInt8) (desc : UInt8) (hmis : mismatch into raw = false) :
    (hasWindow raw desc = true ∧ ∃ m : UInt8 → CellReader (TimeAggregate × TimeWindow),
      readValidity img (some img.length) into raw desc = (readByte img >>= m) ∧
        ∀ flags, Counts img (m flags) (windowFlags flags)) ∨
    (hasWindow raw desc = false ∧
      readValidity img (some img.length) into raw desc = pure (.init, .init)) := by
  obtain ⟨haddr, hvalue⟩ := not_or.mp (of_decide_eq_false hmis)
  unfold readValidity hasWindow
  by_cases hsecond : desc &&& cellSecondDesc = 0
  · right
    refine ⟨by simp [hsecond], ?_⟩
    split_ifs with h1 h2 h3 h4
    · exact absurd ⟨h1, h2⟩ haddr
    · rfl
    · exact absurd ⟨h3, h4⟩ hvalue
    · rfl
    · rfl
  · cases h1 : raw.any hasAddrValidity with
    | true =>
      left
      refine ⟨by simp [hsecond], ?_⟩
      obtain ⟨m, hm, hcounts⟩ := readAddrValidity_counts img
      refine ⟨fun flags => m flags >>= fun ta => pure (ta, .init), ?_,
        fun flags => (hcounts flags).bind fun _ => counts_pure _⟩
      rw [if_pos rfl, if_neg (fun h => haddr ⟨h1, h⟩), if_neg hsecond, hm, bind_assoc]
    | false =>
      rw [if_neg Bool.false_ne_true]
      cases h2 : raw.any hasValueValidity with
      | true =>
        left
        refine ⟨by simp [hsecond], ?_⟩
        obtain ⟨m, hm, hcounts⟩ := readValueValidity_counts img
        refine ⟨fun flags => m flags >>= fun tw => pure (.init, tw), ?_,
          fun flags => (hcounts flags).bind fun _ => counts_pure _⟩
        rw [if_pos rfl, if_neg (fun h => hvalue ⟨h2, h⟩), if_neg hsecond, hm, bind_assoc]
      | false =>
        right
        refine ⟨by simp, ?_⟩
        rw [if_neg Bool.false_ne_true]

lemma hasWindow_keyPfx : hasWindow (some .keyPfx) desc = false := by
  simp [hasWindow, hasAddrValidity, hasValueValidity]

section

variable (hmis : mismatch into raw = false)
  (hbyte : hasByte raw desc = true → cell + 1 < img.length)
include hmis hbyte

/-- What is read in front of the numbers stays on the page, and the rest are numbers. -/
lemma front_counts :
    ∃ m : CellReader (UInt8 × TimeAggregate × TimeWindow),
      Counts img m (windowNumbers img raw desc cell) ∧
      (readPfx img (some img.length) raw >>= fun pfx =>
        readValidity img (some img.length) into raw desc >>= fun w => pure (pfx, w)) (cell + 1) =
        m (numbersPlace raw desc cell) := by
  unfold windowNumbers numbersPlace
  by_cases hpfx : raw = some .keyPfx
  · subst hpfx
    have hb : hasByte (some .keyPfx) desc = true := decide_eq_true (.inl rfl)
    have hlt := hbyte hb
    rw [hasWindow_keyPfx, hb, if_neg Bool.false_ne_true, if_pos rfl]
    refine ⟨pure (img.getD (cell + 1) 0, .init, .init), counts_pure _, ?_⟩
    rw [reader_bind_ok (readPfx_keyPfx (here_getD hlt))]
    rfl
  · rw [reader_bind_ok (readPfx_of_ne hpfx)]
    rcases readValidity_cases img desc hmis with ⟨hwin, m, hm, hcounts⟩ | ⟨hwin, hm⟩
    · have hb : hasByte raw desc = true := decide_eq_true (.inr hwin)
      rw [hwin, hb, if_pos rfl, if_pos rfl]
      refine ⟨m (img.getD (cell + 1) 0) >>= fun w => pure (0, w),
        (hcounts _).bind fun _ => counts_pure _, ?_⟩
      rw [hm, bind_assoc, reader_bind_ok (readByte_ok (here_getD (hbyte hb)))]
    · have hb : hasByte raw desc = false :=
        decide_eq_false (not_or.mpr ⟨hpfx, by simp [hwin]⟩)
      rw [hwin, hb, if_neg Bool.false_ne_true, if_neg Bool.false_ne_true]
      refine ⟨pure (0, .init, .init), counts_pure _, ?_⟩
      rw [hm]
      rfl

omit hmis hbyte in
/-- The byte in front of the numbers is read before anything is checked. -/
lemma front_leaves (hmis : mismatch into raw = false) (hbyte : hasByte raw desc = true)
    (hend : img.length ≤ cell + 1) :
    (readPfx img (some img.length) raw >>= fun pfx =>
      readValidity img (some img.length) into raw desc >>= fun w => pure (pfx, w)) (cell + 1) =
      .error (.read .fault) := by
  by_cases hpfx : raw = some .keyPfx
  · refine reader_bind_error ?_
    unfold readPfx
    rw [if_pos hpfx]
    exact reader_bind_error (readByte_leaves hend)
  · have hwin : hasWindow raw desc = true := (of_decide_eq_true hbyte).resolve_left hpfx
    rw [reader_bind_ok (readPfx_of_ne hpfx)]
    rcases readValidity_cases img desc hmis with ⟨-, m, hm, -⟩ | ⟨hno, -⟩
    · rw [hm, bind_assoc]
      exact reader_bind_error (readByte_leaves hend)
    · exact absurd (hwin.symm.trans hno) (by decide)

omit hmis hbyte in
/-- The header of a cell in terms of what is in front of the numbers. -/
lemma readHeader_eq : readHeader img (some img.length) into raw desc =
    (readPfx img (some img.length) raw >>= fun pfx =>
      readValidity img (some img.length) into raw desc >>= fun w => pure (pfx, w)) >>= fun x =>
        readField img (some img.length) desc cell64V 0 >>= fun v =>
          pure ⟨x.1, x.2.1, x.2.2, v⟩ := by
  unfold readHeader
  simp [bind_assoc]

omit hmis hbyte in
lemma reader_bind_congr {m' : CellReader α} (h : m p = m' q) : (m >>= f) p = (m' >>= f) q := by
  show (m p >>= fun ap => f ap.1 ap.2) = (m' q >>= fun ap => f ap.1 ap.2)
  rw [h]

/-- The numbers of a header. -/
def headerNumbers (img : List UInt8) (raw : Option CellType) (desc : UInt8) (cell : ℕ) : ℕ :=
  windowNumbers img raw desc cell + flagNumbers desc cell64V

lemma header_counts :
    ∃ m : CellReader CellHeader, Counts img m (headerNumbers img raw desc cell) ∧
      readHeader img (some img.length) into raw desc (cell + 1) =
        m (numbersPlace raw desc cell) := by
  obtain ⟨m, hm, heq⟩ := front_counts hmis hbyte
  refine ⟨_, hm.bind fun x => (counts_readField desc cell64V 0).bind fun v =>
    counts_pure (⟨x.1, x.2.1, x.2.2, v⟩ : CellHeader), ?_⟩
  rw [readHeader_eq]
  exact reader_bind_congr heq

/-- The header is read if its numbers can be read, and has the number that is there. -/
lemma readHeader_iff {v : ℕ} :
    (∃ h, readHeader img (some img.length) into raw desc (cell + 1) = .ok (h, p) ∧ h.v = v) ↔
      headerAt img raw desc cell = some (v, p) := by
  obtain ⟨m, hm, heq⟩ := front_counts hmis hbyte
  have hhdr : readHeader img (some img.length) into raw desc (cell + 1) =
      (m >>= fun x => readField img (some img.length) desc cell64V 0 >>= fun v =>
        pure ⟨x.1, x.2.1, x.2.2, v⟩) (numbersPlace raw desc cell) := by
    rw [readHeader_eq]
    exact reader_bind_congr heq
  have hfield : ∀ q, readField img (some img.length) desc cell64V 0 q = .ok (v, p) ↔
      (if desc &&& cell64V ≠ 0 then numberAt img q else some (0, q)) = some (v, p) := by
    intro q
    unfold readField
    by_cases h64 : desc &&& cell64V ≠ 0
    · rw [if_pos h64, if_pos h64]
      exact readUint_eq_ok
    · rw [if_neg h64, if_neg h64, Option.some.injEq]
      exact ⟨fun h => ok.inj h, fun h => congrArg _ h⟩
  rw [hhdr, headerAt, Option.bind_eq_some_iff]
  constructor
  · rintro ⟨h, hok, rfl⟩
    obtain ⟨⟨x, q⟩, hmq, hok⟩ := exists_of_bind_ok hok
    obtain ⟨vp, hv, hok⟩ := exists_of_bind_ok hok
    obtain ⟨rfl, rfl⟩ := Prod.mk.inj (ok.inj hok)
    exact ⟨q, (hm.behind _ q).mp ⟨x, hmq⟩, (hfield q).mp hv⟩
  · rintro ⟨q, hq, hv⟩
    obtain ⟨x, hx⟩ := (hm.behind _ q).mpr hq
    refine ⟨⟨x.1, x.2.1, x.2.2, v⟩, ?_, rfl⟩
    rw [reader_bind_ok hx, reader_bind_ok ((hfield q).mpr hv)]
    rfl

end

/-- A cell of the wrong type is refused. -/
lemma readHeader_mismatch (hmis : mismatch into raw = true) :
    readHeader img (some img.length) into raw desc (cell + 1) = .error .error := by
  have hpfx : raw ≠ some .keyPfx := by
    rintro rfl
    rcases of_decide_eq_true hmis with h | h
    · cases h.1
    · cases h.1
  have hval : readValidity img (some img.length) into raw desc (cell + 1) = .error .error := by
    unfold readValidity
    rcases of_decide_eq_true hmis with ⟨h, hne⟩ | ⟨h, hne⟩
    · rw [if_pos h, if_pos hne]
      rfl
    · have haddr : raw.any hasAddrValidity = false := by
        cases raw with
        | none => rfl
        | some t => cases t <;> revert h <;> decide
      rw [haddr, if_neg Bool.false_ne_true, if_pos h, if_pos hne]
      rfl
  unfold readHeader
  rw [reader_bind_ok (readPfx_of_ne hpfx)]
  exact reader_bind_error hval

end Header

end WiredTiger
