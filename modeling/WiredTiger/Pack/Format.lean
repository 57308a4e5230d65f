/-
# Format strings (`include/packing_inline.h`, `__pack_init` and `__pack_next`)

A format is a string of field types, each with a size in front of it, or none.  `__pack_next` gives
one field after the other; an integral type with a size stands for so many fields.
-/
import WiredTiger.Pack.IntPack

namespace WiredTiger

open List Nat

/-- The types of fields. -/
inductive PackType
  | S | s | x | t | u | U
  | b | h | i | l | q
  | B | H | I | L | Q | r | R
  deriving DecidableEq, Repr

/-- The type of a character; `j`, `J` and `K` are not taken from formats. -/
def PackType.ofChar : Char → Option PackType
  | 'S' => some .S
  | 's' => some .s
  | 'x' => some .x
  | 't' => some .t
  | 'u' => some .u
  | 'U' => some .U
  | 'b' => some .b
  | 'h' => some .h
  | 'i' => some .i
  | 'l' => some .l
  | 'q' => some .q
  | 'B' => some .B
  | 'H' => some .H
  | 'I' => some .I
  | 'L' => some .L
  | 'Q' => some .Q
  | 'r' => some .r
  | 'R' => some .R
  | _ => none

/-- `WT_PACK_VALUE` without its value. -/
structure PackValue where
  type : PackType
  havesize : Bool
  size : ℕ
  deriving DecidableEq, Repr

/-- `WT_PACK`: what is left of the format between `cur` and `end`, and the field that is to be
repeated. -/
structure Pack where
  cur : List Char
  repeats : ℕ
  lastv : PackValue
  deriving DecidableEq, Repr

/-- What a call of `__pack_next` does. -/
inductive Next
  | value (pv : PackValue) (pack : Pack)
  | notfound
  | einval
  deriving DecidableEq, Repr

/-- `WT_PACK_VALUE_INIT`, with a type. -/
def PackValue.init (type : PackType) : PackValue := ⟨type, false, 1⟩

/-- `__pack_init`.  The end is as many characters behind the start as the format has, also if the
start is moved behind a dot: the NUL at the end is then a character of the format. -/
def packInit : List Char → Except Errno Pack
  | [] => .ok ⟨[], 0, PackValue.init .x⟩
  | c :: cs =>
    if c = '@' ∨ c = '<' ∨ c = '>' then .error .einval
    else if c = '.' then .ok ⟨cs ++ ['\x00'], 0, PackValue.init .x⟩
    else .ok ⟨c :: cs, 0, PackValue.init .x⟩

/-- `WT_STORE_SIZE(strtoul(cur, &endsize, 10))`, and whether there is a size. -/
def readSize (cur : List Char) : Bool × ℕ × List Char :=
  let digits := cur.takeWhile Char.isDigit
  if digits = [] then (false, 1, cur)
  else
    let value := digits.foldl (fun n c => 10 * n + (c.toNat - '0'.toNat)) 0
    (true, min value (2 ^ 64 - 1) % 2 ^ 32, cur.dropWhile Char.isDigit)

/-- `__pack_next` from its label `next` on.  The label is reached again at most once for each
character. -/
def nextField : ℕ → List Char → Next
  | 0, _ => .notfound
  | fuel + 1, cur =>
    if cur = [] then .notfound
    else
      let (havesize, size, cur) := readSize cur
      match cur with
      | [] => .einval
      | c :: cur =>
        match PackType.ofChar c with
        | none => .einval
        | some .S => .value ⟨.S, havesize, size⟩ ⟨cur, 0, ⟨.S, havesize, size⟩⟩
        | some .s =>
          if size < 1 then .einval
          else .value ⟨.s, havesize, size⟩ ⟨cur, 0, ⟨.s, havesize, size⟩⟩
        | some .x => .value ⟨.x, havesize, size⟩ ⟨cur, 0, ⟨.x, havesize, size⟩⟩
        | some .t =>
          if size < 1 ∨ 8 < size then .einval
          else .value ⟨.t, havesize, size⟩ ⟨cur, 0, ⟨.t, havesize, size⟩⟩
        | some .u =>
          let type := if havesize = false ∧ cur.headD '\x00' ≠ '\x00' then .U else .u
          .value ⟨type, havesize, size⟩ ⟨cur, 0, ⟨type, havesize, size⟩⟩
        | some .U => .value ⟨.U, havesize, size⟩ ⟨cur, 0, ⟨.U, havesize, size⟩⟩
        | some type =>
          -- integral types repeat
          if size = 0 then nextField fuel cur
          else .value ⟨type, false, size⟩ ⟨cur, size - 1, ⟨type, false, size⟩⟩

/-- `__pack_next`. -/
def packNext (pack : Pack) : Next :=
  if 0 < pack.repeats then .value pack.lastv { pack with repeats := pack.repeats - 1 }
  else nextField (pack.cur.length + 1) pack.cur

/-! ### The fields of a format -/

/-- The fields in what is left of a format, and the error that ends them, if one does. -/
def fieldsFrom : ℕ → List Char → List PackValue × Option Errno
  | 0, _ => ([], none)
  | fuel + 1, cur =>
    match nextField (cur.length + 1) cur with
    | .notfound => ([], none)
    | .einval => ([], some .einval)
    | .value pv pack =>
      let rest := fieldsFrom fuel pack.cur
      (pv :: (replicate pack.repeats pack.lastv ++ rest.1), rest.2)

/-- What calls of `__pack_next` one after the other return. -/
def Pack.fields (pack : Pack) : List PackValue × Option Errno :=
  let rest := fieldsFrom (pack.cur.length + 1) pack.cur
  (replicate pack.repeats pack.lastv ++ rest.1, rest.2)

/-- The fields of a format, and the error that ends them, if one does. -/
def formatFields (fmt : List Char) : List PackValue × Option Errno :=
  match packInit fmt with
  | .error e => ([], some e)
  | .ok pack => pack.fields

variable {cur : List Char} {fuel : ℕ}

lemma length_readSize (cur : List Char) : (readSize cur).2.2.length ≤ cur.length := by
  unfold readSize
  dsimp only
  split_ifs
  · exact le_rfl
  · exact List.IsSuffix.length_le (dropWhile_suffix _)

/-- A field takes characters of the format. -/
lemma length_nextField {pv : PackValue} {pack : Pack}
    (h : nextField fuel cur = .value pv pack) : pack.cur.length < cur.length := by
  induction fuel generalizing cur with
  | zero => simp [nextField] at h
  | succ fuel ih =>
    have hlen := length_readSize cur
    unfold nextField at h
    split at h
    · cases h
    · split at h
      rename_i havesize size cur' hread
      rw [hread] at hlen
      split at h
      · cases h
      · rename_i c cur'
        rw [length_cons] at hlen
        split at h
        · cases h
        all_goals
          try split at h
          all_goals first
            | (cases h; dsimp only; omega)
            | exact (ih h).trans (by omega)
            | cases h

/-- The label is never reached more often than there are characters. -/
lemma nextField_fuel {fuel fuel' : ℕ} (h : cur.length < fuel)
    (h' : cur.length < fuel') : nextField fuel cur = nextField fuel' cur := by
  induction fuel generalizing fuel' cur with
  | zero => omega
  | succ fuel ih =>
    obtain ⟨fuel', rfl⟩ : ∃ n, fuel' = n + 1 := ⟨fuel' - 1, by omega⟩
    have hlen := length_readSize cur
    unfold nextField
    by_cases hnil : cur = []
    · rw [if_pos hnil, if_pos hnil]
    · rw [if_neg hnil, if_neg hnil]
      obtain ⟨havesize, size, cur', hread⟩ : ∃ a b c, readSize cur = (a, b, c) := ⟨_, _, _, rfl⟩
      rw [hread] at hlen ⊢
      cases cur' with
      | nil => rfl
      | cons c cur' =>
        rw [length_cons] at hlen
        have : nextField fuel cur' = nextField fuel' cur' := ih (by omega) (by omega)
        dsimp only
        cases PackType.ofChar c with
        | none => rfl
        | some type => cases type <;> simp [this]

lemma fieldsFrom_fuel {fuel fuel' : ℕ} (h : cur.length < fuel)
    (h' : cur.length < fuel') : fieldsFrom fuel cur = fieldsFrom fuel' cur := by
  induction fuel generalizing fuel' cur with
  | zero => omega
  | succ fuel ih =>
    obtain ⟨fuel', rfl⟩ : ∃ n, fuel' = n + 1 := ⟨fuel' - 1, by omega⟩
    unfold fieldsFrom
    cases hn : nextField (cur.length + 1) cur with
    | notfound => rfl
    | einval => rfl
    | value pv pack =>
      have hlen := length_nextField hn
      have : fieldsFrom fuel pack.cur = fieldsFrom fuel' pack.cur :=
        ih (by omega) (by omega)
      simp [this]

/-- **The fields of a format are what `__pack_next` returns**, call after call, until it finds no
more or an error. -/
theorem Pack.fields_eq (pack : Pack) :
    pack.fields = match packNext pack with
      | .notfound => ([], none)
      | .einval => ([], some .einval)
      | .value pv pack' => (pv :: pack'.fields.1, pack'.fields.2) := by
  obtain ⟨cur, repeats, lastv⟩ := pack
  cases repeats with
  | succ n => simp [Pack.fields, packNext, replicate_succ]
  | zero =>
    simp only [Pack.fields, packNext, fieldsFrom, lt_irrefl, if_false, replicate_zero,
      nil_append]
    cases hn : nextField (cur.length + 1) cur with
    | notfound => rfl
    | einval => rfl
    | value pv pack' =>
      have hlen := length_nextField hn
      dsimp only
      rw [fieldsFrom_fuel hlen (lt_succ_self _)]
      rfl

/-! ### What fields are -/

/-- What holds of a field that is found, and of the state behind it. -/
structure FieldFound (pv : PackValue) (pack : Pack) : Prop where
  lastv : pack.lastv = pv
  repeats : 0 < pack.repeats → pv.type ≠ .u
  /-- An item without size is at the end. -/
  last : pv.type = .u → pv.havesize = false → pack.cur.headD '\x00' = '\x00'

lemma fieldFound_of_nextField {pv : PackValue} {pack : Pack}
    (h : nextField fuel cur = .value pv pack) : FieldFound pv pack := by
  induction fuel generalizing cur with
  | zero => simp [nextField] at h
  | succ fuel ih =>
    unfold nextField at h
    split at h
    · cases h
    · split at h
      split at h
      · cases h
      · split at h
        case h_6 =>
          cases h
          exact ⟨rfl, by simp, fun htype hhave => by
            by_contra hne
            rw [if_pos ⟨hhave, hne⟩] at htype
            cases htype⟩
        case h_1 => cases h
        case h_8 =>
          split at h
          · exact ih h
          · cases h
            refine ⟨rfl, fun _ htype => ?_, fun htype => ?_⟩
            · simp_all
            · simp_all
        all_goals
          try split at h
          all_goals first
            | (cases h; exact ⟨rfl, by simp, by simp⟩)
            | cases h

/-- A field that takes what is left of the bytes is the last one. -/
def UnsizedLast : List PackValue → Prop
  | [] => True
  | pv :: pvs => (pv.type = .u → pv.havesize = false → pvs = []) ∧ UnsizedLast pvs

lemma unsizedLast_replicate_append {pv : PackValue} (n : ℕ) (h : 0 < n → pv.type ≠ .u)
    {pvs : List PackValue} (hpvs : UnsizedLast pvs) :
    UnsizedLast (replicate n pv ++ pvs) := by
  induction n with
  | zero => exact hpvs
  | succ n ih =>
    exact ⟨fun htype => absurd htype (h (succ_pos n)), ih fun _ => h (succ_pos n)⟩

/-- Behind the end of the format, or at a NUL in it, there are no fields. -/
lemma nextField_of_head (h : cur.headD '\x00' = '\x00') :
    nextField (fuel + 1) cur = .notfound ∨ nextField (fuel + 1) cur = .einval := by
  cases cur with
  | nil => exact .inl rfl
  | cons c cur =>
    rw [headD_cons] at h
    subst h
    exact .inr rfl

lemma unsizedLast_fieldsFrom : UnsizedLast (fieldsFrom fuel cur).1 := by
  induction fuel generalizing cur with
  | zero => exact trivial
  | succ fuel ih =>
    unfold fieldsFrom
    cases hn : nextField (cur.length + 1) cur with
    | notfound | einval => exact trivial
    | value pv pack =>
      have hfound := fieldFound_of_nextField hn
      dsimp only
      rw [hfound.lastv]
      refine ⟨?_, unsizedLast_replicate_append _ hfound.repeats ih⟩
      intro htype hhave
      have hrep : pack.repeats = 0 := by
        by_contra hne
        exact hfound.repeats (pos_of_ne_zero hne) htype
      rw [hrep, replicate_zero, nil_append]
      cases fuel with
      | zero => rfl
      | succ fuel =>
        unfold fieldsFrom
        rcases @nextField_of_head _ pack.cur.length (hfound.last htype hhave)
          with hend | hend <;> rw [hend]

/-- Only the last field of a format takes what is left. -/
lemma unsizedLast_formatFields (fmt : List Char) : UnsizedLast (formatFields fmt).1 := by
  unfold formatFields
  cases hinit : packInit fmt with
  | error e => exact trivial
  | ok pack =>
    have hrep : pack.repeats = 0 := by
      unfold packInit at hinit
      split at hinit
      · cases hinit
        rfl
      · split_ifs at hinit <;> cases hinit <;> rfl
    simp only [Pack.fields, hrep, replicate_zero, nil_append]
    exact unsizedLast_fieldsFrom

end WiredTiger
