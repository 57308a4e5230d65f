/-
# A dot in front of a format

A dot in front of a format is skipped, but counted: the end of the format is then behind the NUL
that terminates it, and `__pack_next` takes the NUL for the type of one more field.
-/
import WiredTiger.Pack.Bounds

namespace WiredTiger

open List

variable {cur : List Char} {fuel : ℕ}

/-! ### The fields -/

lemma readSize_nul (cur : List Char) : readSize (cur ++ ['\x00']) =
    ((readSize cur).1, (readSize cur).2.1, (readSize cur).2.2 ++ ['\x00']) := by
  have htake : (cur ++ ['\x00']).takeWhile Char.isDigit = cur.takeWhile Char.isDigit := by
    induction cur with
    | nil => rfl
    | cons c cur ih => cases hc : c.isDigit <;> simp [hc, ih]
  have hdrop : (cur ++ ['\x00']).dropWhile Char.isDigit =
      cur.dropWhile Char.isDigit ++ ['\x00'] := by
    induction cur with
    | nil => rfl
    | cons c cur ih => cases hc : c.isDigit <;> simp_all
  unfold readSize
  rw [htake, hdrop]
  dsimp only
  split_ifs <;> rfl

/-- With the NUL counted, the same field is found, or none is and the NUL is an error. -/
lemma nextField_nul (h : cur.length < fuel) : nextField fuel (cur ++ ['\x00']) =
    match nextField fuel cur with
    | .value pv pack => .value pv { pack with cur := pack.cur ++ ['\x00'] }
    | _ => .einval := by
  induction fuel generalizing cur with
  | zero => omega
  | succ fuel ih =>
    have hlen := length_readSize cur
    unfold nextField
    rw [readSize_nul, if_neg (by simp)]
    by_cases hnil : cur = []
    · subst hnil
      rfl
    · rw [if_neg hnil]
      obtain ⟨havesize, size, cur', hread⟩ : ∃ a b c, readSize cur = (a, b, c) := ⟨_, _, _, rfl⟩
      rw [hread] at hlen ⊢
      cases cur' with
      | nil => rfl
      | cons c cur' =>
        rw [length_cons] at hlen
        have hnext := @ih cur' (by omega)
        have hhead : (cur' ++ ['\x00']).headD '\x00' = cur'.headD '\x00' := by
          cases cur' <;> rfl
        dsimp only [cons_append]
        cases PackType.ofChar c with
        | none => rfl
        | some type =>
          cases type
          all_goals
            try rw [hhead]
            try split_ifs
            all_goals first
              | rfl
              | exact hnext

lemma fieldsFrom_nul (h : cur.length < fuel) :
    fieldsFrom fuel (cur ++ ['\x00']) = ((fieldsFrom fuel cur).1, some .einval) := by
  induction fuel generalizing cur with
  | zero => omega
  | succ fuel ih =>
    unfold fieldsFrom
    rw [nextField_nul (by simp), nextField_fuel (by simp) (Nat.lt_succ_self cur.length)]
    cases hn : nextField (cur.length + 1) cur with
    | notfound => rfl
    | einval => rfl
    | value pv pack =>
      have hlen := length_nextField hn
      dsimp only
      rw [ih (by omega)]

/-- A format that is accepted has the same fields with a dot, and an error at the end. -/
lemma formatFields_dot {fmt : List Char} {pvs : List PackValue}
    (h : formatFields fmt = (pvs, none)) : formatFields ('.' :: fmt) = (pvs, some .einval) := by
  have hdot : formatFields ('.' :: fmt) =
      ((fieldsFrom (fmt.length + 1) fmt).1, some .einval) := by
    show Pack.fields ⟨fmt ++ ['\x00'], 0, _⟩ = _
    simp only [Pack.fields, replicate_zero, nil_append]
    rw [fieldsFrom_fuel (Nat.lt_succ_self _)
      (show (fmt ++ ['\x00']).length < fmt.length + 2 by simp), fieldsFrom_nul (by omega),
      fieldsFrom_fuel (by omega) (Nat.lt_succ_self fmt.length)]
  rw [hdot]
  cases fmt with
  | nil =>
    cases h
    rfl
  | cons c cs =>
    unfold formatFields packInit at h
    dsimp only at h
    split_ifs at h with h1 h2
    · cases h
    · -- a dot is not accepted behind another one
      have hlen : cs.length < (cs ++ ['\x00']).length + 1 := by
        rw [length_append]
        omega
      have herr : (fieldsFrom ((cs ++ ['\x00']).length + 1) (cs ++ ['\x00'])).2 = none :=
        congrArg Prod.snd h
      rw [fieldsFrom_nul hlen] at herr
      cases herr
    · have hfields : (fieldsFrom ((c :: cs).length + 1) (c :: cs)).1 = pvs := congrArg Prod.fst h
      rw [hfields]

/-! ### The loops -/

section

variable (pvs : List PackValue) (e : Errno)

lemma sizeLoop_error (args : List Arg) (size : ℕ) :
    sizeLoop pvs (some e) args size =
      (sizeLoop pvs none args size).bind fun _ => .error e := by
  induction pvs generalizing args size with
  | nil => rfl
  | cons pv pvs ih =>
    unfold sizeLoop
    cases packGet pv args with
    | none => rfl
    | some u => exact ih _ _

lemma packLoop_error (size : ℕ) (args : List Arg) (bytes : List UInt8) :
    packLoop size pvs (some e) args bytes =
      ⟨(packLoop size pvs none args bytes).bytes,
        (packLoop size pvs none args bytes).err.or (some e)⟩ := by
  induction pvs generalizing args bytes with
  | nil => rfl
  | cons pv pvs ih =>
    unfold packLoop
    cases packGet pv args with
    | none => rfl
    | some u =>
      dsimp only
      cases hw : packWrite pv u.1 (subSize size bytes.length) with
      | mk w err => cases err <;> simp [ih]

lemma unpackLoop_error (buf : List UInt8) (p : ℕ) (outs : List Out) :
    unpackLoop buf pvs (some e) p outs =
      { unpackLoop buf pvs none p outs with
        err := (unpackLoop buf pvs none p outs).err.or (some (.errno e)) } := by
  induction pvs generalizing p outs with
  | nil => rfl
  | cons pv pvs ih =>
    unfold unpackLoop
    cases unpackRead pv buf p (subSize buf.length p) with
    | error err => rfl
    | ok r => exact ih _ _

end

/-- Every field is there in full. -/
def Complete : List PackValue → List UInt8 → Prop
  | [], _ => True
  | pv :: pvs, rest => ∃ n, fieldTaken pv rest = some n ∧ Complete pvs (rest.drop n)

/-- Unpacking that keeps to its bytes fails if a field is not there. -/
lemma unpackLoop_err_iff {buf : List UInt8} (hbuf : buf.length < 2 ^ 64) {pvs : List PackValue}
    {p : ℕ} (hp : p ≤ buf.length) (hroom : UnpackRoom pvs (buf.drop p)) (outs : List Out) :
    (unpackLoop buf pvs none p outs).err = none ↔ Complete pvs (buf.drop p) := by
  induction pvs generalizing p outs with
  | nil => exact iff_of_true rfl trivial
  | cons pv pvs ih =>
    have hlen : subSize buf.length p = (buf.drop p).length := by
      rw [subSize_of_le hp hbuf, length_drop]
    rw [unpackLoop, Complete, hlen]
    rcases (fieldRoom_spec pv hp).1 hroom.1 with ⟨⟨err, hread⟩, htaken⟩ |
      ⟨out, n, hread, htaken, hn, -⟩
    · rw [hread, htaken]
      simp
    · have hpn : p + n ≤ buf.length := by
        rw [length_drop] at hn
        omega
      have hrest := hroom.2 n htaken
      rw [drop_drop] at hrest
      rw [hread, htaken]
      simp only [Option.some.injEq, exists_eq_left', drop_drop]
      exact ih hpn hrest _

/-- **A dot is neutral only for calls that fail.**  For every format that is accepted: with a dot in
front of it sizing never does what it does without it, packing does so exactly if the buffer is too
small for the values, and unpacking exactly if a field is not there in full.  A call that succeeds
without the dot fails at the end of the format with it.  The buffers are such that nothing is
written or read behind their ends. -/
theorem dot_neutral_iff {fmt : List Char} (h : (formatFields fmt).2 = none) :
    (∀ args, ArgsValid (formatFields fmt).1 args →
      structSizev ('.' :: fmt) args ≠ structSizev fmt args) ∧
    (∀ size < 2 ^ 64, ∀ args, ArgsValid (formatFields fmt).1 args →
      PackRoom size (formatFields fmt).1 args →
      (structPackv size ('.' :: fmt) args = structPackv size fmt args ↔
        size < (structBytes (formatFields fmt).1 args).length)) ∧
    ∀ buf : List UInt8, buf.length < 2 ^ 64 → UnpackRoom (formatFields fmt).1 buf →
      (structUnpackv buf ('.' :: fmt) = structUnpackv buf fmt ↔
        ¬ Complete (formatFields fmt).1 buf) := by
  cases fmt with
  | nil =>
    -- the dot alone is a format of one character
    refine ⟨fun args _ hsize => ?_, fun size _ args _ _ => ?_, fun buf _ _ => ?_⟩
    · cases hsize
    · exact iff_of_false (fun hpack => by cases hpack) (Nat.not_lt_zero size)
    · exact iff_of_false (fun hunpack => by cases hunpack) (not_not.mpr trivial)
  | cons c cs =>
    obtain ⟨pvs, hpvs⟩ : ∃ pvs, formatFields (c :: cs) = (pvs, none) := ⟨_, Prod.ext rfl h⟩
    have hdot := formatFields_dot hpvs
    have hloops := followsLoops hpvs
    have hsingle : singleType ('.' :: c :: cs) = none := rfl
    rw [hpvs]
    refine ⟨fun args hargs => ?_, fun size hsize args hargs hroom => ?_, fun buf hbuf hroom => ?_⟩
    · rw [structSizev, hsingle, hdot, hloops.sizev, sizeLoop_error, sizeLoop_eq hargs]
      intro hsize
      cases hsize
    · have herr := ((@packLoop_spec pvs args size [] hargs hsize none (Nat.zero_le _)).1 hroom).2
      have hfits : (packLoop size pvs none args []).err = none ↔
          (structBytes pvs args).length ≤ size := by
        rw [herr, length_nil, Nat.zero_add]
        split_ifs with hle <;> simp [hle]
      rw [structPackv, hsingle, hdot, hloops.packv size hsize, packLoop_error, ← not_le, ← hfits]
      cases packLoop size pvs none args [] with
      | mk bytes err => cases err <;> simp
    · have herr : _ ↔ Complete pvs buf := unpackLoop_err_iff hbuf (Nat.zero_le _) hroom []
      rw [structUnpackv, hsingle, hdot, hloops.unpackv buf hbuf, unpackLoop_error, ← herr]
      cases unpackLoop buf pvs none 0 [] with
      | mk outs p err => cases err <;> simp

/-- The number 70 takes two bytes. -/
theorem dot_neutral_iff_int : (formatFields ['i']).2 = none ∧
    structPackv 1 ['.', 'i'] [.int 70] = structPackv 1 ['i'] [.int 70] :=
  have hargs : ArgsValid [.init .i] [.int 70] := .field nofun ⟨by decide, by decide⟩ .nil
  have hroom : PackRoom 1 [.init .i] [.int 70] := (⟨by decide, by decide⟩ : UintRefused 70 1)
  ⟨by decide, ((@dot_neutral_iff ['i'] (by decide)).2.1 1 (by decide) _ hargs hroom).mpr
    (by decide)⟩

/-- The number 5 is packed with the format `i` in one byte; with `.i` it is neither sized nor
packed, and a packed number is not unpacked. -/
theorem dot_fails : (formatFields ['i']).2 = none ∧
    structSizev ['i'] [.int 5] = .ok 1 ∧ structSizev ['.', 'i'] [.int 5] = .error .einval ∧
    structPackv 8 ['i'] [.int 5] = ⟨[0x85], none⟩ ∧
    structPackv 8 ['.', 'i'] [.int 5] = ⟨[0x85], some .einval⟩ ∧
    structUnpackv [0x85] ['i'] = ⟨[.int 5], 1, none⟩ ∧
    structUnpackv [0x85] ['.', 'i'] = ⟨[.int 5], 1, some (.errno .einval)⟩ := by
  decide +kernel

end WiredTiger
