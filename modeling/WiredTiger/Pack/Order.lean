/-
# Packed keys sort as their columns

Each column is packed so that it decides the comparison of its values, whatever is behind it.  Keys
of one format then compare column by column.
-/
import WiredTiger.Btree.Compare
import WiredTiger.Pack.RoundTrip

namespace WiredTiger

open Lib UInt8 List

/-- The types of the columns of a key. -/
def PackType.isKey : PackType → Bool
  | .b | .B | .h | .H | .i | .I | .l | .L | .q | .Q | .r | .t | .S | .s => true
  | _ => false

/-- A string with NULs behind it. -/
def padString (n : ℕ) (chars : List UInt8) : List UInt8 :=
  chars ++ replicate (n - chars.length) 0

/-- The order of the values of a column: numbers, or strings by their bytes, filled up if they
have a fixed length. -/
def columnCompare (pv : PackValue) : ColumnValue → ColumnValue → Ordering
  | .int x, .int y => compare x y
  | .uint x, .uint y => compare x y
  | .str a, .str b =>
    if pv.type = .s then lexCmp (padString pv.size a) (padString pv.size b) else lexCmp a b
  | _, _ => .eq

/-- The order of tuples, column by column. -/
def tupleCompare : List PackValue → List ColumnValue → List ColumnValue → Ordering
  | pv :: pvs, v :: vs, w :: ws => (columnCompare pv v w).then (tupleCompare pvs vs ws)
  | _, _, _ => .eq

/-- A fixed-length string is passed with NULs behind it, in all of its bytes. -/
def Filled (pv : PackValue) (v : ColumnValue) (u : Arg) : Prop :=
  match v, u with
  | .str chars, .str mem => pv.type = .s → mem.take pv.size = padString pv.size chars
  | _, _ => True

/-- All fixed-length strings are passed filled up. -/
def FilledAll : List PackValue → List ColumnValue → List Arg → Prop
  | pv :: pvs, v :: vs, u :: args => Filled pv v u ∧ FilledAll pvs vs args
  | _, _, _ => True

lemma pos_of_notMem {chars : List UInt8} (h : 0 ∉ chars) : ∀ c ∈ chars, 0 < c := by
  intro c hc
  have hne : c ≠ 0 := fun h0 => h (h0 ▸ hc)
  rw [UInt8.lt_iff_toNat_lt]
  have : c.toNat ≠ 0 := fun h0 => hne (UInt8.toNat_inj.mp h0)
  simpa using pos_of_ne_zero this

/-! ### Columns -/

lemma length_padString {n : ℕ} {chars : List UInt8} (h : chars.length ≤ n) :
    (padString n chars).length = n := by
  rw [padString, length_append, length_replicate]
  omega

lemma decides_padString {n : ℕ} {a b : List UInt8} (ha : a.length ≤ n) (hb : b.length ≤ n) :
    Decides (lexCmp (padString n a) (padString n b)) (padString n a) (padString n b) :=
  decides_of_length_eq (by rw [length_padString ha, length_padString hb])

lemma decides_byte {x y : ℕ} (hx : x < 2 ^ 8) (hy : y < 2 ^ 8) :
    Decides (compare x y) [ofNat x] [ofNat y] :=
  @decides_compare UInt8 _ ℕ _ (fun x => x < 2 ^ 8) (fun x => [ofNat x])
    (fun _ _ _ hy h => decides_cons_of_lt (ofNat_lt_ofNat h hy) _ _) x y hx hy

lemma decides_signedByte {x y : ℤ} (hx : -2 ^ 7 ≤ x ∧ x < 2 ^ 7) (hy : -2 ^ 7 ≤ y ∧ y < 2 ^ 7) :
    Decides (compare x y) [ofNat ((x + 0x80) % 256).toNat]
      [ofNat ((y + 0x80) % 256).toNat] :=
  @decides_compare UInt8 _ ℤ _ (fun x => -2 ^ 7 ≤ x ∧ x < 2 ^ 7)
    (fun x => [ofNat ((x + 0x80) % 256).toNat])
    (fun _ _ hx hy h => decides_cons_of_lt (ofNat_lt_ofNat (by omega) (by omega)) _ _) x y hx hy

/-- **A column decides the comparison of its values.** -/
lemma decides_field {pv : PackValue} {v w : ColumnValue} {u u' : Arg} (hkey : pv.type.isKey)
    (hv : Passes pv v u) (hw : Passes pv w u') (hfv : Filled pv v u) (hfw : Filled pv w u') :
    Decides (columnCompare pv v w) (fieldBytes pv u) (fieldBytes pv u') := by
  obtain ⟨type, havesize, size⟩ := pv
  cases type <;> cases v <;> cases u <;> simp only [Passes] at hv <;> try exact hv.elim
  all_goals cases w <;> cases u' <;> simp only [Passes] at hw
  case U.item.item.item.item | u.item.item.item.item => cases hkey
  case R.uint.uint.uint.uint => cases hkey
  case S.str.str.str.str a mem b mem' =>
    obtain ⟨h0, hv⟩ := hv
    obtain ⟨h0', hw⟩ := hw
    cases havesize with
    | true =>
      have hb := @stringBytes_sized ⟨.S, true, size⟩ _ _ rfl h0 hv.1 hv.2
      have hb' := @stringBytes_sized ⟨.S, true, size⟩ _ _ rfl h0' hw.1 hw.2
      simp only [fieldBytes, hb, hb', columnCompare]
      rw [if_neg (by simp), ← lexCmp_filled (pos_of_notMem h0) (pos_of_notMem h0') hv.1 hw.1]
      exact decides_padString hv.1 hw.1
    | false =>
      have hb := @stringBytes_unsized ⟨.S, false, size⟩ _ _ rfl h0 hv
      have hb' := @stringBytes_unsized ⟨.S, false, size⟩ _ _ rfl h0' hw
      simp only [fieldBytes, hb, hb', columnCompare]
      rw [if_neg (by simp)]
      exact decides_terminated (pos_of_notMem h0) (pos_of_notMem h0')
  case s.str.str.str.str a mem b mem' =>
    simp only [fieldBytes, columnCompare, if_true]
    rw [hfv rfl, hfw rfl]
    exact decides_padString hv.2.1 hw.2.1
  all_goals
    obtain ⟨rfl, hv⟩ := hv
    obtain ⟨rfl, hw⟩ := hw
  case b.int.int.int.int => exact decides_signedByte hv hw
  case B.uint.uint.uint.uint | t.uint.uint.uint.uint => exact decides_byte hv hw
  case q.int.int.int.int => exact decides_codeInt hv hw
  case h.int.int.int.int | i.int.int.int.int | l.int.int.int.int =>
    exact decides_codeInt (by omega) (by omega)
  all_goals exact decides_codeUint (by omega) (by omega)

/-! ### Keys -/

/-- Keys are compared column by column. -/
lemma decides_structBytes {pvs : List PackValue} {vs ws : List ColumnValue} {args args' : List Arg}
    (hkey : ∀ pv ∈ pvs, pv.type.isKey) (hv : PassesAll pvs vs args) (hw : PassesAll pvs ws args')
    (hfv : FilledAll pvs vs args) (hfw : FilledAll pvs ws args') :
    Decides (tupleCompare pvs vs ws) (structBytes pvs args) (structBytes pvs args') := by
  induction hv generalizing ws args' with
  | nil => exact decides_self []
  | @pad pv pvs vs args hx _ _ =>
    have := hkey pv mem_cons_self
    rw [hx] at this
    cases this
  | @field pv pvs v vs u args hp hrest ih =>
    cases hw with
    | pad hx _ => exact absurd hx hp.argValid.1
    | @field _ _ w ws u' args' hp' hrest' =>
      have hx := hp.argValid
      have hx' := hp'.argValid
      rw [structBytes, structBytes, packGet_field hx.1 hx.2, packGet_field hx'.1 hx'.2]
      exact (decides_field (hkey pv mem_cons_self) hp hp' hfv.1 hfw.1).append
        (ih (fun pv hpv => hkey pv (mem_cons_of_mem _ hpv)) hrest' hfv.2 hfw.2)

lemma structPackv_eq {fmt : List Char} {pvs : List PackValue} {vs : List ColumnValue}
    {args : List Arg}
    {size n : ℕ} (hfmt : formatFields fmt = (pvs, none)) (hp : PassesAll pvs vs args)
    (hsize : structSizev fmt args = .ok size) (hle : size ≤ n) (hn : n < 2 ^ 64) :
    structPackv n fmt args = ⟨structBytes pvs args, none⟩ := by
  have hfollow := followsLoops hfmt
  rw [hfollow.sizev, sizeLoop_eq hp.argsValid] at hsize
  simp only [zero_add, Except.ok.injEq] at hsize
  rw [hfollow.packv n hn, packLoop_of_le hp.argsValid hn none (by rw [length_nil]; omega)]
  rfl

/-- **Packed keys sort as their columns.**  Of two tuples of a key format, packed into buffers that
are large enough, the packed keys compare as the tuples do, column by column, if the fixed-length
strings are passed with NULs up to their size. -/
theorem packedKeys_sort {fmt : List Char} {pvs : List PackValue} {vs ws : List ColumnValue}
    {args args' : List Arg} {size size' n n' : ℕ} (isa : Isa)
    (hfmt : formatFields fmt = (pvs, none)) (hkey : ∀ pv ∈ pvs, pv.type.isKey)
    (hv : PassesAll pvs vs args) (hw : PassesAll pvs ws args')
    (hfv : FilledAll pvs vs args) (hfw : FilledAll pvs ws args')
    (hsize : structSizev fmt args = .ok size) (hn : size ≤ n ∧ n < 2 ^ 64)
    (hsize' : structSizev fmt args' = .ok size') (hn' : size' ≤ n' ∧ n' < 2 ^ 64) :
    ∃ key key', structPackv n fmt args = ⟨key, none⟩ ∧ structPackv n' fmt args' = ⟨key', none⟩ ∧
      lexCompare isa false key key' = tupleCompare pvs vs ws := by
  refine ⟨_, _, structPackv_eq hfmt hv hsize hn.1 hn.2, structPackv_eq hfmt hw hsize' hn'.1 hn'.2,
    ?_⟩
  rw [lexCompare_false]
  exact (decides_structBytes hkey hv hw hfv hfw).lexCmp_eq

/-- Keys of the format `3sq`: the first columns are the same. -/
theorem packedKeys_sort_example :
    ∃ key key', structPackv 16 ['3', 's', 'q'] [.str [97, 0, 0], .int (-70)] = ⟨key, none⟩ ∧
      structPackv 16 ['3', 's', 'q'] [.str [97, 0, 0], .int 5] = ⟨key', none⟩ ∧
      lexCompare .x86 false key key' =
        tupleCompare [⟨.s, true, 3⟩, ⟨.q, false, 1⟩] [.str [97], .int (-70)]
          [.str [97], .int 5] :=
  @packedKeys_sort ['3', 's', 'q'] [⟨.s, true, 3⟩, ⟨.q, false, 1⟩] [.str [97], .int (-70)]
    [.str [97], .int 5] [.str [97, 0, 0], .int (-70)] [.str [97, 0, 0], .int 5] 5 4 16 16 .x86
    (by decide) (by decide)
    (.field ⟨by decide, by decide, by decide, .inl ⟨[0], rfl⟩⟩
      (.field ⟨rfl, by decide, by decide⟩ .nil))
    (.field ⟨by decide, by decide, by decide, .inl ⟨[0], rfl⟩⟩
      (.field ⟨rfl, by decide, by decide⟩ .nil))
    ⟨fun _ => rfl, trivial, trivial⟩ ⟨fun _ => rfl, trivial, trivial⟩
    (by rfl) (by decide) (by rfl) (by decide)

/-- All bytes of a fixed-length string are stored, also those behind a NUL: one string packed from
two places gives two keys. -/
theorem fixedString_storedBehindNul :
    ∃ args args' : List Arg, formatFields ['3', 's'] = ([⟨.s, true, 3⟩], none) ∧
      PassesAll [⟨.s, true, 3⟩] [.str [97]] args ∧ PassesAll [⟨.s, true, 3⟩] [.str [97]] args' ∧
      structSizev ['3', 's'] args = .ok 3 ∧ structSizev ['3', 's'] args' = .ok 3 ∧
      tupleCompare [⟨.s, true, 3⟩] [.str [97]] [.str [97]] = .eq ∧
      lexCompare .x86 false (structPackv 3 ['3', 's'] args).bytes
        (structPackv 3 ['3', 's'] args').bytes = .lt := by
  refine ⟨[.str [97, 0, 1]], [.str [97, 0, 2]], by decide, ?_, ?_, by rfl, by rfl, by decide,
    by decide⟩
  · exact .field ⟨by decide, by decide, by decide, .inl ⟨[1], rfl⟩⟩ .nil
  · exact .field ⟨by decide, by decide, by decide, .inl ⟨[2], rfl⟩⟩ .nil

end WiredTiger
