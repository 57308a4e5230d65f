/-
# What is on a page of compressed keys

The cells of a page spell the keys: a cell has the bytes of its key behind the prefix, and the
prefix is that of the last key in front that is not an overflow key.  The largest group that is
noted when the page is read consists of keys whose prefixes are prefixes of the group's first key.
-/
import WiredTiger.Btree.LeafKeys

namespace WiredTiger

open Lib List Nat Bool Prod RecKeyState

variable {cell : LeafKeyCell}

/-! ### Building -/

lemma samePfx_le_lcp (n : ℕ) (l m : List UInt8) : samePfx n l m ≤ lcp l m := by
  induction n generalizing l m with
  | zero => exact zero_le _
  | succ n ih =>
    cases l with
    | nil => exact zero_le _
    | cons a l =>
      cases m with
      | nil => exact zero_le _
      | cons b m =>
        rw [samePfx, lcp_cons_cons]
        split_ifs with hab
        · exact succ_le_succ (ih l m)
        · exact le_rfl

section

variable (conf : LeafKeyConf) (r : RecKeyState)

/-- The bytes that are left out are those of the last key. -/
lemma leafKeyPfx_spec (data : List UInt8) :
    leafKeyPfx conf r data = 0 ∨ r.keyPfxCompress = true ∧
      leafKeyPfx conf r data ≤ r.last.length ∧
      data = r.last.take (leafKeyPfx conf r data) ++ data.drop (leafKeyPfx conf r data) := by
  rw [leafKeyPfx]
  split_ifs with hon
  · dsimp only
    have hle := samePfx_le_lcp (min (min 255 data.length) r.last.length) data r.last
    generalize samePfx (min (min 255 data.length) r.last.length) data r.last = pfx at hle
    have hany : ∀ n ≤ pfx, n ≤ r.last.length ∧ data = r.last.take n ++ data.drop n := by
      intro n hn
      obtain ⟨-, hlen, htake⟩ := le_lcp_iff.mp (hn.trans hle)
      exact ⟨hlen, by rw [← htake, take_append_drop]⟩
    split_ifs with hmin hprev
    · exact .inl rfl
    · exact .inr ⟨hon, hany _ hprev.2.1.le⟩
    · exact .inr ⟨hon, hany _ le_rfl⟩
  · exact .inl rfl

/-- The cell spells the key, given the key that can be used for its prefix. -/
def SpellsKey (last : Option (List UInt8)) (key : List UInt8) : LeafKeyCell → Prop
  | .ovfl data => data = key
  | .key pfx data => (pfx = 0 ∧ data = key) ∨
      ∃ l ∈ last, pfx ≤ l.length ∧ key = l.take pfx ++ data

/-- The cells spell the keys. -/
def SpellsKeys : Option (List UInt8) → List (List UInt8 × LeafKeyCell) → Prop
  | _, [] => True
  | last, (key, cell) :: rows =>
    SpellsKey last key cell ∧ SpellsKeys (if cell.isOvfl then last else some key) rows

lemma SpellsKey.of_none {key : List UInt8} (h : SpellsKey none key cell)
    (last : Option (List UInt8)) : SpellsKey last key cell := by
  cases cell with
  | ovfl data => exact h
  | key pfx data =>
    rcases h with h | ⟨l, hl, -⟩
    · exact .inl h
    · cases hl

/-- More can be spelled with a key to begin with. -/
lemma SpellsKeys.of_none {rows : List (List UInt8 × LeafKeyCell)} (h : SpellsKeys none rows)
    (last : Option (List UInt8)) : SpellsKeys last rows := by
  induction rows generalizing last with
  | nil => trivial
  | cons row rows ih =>
    obtain ⟨key, cell⟩ := row
    refine ⟨h.1.of_none last, ?_⟩
    cases cell with
    | ovfl data => exact ih h.2 last
    | key pfx data => exact h.2

/-- The key that can be used for prefixes. -/
def RecKeyState.usable (r : RecKeyState) : Option (List UInt8) :=
  if r.keyPfxCompress then some r.last else none

lemma RecKeyState.mem_usable {r : RecKeyState} {l : List UInt8} :
    l ∈ r.usable ↔ r.keyPfxCompress = true ∧ r.last = l := by
  rw [usable]
  split_ifs with hon <;> simp [hon]

/-- What building a key does: the key is the current one and is spelled, without a prefix at a
boundary, where compression is turned off. -/
structure KeyBuilt (conf : LeafKeyConf) (r : RecKeyState) (data : List UInt8)
    (out : RecKeyState × LeafKeyCell) : Prop where
  cur_eq : out.1.cur = data
  last_eq : out.1.last = r.last
  compress : out.1.keyPfxCompress = true → r.keyPfxCompress = true
  spells : SpellsKey r.usable data out.2

lemma rebuildLeafKey_spells : SpellsKey none r.cur (rebuildLeafKey conf r).2 := by
  rw [rebuildLeafKey]
  split_ifs
  · rfl
  · exact .inl ⟨rfl, rfl⟩

lemma buildLeafKey_built (data : List UInt8) : KeyBuilt conf r data (buildLeafKey conf r data) := by
  rw [buildLeafKey]
  have hspec := leafKeyPfx_spec conf r data
  generalize leafKeyPfx conf r data = pfx at hspec
  split_ifs with hlong hzero
  · exact ⟨rfl, rfl, id, rfl⟩
  · exact ⟨rfl, rfl, id, (rebuildLeafKey_spells conf _).of_none _⟩
  · refine ⟨rfl, rfl, id, ?_⟩
    rcases hspec with rfl | ⟨hon, hle, heq⟩
    · exact .inl ⟨rfl, rfl⟩
    · exact .inr ⟨r.last, mem_usable.mpr ⟨hon, rfl⟩, hle, heq⟩

/-- A cell without compression, whatever the last key is. -/
lemma SpellsKey.none_of_usable {r : RecKeyState} {data : List UInt8}
    (h : SpellsKey r.usable data cell) (hoff : r.keyPfxCompress = false) :
    SpellsKey none data cell := by
  rwa [usable, hoff] at h

lemma leafKeyCell_built (hconf : r.keyPfxCompress = true → conf.pfxCompress = true)
    (data : List UInt8) (bnd : Boundary) :
    KeyBuilt conf r data (leafKeyCell conf r data bnd) ∧
      (bnd ≠ .inside → (leafKeyCell conf r data bnd).1.keyPfxCompress = false ∧
        SpellsKey none data (leafKeyCell conf r data bnd).2) := by
  have hbuilt := buildLeafKey_built conf r data
  rw [leafKeyCell]
  generalize buildLeafKey conf r data = out at hbuilt
  obtain ⟨r', cell⟩ := out
  dsimp only
  by_cases hbnd : bnd ≠ .inside ∧ conf.pfxCompress = true
  · rw [if_pos hbnd]
    split_ifs with hovfl
    · cases cell with
      | ovfl d => exact ⟨⟨hbuilt.cur_eq, hbuilt.last_eq, nofun, hbuilt.spells⟩,
          fun _ => ⟨rfl, hbuilt.spells⟩⟩
      | key p d => cases hovfl
    · have hspells := rebuildLeafKey_spells conf
        { r' with keyPfxCompress := false, keyPfxLast := 0 }
      have hcur : r'.cur = data := hbuilt.cur_eq
      subst hcur
      exact ⟨⟨hbuilt.cur_eq, hbuilt.last_eq, nofun, hspells.of_none _⟩, fun _ => ⟨rfl, hspells⟩⟩
  · rw [if_neg hbnd]
    refine ⟨hbuilt, fun hne => ?_⟩
    -- compression is not configured, and off
    have hoff : r.keyPfxCompress = false := by
      rw [eq_false_iff]
      exact fun hon => hbnd ⟨hne, hconf hon⟩
    refine ⟨?_, hbuilt.spells.none_of_usable hoff⟩
    rw [eq_false_iff]
    exact fun hon => absurd (hbuilt.compress hon) (by rw [hoff]; exact false_ne_true)

end

/-- What follows a key on its page can use the key, or what the key could use. -/
lemma SpellsKeys.cons {conf : LeafKeyConf} {r r' : RecKeyState} {data : List UInt8}
    {rows : List (List UInt8 × LeafKeyCell)} (hcur : r'.cur = data)
    (husable : ∀ l ∈ r'.usable, l ∈ r.usable) (hcell : SpellsKey r.usable data cell)
    (hrows : SpellsKeys (keyStateUpdate conf r' cell.isOvfl).usable rows) :
    SpellsKeys r.usable ((data, cell) :: rows) := by
  refine ⟨hcell, ?_⟩
  have hsome : ∀ o o' : Option (List UInt8), (∀ l ∈ o, l ∈ o') → SpellsKeys o rows →
      SpellsKeys o' rows := by
    intro o o' hsub h
    cases o with
    | none => exact h.of_none o'
    | some l =>
      rw [Option.mem_def.mp (hsub l rfl)]
      exact h
  refine hsome _ _ (fun l hl => ?_) hrows
  rw [keyStateUpdate] at hl
  split_ifs at hl ⊢ with hovfl
  · exact husable l hl
  · obtain ⟨-, rfl⟩ := mem_usable.mp hl
    exact congrArg some hcur.symm

/-- **Pages of keys are spelled.**  The first page goes on with what is there, all others start
afresh. -/
lemma leafPages_spells (conf : LeafKeyConf) (rows : List (List UInt8 × Boundary)) (r : RecKeyState)
    (hconf : r.keyPfxCompress = true → conf.pfxCompress = true) :
    ∃ page pages, leafPages conf r rows = page :: pages ∧ SpellsKeys r.usable page ∧
      (∀ q ∈ pages, SpellsKeys none q) ∧
      (page ++ pages.flatten).map fst = rows.map fst := by
  induction rows generalizing r with
  | nil => exact ⟨[], [], rfl, trivial, fun q hq => absurd hq not_mem_nil, rfl⟩
  | cons row rows ih =>
    obtain ⟨data, bnd⟩ := row
    obtain ⟨hbuilt, hnew⟩ := leafKeyCell_built conf r hconf data bnd
    rw [leafPages]
    generalize leafKeyCell conf r data bnd = out at hbuilt hnew
    obtain ⟨r', cell⟩ := out
    have hconf' : (keyStateUpdate conf r' cell.isOvfl).keyPfxCompress = true →
        conf.pfxCompress = true := by
      rw [keyStateUpdate]
      split_ifs
      · exact fun h => hconf (hbuilt.compress h)
      · exact id
    obtain ⟨page, pages, heq, hpage, hpages, hkeys⟩ := ih _ hconf'
    dsimp only
    rw [heq]
    have hmap : ((data, cell) :: (page ++ pages.flatten)).map fst =
        ((data, bnd) :: rows).map fst := by
      rw [map_cons, map_cons, hkeys]
    by_cases hbnd : bnd = .newPage
    · obtain ⟨hoff, hspells⟩ := hnew (by rw [hbnd]; decide)
      refine ⟨[], ((data, cell) :: page) :: pages, if_pos hbnd, trivial, fun q hq => ?_, hmap⟩
      rcases mem_cons.mp hq with rfl | hq
      · have hnone : ∀ l ∈ r'.usable, l ∈ (newPageState [] [] 0).usable := by
          intro l hl
          obtain ⟨hon, -⟩ := mem_usable.mp hl
          exact absurd (hoff.symm.trans hon) false_ne_true
        exact SpellsKeys.cons hbuilt.cur_eq hnone hspells hpage
      · exact hpages q hq
    · refine ⟨(data, cell) :: page, pages, if_neg hbnd, ?_, hpages, hmap⟩
      refine SpellsKeys.cons hbuilt.cur_eq (fun l hl => ?_) hbuilt.spells hpage
      obtain ⟨hon, rfl⟩ := mem_usable.mp hl
      exact mem_usable.mpr ⟨hbuilt.compress hon, hbuilt.last_eq.symm⟩

/-! ### Slots -/

/-- The slot has an overflow key. -/
def OvflAt (cells : List LeafKeyCell) (z : ℕ) : Prop := ∃ d, cells[z]? = some (.ovfl d)

/-- The slot has a key that is not an overflow key. -/
def KeyAt (cells : List LeafKeyCell) (z : ℕ) : Prop := ∃ p d, cells[z]? = some (.key p d)

/-- The last slot in front of another one that has not an overflow key. -/
structure Before (cells : List LeafKeyCell) (j i : ℕ) : Prop where
  lt : j < i
  keyAt : KeyAt cells j
  ovflAt : ∀ z, j < z → z < i → OvflAt cells z

variable {cells : List LeafKeyCell} {i j : ℕ}

lemma KeyAt.not_ovflAt (h : KeyAt cells i) : ¬OvflAt cells i := by
  rintro ⟨d, hd⟩
  obtain ⟨p, d', hd'⟩ := h
  rw [hd] at hd'
  cases hd'

lemma Before.unique {j' : ℕ} (h : Before cells j i) (h' : Before cells j' i) : j = j' := by
  rcases lt_trichotomy j j' with hlt | heq | hlt
  · exact absurd (h.ovflAt j' hlt h'.lt) h'.keyAt.not_ovflAt
  · exact heq
  · exact absurd (h'.ovflAt j hlt h.lt) h.keyAt.not_ovflAt

/-- Overflow keys are skipped. -/
lemma Before.skip (h : Before cells j i) (hi : OvflAt cells i) : Before cells j (i + 1) := by
  refine ⟨h.lt.trans (Nat.lt_succ_self i), h.keyAt, fun z hjz hz => ?_⟩
  rcases Nat.lt_succ_iff_lt_or_eq.mp hz with hz | rfl
  · exact h.ovflAt z hjz hz
  · exact hi

lemma Before.unskip (h : Before cells j (i + 1)) (hi : OvflAt cells i) : Before cells j i := by
  refine ⟨?_, h.keyAt, fun z hjz hz => h.ovflAt z hjz (hz.trans (Nat.lt_succ_self i))⟩
  refine lt_of_le_of_ne (Nat.lt_succ_iff.mp h.lt) ?_
  rintro rfl
  exact h.keyAt.not_ovflAt hi

lemma KeyAt.before (h : KeyAt cells i) : Before cells i (i + 1) :=
  ⟨lt_succ_self i, h, fun z hiz hz => absurd hz (by omega)⟩

lemma Before.eq_of_keyAt (h : Before cells j (i + 1)) (hi : KeyAt cells i) : j = i :=
  h.unique hi.before

lemma Before.cons (c : LeafKeyCell) (h : Before cells j i) : Before (c :: cells) (j + 1)
    (i + 1) := by
  refine ⟨succ_lt_succ h.lt, h.keyAt, fun z hjz hz => ?_⟩
  cases z with
  | zero => exact absurd hjz (not_lt_zero _)
  | succ z => exact h.ovflAt z (lt_of_succ_lt_succ hjz) (lt_of_succ_lt_succ hz)

/-- Where the prefix of a key comes from. -/
lemma SpellsKeys.get {last : Option (List UInt8)} {rows : List (List UInt8 × LeafKeyCell)}
    (h : SpellsKeys last rows) {key : List UInt8}
    (hi : rows[i]? = some (key, cell)) :
    (SpellsKey last key cell ∧ ∀ z < i, OvflAt (rows.map snd) z) ∨
      ∃ j l c, Before (rows.map snd) j i ∧ rows[j]? = some (l, c) ∧
        SpellsKey (some l) key cell := by
  induction rows generalizing last i with
  | nil => cases hi
  | cons row rows ih =>
    obtain ⟨key₀, cell₀⟩ := row
    cases i with
    | zero =>
      cases hi
      exact .inl ⟨h.1, fun z hz => absurd hz (not_lt_zero z)⟩
    | succ i =>
      rcases ih h.2 hi with ⟨hspells, hovfl⟩ | ⟨j, l, c, hb, hj, hspells⟩
      · cases cell₀ with
        | ovfl d =>
          refine .inl ⟨hspells, fun z hz => ?_⟩
          cases z with
          | zero => exact ⟨d, rfl⟩
          | succ z => exact hovfl z (lt_of_succ_lt_succ hz)
        | key p d =>
          refine .inr ⟨0, key₀, .key p d, ⟨succ_pos i, ⟨p, d, rfl⟩, fun z hz hzi => ?_⟩, rfl,
            hspells⟩
          cases z with
          | zero => exact absurd hz (lt_irrefl 0)
          | succ z => exact hovfl z (lt_of_succ_lt_succ hzi)
      · exact .inr ⟨j + 1, l, c, hb.cons cell₀, hj, hspells⟩

/-- The cells of a page spell the keys of its slots. -/
structure Spelled (cells : List LeafKeyCell) (K : ℕ → List UInt8) : Prop where
  ovfl : ∀ i d, cells[i]? = some (.ovfl d) → d = K i
  full : ∀ i d, cells[i]? = some (.key 0 d) → d = K i
  compressed : ∀ i p d, cells[i]? = some (.key p d) → p ≠ 0 →
    ∃ j, Before cells j i ∧ p ≤ (K j).length ∧ K i = (K j).take p ++ d

/-- The key of a slot. -/
def slotKey (page : List (List UInt8 × LeafKeyCell)) (i : ℕ) : List UInt8 :=
  (page[i]?.map fst).getD []

lemma slotKey_eq {page : List (List UInt8 × LeafKeyCell)} {key : List UInt8}
    (h : page[i]? = some (key, cell)) : slotKey page i = key := by
  rw [slotKey, h]
  rfl

lemma spelled_of_spellsKeys {page : List (List UInt8 × LeafKeyCell)} (h : SpellsKeys none page) :
    Spelled (page.map snd) (slotKey page) := by
  have hrow : ∀ {i cell}, (page.map snd)[i]? = some cell →
      page[i]? = some (slotKey page i, cell) := by
    intro i cell hi
    rw [getElem?_map] at hi
    obtain ⟨⟨key, c⟩, hrow, rfl⟩ := Option.map_eq_some_iff.mp hi
    rw [hrow, slotKey_eq hrow]
  -- a cell that is spelled without another key
  have hany : ∀ {i cell}, (page.map snd)[i]? = some cell →
      SpellsKey none (slotKey page i) cell ∨
        ∃ j, Before (page.map snd) j i ∧
          SpellsKey (some (slotKey page j)) (slotKey page i) cell := by
    intro i cell hi
    rcases h.get (hrow hi) with ⟨hspells, -⟩ | ⟨j, l, c, hb, hj, hspells⟩
    · exact .inl hspells
    · exact .inr ⟨j, hb, by rwa [slotKey_eq hj]⟩
  refine ⟨fun i d hi => ?_, fun i d hi => ?_, fun i p d hi hp => ?_⟩
  · rcases hany hi with h | ⟨j, -, h⟩
    · exact h
    · exact h
  · rcases hany hi with (⟨-, h⟩ | ⟨l, hl, -⟩) | ⟨j, -, ⟨-, h⟩ | ⟨l, -, -, h⟩⟩
    · exact h
    · cases hl
    · exact h
    · rw [h, take_zero, nil_append]
  · rcases hany hi with (⟨h, -⟩ | ⟨l, hl, -⟩) | ⟨j, hb, ⟨h, -⟩ | ⟨l, hl, hle, h⟩⟩
    · exact absurd h hp
    · cases hl
    · exact absurd h hp
    · cases hl
      exact ⟨j, hb, hle, h⟩

/-! ### The largest group -/

/-- All keys of a range of slots can be built from the key in front of it, which is complete. -/
def GroupSpan (cells : List LeafKeyCell) (K : ℕ → List UInt8) (a b : ℕ) : Prop :=
  ∀ y p d, a < y → y ≤ b → cells[y]? = some (.key p d) →
    (∃ d₀, cells[a]? = some (.key 0 d₀)) ∧ p ≤ (K a).length ∧ K y = (K a).take p ++ d

namespace PrefixGroups

/-- What is known when the slots in front of a slot have been looked at. -/
structure Inv (cells : List LeafKeyCell) (K : ℕ → List UInt8) (n : ℕ) (g : PrefixGroups) :
    Prop where
  best : GroupSpan cells K g.bestStart g.bestStop
  /-- There is no group yet: the last key is complete. -/
  idle : g.count = 0 → ∀ j, Before cells j n → j = g.start ∧ ∃ d, cells[j]? = some (.key 0 d)
  span : g.count ≠ 0 → GroupSpan cells K g.start g.stop
  stop : g.count ≠ 0 → g.start < g.stop ∧ ∃ d, cells[g.stop]? = some (.key g.smallest d)
  /-- The group can go on only if no other key has been seen since its last one. -/
  last : g.count ≠ 0 → g.lastSlot < n ∧ (g.lastSlot + 1 = n → Before cells g.stop n)

variable {K : ℕ → List UInt8} {n : ℕ} {g : PrefixGroups}

lemma Inv.track_best (h : Inv cells K n g) :
    GroupSpan cells K g.track.bestStart g.track.bestStop := by
  rw [track]
  split_ifs with hlt
  · exact h.span (by omega)
  · exact h.best

section

variable (hsp : Spelled cells K) (h : Inv cells K n g)
include hsp h

/-- The first key of a group. -/
lemma Inv.starts (hzero : g.count = 0) {p : ℕ} {d : List UInt8} (hn : cells[n]? = some (.key p d))
    (hp : p ≠ 0) : g.start < n ∧ GroupSpan cells K g.start n := by
  obtain ⟨j, hb, hle, hK⟩ := hsp.compressed n p d hn hp
  obtain ⟨rfl, hroot⟩ := h.idle hzero j hb
  refine ⟨hb.lt, fun y q d' hlt hyn hy => ?_⟩
  rcases lt_or_eq_of_le hyn with hyn | rfl
  · exact absurd (hb.ovflAt y hlt hyn) (KeyAt.not_ovflAt ⟨q, d', hy⟩)
  · rw [hn] at hy
    cases hy
    exact ⟨hroot, hle, hK⟩

/-- Another key of a group. -/
lemma Inv.continues (hcount : g.count ≠ 0) (hlast : g.lastSlot + 1 = n) {p : ℕ} {d : List UInt8}
    (hn : cells[n]? = some (.key p d)) (hp : p ≠ 0) (hsmall : p ≤ g.smallest) :
    g.start < n ∧ GroupSpan cells K g.start n := by
  have hb := (h.last hcount).2 hlast
  obtain ⟨j, hb', hle, hK⟩ := hsp.compressed n p d hn hp
  obtain rfl := hb'.unique hb
  obtain ⟨hlt, d₁, hstop⟩ := h.stop hcount
  obtain ⟨hroot, hle₁, hK₁⟩ := h.span hcount g.stop g.smallest d₁ hlt le_rfl hstop
  refine ⟨hlt.trans hb.lt, fun y q d' hay hyn hy => ?_⟩
  rcases lt_or_ge g.stop y with hsy | hys
  · rcases lt_or_eq_of_le hyn with hyn | rfl
    · exact absurd (hb.ovflAt y hsy hyn) (KeyAt.not_ovflAt ⟨q, d', hy⟩)
    · rw [hn] at hy
      cases hy
      refine ⟨hroot, hsmall.trans hle₁, ?_⟩
      rw [hK, hK₁, take_append_of_le_length (by rw [length_take]; omega), take_take,
        min_eq_left hsmall]
  · exact h.span hcount y q d' hay hys hy

lemma Inv.step {c : LeafKeyCell} (hn : cells[n]? = some c) : Inv cells K (n + 1) (g.step n c) := by
  cases c with
  | ovfl d =>
    have hovfl : OvflAt cells n := ⟨d, hn⟩
    refine ⟨h.best, fun hz j hb => h.idle hz j (hb.unskip hovfl), h.span, h.stop, fun hc => ?_⟩
    obtain ⟨hlt, hb⟩ := h.last hc
    refine ⟨succ_lt_succ hlt, fun heq => (hb (succ.inj heq)).skip hovfl⟩
  | key p d =>
    have hkey : KeyAt cells n := ⟨p, d, hn⟩
    rw [PrefixGroups.step]
    by_cases hp : p = 0
    · subst hp
      rw [if_pos rfl]
      refine ⟨h.track_best, fun _ j hb => ?_, fun hc => absurd rfl hc, fun hc => absurd rfl hc,
        fun hc => absurd rfl hc⟩
      obtain rfl := hb.eq_of_keyAt hkey
      exact ⟨rfl, d, hn⟩
    · rw [if_neg hp]
      split_ifs with hin
      · have hspan : g.start < n ∧ GroupSpan cells K g.start n := by
          by_cases hzero : g.count = 0
          · exact h.starts hsp hzero hn hp
          · obtain ⟨hlast, hsmall⟩ := hin.resolve_left hzero
            exact h.continues hsp hzero hlast hn hp hsmall
        exact ⟨h.best, fun hz => absurd hz (succ_ne_zero _), fun _ => hspan.2,
          fun _ => ⟨hspan.1, d, hn⟩, fun _ => ⟨lt_succ_self n, fun _ => hkey.before⟩⟩
      · refine ⟨h.best, fun hz => absurd (.inl hz) hin, h.span, h.stop, fun hc => ?_⟩
        have hlt := (h.last hc).1
        exact ⟨hlt.trans (lt_succ_self n), fun heq => absurd hlt (by omega)⟩

lemma Inv.walk {rest : List LeafKeyCell} (hrest : cells.drop n = rest) :
    GroupSpan cells K (g.walk n rest).bestStart (g.walk n rest).bestStop := by
  induction rest generalizing n g with
  | nil => exact h.track_best
  | cons c rest ih =>
    have hn : cells[n]? = some c := by
      rw [← head?_drop, hrest]
      rfl
    refine ih (h.step hsp hn) ?_
    rw [← drop_drop, hrest]
    rfl

end

end PrefixGroups

/-- **The group of a page.** -/
lemma groupSpan_inmemRowLeaf {K : ℕ → List UInt8} (hsp : Spelled cells K) :
    GroupSpan cells K (inmemRowLeaf cells).prefixStart (inmemRowLeaf cells).prefixStop := by
  refine PrefixGroups.Inv.walk hsp ⟨fun y p d hlt hle => absurd hlt (not_lt.mpr hle),
    fun _ j hb => ?_, fun hc => absurd rfl hc, fun hc => absurd rfl hc, fun hc => absurd rfl hc⟩
    drop_zero
  exact absurd hb.lt (not_lt_zero j)

end WiredTiger
