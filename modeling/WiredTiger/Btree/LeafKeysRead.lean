/-
# Compressed keys read back

Rolling backward, `__wt_row_leaf_key_work` remembers the slot nearest to the wanted one with the
smallest prefix so far.  All keys between that slot and the current one share at least this prefix,
so the first complete key that is found has it, too, and the slots in between can be skipped.  From
there on each key has the prefix of the next one.
-/
import WiredTiger.Btree.LeafKeysBuilt

namespace WiredTiger

open Lib List Option Nat Prod KeyWork

/-- A page in memory: its cells and its group are as they were read, and the keys that are
instantiated are those of their slots. -/
structure LeafKeyPage.Instantiates (mem : LeafKeyPage) (page : List (List UInt8 × LeafKeyCell)) :
    Prop where
  cells_eq : mem.cells = page.map snd
  start_eq : mem.prefixStart = (inmemRowLeaf (page.map snd)).prefixStart
  stop_eq : mem.prefixStop = (inmemRowLeaf (page.map snd)).prefixStop
  ikeys_eq : ∀ i k, mem.ikeys i = some k → (page[i]?).map fst = some k

/-- What reading needs to know of a page. -/
structure Readable (mem : LeafKeyPage) (K : ℕ → List UInt8) : Prop where
  spelled : Spelled mem.cells K
  group : GroupSpan mem.cells K mem.prefixStart mem.prefixStop
  ikeys : ∀ i k, mem.ikeys i = some k → k = K i

variable {mem : LeafKeyPage} {K : ℕ → List UInt8}

/-! ### Slots, by what the loop does with them -/

/-- An overflow key: it is returned or skipped. -/
def Skips (mem : LeafKeyPage) (K : ℕ → List UInt8) (r : ℕ) : Prop :=
  OvflAt mem.cells r ∧ ∃ b, ∀ st : KeyWork, st.slot = r →
    st.step mem = if st.slotOffset = 0 then .done (K r) b else st.next

/-- A key that is complete: it is returned, or used to roll forward. -/
def IsFull (mem : LeafKeyPage) (K : ℕ → List UInt8) (r : ℕ) : Prop :=
  KeyAt mem.cells r ∧ ∀ st : KeyWork, st.slot = r → st.step mem = st.fullKey (K r)

/-- An instantiated key. -/
def IsInstant (mem : LeafKeyPage) (K : ℕ → List UInt8) (r : ℕ) : Prop :=
  KeyAt mem.cells r ∧ ∀ st : KeyWork, st.slot = r →
    st.step mem = if st.slotOffset = 0 then .done (K r) false
      else { st with keyb := K r, forward := true }.next

/-- A compressed key that has to be rolled over. -/
def Rolls (mem : LeafKeyPage) (r : ℕ) : Prop :=
  ∃ p d, mem.cells[r]? = some (.key p d) ∧ p ≠ 0 ∧
    ∀ st : KeyWork, st.slot = r → st.step mem = st.roll p d

section

variable (hm : Readable mem K)
include hm

/-- The key of which the group is built. -/
lemma groupKey_eq {k d₀ : List UInt8} (hroot : mem.cells[mem.prefixStart]? = some (.key 0 d₀))
    (hk : groupKey mem = some k) : k = K mem.prefixStart := by
  rw [groupKey, rowLeafKeyInfo, hroot] at hk
  cases hik : mem.ikeys mem.prefixStart with
  | some key =>
    simp only [hik, map_some] at hk
    cases hk
    exact hm.ikeys _ _ hik
  | none =>
    simp only [hik, map_some] at hk
    split_ifs at hk
    cases hk
    exact hm.spelled.full _ _ hroot

/-- A key on the page. -/
lemma onPageKey_cases {r p : ℕ} {d : List UInt8} (hr : mem.cells[r]? = some (.key p d))
    (hstep : ∀ st : KeyWork, st.slot = r → st.step mem = st.onPageKey mem p d) :
    IsFull mem K r ∨ Rolls mem r := by
  have hkey : KeyAt mem.cells r := ⟨p, d, hr⟩
  by_cases hp : p = 0
  · subst hp
    refine .inl ⟨hkey, fun st hst => ?_⟩
    rw [hstep st hst, onPageKey, if_pos rfl, hm.spelled.full r d hr]
  by_cases hin : mem.prefixStart < r ∧ r ≤ mem.prefixStop
  · obtain ⟨⟨d₀, hroot⟩, hle, hK⟩ := hm.group r p d hin.1 hin.2 hr
    cases hg : groupKey mem with
    | none =>
      refine .inr ⟨p, d, hr, hp, fun st hst => ?_⟩
      rw [hstep st hst, onPageKey, if_neg hp, prefixContinue, hst, if_pos hin]
      simp [hg]
    | some k =>
      obtain rfl := groupKey_eq hm hroot hg
      refine .inl ⟨hkey, fun st hst => ?_⟩
      rw [hstep st hst, onPageKey, if_neg hp, prefixContinue, hst, if_pos hin]
      simp only [hg]
      rw [if_neg (not_lt.mpr hle), hK]
  · refine .inr ⟨p, d, hr, hp, fun st hst => ?_⟩
    rw [hstep st hst, onPageKey, if_neg hp, prefixContinue, hst, if_neg hin]

/-- Each slot of the page is one of these. -/
lemma slot_cases {r : ℕ} (hr : r < mem.cells.length) :
    Skips mem K r ∨ IsFull mem K r ∨ IsInstant mem K r ∨ Rolls mem r := by
  obtain ⟨c, hc⟩ : ∃ c, mem.cells[r]? = some c := ⟨_, getElem?_eq_getElem hr⟩
  cases hik : mem.ikeys r with
  | some k =>
    obtain rfl := hm.ikeys r k hik
    cases c with
    | ovfl d =>
      refine .inl ⟨⟨d, hc⟩, false, fun st hst => ?_⟩
      simp [step, rowLeafKeyInfo, hst, hc, hik, map_some, LeafKeyCell.isOvfl]
    | key p d =>
      refine .inr (.inr (.inl ⟨⟨p, d, hc⟩, fun st hst => ?_⟩))
      simp [step, rowLeafKeyInfo, hst, hc, hik, map_some, LeafKeyCell.isOvfl,
        Bool.false_eq_true]
  | none =>
    cases c with
    | ovfl d =>
      refine .inl ⟨⟨d, hc⟩, true, fun st hst => ?_⟩
      simp [step, rowLeafKeyInfo, hst, hc, hik, map_some,
        hm.spelled.ovfl r d hc]
    | key p d =>
      have hstep : ∀ st : KeyWork, st.slot = r → st.step mem = st.onPageKey mem p d := by
        intro st hst
        simp only [step, rowLeafKeyInfo, hst, hc, hik, map_some]
        split_ifs <;> rfl
      rcases onPageKey_cases hm hc hstep with h | h
      · exact .inr (.inl h)
      · exact .inr (.inr (.inr h))

/-! ### Rolling forward -/

/-- The key has the prefix that the first key from a slot on needs. -/
def Suits (mem : LeafKeyPage) (K : ℕ → List UInt8) (k : List UInt8) (x : ℕ) : Prop :=
  ∀ y p d, x ≤ y → (∀ z, x ≤ z → z < y → OvflAt mem.cells z) → mem.cells[y]? = some (.key p d) →
    p ≤ k.length ∧ K y = k.take p ++ d

/-- A key has the prefix that the next one needs. -/
lemma suits_succ {r : ℕ} (hr : KeyAt mem.cells r) : Suits mem K (K r) (r + 1) := by
  intro y p d hle hovfl hy
  by_cases hp : p = 0
  · subst hp
    exact ⟨zero_le _, by rw [take_zero, nil_append, hm.spelled.full y d hy]⟩
  · obtain ⟨j, hb, hlen, hK⟩ := hm.spelled.compressed y p d hy hp
    obtain rfl : j = r := hb.unique ⟨hle, hr, fun z hz hzy => hovfl z hz hzy⟩
    exact ⟨hlen, hK⟩

omit hm in
lemma Suits.skip {k : List UInt8} {x : ℕ} (h : Suits mem K k x) (hx : OvflAt mem.cells x) :
    Suits mem K k (x + 1) := by
  intro y p d hle hovfl hy
  refine h y p d (le_of_succ_le hle) (fun z hxz hzy => ?_) hy
  rcases eq_or_lt_of_le hxz with rfl | hlt
  · exact hx
  · exact hovfl z hlt hzy

/-- What is left to be rolled over. -/
def Rollable (mem : LeafKeyPage) (K : ℕ → List UInt8) (y : ℕ) : Prop :=
  Skips mem K y ∨ IsInstant mem K y ∨ Rolls mem y

/-- **Rolling forward** from a slot with a key that has the prefix needed there leads to the wanted
key. -/
lemma loop_forward {T n x fuel : ℕ} (hx : x + n = T) (hfuel : n < fuel)
    (hroll : ∀ y, x ≤ y → y ≤ T → Rollable mem K y) {k : List UInt8} (hk : Suits mem K k x)
    (jump : Option (ℕ × ℕ)) (lastPrefix : ℕ) :
    ∃ b, KeyWork.loop mem fuel ⟨true, x, n, jump, lastPrefix, k⟩ = .ok (K T, b) := by
  induction n generalizing x fuel k with
  | zero =>
    obtain ⟨fuel, rfl⟩ : ∃ f, fuel = f + 1 := ⟨fuel - 1, by omega⟩
    obtain rfl : x = T := hx
    rcases hroll x le_rfl le_rfl with ⟨-, b, hstep⟩ | ⟨-, hstep⟩ | ⟨p, d, hc, -, hstep⟩
    · exact ⟨b, by rw [KeyWork.loop, hstep _ rfl, if_pos rfl]⟩
    · exact ⟨false, by rw [KeyWork.loop, hstep _ rfl, if_pos rfl]⟩
    · obtain ⟨hle, hK⟩ := hk x p d le_rfl (fun z h h' => absurd h (by omega)) hc
      refine ⟨true, ?_⟩
      rw [KeyWork.loop, hstep _ rfl, KeyWork.roll, if_pos rfl, if_neg (not_lt.mpr hle),
        if_pos rfl, hK]
  | succ n ih =>
    obtain ⟨fuel, rfl⟩ : ∃ f, fuel = f + 1 := ⟨fuel - 1, by omega⟩
    have hroll' : ∀ y, x + 1 ≤ y → y ≤ T → Rollable mem K y := fun y hy => hroll y (by omega)
    rcases hroll x le_rfl (by omega) with ⟨hovfl, b, hstep⟩ | ⟨hkey, hstep⟩ | ⟨p, d, hc, -, hstep⟩
    · rw [KeyWork.loop, hstep _ rfl, if_neg (succ_ne_zero n), KeyWork.next, if_pos rfl,
        if_neg (succ_ne_zero n)]
      exact ih (by omega) (by omega) hroll' (hk.skip hovfl)
    · rw [KeyWork.loop, hstep _ rfl, if_neg (succ_ne_zero n), KeyWork.next, if_pos rfl,
        if_neg (succ_ne_zero n)]
      exact ih (by omega) (by omega) hroll' (suits_succ hm hkey)
    · obtain ⟨hle, hK⟩ := hk x p d le_rfl (fun z h h' => absurd h (by omega)) hc
      rw [KeyWork.loop, hstep _ rfl, KeyWork.roll, if_pos rfl, if_neg (not_lt.mpr hle),
        if_neg (succ_ne_zero n), KeyWork.next, if_pos rfl, if_neg (succ_ne_zero n), ← hK]
      exact ih (by omega) (by omega) hroll' (suits_succ hm ⟨p, d, hc⟩)

end

/-! ### Rolling backward -/

/-- What is known while rolling backward from `T`, when slot `r` is next: the key at the jump slot
can be built from the last key up to `r`, and all slots behind `r` have to be rolled over. -/
structure RollingBack (mem : LeafKeyPage) (K : ℕ → List UInt8) (T r J m : ℕ) : Prop where
  lt : r < J
  le : J ≤ T
  jump : ∃ d, mem.cells[J]? = some (.key m d) ∧
    ∀ y, Before mem.cells y (r + 1) → m ≤ (K y).length ∧ K J = (K y).take m ++ d
  found : ∃ y, Before mem.cells y (r + 1)
  roll : ∀ z, r < z → z ≤ T → Rollable mem K z

namespace RollingBack

variable {T r J m : ℕ}

lemma roll_succ (h : RollingBack mem K T (r + 1) J m) (hroll : Rollable mem K (r + 1)) (z : ℕ)
    (hz : r < z) (hzT : z ≤ T) : Rollable mem K z := by
  rcases Nat.eq_or_lt_of_le hz with rfl | hlt
  · exact hroll
  · exact h.roll z hlt hzT

/-- A compressed key: it is the new jump slot. -/
lemma restart (hm : Readable mem K) {p : ℕ} {d : List UInt8}
    (hc : mem.cells[r + 1]? = some (.key p d)) (hp : p ≠ 0) (hle : r + 1 ≤ T)
    (hroll : ∀ z, r < z → z ≤ T → Rollable mem K z) : RollingBack mem K T r (r + 1) p := by
  obtain ⟨j, hb, hlen, hK⟩ := hm.spelled.compressed _ p d hc hp
  refine ⟨lt_succ_self r, hle, ⟨d, hc, fun y hy => ?_⟩, ⟨j, hb⟩, hroll⟩
  obtain rfl := hy.unique hb
  exact ⟨hlen, hK⟩

/-- A compressed key whose prefix is not smaller. -/
lemma keep (hm : Readable mem K) (h : RollingBack mem K T (r + 1) J m) {p : ℕ} {d : List UInt8}
    (hc : mem.cells[r + 1]? = some (.key p d)) (hp : p ≠ 0) (hmp : m ≤ p)
    (hroll : Rollable mem K (r + 1)) : RollingBack mem K T r J m := by
  obtain ⟨j, hb, hlen, hK⟩ := hm.spelled.compressed _ p d hc hp
  obtain ⟨e, hJ, hjump⟩ := h.jump
  obtain ⟨-, hKJ⟩ := hjump (r + 1) (KeyAt.before ⟨p, d, hc⟩)
  refine ⟨by have := h.lt; omega, h.le, ⟨e, hJ, fun y hy => ?_⟩, ⟨j, hb⟩, h.roll_succ hroll⟩
  obtain rfl := hy.unique hb
  refine ⟨hmp.trans hlen, ?_⟩
  rw [hKJ, hK, take_append_of_le_length (by rw [length_take]; omega), take_take,
    min_eq_left hmp]

/-- An overflow key. -/
lemma skip (h : RollingBack mem K T (r + 1) J m) (hovfl : OvflAt mem.cells (r + 1))
    (hroll : Rollable mem K (r + 1)) : RollingBack mem K T r J m := by
  obtain ⟨e, hJ, hjump⟩ := h.jump
  obtain ⟨y, hy⟩ := h.found
  exact ⟨by have := h.lt; omega, h.le, ⟨e, hJ, fun y hy => hjump y (hy.skip hovfl)⟩,
    ⟨y, hy.unskip hovfl⟩, h.roll_succ hroll⟩

/-- There is a key up to the next slot. -/
lemma not_ovflAt_zero (h : RollingBack mem K T 0 J m) : KeyAt mem.cells 0 := by
  obtain ⟨y, hy⟩ := h.found
  obtain rfl : y = 0 := lt_one_iff.mp hy.lt
  exact hy.keyAt

/-- The key at the next slot can be used at the jump slot. -/
lemma suits (h : RollingBack mem K T r J m) (hr : KeyAt mem.cells r) : Suits mem K (K r) J := by
  obtain ⟨e, hJ, hjump⟩ := h.jump
  intro y p d hle hovfl hy
  rcases eq_or_lt_of_le hle with rfl | hlt
  · rw [hJ] at hy
    cases hy
    exact hjump r hr.before
  · exact absurd (hovfl J le_rfl hlt) (KeyAt.not_ovflAt ⟨m, e, hJ⟩)

end RollingBack

open RollingBack

lemma next_back (r n : ℕ) (jump : Option (ℕ × ℕ)) (m : ℕ) (k : List UInt8) :
    next ⟨false, r + 1, n, jump, m, k⟩ = .goOn ⟨false, r, n + 1, jump, m, k⟩ := rfl

/-- A key to roll forward from. -/
lemma loop_found {J T m r fuel : ℕ} (hm : Readable mem K) (h : RollingBack mem K T r J m)
    (hr : IsFull mem K r ∨ IsInstant mem K r) (hfuel : T + 1 < fuel) (keyb : List UInt8) :
    ∃ b, loop mem fuel ⟨false, r, T - r, some (J, T - J), m, keyb⟩ = .ok (K T, b) := by
  obtain ⟨fuel, rfl⟩ : ∃ f, fuel = f + 1 := ⟨fuel - 1, by omega⟩
  have hlt := h.lt
  have hle := h.le
  have hoff : ¬T - r = 0 := by omega
  rcases hr with hr | hr
  · -- a complete key: from the jump slot
    rw [loop, hr.2 _ rfl, fullKey, if_neg hoff, switchAndJump, if_neg Bool.false_ne_true]
    exact loop_forward hm (by omega) (by omega) (fun y hy hyT => h.roll y (by omega) hyT)
      (h.suits hr.1) _ _
  · -- an instantiated key: from the next slot
    rw [loop, hr.2 _ rfl, if_neg hoff, KeyWork.next, if_pos rfl, if_neg hoff]
    dsimp only
    exact loop_forward hm (by omega) (by omega) (fun y hy hyT => h.roll y (by omega) hyT)
      (suits_succ hm hr.1) _ _

/-- **Rolling backward** ends at a key that can be used, and then the wanted key is built. -/
lemma loop_backward (hm : Readable mem K) {T r J m fuel : ℕ} (hT : T < mem.cells.length)
    (h : RollingBack mem K T r J m) (hfuel : r + T + 1 < fuel) (keyb : List UInt8) :
    ∃ b, KeyWork.loop mem fuel ⟨false, r, T - r, some (J, T - J), m, keyb⟩ = .ok (K T, b) := by
  have hlt := h.lt
  have hle := h.le
  induction r generalizing fuel J m with
  | zero =>
    rcases slot_cases hm (zero_lt_of_lt hT) with hr | hr | hr | ⟨p, d, hc, hp, -⟩
    · exact absurd hr.1 h.not_ovflAt_zero.not_ovflAt
    · exact loop_found hm h (.inl hr) (by omega) keyb
    · exact loop_found hm h (.inr hr) (by omega) keyb
    · obtain ⟨j, hb, -⟩ := hm.spelled.compressed 0 p d hc hp
      exact absurd hb.lt (not_lt_zero j)
  | succ r ih =>
    have hnext : T - (r + 1) + 1 = T - r := by omega
    have hoff : ¬T - (r + 1) = 0 := by omega
    rcases slot_cases hm (by omega : r + 1 < mem.cells.length) with hr | hr | hr | hr
    · have h' := h.skip hr.1 (.inl hr)
      obtain ⟨fuel, rfl⟩ : ∃ f, fuel = f + 1 := ⟨fuel - 1, by omega⟩
      obtain ⟨-, b, hstep⟩ := hr
      rw [KeyWork.loop, hstep _ rfl, if_neg hoff, next_back, hnext]
      exact ih h' (by omega) h'.lt h'.le
    · exact loop_found hm h (.inl hr) (by omega) keyb
    · exact loop_found hm h (.inr hr) (by omega) keyb
    · obtain ⟨fuel, rfl⟩ : ∃ f, fuel = f + 1 := ⟨fuel - 1, by omega⟩
      have hroll : Rollable mem K (r + 1) := .inr (.inr hr)
      obtain ⟨p, d, hc, hp, hstep⟩ := hr
      rw [KeyWork.loop, hstep _ rfl, KeyWork.roll, if_neg Bool.false_ne_true]
      by_cases hsmall : p < m
      · have h' := restart hm hc hp (by omega) (h.roll_succ hroll)
        rw [if_pos (.inr hsmall), next_back, hnext]
        exact ih h' (by omega) h'.lt h'.le
      · have h' := h.keep hm hc hp (by omega) hroll
        rw [if_neg (not_or.mpr ⟨hoff, hsmall⟩), next_back, hnext]
        exact ih h' (by omega) h'.lt h'.le

/-- The loop finds the key of each slot. -/
lemma loop_eq (hm : Readable mem K) {T : ℕ} (hT : T < mem.cells.length) :
    ∃ b, KeyWork.loop mem (2 * T + 2) ⟨false, T, 0, none, 0, []⟩ = .ok (K T, b) := by
  rcases slot_cases hm hT with ⟨-, b, hstep⟩ | ⟨-, hstep⟩ | ⟨-, hstep⟩ | hr
  · exact ⟨b, by rw [KeyWork.loop, hstep _ rfl, if_pos rfl]⟩
  · exact ⟨false, by rw [KeyWork.loop, hstep _ rfl, KeyWork.fullKey, if_pos rfl]⟩
  · exact ⟨false, by rw [KeyWork.loop, hstep _ rfl, if_pos rfl]⟩
  · have hroll : Rollable mem K T := .inr (.inr hr)
    obtain ⟨p, d, hc, hp, hstep⟩ := hr
    cases T with
    | zero =>
      obtain ⟨j, hb, -⟩ := hm.spelled.compressed 0 p d hc hp
      exact absurd hb.lt (Nat.not_lt_zero j)
    | succ T =>
      rw [KeyWork.loop, hstep _ rfl, KeyWork.roll, if_neg Bool.false_ne_true, if_pos (.inl rfl),
        next_back]
      have h : RollingBack mem K (T + 1) T (T + 1) p := restart hm hc hp le_rfl fun z hz hzT => by
        obtain rfl : z = T + 1 := by omega
        exact hroll
      have hback := loop_backward hm hT h (show T + (T + 1) + 1 < 2 * (T + 1) + 1 by omega) []
      rwa [Nat.sub_self, Nat.add_sub_cancel_left] at hback

/-! ### Pages -/

section Pages

variable {page : List (List UInt8 × LeafKeyCell)}

lemma LeafKeyPage.Instantiates.readable (h : mem.Instantiates page) (hpage : SpellsKeys none page) :
    Readable mem (slotKey page) := by
  have hsp := spelled_of_spellsKeys hpage
  refine ⟨by rw [h.cells_eq]; exact hsp, ?_, fun i k hk => ?_⟩
  · rw [h.cells_eq, h.start_eq, h.stop_eq]
    exact groupSpan_inmemRowLeaf hsp
  · rw [slotKey, h.ikeys_eq i k hk]
    rfl

/-- Instantiating the key of a slot. -/
lemma LeafKeyPage.Instantiates.rowInstantiate (h : mem.Instantiates page) {slot : ℕ}
    {k : List UInt8}
    (hk : (page[slot]?).map fst = some k) :
    (rowInstantiate mem slot k).Instantiates page := by
  rw [WiredTiger.rowInstantiate]
  cases hik : mem.ikeys slot with
  | some _ => exact h
  | none =>
    refine ⟨h.cells_eq, h.start_eq, h.stop_eq, fun i k' hi => ?_⟩
    dsimp only at hi
    split_ifs at hi with heq
    · cases hi
      rw [heq, hk]
    · exact h.ikeys_eq i k' hi

end Pages

/-- **Compressed keys read back.**  Keys are written to pages, with any configuration and any
boundaries.  The keys of all pages, in order, are the keys that were written; and when such a page
is in memory, whichever of its keys are instantiated, `__wt_row_leaf_key_work` on any slot returns
the slot's key and leaves such a page. -/
theorem rowLeafKeyWork_reads_back (conf : LeafKeyConf) (cur last : List UInt8) (keyPfxLast : ℕ)
    (rows : List (List UInt8 × Boundary)) :
    (leafPages conf (newPageState cur last keyPfxLast) rows).flatten.map fst =
        rows.map fst ∧
      ∀ page ∈ leafPages conf (newPageState cur last keyPfxLast) rows, ∀ mem : LeafKeyPage,
        mem.Instantiates page → ∀ slot key cell, page[slot]? = some (key, cell) →
          ∀ instantiate, ∃ mem', rowLeafKeyWork mem slot instantiate = .ok (key, mem') ∧
            mem'.Instantiates page := by
  obtain ⟨first, pages, heq, hfirst, hpages, hkeys⟩ :=
    leafPages_spells conf rows (newPageState cur last keyPfxLast) nofun
  rw [heq]
  refine ⟨by rw [flatten_cons]; exact hkeys, fun page hpage mem hmem slot key cell hslot b => ?_⟩
  have hspells : SpellsKeys none page := by
    rcases mem_cons.mp hpage with rfl | hpage
    · exact hfirst
    · exact hpages page hpage
  have hlt : slot < mem.cells.length := by
    rw [hmem.cells_eq, length_map]
    exact (List.getElem?_eq_some_iff.mp hslot).1
  obtain ⟨b', hloop⟩ := loop_eq (hmem.readable hspells) hlt
  rw [slotKey_eq hslot] at hloop
  refine ⟨_, by rw [rowLeafKeyWork, hloop]; rfl, ?_⟩
  split_ifs
  · exact hmem.rowInstantiate (by rw [hslot]; rfl)
  · exact hmem

/-- Three keys, two of which are compressed, and an overflow key between them. -/
theorem rowLeafKeyWork_reads_back_four :
    ∃ mem, rowLeafKeyWork (inmemRowLeaf [.key 0 [97, 98, 99, 100], .key 3 [101],
      .ovfl [98, 98, 98, 98, 98, 98], .key 2 [103]]) 3 true = .ok ([97, 98, 103], mem) := by
  obtain ⟨mem, hwork, -⟩ := (rowLeafKeyWork_reads_back ⟨true, 2, 5⟩ [] [] 0
    [([97, 98, 99, 100], .inside), ([97, 98, 99, 101], .inside),
      ([98, 98, 98, 98, 98, 98], .inside), ([97, 98, 103], .inside)]).2
    [([97, 98, 99, 100], .key 0 [97, 98, 99, 100]), ([97, 98, 99, 101], .key 3 [101]),
      ([98, 98, 98, 98, 98, 98], .ovfl [98, 98, 98, 98, 98, 98]), ([97, 98, 103], .key 2 [103])]
    (by decide) _ ⟨rfl, rfl, rfl, nofun⟩ 3 _ _ rfl true
  exact ⟨mem, hwork⟩

end WiredTiger
