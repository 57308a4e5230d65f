/-
# Where a search near lands

Both searches of a search near end on a record that has only smaller keys in front of it in the
tree, and only greater ones behind it.  The walk that follows goes on behind that record.

The record is looked up by its place.  What the validity check reads is the record, but for one
case: a row with a smaller key is looked up in the history store under another key.
-/
import WiredTiger.Btree.SearchNear
import WiredTiger.Btree.CursorWalk

namespace WiredTiger

open Lib List Option Leaf LeafPos Reader

variable {α β : Type} {rd : Reader α β} {P : Platform} {root : Page α β} {srchKey : Key}
  {l : Leaf α β} {pos : LeafPos} {skip : ℕ → Bool} {pfx : Option Key} {r : Rec α β}
  {A C : List (Rec α β)}

/-! ### Records by their place -/

lemma mem_recs_row (hr : r ∈ l.recs) {slot : ℕ} (hplace : r.place = .row slot) :
    ∃ row, l.rows[slot]? = some row ∧ r = ⟨.row slot, row.key, row.upd, some row.cell⟩ := by
  rcases mem_append.mp hr with hr | hr
  · obtain ⟨x, -, rfl⟩ := mem_map.mp hr
    cases hplace
  · obtain ⟨⟨row, i⟩, hrow, hr⟩ := mem_flatMap.mp hr
    rcases mem_cons.mp hr with rfl | hr
    · cases hplace
      exact ⟨row, mem_zipIdx_iff_getElem?.mp hrow, rfl⟩
    · obtain ⟨x, -, rfl⟩ := mem_map.mp hr
      cases hplace

lemma mem_recs_ins (hr : r ∈ l.recs) {slot : Option ℕ} {j : ℕ}
    (hplace : r.place = .ins slot j) :
    ∃ node, (l.insList slot)[j]? = some node ∧ r = ⟨.ins slot j, node.key, node.upd, none⟩ := by
  rcases mem_append.mp hr with hr | hr
  · obtain ⟨⟨node, i⟩, hnode, rfl⟩ := mem_map.mp hr
    cases hplace
    exact ⟨node, mem_zipIdx_iff_getElem?.mp hnode, rfl⟩
  · obtain ⟨⟨row, i⟩, hrow, hr⟩ := mem_flatMap.mp hr
    rcases mem_cons.mp hr with rfl | hr
    · cases hplace
    · obtain ⟨⟨node, i'⟩, hnode, rfl⟩ := mem_map.mp hr
      cases hplace
      have hrow := mem_zipIdx_iff_getElem?.mp hrow
      refine ⟨node, ?_, rfl⟩
      simpa [insList, hrow] using mem_zipIdx_iff_getElem?.mp hnode

/-- A record is known by its place. -/
lemma eq_of_place {r r' : Rec α β} (hr : r ∈ l.recs) (hr' : r' ∈ l.recs)
    (hplace : r.place = r'.place) : r = r' := by
  cases hp : r.place with
  | row slot =>
    obtain ⟨row, hrow, rfl⟩ := mem_recs_row hr hp
    obtain ⟨row', hrow', rfl⟩ := mem_recs_row hr' (hplace ▸ hp)
    obtain rfl := some.inj (hrow.symm.trans hrow')
    rfl
  | ins slot j =>
    obtain ⟨node, hnode, rfl⟩ := mem_recs_ins hr hp
    obtain ⟨node', hnode', rfl⟩ := mem_recs_ins hr' (hplace ▸ hp)
    obtain rfl := some.inj (hnode.symm.trans hnode')
    rfl

/-- There is one way to split sorted records at one of them. -/
lemma RecsSorted.split_unique {A C F D : List (Rec α β)}
    (h : RecsSorted (A ++ r :: C)) (heq : A ++ r :: C = F ++ r :: D) : A = F ∧ C = D := by
  obtain ⟨hA, hC⟩ := h.around
  have hnotA : r ∉ A := fun hr => lt_irrefl _ (hA r hr)
  have hnotC : r ∉ C := fun hr => lt_irrefl _ (hC r hr)
  obtain ⟨h₁, -, h₂⟩ := (append_cons_inj_of_notMem hnotA hnotC).mp heq
  exact ⟨h₁, h₂⟩

lemma Leaf.eq_nil_of_recs (h : l.recs = []) : l.smallest = [] ∧ l.rows = [] := by
  rw [recs, append_eq_nil_iff] at h
  refine ⟨by simpa [insRecs] using h.1, ?_⟩
  rcases hrows : l.rows with _ | ⟨row, rows⟩
  · rfl
  · simp [hrows, rowRecs] at h

lemma Leaf.insList_nil (h : l.recs = []) (slot : Option ℕ) : l.insList slot = [] := by
  obtain ⟨hsmall, hrows⟩ := eq_nil_of_recs h
  cases slot <;> simp [insList, hsmall, hrows]

/-- Nothing is valid on an empty page. -/
lemma cursorValid_nil (h : l.recs = []) : cursorValid rd l pos = .ok none := by
  have hrows := (eq_nil_of_recs h).2
  cases hins : pos.ins <;> simp [cursorValid, hins, insList_nil h, hrows]

lemma Leaf.row_mem {i : ℕ} {row : Row α β} (h : l.rows[i]? = some row) :
    (⟨.row i, row.key, row.upd, some row.cell⟩ : Rec α β) ∈ l.recs := by
  rw [recs_row h]
  simp

/-! ### The landing -/

/-- The record at the position of a search. -/
structure LandsAt (srchKey : Key) (l : Leaf α β) (pos : LeafPos) (A : List (Rec α β))
    (r : Rec α β) (C : List (Rec α β)) : Prop where
  recs : l.recs = A ++ r :: C
  place : r.place = pos.place
  front : ∀ a ∈ A, a.key < srchKey
  behind : ∀ c ∈ C, srchKey < c.key
  compare : pos.compare = lexCmp r.key srchKey

lemma iterSlot_insHead (pos : LeafPos) :
    iterSlot (if pos.smallest then 1 else (pos.slot + 1) * 2 + 1) = pos.insSlot := by
  cases hsmall : pos.smallest
  · simp only [iterSlot, insSlot, hsmall, Bool.false_eq_true, if_false]
    rw [if_neg (by omega)]
    congr 1
    omega
  · simp [iterSlot, insSlot, hsmall]

/-- The two ways a search of a leaf page ends. -/
lemma LeafEnd.lands (h : LeafEnd srchKey l pos) :
    (∃ A r C, LandsAt srchKey l pos A r C) ∨ (l.recs = [] ∧ pos.ins = none) := by
  rcases h.pos with ⟨A, r, C, h₁, h₂, h₃, h₄, h₅⟩ | ⟨hnil, -, hplace⟩
  · exact .inl ⟨A, r, C, h₁, h₂, h₃, h₄, h₅⟩
  · refine .inr ⟨hnil, ?_⟩
    rw [place] at hplace
    cases hins : pos.ins with
    | none => rfl
    | some j => simp [hins] at hplace

namespace LandsAt

variable (h : LandsAt srchKey l pos A r C)
include h

lemma mem : r ∈ l.recs := by
  rw [h.recs]
  simp

/-- The place of a position is a node of an insert list, or a row. -/
lemma cases :
    (∃ j node, pos.ins = some j ∧ (l.insList pos.insSlot)[j]? = some node ∧
      r = ⟨.ins pos.insSlot j, node.key, node.upd, none⟩) ∨
    (∃ row, pos.ins = none ∧ l.rows[pos.slot]? = some row ∧
      r = ⟨.row pos.slot, row.key, row.upd, some row.cell⟩) := by
  rcases hins : pos.ins with _ | j
  · have hplace : r.place = .row pos.slot := by rw [h.place, LeafPos.place, hins]
    obtain ⟨row, hrow, hr⟩ := mem_recs_row h.mem hplace
    exact .inr ⟨row, rfl, hrow, hr⟩
  · have hplace : r.place = .ins pos.insSlot j := by rw [h.place, LeafPos.place, hins]
    obtain ⟨node, hnode, hr⟩ := mem_recs_ins h.mem hplace
    exact .inl ⟨j, node, rfl, hnode, hr⟩

/-- A smaller record than the one at the landing is in front of it, and a greater one is behind
it. -/
lemma lt_of_mem (hs : RecsSorted l.recs) {x : Rec α β} (hx : x ∈ l.recs) :
    (x.key < r.key → x.key < srchKey) ∧ (r.key < x.key → srchKey < x.key) := by
  rw [h.recs] at hs hx
  rcases mem_append.mp hx with hx | hx
  · exact ⟨fun _ => h.front x hx, fun hlt => absurd (hs.around.1 x hx) hlt.not_gt⟩
  rcases mem_cons.mp hx with rfl | hx
  · exact ⟨fun hlt => absurd hlt (lt_irrefl _), fun hlt => absurd hlt (lt_irrefl _)⟩
  · exact ⟨fun hlt => absurd (hs.around.2 x hx) hlt.not_gt, fun _ => h.behind x hx⟩

/-- The record at a position of slot `pos.slot` is between two rows. -/
lemma between {lo hi : Option Key} (hwf : l.WF lo hi) (hsmall : pos.smallest = false) :
    ∃ row, l.rows[pos.slot]? = some row ∧ ¬ r.key < row.key ∧
      ∀ row', l.rows[pos.slot + 1]? = some row' → r.key < row'.key := by
  rcases h.cases with ⟨j, node, hins, hnode, rfl⟩ | ⟨row, hins, hrow, rfl⟩
  · have hslot : pos.insSlot = some pos.slot := by simp [insSlot, hsmall]
    rw [hslot] at hnode ⊢
    rcases hrow : l.rows[pos.slot]? with _ | row
    · simp [insList, hrow] at hnode
    have hnode' : row.ins[j]? = some node := by simpa [insList, hrow] using hnode
    have hmem : (⟨.ins (some pos.slot) j, node.key, node.upd, none⟩ : Rec α β) ∈
        insRecs (some pos.slot) row.ins :=
      mem_map.mpr ⟨(node, j), mem_zipIdx_iff_getElem?.mpr hnode', rfl⟩
    refine ⟨row, rfl, ?_, fun row' hrow' => ?_⟩
    · exact ((hwf.around_row hrow).2 _ (mem_append_left _ hmem)).not_gt
    · refine (hwf.around_row hrow').1 _ (mem_append_right _ ?_)
      refine mem_flatMap.mpr ⟨(row, pos.slot), ?_, mem_cons_of_mem _ hmem⟩
      rw [mem_zipIdx_iff_getElem?, getElem?_take_of_lt (Nat.lt_succ_self _), hrow]
  · exact ⟨row, hrow, lt_irrefl _, fun row' hrow' =>
      hwf.rows_sorted (Nat.lt_succ_self _) hrow hrow'⟩

variable (hend : LeafEnd srchKey l pos)
include hend

/-- The key that is returned is that of the record. -/
lemma keyReturn : keyReturn l pos = r.key := by
  rcases h.cases with ⟨j, node, hins, hnode, rfl⟩ | ⟨row, hins, hrow, rfl⟩
  · simp [WiredTiger.keyReturn, hins, hnode]
  · by_cases heq : pos.compare = .eq
    · simp only [WiredTiger.keyReturn, hins, if_pos heq]
      exact hend.tmp hins (by simp [heq]) row hrow
    · simp [WiredTiger.keyReturn, hins, hrow, heq]

/-- What the validity check says about a record that is not a row with a smaller key. -/
lemma cursorValid (hcmp : pos.compare ≠ .lt) :
    cursorValid rd l pos = readValid (rd.readRec r) := by
  rcases h.cases with ⟨j, node, hins, hnode, rfl⟩ | ⟨row, hins, hrow, rfl⟩
  · simp [WiredTiger.cursorValid, hins, hnode, readRec]
  · simp [WiredTiger.cursorValid, hins, hrow, readRec, hend.tmp hins hcmp row hrow]

/-- The position of the iteration after the search. -/
lemma iterPos (page : ℕ) :
    IterPos l (iterateSetup page pos).rowIterationSlot pos.ins ∧
      (pos.ins = none → (iterateSetup page pos).rowIterationSlot % 2 = 0) ∧
      iterPlace (iterateSetup page pos).rowIterationSlot pos.ins = pos.place := by
  rcases h.cases with ⟨j, node, hins, hnode, -⟩ | ⟨row, hins, hrow, -⟩
  · have hhead : pos.insHead = true := by simp [hend.head, hins]
    have hslot : (iterateSetup page pos).rowIterationSlot =
        if pos.smallest then 1 else (pos.slot + 1) * 2 + 1 := by simp [iterateSetup, hhead]
    have hlist : l.iterIns (iterateSetup page pos).rowIterationSlot = l.insList pos.insSlot := by
      rw [iterIns, hslot, iterSlot_insHead]
    have hj := (List.getElem?_eq_some_iff.mp hnode).1
    have hle : (iterateSetup page pos).rowIterationSlot ≤ l.rows.length * 2 + 1 := by
      rw [hslot]
      split_ifs with hsmall
      · omega
      · -- the insert list belongs to a row of the page
        by_contra hgt
        have hnone : l.rows[pos.slot]? = none := getElem?_eq_none (by omega)
        simp [LeafPos.insSlot, hsmall, insList, hnone] at hj
    refine ⟨⟨by rw [hslot]; split_ifs <;> omega, hle, ?_⟩, by simp [hins], ?_⟩
    · intro j' hj'
      obtain rfl := some.inj (hins.symm.trans hj')
      refine ⟨?_, by rw [hlist]; exact hj⟩
      rw [hslot]
      split_ifs <;> omega
    · simp [iterPlace, LeafPos.place, hins, hslot, iterSlot_insHead]
  · have hhead : pos.insHead = false := by simp [hend.head, hins]
    have hslot : (iterateSetup page pos).rowIterationSlot = (pos.slot + 1) * 2 := by
      simp [iterateSetup, hhead]
    have hlt := (List.getElem?_eq_some_iff.mp hrow).1
    rw [hslot, hins]
    refine ⟨iterPos_none (by omega) (by omega), fun _ => by omega, ?_⟩
    rw [iterPlace, LeafPos.place, hins]
    congr 1
    omega

/-- A move forward from the landing goes on behind it. -/
lemma afterNext (hs : RecsSorted l.recs) (page : ℕ) :
    afterNext l (iterateSetup page pos).rowIterationSlot pos.ins = C := by
  obtain ⟨hiter, hon, hplace⟩ := h.iterPos hend page
  obtain ⟨F, r', hrecs, hr'⟩ := recs_at hiter hon
  have hmem : r' ∈ l.recs := by
    rw [hrecs]
    simp
  obtain rfl := eq_of_place h.mem hmem (by rw [h.place, hr', hplace])
  rw [h.recs] at hs hrecs
  exact (hs.split_unique hrecs).2.symm

end LandsAt

/-! ### The walk behind the landing -/

variable (rd P skip pfx) in
/-- **A move forward from where the search has ended** is a scan of the records above the search key
that are left on the page, and of those on the pages to the right that are not skipped. -/
lemma TreeEnd.next {page : ℕ} {leaves : List (Leaf α β)} (h : TreeEnd srchKey leaves page l pos) :
    ∃ C, (∀ x, x ∈ C ↔ x ∈ l.recs ∧ srchKey < x.key ∧ x.place ≠ pos.place) ∧ C.Sublist l.recs ∧
      TreeMatches leaves (cbtNext leaves skip)
        (btcurNextPrefix rd P.isa leaves skip pfx (iterateSetup page pos))
        (scan rd P.isa pfx (C ++ pagesNext skip (leaves.drop (page + 1)) (page + 1))) := by
  have hs := h.sorted
  rcases h.pos.lands with ⟨A, r, C, hland⟩ | ⟨hnil, hins⟩
  · have hok : CbtOk leaves (iterateSetup page pos) :=
      ⟨page, l, rfl, h.leaf, (hland.iterPos h.pos page).1⟩
    have hmove := btcurNextPrefix_scan rd P.isa pfx skip hok
    have hleft : cbtNext leaves skip (iterateSetup page pos) =
        C ++ pagesNext skip (leaves.drop (page + 1)) (page + 1) := by
      rw [← hland.afterNext h.pos hs page]
      exact cbtNext_page h.leaf _ _
    rw [hleft] at hmove
    refine ⟨C, fun x => ⟨fun hx => ?_, ?_⟩, ?_, hmove⟩
    · have hmem : x ∈ l.recs := by
        rw [hland.recs]
        simp [hx]
      refine ⟨hmem, hland.behind x hx, fun hplace => ?_⟩
      obtain rfl := eq_of_place hmem hland.mem (hplace.trans hland.place.symm)
      rw [hland.recs] at hs
      exact lt_irrefl _ (hs.around.2 x hx)
    · -- on the page of the landing, but not at the landing
      rintro ⟨hx, hlt, hplace⟩
      rw [hland.recs] at hx
      rcases mem_append.mp hx with hA | hC
      · exact absurd (hland.front x hA) hlt.not_gt
      rcases mem_cons.mp hC with rfl | hC
      · exact absurd hland.place hplace
      · exact hC
    · rw [hland.recs]
      exact (sublist_cons_self _ _).trans (sublist_append_right _ _)
  · have hrows := (eq_nil_of_recs hnil).2
    have hhead : pos.insHead = false := by simp [h.pos.head, hins]
    -- the page ends at once
    have hmove : btcurNextPrefix rd P.isa leaves skip pfx (iterateSetup page pos) =
        nextPages rd P.isa skip pfx (leaves.drop (page + 1)) (page + 1) := by
      simp [btcurNextPrefix, iterateSetup, h.leaf, hins, hhead, hrows, turns, cursorRowNext,
        Nat.succ_mul]
    refine ⟨[], by simp [hnil], nil_sublist _, ?_⟩
    rw [hmove]
    exact nextPages_scan _ _ rfl

/-! ### The two searches -/

section

variable {leaves : List (Leaf α β)} {page : ℕ} (hend : LeafEnd srchKey l pos)
  (hs : RecsSorted (leaves.flatMap recs)) (hl : leaves[page]? = some l)
include hend hs hl

/-- A page with a key at or below the search key and one at or above it is where the search key
belongs. -/
lemma LeafEnd.treeEnd {r r' : Rec α β} (hr : r ∈ l.recs) (hr' : r' ∈ l.recs)
    (hle : ¬ srchKey < r.key) (hge : ¬ r'.key < srchKey) : TreeEnd srchKey leaves page l pos := by
  have hsorted : RecsSorted l.recs := by
    rw [RecsSorted] at hs ⊢
    exact hs.sublist ((sublist_flatten_of_mem
      (mem_map_of_mem (mem_of_getElem? hl))).map _)
  refine ⟨hl, hsorted, fun l' hl' x hx => ?_, fun l' hl' x hx => ?_, hend⟩
  · obtain ⟨i, hi⟩ := mem_iff_getElem?.mp hl'
    have hlt : i < page := (List.getElem?_eq_some_iff.mp hi).1.trans_le (by simp)
    rw [getElem?_take_of_lt hlt] at hi
    exact lt_of_lt_of_le (hs.page_lt hi hl hx hlt hr) (not_lt.mp hle)
  · obtain ⟨i, hi⟩ := mem_iff_getElem?.mp hl'
    rw [getElem?_drop] at hi
    exact lt_of_le_of_lt (not_lt.mp hge) (hs.page_lt hl hi hr' (by omega) hx)

/-- The search of a pinned page that counts has ended where the search key belongs. -/
lemma LeafEnd.treeEnd_pinned {lo hi : Option Key} (hwf : l.WF lo hi) (hne : l.recs ≠ [])
    (hcount : pos.compare = .eq ∨ (pos.slot ≠ 0 ∧ pos.slot + 1 ≠ l.rows.length)) :
    TreeEnd srchKey leaves page l pos := by
  obtain ⟨A, r, C, hland⟩ := hend.lands.resolve_right fun h => hne h.1
  rcases hcount with heq | ⟨hfirst, hlast⟩
  · have hkey : r.key = srchKey := lexCmp_eq_eq_iff.mp (hland.compare.symm.trans heq)
    exact hend.treeEnd hs hl hland.mem hland.mem (hkey ▸ lt_irrefl _) (hkey ▸ lt_irrefl _)
  · -- there is a row in front of the slot and one behind it
    have hsmall : pos.smallest = false := by
      by_contra h
      exact hfirst (hend.smallest (by simpa using h))
    obtain ⟨row, hrow, hge, hlt⟩ := hland.between hwf hsmall
    have hslot := (List.getElem?_eq_some_iff.mp hrow).1
    have hfront := getElem?_eq_getElem (l := l.rows) (i := 0) (by omega)
    have hbehind := getElem?_eq_getElem (l := l.rows) (i := pos.slot + 1) (by omega)
    have hsorted := hwf.recsSorted
    have hlow := (hland.lt_of_mem hsorted (row_mem hfront)).1
      (lt_of_lt_of_le (hwf.rows_sorted (pos_of_ne_zero hfirst) hfront hrow) (not_lt.mp hge))
    have hhigh := (hland.lt_of_mem hsorted (row_mem hbehind)).2 (hlt _ hbehind)
    exact hend.treeEnd hs hl (row_mem hfront) (row_mem hbehind) hlow.not_gt hhigh.not_gt

end

/-- Where the search of the pinned page ends, if it counts. -/
def PinnedAt (P : Platform) (root : Page α β) (srchKey : Key) (pinned : Option (ℕ × Bool))
    (page : ℕ) (l : Leaf α β) (pos : LeafPos) : Prop :=
  pinned = some (page, true) ∧ root.leaves[page]? = some l ∧
    leafSearch P srchKey true true l ⟨0, 0, [], []⟩ = some pos ∧
    (pos.compare = .eq ∨ (pos.slot ≠ 0 ∧ pos.slot + 1 ≠ l.rows.length))

lemma PinnedAt.eq {page page' : ℕ} {l' : Leaf α β} {pos' : LeafPos}
    (h : PinnedAt P root srchKey (some (page, true)) page' l' pos')
    (hl : root.leaves[page]? = some l)
    (hpos : leafSearch P srchKey true true l ⟨0, 0, [], []⟩ = some pos) :
    page' = page ∧ l' = l ∧ pos' = pos := by
  obtain ⟨heq, hl', hpos', -⟩ := h
  cases heq
  obtain rfl := some.inj (hl.symm.trans hl')
  exact ⟨rfl, rfl, some.inj (hpos'.symm.trans hpos)⟩

/-- The position a search near goes on from: where the search of the pinned page ends, if that
counts and there is a value at it, else where the search of the tree ends. -/
def EndsOn (rd : Reader α β) (P : Platform) (root : Page α β) (srchKey : Key)
    (pinned : Option (ℕ × Bool)) (appendTree : Bool) (page : ℕ) (l : Leaf α β) (pos : LeafPos) :
    Prop :=
  (PinnedAt P root srchKey pinned page l pos ∧ cursorValid rd l pos ≠ .ok none) ∨
  ((∀ page l pos, PinnedAt P root srchKey pinned page l pos → cursorValid rd l pos = .ok none) ∧
    rowSearch P srchKey true appendTree root = some ⟨page, pos⟩ ∧ root.leaves[page]? = some l)

lemma EndsOn.unique {pinned : Option (ℕ × Bool)} {appendTree : Bool} {page page' : ℕ}
    {l' : Leaf α β} {pos' : LeafPos} (h : EndsOn rd P root srchKey pinned appendTree page l pos)
    (h' : EndsOn rd P root srchKey pinned appendTree page' l' pos') :
    page' = page ∧ l' = l ∧ pos' = pos := by
  rcases h with ⟨hpin, hv⟩ | ⟨hno, hf, hl⟩ <;> rcases h' with ⟨hpin', hv'⟩ | ⟨hno', hf', hl'⟩
  · obtain ⟨rfl, hl, hpos, -⟩ := hpin
    exact hpin'.eq hl hpos
  · exact absurd (hno' _ _ _ hpin) hv
  · exact absurd (hno _ _ _ hpin') hv'
  · cases hf.symm.trans hf'
    exact ⟨rfl, some.inj (hl'.symm.trans hl), rfl⟩

/-- What holds of the position a search near goes on from. -/
lemma EndsOn.forall_iff {pinned : Option (ℕ × Bool)} {appendTree : Bool} {page : ℕ}
    (h : EndsOn rd P root srchKey pinned appendTree page l pos)
    {Q : ℕ → Leaf α β → LeafPos → Prop} :
    (∀ page l pos, EndsOn rd P root srchKey pinned appendTree page l pos → Q page l pos) ↔
      Q page l pos := by
  constructor
  · intro hall
    exact hall _ _ _ h
  · intro hq page' l' pos' h'
    obtain ⟨rfl, rfl, rfl⟩ := h.unique h'
    exact hq

variable (rd P) in
/-- **The searches of a search near** end where the search key belongs. -/
lemma searchLanding_spec (h : root.WF none none) (hsrch : srchKey ≠ [])
    {pinned : Option (ℕ × Bool)} (hpin : ∀ x ∈ pinned, x.1 < root.leaves.length)
    (appendTree : Bool) :
    (∃ e, searchLanding rd P root srchKey pinned appendTree = some (.error e)) ∨
    (∃ page l pos valid,
      searchLanding rd P root srchKey pinned appendTree = some (.ok ⟨page, pos, valid⟩) ∧
      EndsOn rd P root srchKey pinned appendTree page l pos ∧
      TreeEnd srchKey root.leaves page l pos ∧ cursorValid rd l pos = .ok valid) := by
  have htree : (∀ page l pos, PinnedAt P root srchKey pinned page l pos →
        cursorValid rd l pos = .ok none) →
      (∃ e, searchTree rd P root srchKey appendTree = some (.error e)) ∨
      (∃ page l pos valid, searchTree rd P root srchKey appendTree = some (.ok ⟨page, pos, valid⟩) ∧
        EndsOn rd P root srchKey pinned appendTree page l pos ∧
        TreeEnd srchKey root.leaves page l pos ∧ cursorValid rd l pos = .ok valid) := by
    intro hno
    obtain ⟨f, l, hf, hend⟩ := rowSearch_spec (P := P) h hsrch true appendTree
    rcases hvalid : cursorValid rd l f.pos with e | valid
    · exact .inl ⟨e, by simp [searchTree, hf, hend.leaf, hvalid]⟩
    · exact .inr ⟨f.page, l, f.pos, valid, by simp [searchTree, hf, hend.leaf, hvalid],
        .inr ⟨hno, hf, hend.leaf⟩, hend, hvalid⟩
  rcases pinned with _ | ⟨page, _ | _⟩
  · exact htree fun _ _ _ hpin => nomatch hpin.1
  · exact htree fun _ _ _ hpin => nomatch hpin.1
  -- a pinned page, with the search key in its range as far as could be told
  have hpage : page < root.leaves.length := hpin (page, true) rfl
  have hl := getElem?_eq_getElem hpage
  obtain ⟨lo, hi, hwf⟩ := h.leavesOk.leaf_wf _ (mem_of_getElem? hl)
  obtain ⟨pos, hpos, hend⟩ := leafSearch_spec (P := P) (s := ⟨0, 0, [], []⟩) hwf (by simp [LogOk])
    hsrch true true (Or.inl rfl)
  by_cases hcount : pos.compare = .eq ∨
      (pos.slot ≠ 0 ∧ pos.slot + 1 ≠ root.leaves[page].rows.length)
  · obtain ⟨r, hr⟩ : ∃ r, searchPinned rd P root srchKey (some (page, true)) = r := ⟨_, rfl⟩
    rw [searchLanding, hr]
    rcases hvalid : cursorValid rd root.leaves[page] pos with e | valid
    · obtain rfl : some (.error e) = r := by simpa [searchPinned, hl, hpos, hcount, hvalid] using hr
      exact .inl ⟨e, rfl⟩
    rcases valid with _ | value
    · obtain rfl : some (.ok none) = r := by simpa [searchPinned, hl, hpos, hcount, hvalid] using hr
      refine htree fun page' l' pos' hpin' => ?_
      obtain ⟨-, rfl, rfl⟩ := hpin'.eq hl hpos
      exact hvalid
    obtain rfl : some (.ok (some ⟨page, pos, some value⟩)) = r := by
      simpa [searchPinned, hl, hpos, hcount, hvalid] using hr
    refine .inr ⟨page, _, pos, some value, rfl, .inl ⟨⟨rfl, hl, hpos, hcount⟩, by simp [hvalid]⟩,
      hend.treeEnd_pinned h.leavesOk.recsSorted hl hwf ?_ hcount, hvalid⟩
    intro hnil
    rw [cursorValid_nil hnil] at hvalid
    cases hvalid
  · have hsearch : searchPinned rd P root srchKey (some (page, true)) = some (.ok none) := by
      simp [searchPinned, hl, hpos, hcount]
    rw [searchLanding, hsearch]
    refine htree fun page' l' pos' hpin' => ?_
    obtain ⟨-, rfl, rfl⟩ := hpin'.eq hl hpos
    exact absurd hpin'.2.2.2 hcount

/-! ### The two loops -/

/-- The loop forward ends with its first key, if all keys it can come to are greater than the
search key. -/
lemma nearNext_eq {L : List (Rec α β)} {cbt : Cbt} (fuel : ℕ)
    (h : TreeMatches root.leaves (cbtNext root.leaves skip)
      (btcurNextPrefix rd P.isa root.leaves skip pfx cbt) (scan rd P.isa pfx L))
    (hL : ∀ x ∈ L, srchKey < x.key) :
    nearNext rd P root srchKey skip pfx (fuel + 1) cbt =
      match scan rd P.isa pfx L with
      | .error e => .error e
      | .ok (.found r value _) => .ok (some ⟨.gt, r.key, value⟩)
      | .ok _ => .ok none := by
  rw [nearNext]
  generalize btcurNextPrefix rd P.isa root.leaves skip pfx cbt = move at h ⊢
  generalize hf : scan rd P.isa pfx L = found at h ⊢
  cases h with
  | error e => rfl
  | notFound => rfl
  | outOfBounds => rfl
  | found r value hok =>
    obtain ⟨front, -, hsplit, -⟩ := scan_ok hf
    have hgt : lexCmp r.key srchKey = .gt := lexCmp_eq_gt_iff.mpr (hL r (by simp [hsplit]))
    simp [lexCompare_false, hgt]

/-- The first of the records that a value is seen of and that is not greater than the search key. -/
def readBelow (rd : Reader α β) (srchKey : Key) : List (Rec α β) → Except Stop (Option Near)
  | [] => .ok none
  | r :: rest =>
    match rd.readRec r with
    | .error e => .error e
    | .ok (.standard value) =>
      if lexCmp r.key srchKey ≠ .gt then .ok (some ⟨lexCmp r.key srchKey, r.key, value⟩)
      else readBelow rd srchKey rest
    | .ok _ => readBelow rd srchKey rest

lemma readBelow_scan (L : List (Rec α β)) :
    readBelow rd srchKey L =
      match scan rd .scalar none L with
      | .error e => .error e
      | .ok (.found r value rest) =>
        if lexCmp r.key srchKey ≠ .gt then .ok (some ⟨lexCmp r.key srchKey, r.key, value⟩)
        else readBelow rd srchKey rest
      | .ok _ => .ok none := by
  induction L with
  | nil => rfl
  | cons r L ih =>
    rw [readBelow, scan, if_neg (by simp [prefixOut])]
    rcases rd.readRec r with e | v
    · rfl
    · cases v with
      | invalid => exact ih
      | standard value => rfl
      | tombstone => exact ih

/-- The loop backward. -/
lemma nearPrev_eq {fuel : ℕ} {cbt : Cbt} (h : cbt = .unpositioned ∨ CbtOk root.leaves cbt)
    (hfuel : (cbtPrev root.leaves skip false cbt).length < fuel) :
    nearPrev rd P root srchKey skip fuel cbt =
      readBelow rd srchKey (cbtPrev root.leaves skip false cbt) := by
  induction fuel generalizing cbt with
  | zero => omega
  | succ fuel ih =>
    have hmove := btcurPrev_scan rd .scalar skip false h
    rw [nearPrev, readBelow_scan]
    generalize btcurPrev rd root.leaves skip false cbt = move at hmove ⊢
    generalize hf : scan rd .scalar none (cbtPrev root.leaves skip false cbt) = found at hmove ⊢
    cases hmove with
    | error e => rfl
    | notFound => rfl
    | outOfBounds => rfl
    | @found cbt' r value hok =>
      obtain ⟨front, -, hsplit, -⟩ := scan_ok hf
      have hlen := congrArg length hsplit
      rw [length_append, length_cons] at hlen
      simp [lexCompare_false, ih (.inr hok) (by omega)]

/-- What the result of the loop backward says about the records. -/
def BelowEnd (rd : Reader α β) (srchKey : Key) (L : List (Rec α β)) : Option Near → Prop
  | none => ∀ r ∈ L, rd.sees r = true → srchKey < r.key
  | some near => ∃ A r C, L = A ++ r :: C ∧ (∀ a ∈ A, rd.sees a = true → srchKey < a.key) ∧
      rd.sees r = true ∧ ¬ srchKey < r.key ∧ near.key = r.key ∧ near.exact = lexCmp r.key srchKey

lemma BelowEnd.cons {L : List (Rec α β)} {out : Option Near}
    (hr : rd.sees r = true → srchKey < r.key) (h : BelowEnd rd srchKey L out) :
    BelowEnd rd srchKey (r :: L) out := by
  cases out with
  | none =>
    intro x hx
    rcases mem_cons.mp hx with rfl | hx
    · exact hr
    · exact h x hx
  | some near =>
    obtain ⟨A, r', C, rfl, hA, hr'⟩ := h
    refine ⟨r :: A, r', C, rfl, fun x hx => ?_, hr'⟩
    rcases mem_cons.mp hx with rfl | hx
    · exact hr
    · exact hA x hx

lemma readBelow_ok {L : List (Rec α β)} {out : Option Near} (h : readBelow rd srchKey L = .ok out) :
    BelowEnd rd srchKey L out := by
  induction L with
  | nil =>
    cases h
    intro r hr
    cases hr
  | cons r L ih =>
    rw [readBelow] at h
    rcases hr : rd.readRec r with e | v
    · rw [hr] at h
      cases h
    · rw [hr] at h
      cases v with
      | invalid | tombstone => exact (ih h).cons (by simp [sees, hr])
      | standard value =>
        by_cases hgt : lexCmp r.key srchKey = .gt
        · refine (ih (by simpa [hgt] using h)).cons fun _ => lexCmp_eq_gt_iff.mp hgt
        · obtain rfl : some ⟨lexCmp r.key srchKey, r.key, value⟩ = out := by
            simpa [hgt] using h
          exact ⟨[], r, L, rfl, by simp, by simp [sees, hr],
            fun hlt => hgt (lexCmp_eq_gt_iff.mpr hlt), rfl, rfl⟩

end WiredTiger
