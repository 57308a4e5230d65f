/-
# The search of a leaf page

A leaf page is searched by rows first and then along one insert list.  Whatever way the search
takes, it ends on a record such that all records in front of it are smaller and all records behind
it greater than the search key, unless the page has no records at all.
-/
import WiredTiger.Btree.InsertSearch

namespace WiredTiger

open Lib List Leaf LeafPos Or

variable {α β : Type} {P : Platform} {srchKey : Key} {lo hi : Option Key} {l : Leaf α β}
  {r : Row α β} {i : ℕ} {L : List (Insert α)} {s : Srch}

/-! ### The order of the records -/

/-- The keys of records are strictly increasing. -/
def RecsSorted (rs : List (Rec α β)) : Prop := (rs.map Rec.key).Pairwise (· < ·)

lemma RecsSorted.append {A B : List (Rec α β)} (h : RecsSorted (A ++ B)) :
    RecsSorted A ∧ RecsSorted B ∧ ∀ a ∈ A, ∀ b ∈ B, a.key < b.key := by
  rw [RecsSorted, map_append, pairwise_append] at h
  exact ⟨h.1, h.2.1, fun a ha b hb =>
    h.2.2 _ (mem_map_of_mem ha) _ (mem_map_of_mem hb)⟩

lemma RecsSorted.around {A C : List (Rec α β)} {r : Rec α β} (h : RecsSorted (A ++ r :: C)) :
    (∀ a ∈ A, a.key < r.key) ∧ (∀ c ∈ C, r.key < c.key) := by
  obtain ⟨-, h₁, h₂⟩ := h.append
  rw [RecsSorted, map_cons, pairwise_cons] at h₁
  exact ⟨fun a ha => h₂ a ha r (by simp), fun c hc => h₁.1 _ (mem_map_of_mem hc)⟩

/-- The records of an insert list, around one of its nodes. -/
lemma insRecs_append_cons (slot : Option ℕ) (A : List (Insert α)) (x : Insert α)
    (C : List (Insert α)) :
    ∃ C', insRecs (β := β) slot (A ++ x :: C) =
        insRecs slot A ++ ⟨.ins slot A.length, x.key, x.upd, none⟩ :: C' ∧
      ∀ c ∈ C', ∃ y ∈ C, c.key = y.key := by
  refine ⟨(C.zipIdx (A.length + 1)).map fun y => ⟨.ins slot y.2, y.1.key, y.1.upd, none⟩,
    by simp [insRecs, zipIdx_append], ?_⟩
  intro c hc
  obtain ⟨y, hy, rfl⟩ := mem_map.mp hc
  exact ⟨y.1, (mem_zipIdx hy).2.2 ▸ getElem_mem _, rfl⟩

lemma exists_of_mem_insRecs {slot : Option ℕ} {r : Rec α β}
    (h : r ∈ insRecs slot L) : ∃ y ∈ L, r.key = y.key := by
  obtain ⟨y, hy, rfl⟩ := mem_map.mp h
  exact ⟨y.1, fst_mem_of_mem_zipIdx hy, rfl⟩

lemma map_key_insRecs (slot : Option ℕ) (L : List (Insert α)) :
    (insRecs (β := β) slot L).map Rec.key = L.map Insert.key := by
  rw [insRecs, map_map]
  conv_rhs => rw [← zipIdx_map_fst 0 L, map_map]
  rfl

/-- The records of the rows `rows`, of which the first one has slot `n`. -/
def rowsRecs (n : ℕ) (rows : List (Row α β)) : List (Rec α β) := (rows.zipIdx n).flatMap rowRecs

lemma rowsRecs_append_cons (A : List (Row α β)) (r : Row α β) (C : List (Row α β)) :
    rowsRecs 0 (A ++ r :: C) =
      rowsRecs 0 A ++ (⟨.row A.length, r.key, r.upd, some r.cell⟩ ::
        (insRecs (some A.length) r.ins ++ rowsRecs (A.length + 1) C)) := by
  simp [rowsRecs, zipIdx_append, rowRecs]

/-- Rows that are greater than the search key have only greater keys behind them. -/
lemma lt_of_mem_rowsRecs {rows : List (Row α β)} {n : ℕ} (hs : RecsSorted (rowsRecs n rows))
    (h : ∀ r ∈ rows, srchKey < r.key) : ∀ y ∈ rowsRecs n rows, srchKey < y.key := by
  induction rows generalizing n with
  | nil => simp [rowsRecs]
  | cons r rows ih =>
    intro y hy
    have hcons : rowsRecs n (r :: rows) = ⟨.row n, r.key, r.upd, some r.cell⟩ ::
        (insRecs (some n) r.ins ++ rowsRecs (n + 1) rows) := by
      simp [rowsRecs, rowRecs]
    rw [hcons] at hs hy
    have hr := h r (by simp)
    rcases mem_cons.mp hy with rfl | hy
    · exact hr
    · exact hr.trans ((RecsSorted.around (A := []) hs).2 y hy)

lemma Leaf.recs_eq (l : Leaf α β) : l.recs = insRecs none l.smallest ++ rowsRecs 0 l.rows := rfl

/-- The record of a row, and what is around it. -/
lemma Leaf.recs_row (h : l.rows[i]? = some r) :
    l.recs = (insRecs none l.smallest ++ rowsRecs 0 (l.rows.take i)) ++
      (⟨.row i, r.key, r.upd, some r.cell⟩ ::
        (insRecs (some i) r.ins ++ rowsRecs (i + 1) (l.rows.drop (i + 1)))) := by
  obtain ⟨hi, hr⟩ := List.getElem?_eq_some_iff.mp h
  have hrows : l.rows = l.rows.take i ++ r :: l.rows.drop (i + 1) := by
    rw [← hr, cons_getElem_drop_succ, take_append_drop]
  have hlen : (l.rows.take i).length = i := by simp; omega
  conv_lhs => rw [recs_eq, hrows, rowsRecs_append_cons, hlen]
  simp

/-- The records of the insert list of a row, and what is around them. -/
lemma Leaf.recs_insList (h : l.rows[i]? = some r) :
    l.recs = (insRecs none l.smallest ++ rowsRecs 0 (l.rows.take i) ++
      [⟨.row i, r.key, r.upd, some r.cell⟩]) ++
      (insRecs (some i) (l.insList (some i)) ++ rowsRecs (i + 1) (l.rows.drop (i + 1))) := by
  rw [recs_row h]
  simp [insList, h]

/-! ### Positions -/

/-- The position is on a record of the page, with smaller records in front of it and greater ones
behind it. -/
def Positioned (srchKey : Key) (l : Leaf α β) (p : LeafPos) : Prop :=
  ∃ A r C, l.recs = A ++ r :: C ∧ r.place = p.place ∧ (∀ a ∈ A, a.key < srchKey) ∧
    (∀ c ∈ C, srchKey < c.key) ∧ p.compare = lexCmp r.key srchKey

/-- A position on an insert list of the page. -/
lemma OnInsert.positioned {p p' : LeafPos} {F B : List (Rec α β)}
    (h : OnInsert srchKey L p p') (hrecs : l.recs = F ++ (insRecs p.insSlot L ++ B))
    (hF : ∀ a ∈ F, a.key < srchKey) (hB : ∀ b ∈ B, srchKey < b.key) : Positioned srchKey l p' := by
  obtain ⟨A, x, C, ⟨rfl, hA, hC⟩, hins, hcmp⟩ := h.node
  obtain ⟨C', heq, hC'⟩ := insRecs_append_cons (β := β) p.insSlot A x C
  refine ⟨F ++ insRecs p.insSlot A, ⟨.ins p.insSlot A.length, x.key, x.upd, none⟩, C' ++ B,
    by rw [hrecs, heq]; simp, ?_, ?_, ?_, hcmp⟩
  · simp [place, hins, insSlot, h.slot, h.smallest]
  · intro a ha
    rcases mem_append.mp ha with ha | ha
    · exact hF a ha
    · obtain ⟨y, hy, hkey⟩ := exists_of_mem_insRecs ha
      exact hkey ▸ hA y hy
  · intro c hc
    rcases mem_append.mp hc with hc | hc
    · obtain ⟨y, hy, hkey⟩ := hC' c hc
      exact hkey ▸ hC y hy
    · exact hB c hc

/-- How the search of a leaf page ends: on a record of the page, or in front of slot 0 of an empty
page. -/
structure LeafEnd (srchKey : Key) (l : Leaf α β) (p : LeafPos) : Prop where
  log : LogOk srchKey p.srch.log
  pos : Positioned srchKey l p ∨ (l.recs = [] ∧ p.compare = .gt ∧ p.place = .row 0)
  head : p.insHead = p.ins.isSome
  smallest : p.smallest = true → p.slot = 0
  /-- The last key of a row that was compared with is the key at the position, unless that one is
  smaller than the search key. -/
  tmp : p.ins = none → p.compare ≠ .lt → ∀ row, l.rows[p.slot]? = some row → p.srch.tmp = row.key

/-- A position on an insert list of the page is an end of the search. -/
lemma OnInsert.leafEnd {p p' : LeafPos} (h : OnInsert srchKey L p p')
    (hsmall : p.smallest = true → p.slot = 0) (hpos : Positioned srchKey l p') :
    LeafEnd srchKey l p' := by
  obtain ⟨A, x, C, -, hins, -⟩ := h.node
  exact ⟨h.log, inl hpos, by simp [h.insHead, hins], h.smallest ▸ h.slot ▸ hsmall,
    fun hnone => by simp [hins] at hnone⟩

/-- A position on a row. -/
lemma positioned_row {p : LeafPos} (hr : l.rows[i]? = some r)
    (hplace : p.place = .row i) (hcmp : p.compare = lexCmp r.key srchKey)
    (hfront : ∀ a ∈ insRecs none l.smallest ++ rowsRecs 0 (l.rows.take i), a.key < srchKey)
    (hbehind : ∀ c ∈ insRecs (some i) r.ins ++ rowsRecs (i + 1) (l.rows.drop (i + 1)),
      srchKey < c.key) : Positioned srchKey l p :=
  ⟨_, _, _, recs_row hr, hplace.symm, hfront, hbehind, hcmp⟩

/-! ### Well-formed pages -/

variable (h : l.WF lo hi)
include h

lemma Leaf.WF.recsSorted : RecsSorted l.recs := h.sorted

lemma Leaf.WF.row_key (hr : l.rows[i]? = some r) :
    InRange lo hi r.key ∧ r.key ≠ [] :=
  have hmem : (⟨.row i, r.key, r.upd, some r.cell⟩ : Rec α β) ∈ l.recs := by
    rw [recs_row hr]
    simp
  ⟨h.range _ hmem, h.nonempty _ hmem⟩

lemma Leaf.WF.rows_sorted {i j : ℕ} {r r' : Row α β} (hij : i < j)
    (hr : l.rows[i]? = some r) (hr' : l.rows[j]? = some r') : r.key < r'.key := by
  have hs := h.recsSorted
  rw [recs_row hr] at hs
  have hj : (l.rows.drop (i + 1))[j - (i + 1)]? = some r' := by
    rw [getElem?_drop, ← hr']
    congr 1
    omega
  have hmem : (r', j) ∈ (l.rows.drop (i + 1)).zipIdx (i + 1) := by
    rw [mem_zipIdx_iff_le_and_getElem?_sub]
    exact ⟨hij, hj⟩
  exact hs.around.2 ⟨.row j, r'.key, r'.upd, some r'.cell⟩
    (mem_append_right _ (mem_flatMap.mpr ⟨_, hmem, by simp [rowRecs]⟩))

/-- The rows of a leaf page are searched from entry 0 on. -/
lemma Leaf.WF.keysOk : KeysOk lo (l.rows.map Row.key) 0 where
  sorted := by
    intro i j k k' _ hij hk hk'
    obtain ⟨r, hr, rfl⟩ := getElem?_map .. ▸ hk |> Option.map_eq_some_iff.mp
    obtain ⟨r', hr', rfl⟩ := getElem?_map .. ▸ hk' |> Option.map_eq_some_iff.mp
    exact h.rows_sorted hij hr hr'
  lower := by
    intro i k _ hk
    obtain ⟨r, hr, rfl⟩ := getElem?_map .. ▸ hk |> Option.map_eq_some_iff.mp
    exact (h.row_key hr).1.1
  nonempty := by
    intro i k _ hk
    obtain ⟨r, hr, rfl⟩ := getElem?_map .. ▸ hk |> Option.map_eq_some_iff.mp
    exact (h.row_key hr).2

/-- The records in front of a row and those behind it. -/
lemma Leaf.WF.around_row (hr : l.rows[i]? = some r) :
    (∀ a ∈ insRecs none l.smallest ++ rowsRecs 0 (l.rows.take i), a.key < r.key) ∧
    (∀ c ∈ insRecs (some i) r.ins ++ rowsRecs (i + 1) (l.rows.drop (i + 1)), r.key < c.key) := by
  have hs := h.recsSorted
  rw [recs_row hr] at hs
  exact hs.around

/-- The insert lists are in order. -/
lemma Leaf.WF.insList_sorted (slot : Option ℕ) : KeysSorted (l.insList slot) := by
  have hs := h.recsSorted
  rcases slot with _ | i
  · have := hs.append.1
    rwa [RecsSorted, map_key_insRecs] at this
  · rcases hr : l.rows[i]? with _ | r
    · simp [insList, hr, KeysSorted]
    · rw [recs_row hr, ← singleton_append (l := _ ++ _)] at hs
      have := hs.append.2.1.append.2.1.append.1
      rw [RecsSorted, map_key_insRecs] at this
      simpa [insList, hr, KeysSorted] using this

/-- A search of one of the insert lists, in its two versions. -/
lemma insert_search {p : LeafPos} (insert : Bool) (hlog : LogOk srchKey p.srch.log)
    (hne : l.insList p.insSlot ≠ []) :
    ∃ p', (let (done, p') := if insert then searchInsertAppend P srchKey (l.insList p.insSlot) p
          else (false, p)
        if done then some p' else searchInsert P srchKey (l.insList p.insSlot) p') = some p' ∧
      OnInsert srchKey (l.insList p.insSlot) p p' := by
  have hs := h.insList_sorted p.insSlot
  have hd := h.depth p.insSlot
  cases insert with
  | false => exact searchInsert_spec hs hne hd hlog
  | true =>
    rcases searchInsertAppend_spec (P := P) hs hlog with ⟨p', heq, hon, -⟩ | ⟨log, heq, hlog'⟩
    · exact ⟨p', by simp [heq], hon⟩
    · obtain ⟨p', heq', hon⟩ := searchInsert_spec (P := P)
        (p := { p with srch := { p.srch with log } }) hs hne hd hlog'
      exact ⟨p', by simpa [heq] using heq', hon.node, hon.slot, hon.smallest, hon.insHead, hon.log⟩

/-- The rows from `base` on, when all of them are greater than the search key. -/
lemma Leaf.WF.lt_of_mem_drop {base : ℕ} (hbase : base ≤ l.rows.length)
    (hgt : ∀ j r, base ≤ j → l.rows[j]? = some r → srchKey < r.key) :
    ∀ c ∈ rowsRecs base (l.rows.drop base), srchKey < c.key := by
  have hsplit : l.recs = insRecs none l.smallest ++ (rowsRecs 0 (l.rows.take base) ++
      rowsRecs base (l.rows.drop base)) := by
    rw [recs_eq, rowsRecs, rowsRecs, rowsRecs, ← flatMap_append]
    conv_lhs => rw [← take_append_drop base l.rows, zipIdx_append]
    rw [length_take_of_le hbase, zero_add]
  have hs := h.recsSorted
  rw [hsplit] at hs
  refine lt_of_mem_rowsRecs hs.append.2.1.append.2.1 fun r hr => ?_
  obtain ⟨j, hj⟩ := mem_iff_getElem?.mp hr
  rw [getElem?_drop] at hj
  exact hgt (base + j) r (by omega) hj

section

variable (hlog : LogOk srchKey s.log)
include hlog

/-- The search goes on in the insert list in front of the rows. -/
lemma leafInserts_zero (insert : Bool) (htmp : ∀ row, l.rows[0]? = some row → s.tmp = row.key)
    (hgt : ∀ j r, 0 ≤ j → l.rows[j]? = some r → srchKey < r.key) :
    ∃ p, leafInserts P srchKey insert l 0 s = some p ∧ LeafEnd srchKey l p := by
  by_cases hne : l.smallest = []
  · refine ⟨⟨0, true, false, none, .gt, s⟩, by simp [leafInserts, insSlot, insList, hne],
      hlog, ?_, rfl, fun _ => rfl, fun _ _ => htmp⟩
    rcases hrows : l.rows with _ | ⟨r, rows⟩
    · exact inr ⟨by simp [recs, hne, hrows, insRecs], rfl, rfl⟩
    · -- on the first row
      have hr : l.rows[0]? = some r := by simp [hrows]
      have hlt := hgt 0 r le_rfl hr
      refine inl (positioned_row hr rfl (lexCmp_eq_gt_iff.mpr hlt).symm ?_ ?_)
      · simp [hne, insRecs, rowsRecs]
      · intro c hc
        exact hlt.trans ((h.around_row hr).2 c hc)
  · obtain ⟨p', heq, hon⟩ := insert_search (P := P) (p := ⟨0, true, false, none, .gt, s⟩) h insert
      hlog hne
    have hbehind := h.lt_of_mem_drop (Nat.zero_le _) hgt
    rw [drop_zero] at hbehind
    refine ⟨p', ?_, hon.leafEnd (fun _ => rfl)
      (hon.positioned (F := []) (B := rowsRecs 0 l.rows) rfl (by simp) hbehind)⟩
    rw [leafInserts, if_pos rfl]
    exact (if_neg hne).trans heq

/-- The search goes on in the insert list behind the last smaller row. -/
lemma leafInserts_succ (insert : Bool) {slot : ℕ} (hr : l.rows[slot]? = some r)
    (hlt : r.key < srchKey) (hgt : ∀ j r, slot + 1 ≤ j → l.rows[j]? = some r → srchKey < r.key) :
    ∃ p, leafInserts P srchKey insert l (slot + 1) s = some p ∧ LeafEnd srchKey l p := by
  have hlist : l.insList (some slot) = r.ins := by simp [insList, hr]
  have hslot := (List.getElem?_eq_some_iff.mp hr).1
  have hbehind := h.lt_of_mem_drop (Nat.succ_le_of_lt hslot) hgt
  have hfront : ∀ a ∈ insRecs none l.smallest ++ rowsRecs 0 (l.rows.take slot), a.key < srchKey :=
    fun a ha => ((h.around_row hr).1 a ha).trans hlt
  by_cases hne : r.ins = []
  · refine ⟨⟨slot, false, false, none, .lt, s⟩,
      by simp [leafInserts, insSlot, hlist, hne], hlog,
      inl (positioned_row hr rfl (lexCmp_eq_lt_iff.mpr hlt).symm hfront ?_), rfl,
      fun hsmall => by simp at hsmall, fun _ hcmp => absurd rfl hcmp⟩
    simpa [hne, insRecs] using hbehind
  · obtain ⟨p', heq, hon⟩ := insert_search (P := P)
      (p := ⟨slot, false, false, none, .lt, s⟩) h insert hlog (by simpa [insSlot, hlist] using hne)
    refine ⟨p', ?_, hon.leafEnd (fun hsmall => by simp at hsmall)
      (hon.positioned (recs_insList hr) ?_ hbehind)⟩
    · rw [leafInserts, if_neg (Nat.succ_ne_zero slot), Nat.add_sub_cancel]
      exact (if_neg (by simpa [insSlot, hlist] using hne)).trans heq
    · intro a ha
      rcases List.mem_append.mp ha with ha | ha
      · exact hfront a ha
      · rw [List.mem_singleton.mp ha]
        exact hlt

omit hlog in
/-- A position on an insert list that is not above the search key: the records in front of the list
are smaller. -/
lemma OnInsert.front_lt {p p' : LeafPos} {F B : List (Rec α β)}
    (hon : OnInsert srchKey L p p') (hcmp : p'.compare ≠ .gt)
    (hrecs : l.recs = F ++ (insRecs p.insSlot L ++ B)) : ∀ a ∈ F, a.key < srchKey := by
  intro a ha
  obtain ⟨A, x, C, ⟨rfl, -, -⟩, -, hx⟩ := hon.node
  obtain ⟨C', heq, -⟩ := insRecs_append_cons (β := β) p.insSlot A x C
  have hs := h.recsSorted
  rw [hrecs, heq] at hs
  have hax := hs.append.2.2 a ha ⟨.ins p.insSlot A.length, x.key, x.upd, none⟩ (by simp)
  rw [hx, ne_eq, lexCmp_eq_gt_iff, not_lt] at hcmp
  exact lt_of_lt_of_le hax hcmp

/-- The fast check for an append: it ends the search behind all records, or changes nothing. -/
lemma leafAppend_spec :
    (∃ p, leafAppend P srchKey l s = (true, p) ∧ LeafEnd srchKey l p) ∨
    (∃ p log, leafAppend P srchKey l s = (false, p) ∧ p.srch = { s with log } ∧
      LogOk srchKey log) := by
  rw [leafAppend]
  split_ifs with hrows
  · have hnil : rowsRecs 0 l.rows = [] := by
      rw [eq_nil_of_length_eq_zero hrows]
      rfl
    rcases searchInsertAppend_spec (P := P) (p := ⟨0, true, false, none, .eq, s⟩)
      (h.insList_sorted none) hlog with ⟨p', heq, hon, -⟩ | ⟨log, heq, hlog'⟩
    · refine inl ⟨p', heq, hon.leafEnd (fun _ => rfl)
        (hon.positioned (F := []) (B := []) ?_ (by simp) (by simp))⟩
      rw [recs_eq, hnil]
      simp [insSlot, insList]
    · exact inr ⟨_, log, heq, rfl, hlog'⟩
  · have hr := getElem?_eq_getElem (l := l.rows) (i := l.rows.length - 1) (by omega)
    rcases searchInsertAppend_spec (P := P)
      (p := ⟨l.rows.length - 1, false, false, none, .eq, s⟩)
      (h.insList_sorted (some (l.rows.length - 1))) hlog with
      ⟨p', heq, hon, hcmp⟩ | ⟨log, heq, hlog'⟩
    · -- there are no rows behind the list
      have hrecs := recs_insList hr
      refine inl ⟨p', heq, hon.leafEnd (fun hsmall => by simp at hsmall)
        (hon.positioned hrecs (hon.front_lt h hcmp hrecs) ?_)⟩
      rw [drop_of_length_le (by omega)]
      simp [rowsRecs]
    · exact inr ⟨_, log, heq, rfl, hlog'⟩

/-- **The search of a leaf page.** -/
lemma leafSearch_spec (hsrch : srchKey ≠ []) (insert descendRight : Bool)
    (hlow : LowOk srchKey s.skiplow lo) :
    ∃ p, leafSearch P srchKey insert descendRight l s = some p ∧ LeafEnd srchKey l p := by
  have hbegin : (∃ p, (if insert && descendRight then leafAppend P srchKey l s
        else (false, ⟨0, false, false, none, .eq, s⟩)) = (true, p) ∧ LeafEnd srchKey l p) ∨
      (∃ p log, (if insert && descendRight then leafAppend P srchKey l s
        else (false, ⟨0, false, false, none, .eq, s⟩)) = (false, p) ∧
        p.srch = { s with log } ∧ LogOk srchKey log) := by
    split_ifs
    · exact leafAppend_spec h hlog
    · exact inr ⟨_, s.log, rfl, rfl, hlog⟩
  rcases hbegin with ⟨p, heq, hend⟩ | ⟨p, log, heq, hsrch', hlog'⟩
  · exact ⟨p, by rw [leafSearch, heq]; rfl, hend⟩
  rw [leafSearch, heq]
  simp only [Bool.false_eq_true, if_false, hsrch']
  obtain ⟨s', hs'⟩ : ∃ s' : Srch, s' = if srchKey.length ≤ compareShortMaxlen then { s with log }
    else { s with log, skiphigh := 0 } := ⟨_, rfl⟩
  obtain ⟨hs'log, hs'low, hs'high⟩ := reset_spec hs'
  rw [← hs']
  have hprobe : ∀ (i : ℕ) (k : Key) (s : Srch), (l.rows.map Row.key)[i]? = some k →
      (do let row ← l.rows[i]?; compareItem P srchKey row.key s : Option (Ordering × Srch)) =
        compareItem P srchKey k s := by
    intro i k s hk
    obtain ⟨r, hr, rfl⟩ := getElem?_map .. ▸ hk |> Option.map_eq_some_iff.mp
    simp [hr]
  have hkey : ∀ {i : ℕ} {r : Row α β}, l.rows[i]? = some r →
      (l.rows.map Row.key)[i]? = some r.key := by
    intro i r hr
    rw [getElem?_map, hr]
    rfl
  have hbs := bsearch_page h.keysOk hsrch hprobe (Nat.zero_le _) (hs'log ▸ hlog')
    (hs'low ▸ hlow) hs'high
  rw [length_map, Nat.sub_zero] at hbs
  rcases hbs with ⟨i, t, hb, -, hk, hlogt, -, htmp⟩ | ⟨b, t, hb, -, hlen, hinv, hlt, hgt⟩
  · -- a row has the search key
    obtain ⟨r, hr, hrk⟩ := getElem?_map .. ▸ hk |> Option.map_eq_some_iff.mp
    refine ⟨⟨i, false, false, none, .eq, t⟩, by rw [hb]; rfl, hlogt, inl ?_, rfl,
      fun hsmall => by simp at hsmall, ?_⟩
    rotate_left
    · intro _ _ row hrow
      obtain rfl := Option.some.inj (hr.symm.trans hrow)
      exact htmp.trans hrk.symm
    refine positioned_row hr rfl (lexCmp_eq_eq_iff.mpr hrk).symm ?_ ?_
    · exact hrk ▸ (h.around_row hr).1
    · exact hrk ▸ (h.around_row hr).2
  · rw [hb]
    have hgt' : ∀ j r, b ≤ j → l.rows[j]? = some r → srchKey < r.key :=
      fun j r hj hr => hgt j r.key hj (hkey hr)
    rcases b with _ | slot
    · exact leafInserts_zero h hinv.log insert (fun row hrow => hinv.tmp le_rfl _ (hkey hrow)) hgt'
    · have hr := getElem?_eq_getElem (l := l.rows) (i := slot) (by omega)
      exact leafInserts_succ h hinv.log insert hr
        (hlt slot _ (Nat.zero_le _) (Nat.lt_succ_self _) (hkey hr)) hgt'

end

end WiredTiger
