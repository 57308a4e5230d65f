/-
# Going down the tree

The entries of an index divide the range of an internal page.  The search goes down to the child
whose range has the search key, so the keys of all leaf pages to the left of the one it ends on
are smaller, and those of all leaf pages to the right greater than the search key.
-/
import WiredTiger.Btree.LeafSearch

namespace WiredTiger

open Lib List Prod Page

variable {α β : Type} {P : Platform} {srchKey : Key} {lo hi : Option Key} {i : ℕ} {l : Leaf α β}
  {index : List (Key × Page α β)}
variable {e : Key × Page α β}

/-- Where the range of child `i` ends. -/
def upperAt (hi : Option Key) (ks : List Key) (i : ℕ) : Option Key := ks[i + 1]?.or hi

/-! ### The index of an internal page -/

namespace IndexWF

variable (h : IndexWF lo hi index)
include h

/-- The separators of an index, the keys of all entries but the first one, divide it. -/
lemma split {k : Key} (hi' : 1 ≤ i)
    (hk : (index.map fst)[i]? = some k) :
    ((∀ b, lo = some b → b < k) ∧ (∀ b, hi = some b → k < b) ∧ k ≠ []) ∧
      IndexWF lo (some k) (index.take i) ∧ IndexWF (some k) hi (index.drop i) := by
  induction index generalizing lo i with
  | nil => simp at hk
  | cons e index ih =>
    obtain ⟨i, rfl⟩ := Nat.exists_eq_add_of_le' hi'
    rcases h with ⟨_⟩ | ⟨hp, hrange, hlo, hne, htail⟩
    · simp at hk
    rw [map_cons, getElem?_cons_succ] at hk
    rcases i with _ | i
    · obtain rfl : _ = k := by simpa using hk
      exact ⟨⟨hlo, hrange.2, hne⟩, .single hp, htail⟩
    · obtain ⟨⟨h₁, h₂⟩, hfront, hback⟩ := ih htail (Nat.succ_le_succ (Nat.zero_le i)) hk
      refine ⟨⟨fun b hb => (hlo b hb).trans (h₁ _ rfl), h₂⟩, ?_, hback⟩
      exact .cons hp ⟨hrange.1, fun b hb => Option.some.inj hb ▸ h₁ _ rfl⟩ hlo hne hfront

lemma ne_nil : index ≠ [] := by
  cases h <;> simp

lemma sorted {i j : ℕ} {k k' : Key} (hi' : 1 ≤ i) (hij : i < j)
    (hk : (index.map fst)[i]? = some k) (hk' : (index.map fst)[j]? = some k') :
    k < k' := by
  obtain ⟨n, rfl⟩ := Nat.exists_eq_add_of_lt hij
  have hback := (h.split hi' hk).2.2
  refine (@IndexWF.split _ _ _ _ (n + 1) _ hback k' (by omega) ?_).1.1 k rfl
  rwa [map_drop, getElem?_drop]

/-- The separators are searched from entry 1 on. -/
lemma keysOk : KeysOk lo (index.map fst) 1 where
  sorted _ _ _ _ hi' hij hk hk' := h.sorted hi' hij hk hk'
  lower _ _ hi' hk b hb := ((h.split hi' hk).1.1 b hb).not_gt
  nonempty _ _ hi' hk := (h.split hi' hk).1.2.2

/-- A child of the page, with its range. -/
lemma child (he : index[i]? = some e) :
    e.2.WF (lowerAt lo (index.map fst) 1 (i + 1)) (upperAt hi (index.map fst) i) := by
  induction index generalizing lo i with
  | nil => simp at he
  | cons e' index ih =>
    rcases h with ⟨hp⟩ | ⟨hp, hrange, hlo, hne, htail⟩
    · rcases i with _ | i
      · obtain rfl : _ = e := by simpa using he
        simpa [lowerAt, upperAt] using hp
      · simp at he
    · rcases i with _ | i
      · obtain rfl : _ = e := by simpa using he
        simpa [lowerAt, upperAt] using hp
      · have hchild := ih htail (by simpa using he)
        rcases i with _ | i
        · simpa [lowerAt, upperAt] using hchild
        · simpa [lowerAt, upperAt] using hchild

end IndexWF

/-- The leaf pages of a range, one after another. -/
structure LeavesOk (lo hi : Option Key) (leaves : List (Leaf α β)) : Prop where
  leaf_wf : ∀ l ∈ leaves, ∃ lo hi, l.WF lo hi
  inRange : ∀ l ∈ leaves, ∀ r ∈ l.recs, InRange lo hi r.key
  recsSorted : RecsSorted (leaves.flatMap Leaf.recs)

/-- Two ranges with a separator between them. -/
lemma LeavesOk.append {A B : List (Leaf α β)} {k : Key} (hA : LeavesOk lo (some k) A)
    (hB : LeavesOk (some k) hi B) (hlo : ∀ b, lo = some b → b < k)
    (hhi : ∀ b, hi = some b → k < b) : LeavesOk lo hi (A ++ B) where
  leaf_wf := forall_mem_append.mpr ⟨hA.leaf_wf, hB.leaf_wf⟩
  inRange := by
    refine forall_mem_append.mpr ⟨fun l hl r hr => ?_, fun l hl r hr => ?_⟩
    · obtain ⟨h₁, h₂⟩ := hA.inRange l hl r hr
      exact ⟨h₁, fun b hb => (h₂ k rfl).trans (hhi b hb)⟩
    · obtain ⟨h₁, h₂⟩ := hB.inRange l hl r hr
      exact ⟨fun b hb hlt => h₁ k rfl (hlt.trans (hlo b hb)), h₂⟩
  recsSorted := by
    rw [flatMap_append, RecsSorted, map_append, pairwise_append]
    refine ⟨hA.recsSorted, hB.recsSorted, ?_⟩
    simp only [forall_mem_map, mem_flatMap]
    rintro a ⟨l, hl, ha⟩ b ⟨l', hl', hb⟩
    exact lt_of_lt_of_le ((hA.inRange l hl a ha).2 k rfl)
      (not_lt.mp ((hB.inRange l' hl' b hb).1 k rfl))

mutual

/-- The leaf pages below a page. -/
theorem Page.WF.leavesOk {lo hi : Option Key} : {p : Page α β} → p.WF lo hi →
    LeavesOk lo hi p.leaves
  | .leaf l, .leaf h => by
    rw [leaves]
    refine ⟨by simpa using ⟨lo, hi, h⟩, by simpa using h.range, ?_⟩
    rw [flatMap_singleton]
    exact h.recsSorted
  | .internal index, .internal h => by
    rw [leaves]
    exact h.leavesOk

theorem IndexWF.leavesOk {lo hi : Option Key} : {index : List (Key × Page α β)} →
    IndexWF lo hi index → LeavesOk lo hi (leavesList index)
  | [(_, p)], .single h => by
    rw [leavesList, leavesList, append_nil]
    exact h.leavesOk
  | (_, p) :: (k', p') :: index, .cons h hk hlo hne htail => by
    rw [leavesList]
    exact h.leavesOk.append htail.leavesOk hlo hk.2

end

/-- How the search leaves an internal page: to the child whose range has the search key. -/
structure DescentOk (srchKey : Key) (lo hi : Option Key) (index : List (Key × Page α β))
    (d : Descent) : Prop where
  log : LogOk srchKey d.srch.log
  low : LowOk srchKey d.srch.skiplow (lowerAt lo (index.map fst) 1 (d.indx + 1))
  range : InRange (lowerAt lo (index.map fst) 1 (d.indx + 1))
    (upperAt hi (index.map fst) d.indx) srchKey
  lt : d.indx < index.length

section

variable (h : IndexWF lo hi index) (hsrch : srchKey ≠ []) (hrange : InRange lo hi srchKey)
  {s : Srch} (hlog : LogOk srchKey s.log) (hlow : LowOk srchKey s.skiplow lo)
include h hsrch hrange hlog hlow

lemma internalSearch_spec (descendRight : Bool) :
    ∃ d, internalSearch P srchKey index descendRight s = some d ∧
      DescentOk srchKey lo hi index d := by
  have hpos := length_pos_iff.mpr h.ne_nil
  obtain ⟨s', hs'⟩ : ∃ s' : Srch, s' = if srchKey.length ≤ compareShortMaxlen then s
    else { s with skiphigh := 0 } := ⟨_, rfl⟩
  obtain ⟨hs'log, hs'low, hs'high⟩ := reset_spec hs'
  have hprobe : ∀ (i : ℕ) (k : Key) (s : Srch), (index.map fst)[i]? = some k →
      (do let entry ← index[i]?; compareItem P srchKey entry.1 s : Option (Ordering × Srch)) =
        compareItem P srchKey k s := by
    intro i k s hk
    obtain ⟨e, he, rfl⟩ := getElem?_map .. ▸ hk |> Option.map_eq_some_iff.mp
    simp [he]
  have hbs := bsearch_page h.keysOk hsrch hprobe (by rw [length_map]; omega)
    (hs'log ▸ hlog) (hs'low ▸ hlow) hs'high
  rw [length_map] at hbs
  rcases hbs with ⟨i, t, hb, hi', hk, hlogt, hlowt, -⟩ | ⟨b, t, hb, hb', hlen, hinv, hlt, hgt⟩
  · -- the key of an entry: descend there
    have hlow' : lowerAt lo (index.map fst) 1 (i + 1) = some srchKey := by
      rw [lowerAt, if_neg (by omega), Nat.add_sub_cancel, hk]
    refine ⟨⟨i, false, descendRight, t⟩, by rw [internalSearch, ← hs', hb]; rfl, hlogt,
      by rwa [hlow'], ⟨?_, ?_⟩, ?_⟩
    · intro b hb
      rw [hlow'] at hb
      exact Option.some.inj hb ▸ lt_irrefl _
    · intro b hb
      rcases hnext : (index.map fst)[i + 1]? with _ | k
      · exact hrange.2 b (by simpa [upperAt, hnext] using hb)
      · obtain rfl : k = b := by simpa [upperAt, hnext] using hb
        exact h.sorted hi' (Nat.lt_succ_self i) hk hnext
    · simpa using (List.getElem?_eq_some_iff.mp hk).1
  · -- between two separators: descend to the left one
    have hb1 : b - 1 + 1 = b := by omega
    refine ⟨⟨b - 1, false, if index.length ≠ b then false else descendRight, t⟩,
      by rw [internalSearch, ← hs', hb]; rfl, hinv.log, by rw [hb1]; exact hinv.low, ⟨?_, ?_⟩, by
        show b - 1 < _
        omega⟩
    · intro c hc
      rw [hb1, lowerAt] at hc
      split_ifs at hc with hle
      · exact hrange.1 c hc
      · exact (hlt (b - 1) c (by omega) (by omega) hc).not_gt
    · intro c hc
      rcases hnext : (index.map fst)[b]? with _ | k
      · exact hrange.2 c (by simpa [upperAt, hb1, hnext] using hc)
      · obtain rfl : k = c := by simpa [upperAt, hb1, hnext] using hc
        exact hgt b k le_rfl hnext

lemma internalDescend_spec (appendCheck descendRight : Bool) :
    ∃ d, internalDescend P srchKey index appendCheck descendRight s = some d ∧
      DescentOk srchKey lo hi index d := by
  cases appendCheck with
  | false => exact internalSearch_spec h hsrch hrange hlog hlow descendRight
  | true =>
    by_cases hone : index.length = 1
    · -- the only child has the range of the page
      refine ⟨⟨index.length - 1, true, descendRight, s⟩,
        by simp [internalDescend, internalAppend, hone], hlog, ?_, ?_, ?_⟩
      · simpa [hone, lowerAt] using hlow
      · simpa [hone, lowerAt, upperAt] using hrange
      · show index.length - 1 < index.length
        omega
    obtain ⟨front, e, rfl⟩ := eq_nil_or_concat index |>.resolve_left h.ne_nil
    rw [concat_eq_append] at h hone ⊢
    have hne : front ≠ [] := by
      rintro rfl
      simp at hone
    have hlen : 1 ≤ front.length := length_pos_iff.mpr hne
    have hk : ((front ++ [e]).map fst)[front.length]? = some e.1 := by simp
    by_cases hcmp : lexCmp srchKey e.1 = .lt
    · obtain ⟨d, hd, hok⟩ := internalSearch_spec (P := P)
        (s := { s with tmp := e.1 }.record e.1 .lt) h hsrch hrange
        (hcmp ▸ hlog.cons e.1) hlow descendRight
      refine ⟨d, ?_, hok⟩
      simpa [internalDescend, internalAppend, hne, lexCompare_false, hcmp] using hd
    · -- at or behind the last separator: descend to the last child
      have hle : ¬ srchKey < e.1 := fun hlt => hcmp (lexCmp_eq_lt_iff.mpr hlt)
      have hlow' : lowerAt lo ((front ++ [e]).map fst) 1 (front.length + 1) = some e.1 := by
        rw [lowerAt, if_neg (by omega), Nat.add_sub_cancel, hk]
      refine ⟨⟨front.length, true, descendRight,
          { s with tmp := e.1 }.record e.1 (lexCmp srchKey e.1)⟩,
        by simp [internalDescend, internalAppend, hne, lexCompare_false, hcmp], hlog.cons e.1,
        ?_, ⟨?_, ?_⟩, by simp⟩
      · rw [hlow']
        exact hlow.mono fun b hb => ((h.split hlen hk).1.1 b hb).not_gt
      · intro b hb
        rw [hlow'] at hb
        exact Option.some.inj hb ▸ hle
      · intro b hb
        exact hrange.2 b (by simpa [upperAt] using hb)

end

/-! ### The whole search -/

/-- The search has ended on leaf page `j` of `leaves`, with smaller keys to the left of the page and
greater ones to the right. -/
structure TreeEnd (srchKey : Key) (leaves : List (Leaf α β)) (j : ℕ) (l : Leaf α β)
    (pos : LeafPos) : Prop where
  leaf : leaves[j]? = some l
  sorted : RecsSorted l.recs
  front : ∀ l' ∈ leaves.take j, ∀ r ∈ l'.recs, r.key < srchKey
  behind : ∀ l' ∈ leaves.drop (j + 1), ∀ r ∈ l'.recs, srchKey < r.key
  pos : LeafEnd srchKey l pos

/-- More leaf pages to the left and to the right. -/
lemma TreeEnd.extend {leaves F B : List (Leaf α β)} {j : ℕ} {pos : LeafPos}
    (h : TreeEnd srchKey leaves j l pos) (hF : ∀ l' ∈ F, ∀ r ∈ l'.recs, r.key < srchKey)
    (hB : ∀ l' ∈ B, ∀ r ∈ l'.recs, srchKey < r.key) :
    TreeEnd srchKey (F ++ (leaves ++ B)) (F.length + j) l pos := by
  have hj := (List.getElem?_eq_some_iff.mp h.leaf).1
  refine ⟨?_, h.sorted, ?_, ?_, h.pos⟩
  · rw [List.getElem?_append_right (by omega), Nat.add_sub_cancel_left,
      getElem?_append_left hj, h.leaf]
  · rw [take_length_add_append, take_append_of_le_length hj.le]
    intro l' hl'
    rcases mem_append.mp hl' with hl' | hl'
    · exact hF l' hl'
    · exact h.front l' hl'
  · rw [Nat.add_assoc, drop_length_add_append, drop_append_of_le_length hj]
    intro l' hl'
    rcases mem_append.mp hl' with hl' | hl'
    · exact h.behind l' hl'
    · exact hB l' hl'

lemma Page.leavesList_append (A B : List (Key × Page α β)) :
    leavesList (A ++ B) = leavesList A ++ leavesList B := by
  induction A with
  | nil => simp [leavesList]
  | cons e A ih => simp [leavesList, ih]

lemma Page.height_le_heightList (h : e ∈ index) : e.2.height ≤ heightList index := by
  induction index with
  | nil => simp at h
  | cons e' index ih =>
    rw [heightList]
    rcases mem_cons.mp h with rfl | h
    · exact le_max_left _ _
    · exact (ih h).trans (le_max_right _ _)

/-- The search ends on a leaf page. -/
lemma searchDown_leaf (hl : l.WF lo hi) (hsrch : srchKey ≠ []) (insert : Bool)
    (fuel : ℕ) (appendCheck descendRight : Bool) (before : ℕ) {s : Srch}
    (hlog : LogOk srchKey s.log) (hlow : LowOk srchKey s.skiplow lo) :
    ∃ pos, searchDown P srchKey insert fuel (.leaf l) appendCheck descendRight before s =
        some ⟨before, pos⟩ ∧ TreeEnd srchKey [l] 0 l pos := by
  obtain ⟨pos, hpos, hend⟩ := leafSearch_spec (P := P) hl hlog hsrch insert descendRight hlow
  refine ⟨pos, ?_, rfl, hl.recsSorted, by simp, by simp, hend⟩
  cases fuel <;> simp [searchDown, hpos]

/-- The leaf pages around child `i`. -/
lemma IndexWF.around (h : IndexWF lo hi index) (he : index[i]? = some e)
    (hrange : InRange (lowerAt lo (index.map fst) 1 (i + 1))
      (upperAt hi (index.map fst) i) srchKey) :
    leavesList index = leavesList (index.take i) ++
        (e.2.leaves ++ leavesList (index.drop (i + 1))) ∧
      (∀ l ∈ leavesList (index.take i), ∀ r ∈ l.recs, r.key < srchKey) ∧
      (∀ l ∈ leavesList (index.drop (i + 1)), ∀ r ∈ l.recs, srchKey < r.key) := by
  obtain ⟨hlt, rfl⟩ := List.getElem?_eq_some_iff.mp he
  refine ⟨?_, ?_, ?_⟩
  · conv_lhs => rw [← take_append_drop i index, leavesList_append,
      drop_eq_getElem_cons hlt]
    rw [leavesList]
  · rcases i with _ | i
    · simp [leavesList]
    · have hk : (index.map fst)[i + 1]? = some index[i + 1].1 := by
        rw [getElem?_map, he]
        rfl
      intro l hl r hr
      have hle := hrange.1 _ (by rw [lowerAt, if_neg (by omega), Nat.add_sub_cancel, hk])
      have hfront := (h.split (by omega) hk).2.1.leavesOk.inRange l hl r hr
      exact lt_of_lt_of_le (hfront.2 _ rfl) (not_lt.mp hle)
  · rcases hnext : (index.map fst)[i + 1]? with _ | k
    · rw [drop_of_length_le (by simpa using hnext)]
      simp [leavesList]
    · intro l hl r hr
      have hlt := hrange.2 k (by simp [upperAt, hnext])
      have hback := (h.split (by omega) hnext).2.2.leavesOk.inRange l hl r hr
      exact lt_of_lt_of_le hlt (not_lt.mp (hback.1 k rfl))

/-- The search below a page. -/
lemma searchDown_spec (hsrch : srchKey ≠ []) (insert : Bool) :
    ∀ (fuel : ℕ) (p : Page α β) (lo hi : Option Key) (appendCheck descendRight : Bool) (before : ℕ)
      (s : Srch), p.height ≤ fuel → p.WF lo hi → InRange lo hi srchKey → LogOk srchKey s.log →
      LowOk srchKey s.skiplow lo →
      ∃ j pos l, searchDown P srchKey insert fuel p appendCheck descendRight before s =
        some ⟨before + j, pos⟩ ∧ TreeEnd srchKey p.leaves j l pos
  | fuel, .leaf l, _, _, appendCheck, descendRight, before, _, _, hwf, _, hlog, hlow => by
    obtain ⟨hl⟩ | _ := hwf
    obtain ⟨pos, hpos, hend⟩ := searchDown_leaf (P := P) hl hsrch insert fuel appendCheck
      descendRight before hlog hlow
    exact ⟨0, pos, l, hpos, by rwa [leaves]⟩
  | 0, .internal index, _, _, _, _, _, _, hfuel, _, _, _, _ => by simp [height] at hfuel
  | fuel + 1, .internal index, _, _, appendCheck, descendRight, before, _, hfuel, hwf, hrange,
      hlog, hlow => by
    obtain _ | ⟨hidx⟩ := hwf
    obtain ⟨d, hd, hok⟩ := internalDescend_spec (P := P) hidx hsrch hrange hlog hlow
      appendCheck descendRight
    obtain ⟨e, he⟩ : ∃ e, index[d.indx]? = some e := ⟨_, getElem?_eq_getElem hok.lt⟩
    obtain ⟨hsplit, hfront, hbehind⟩ := hidx.around he hok.range
    have hheight : e.2.height ≤ fuel := by
      have := height_le_heightList (mem_of_getElem? he)
      rw [height] at hfuel
      omega
    obtain ⟨j, pos, l, hpos, hend⟩ := searchDown_spec hsrch insert fuel e.2 _ _ d.appendCheck
      d.descendRight (before + (leavesList (index.take d.indx)).length) d.srch hheight
      (hidx.child he) hok.range hok.log hok.low
    refine ⟨(leavesList (index.take d.indx)).length + j, pos, l, ?_, ?_⟩
    · simp [searchDown, hd, he, hpos, add_assoc]
    · rw [leaves, hsplit]
      exact hend.extend hfront hbehind

/-- The search of a tree. -/
lemma rowSearch_spec {root : Page α β} (h : root.WF none none) (hsrch : srchKey ≠ [])
    (insert appendTree : Bool) :
    ∃ f l, rowSearch P srchKey insert appendTree root = some f ∧
      TreeEnd srchKey root.leaves f.page l f.pos := by
  obtain ⟨j, pos, l, hpos, hend⟩ := searchDown_spec (P := P) hsrch insert root.height root none none
    (insert && appendTree) true 0 ⟨0, 0, [], []⟩ le_rfl h ⟨by simp, by simp⟩ (by simp [LogOk])
    (Or.inl rfl)
  exact ⟨⟨j, pos⟩, l, by rw [rowSearch, hpos, zero_add], hend⟩

/-! ### What a search finds -/

/-- A key of the tree is on the leaf page the search ends on. -/
lemma TreeEnd.mem_leaf {root : Page α β} {j : ℕ} {pos : LeafPos}
    (h : TreeEnd srchKey root.leaves j l pos) {r : Rec α β} (hr : r ∈ root.recs)
    (hkey : r.key = srchKey) : r ∈ l.recs := by
  obtain ⟨l', hl', hr'⟩ := mem_flatMap.mp hr
  obtain ⟨hj, hl⟩ := List.getElem?_eq_some_iff.mp h.leaf
  rw [← take_append_drop j root.leaves, drop_eq_getElem_cons hj, hl] at hl'
  rcases mem_append.mp hl' with hl' | hl'
  · exact absurd (hkey ▸ h.front l' hl' r hr') (lt_irrefl _)
  rcases mem_cons.mp hl' with rfl | hl'
  · exact hr'
  · exact absurd (hkey ▸ h.behind l' hl' r hr') (lt_irrefl _)

/-- The position of a search on a page with records: on the search key if the page has it, and else
on the greatest smaller or on the least greater key. -/
lemma Positioned.cases {p : LeafPos} (h : Positioned srchKey l p)
    (hs : RecsSorted l.recs) :
    (p.compare = .eq ∧ ∃ r ∈ l.recs, r.place = p.place ∧ r.key = srchKey) ∨
    ((∀ r ∈ l.recs, r.key ≠ srchKey) ∧
      ((p.compare = .lt ∧ ∃ r ∈ l.recs, r.place = p.place ∧ r.key < srchKey ∧
          ∀ r' ∈ l.recs, r'.key < srchKey → ¬ r.key < r'.key) ∨
        (p.compare = .gt ∧ ∃ r ∈ l.recs, r.place = p.place ∧ srchKey < r.key ∧
          ∀ r' ∈ l.recs, srchKey < r'.key → ¬ r'.key < r.key))) := by
  obtain ⟨A, r, C, hrecs, hplace, hA, hC, hcmp⟩ := h
  rw [hrecs] at hs ⊢
  have hr : r ∈ A ++ r :: C := by simp
  have hmem : ∀ r' ∈ A ++ r :: C, r' ∈ A ∨ r' = r ∨ r' ∈ C := by simp
  have hne : r.key ≠ srchKey → ∀ r' ∈ A ++ r :: C, r'.key ≠ srchKey := by
    intro hne r' hr'
    rcases hmem r' hr' with h | rfl | h
    · exact (hA r' h).ne
    · exact hne
    · exact (hC r' h).ne'
  rcases hord : lexCmp r.key srchKey with _ | _ | _
  · have hlt := lexCmp_eq_lt_iff.mp hord
    refine Or.inr ⟨hne hlt.ne, Or.inl ⟨hcmp.trans hord, r, hr, hplace, hlt, ?_⟩⟩
    intro r' hr' hlt'
    rcases hmem r' hr' with h | rfl | h
    · exact (hs.around.1 r' h).not_gt
    · exact lt_irrefl _
    · exact absurd hlt' (hC r' h).not_gt
  · exact Or.inl ⟨hcmp.trans hord, r, hr, hplace, lexCmp_eq_eq_iff.mp hord⟩
  · have hgt := lexCmp_eq_gt_iff.mp hord
    refine Or.inr ⟨hne hgt.ne', Or.inr ⟨hcmp.trans hord, r, hr, hplace, hgt, ?_⟩⟩
    intro r' hr' hgt'
    rcases hmem r' hr' with h | rfl | h
    · exact absurd hgt' (hA r' h).not_gt
    · exact lt_irrefl _
    · exact (hs.around.2 r' h).not_gt

/-- **Row-store search is correct.**  A search ends on a leaf page of the tree, and every comparison
on the way has the result the whole keys have.  If the search key is in the tree, the cursor is on
it; if not, and the leaf page has records, it is on the page's greatest smaller key or on its least
greater key. -/
theorem rowSearch_correct (P : Platform) {root : Page α β} (h : root.WF none none)
    (hsrch : srchKey ≠ []) (insert appendTree : Bool) :
    ∃ f l, rowSearch P srchKey insert appendTree root = some f ∧ root.leaves[f.page]? = some l ∧
      (∀ x ∈ f.pos.srch.log, x.2 = lexCmp srchKey x.1) ∧
      ((∃ r ∈ root.recs, r.key = srchKey) →
        f.pos.compare = .eq ∧ ∃ r ∈ l.recs, r.place = f.pos.place ∧ r.key = srchKey) ∧
      ((¬ ∃ r ∈ root.recs, r.key = srchKey) → l.recs ≠ [] →
        (f.pos.compare = .lt ∧ ∃ r ∈ l.recs, r.place = f.pos.place ∧ r.key < srchKey ∧
          ∀ r' ∈ l.recs, r'.key < srchKey → ¬ r.key < r'.key) ∨
        (f.pos.compare = .gt ∧ ∃ r ∈ l.recs, r.place = f.pos.place ∧ srchKey < r.key ∧
          ∀ r' ∈ l.recs, srchKey < r'.key → ¬ r'.key < r.key)) := by
  obtain ⟨f, l, hf, hend⟩ := rowSearch_spec (P := P) h hsrch insert appendTree
  refine ⟨f, l, hf, hend.leaf, hend.pos.log, ?_, ?_⟩
  · rintro ⟨r, hr, hkey⟩
    have hr' := hend.mem_leaf hr hkey
    rcases hend.pos.pos with hpos | ⟨hnil, -⟩
    · rcases hpos.cases hend.sorted with hfound | ⟨hnone, -⟩
      · exact hfound
      · exact absurd hkey (hnone r hr')
    · simp [hnil] at hr'
  · intro hnone hne
    rcases hend.pos.pos with hpos | ⟨hnil, -⟩
    · rcases hpos.cases hend.sorted with ⟨-, r, hr, -, hkey⟩ | ⟨-, hnear⟩
      · have hmem : r ∈ root.recs :=
          mem_flatMap.mpr ⟨l, mem_of_getElem? hend.leaf, hr⟩
        exact absurd ⟨r, hmem, hkey⟩ hnone
      · exact hnear
    · exact absurd hnil hne

/-- A tree of two leaf pages, with keys in all places. -/
def sampleTree : Page Unit Unit :=
  .internal
    [([0], .leaf ⟨[⟨[5], 1, ()⟩],
      [⟨[10], (), (), []⟩, ⟨[20], (), (), [⟨[22], 2, ()⟩, ⟨[25], 1, ()⟩]⟩]⟩),
     ([40], .leaf ⟨[], [⟨[40], (), (), []⟩, ⟨[50], (), (), []⟩]⟩)]

lemma sampleTree_wf : sampleTree.WF none none := by
  refine .internal (.cons (.leaf ⟨by decide, by decide, by decide, ?_⟩) (by decide) (by simp)
    (by simp) (.single (.leaf ⟨by decide, by decide, by decide, ?_⟩)))
  · rintro (_ | _ | _ | slot) <;> simp [Leaf.insList]
  · rintro (_ | _ | _ | slot) <;> simp [Leaf.insList]

theorem rowSearch_sample :
    ∃ f l, rowSearch ⟨.x86, fun _ _ => true⟩ [25] true true sampleTree = some f ∧
      sampleTree.leaves[f.page]? = some l ∧ f.pos.compare = .eq ∧
      ∃ r ∈ l.recs, r.place = f.pos.place ∧ r.key = [25] := by
  obtain ⟨f, l, hf, hl, -, hfound, -⟩ :=
    rowSearch_correct ⟨.x86, fun _ _ => true⟩ sampleTree_wf (by simp : ([25] : Key) ≠ []) true true
  exact ⟨f, l, hf, hl, hfound (by decide)⟩

/-- A tree as it is created: an internal page with one empty leaf page below it. -/
def createdTree : Page Unit Unit := .internal [([0], .leaf ⟨[], []⟩)]

/-- On an empty leaf page there is no key to stand on: the search ends with the result for a greater
key all the same. -/
theorem rowSearch_createdTree :
    createdTree.WF none none ∧ createdTree.recs = [] ∧
      ∃ f, rowSearch ⟨.x86, fun _ _ => true⟩ [7] false false createdTree = some f ∧
        f.pos.compare = .gt := by
  refine ⟨.internal (.single (.leaf ⟨by decide, by decide, by decide, ?_⟩)), rfl, ?_⟩
  · rintro (_ | slot) <;> simp [Leaf.insList]
  · exact ⟨_, rfl, rfl⟩

end WiredTiger
