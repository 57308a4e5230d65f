/-
# Searching an insert list

The search of a skip list steps over nodes that are smaller than the search key, level by level,
and ends on the lowest level in front of the first node that is not.  The node it ends on is that
one, or the last node of the list if all of them are smaller.

The node that was last compared with is not compared with again; its result is still at hand, as
the walk has either just stepped over it, or stopped at it on the level above.
-/
import WiredTiger.Btree.PageSearch

namespace WiredTiger

open Lib List Or

variable {α : Type} {P : Platform} {srchKey : Key} {L : List (Insert α)}

/-- What holds while the nodes behind `passed` are left and the levels from `n` on are done. -/
structure InsInv (srchKey : Key) (n : ℕ) (passed here : List (Insert α)) (s : InsSrch) : Prop where
  log : LogOk srchKey s.log
  passed_lt : ∀ y ∈ passed, y.key < srchKey
  low : s.skiplow = 0 ∨ ∃ low, s.skiplow ≤ lcp srchKey low ∧ ∀ y ∈ here, ¬ y.key < low
  high : s.skiphigh = 0 ∨ ∃ x ∈ here, n ≤ x.depth ∧ srchKey < x.key ∧
    s.skiphigh ≤ lcp srchKey x.key
  /-- The node that was last compared with: none, the one stepped over last, or a greater one. -/
  last : (s.lastIns = none ∧ passed = []) ∨
    (passed ≠ [] ∧ s.lastIns = some here.length ∧ s.cmp = .gt) ∨
    (∃ A x C, here = A ++ x :: C ∧ n ≤ x.depth ∧ srchKey < x.key ∧ s.lastIns = some C.length ∧
      s.cmp = .lt ∧ s.matched = lcp srchKey x.key)

variable {n i : ℕ} {passed here skipped rest : List (Insert α)} {ins : Insert α} {s : InsSrch}

lemma InsInv.mono (h : InsInv srchKey (n + 1) passed here s) : InsInv srchKey n passed here s where
  log := h.log
  passed_lt := h.passed_lt
  low := h.low
  high := by
    rcases h.high with h0 | ⟨x, hx, hn, hlt, hle⟩
    · exact inl h0
    · exact inr ⟨x, hx, by omega, hlt, hle⟩
  last := by
    rcases h.last with h' | h' | ⟨A, x, C, hx, hn, h'⟩
    · exact inl h'
    · exact inr (inl h')
    · exact inr (inr ⟨A, x, C, hx, by omega, h'⟩)

/-- The order of the nodes that are left. -/
def KeysSorted (l : List (Insert α)) : Prop := (l.map Insert.key).Pairwise (· < ·)

lemma KeysSorted.behind {A C : List (Insert α)} {x : Insert α} (h : KeysSorted (A ++ x :: C)) :
    (∀ a ∈ A, a.key < x.key) ∧ (∀ c ∈ C, x.key < c.key) := by
  simp only [KeysSorted, map_append, map_cons, pairwise_append, pairwise_cons,
    mem_map, mem_cons] at h
  exact ⟨fun a ha => h.2.2 _ ⟨a, ha, rfl⟩ _ (inl rfl), fun c hc => h.2.1.1 _ ⟨c, hc, rfl⟩⟩

section

variable (h : InsInv srchKey (i + 1) passed (skipped ++ ins :: rest) s)
  (hsorted : KeysSorted (skipped ++ ins :: rest)) (hskipped : ∀ y ∈ skipped, y.depth ≤ i)
include h hsorted hskipped

/-- A node on the level that is walked: it is compared with correctly, now or before. -/
lemma compareIns_spec :
    ∃ s', compareIns P srchKey ins.key rest.length s = some s' ∧
      s'.cmp = lexCmp srchKey ins.key ∧ s'.matched = lcp srchKey ins.key ∧
      s'.lastIns = some rest.length ∧ LogOk srchKey s'.log ∧ s'.skiplow = s.skiplow ∧
      s'.skiphigh = s.skiphigh := by
  by_cases hlast : s.lastIns = some rest.length
  · -- the walk stopped at this node before
    rcases h.last with ⟨h', -⟩ | ⟨-, h', -⟩ | ⟨A, x, C, hx, hn, hlt, h', hcmp, hmatched⟩
    · simp [hlast] at h'
    · simp [hlast] at h'
      omega
    · have hlen : rest.length = C.length := by simpa [hlast] using h'
      obtain ⟨-, hins⟩ := append_inj' hx (by simp [hlen])
      obtain ⟨rfl, rfl⟩ := cons.inj hins
      exact ⟨s, by simp [compareIns, hlast], by rw [hcmp, lexCmp_eq_lt_iff.mpr hlt], hmatched,
        hlast, h.log, rfl, rfl⟩
  · have hmin : min s.skiplow s.skiphigh ≤ lcp srchKey ins.key := by
      rcases h.low with h0 | ⟨low, hlow, hlow'⟩
      · simp [h0]
      rcases h.high with h0 | ⟨x, hx, hn, -, hhigh⟩
      · simp [h0]
      have hxins : ¬ x.key < ins.key := by
        -- nodes that were skipped are not on this level
        rcases mem_append.mp hx with hx | hx
        · have := hskipped x hx
          omega
        rcases mem_cons.mp hx with rfl | hx
        · exact lt_irrefl _
        · exact (hsorted.behind.2 x hx).not_gt
      exact le_lcp_of_between (hlow' ins (by simp)) hxins (by omega) (by omega)
    exact ⟨{ s with cmp := lexCmp srchKey ins.key, matched := lcp srchKey ins.key,
                    lastIns := some rest.length
                    log := (ins.key, lexCmp srchKey ins.key) :: s.log },
      by simp [compareIns, hlast, lexCompareSkip_eq P hmin], rfl, rfl, rfl, h.log.cons _, rfl, rfl⟩

/-- Stepping over a smaller node. -/
lemma InsInv.pass {s' : InsSrch} (hgt : ins.key < srchKey) (hcmp : s'.cmp = .gt)
    (hmatched : s'.matched = lcp srchKey ins.key) (hlast : s'.lastIns = some rest.length)
    (hlog : LogOk srchKey s'.log) (hhigh : s'.skiphigh = s.skiphigh) :
    InsInv srchKey (i + 1) (passed ++ (skipped ++ [ins])) rest
      { s' with skiplow := s'.matched } where
  log := hlog
  passed_lt := by
    intro y hy
    simp only [mem_append, mem_singleton] at hy
    rcases hy with hy | hy | rfl
    · exact h.passed_lt y hy
    · exact (hsorted.behind.1 y hy).trans hgt
    · exact hgt
  low := inr ⟨ins.key, hmatched.le, fun y hy => (hsorted.behind.2 y hy).not_gt⟩
  high := by
    rcases h.high with h0 | ⟨x, hx, hn, hlt, hle⟩
    · exact inl (hhigh.trans h0)
    · refine inr ⟨x, ?_, hn, hlt, hhigh.le.trans hle⟩
      rcases mem_append.mp hx with hx | hx
      · have := hskipped x hx
        omega
      rcases mem_cons.mp hx with rfl | hx
      · exact absurd hgt hlt.not_gt
      · exact hx
  last := inr (inl ⟨by simp, hlast, hcmp⟩)

end

/-- How the walk along level `i` of the list `L` ends. -/
structure LevelEnd (srchKey : Key) (i : ℕ) (L : List (Insert α)) (stop : LevelStop α)
    (passed : List (Insert α)) : Prop where
  split : L = passed ++ stop.here
  /-- At the end of the level, with no greater node on it; or at the first node on it that is not
  smaller. -/
  stopped : (stop.ins = none ∧ InsInv srchKey (i + 1) passed stop.here stop.state ∧
      ∀ y ∈ stop.here, y.depth ≤ i) ∨
    (∃ A x C, stop.here = A ++ x :: C ∧ (∀ y ∈ A, y.depth ≤ i) ∧ stop.ins = some C.length ∧
      LogOk srchKey stop.state.log ∧ stop.state.cmp = lexCmp srchKey x.key ∧ x.key = srchKey) ∨
    (∃ A x C, stop.here = A ++ x :: C ∧ (∀ y ∈ A, y.depth ≤ i) ∧ stop.ins = some C.length ∧
      stop.state.cmp = .lt ∧ srchKey < x.key ∧
      InsInv srchKey (i + 1) passed stop.here
        { stop.state with skiphigh := stop.state.matched })

/-- The walk along one level. -/
lemma walkLevel_spec (hL : KeysSorted L) (i : ℕ) :
    ∀ (rest passed skipped : List (Insert α)) (s : InsSrch), L = passed ++ (skipped ++ rest) →
      (∀ y ∈ skipped, y.depth ≤ i) → InsInv srchKey (i + 1) passed (skipped ++ rest) s →
      ∃ stop passed', walkLevel P srchKey i (skipped ++ rest) s rest = some stop ∧
        LevelEnd srchKey i L stop passed' := by
  intro rest
  induction rest with
  | nil =>
    intro passed skipped s hsplit hskipped hinv
    rw [append_nil] at hsplit hinv ⊢
    exact ⟨_, passed, rfl, hsplit, inl ⟨rfl, hinv, hskipped⟩⟩
  | cons ins rest ih =>
    intro passed skipped s hsplit hskipped hinv
    rw [walkLevel]
    by_cases hdepth : ins.depth ≤ i
    · -- the node is not on this level
      have hassoc : skipped ++ ins :: rest = (skipped ++ [ins]) ++ rest := by simp
      rw [if_pos hdepth, hassoc]
      rw [hassoc] at hsplit hinv
      refine ih passed (skipped ++ [ins]) s hsplit (fun y hy => ?_) hinv
      rcases mem_append.mp hy with hy | hy
      · exact hskipped y hy
      · exact mem_singleton.mp hy ▸ hdepth
    have hsorted : KeysSorted (skipped ++ ins :: rest) := by
      rw [hsplit, KeysSorted, map_append, pairwise_append] at hL
      exact hL.2.1
    obtain ⟨s', hs', hcmp, hmatched, hlast, hlog, hlow, hhigh⟩ :=
      compareIns_spec (P := P) hinv hsorted hskipped
    rw [if_neg hdepth, hs']
    simp only [Option.bind_eq_bind, Option.bind_some]
    rcases hord : lexCmp srchKey ins.key with _ | _ | _
    · -- a greater node: go down here
      have hlt := lexCmp_eq_lt_iff.mp hord
      rw [hord] at hcmp
      rw [if_neg (by simp [hcmp])]
      refine ⟨_, passed, rfl, hsplit, inr (inr ⟨skipped, ins, rest, rfl, hskipped, rfl,
        hcmp, hlt, hlog, hinv.passed_lt, ?_, ?_, ?_⟩)⟩
      · exact hlow ▸ hinv.low
      · exact inr ⟨ins, by simp, by omega, hlt, hmatched.le⟩
      · exact inr (inr ⟨skipped, ins, rest, rfl, by omega, hlt, hlast, hcmp, hmatched⟩)
    · -- the key itself
      rw [if_neg (by simp [hcmp, hord])]
      exact ⟨_, passed, rfl, hsplit, inr (inl ⟨skipped, ins, rest, rfl, hskipped, rfl,
        hlog, hcmp, (lexCmp_eq_eq_iff.mp hord).symm⟩)⟩
    · -- a smaller node: step over it
      rw [hord] at hcmp
      rw [if_pos hcmp]
      have hpass := hinv.pass hsorted hskipped (lexCmp_eq_gt_iff.mp hord) hcmp hmatched hlast
        hlog hhigh
      exact ih (passed ++ (skipped ++ [ins])) [] _ (by simp [hsplit]) (by simp) hpass

/-- A node of the list `L` such that the nodes in front of it are smaller and those behind it
greater than the search key. -/
def Split (srchKey : Key) (L A : List (Insert α)) (x : Insert α) (C : List (Insert α)) : Prop :=
  L = A ++ x :: C ∧ (∀ a ∈ A, a.key < srchKey) ∧ (∀ c ∈ C, srchKey < c.key)

lemma split_of_eq {L A C : List (Insert α)} {x : Insert α} (hL : KeysSorted L)
    (h : L = A ++ x :: C) (hx : x.key = srchKey) : Split srchKey L A x C :=
  ⟨h, hx ▸ (h ▸ hL : KeysSorted (A ++ x :: C)).behind.1,
    hx ▸ (h ▸ hL : KeysSorted (A ++ x :: C)).behind.2⟩

section

variable (hL : KeysSorted L) (hne : L ≠ [])
include hL hne

/-- The end of the search: the lowest level is done. -/
lemma insert_end (hsplit : L = passed ++ here) (hinv : InsInv srchKey 0 passed here s)
    {ins : Option ℕ}
    (hend : (ins = none ∧ here = []) ∨ (∃ x C, here = x :: C ∧ ins = some C.length ∧
      srchKey < x.key ∧ s.cmp = .lt)) :
    ∃ A x C, Split srchKey L A x C ∧ ins.or s.lastIns = some C.length ∧
      s.cmp = lexCmp srchKey x.key := by
  rcases hend with ⟨rfl, rfl⟩ | ⟨x, C, rfl, rfl, hlt, hcmp⟩
  · -- all nodes are smaller: the last one is the one stepped over last
    rw [append_nil] at hsplit
    subst hsplit
    rcases hinv.last with ⟨-, h⟩ | ⟨-, hlast, hcmp⟩ | ⟨A, x, C, h, -⟩
    · exact absurd h hne
    · obtain ⟨A, x, rfl⟩ := eq_nil_or_concat L |>.resolve_left hne
      refine ⟨A, x, [], ⟨by simp, fun a ha => hinv.passed_lt a (by simp [ha]), by simp⟩,
        by simpa using hlast, ?_⟩
      rw [hcmp, lexCmp_eq_gt_iff.mpr (hinv.passed_lt x (by simp))]
    · simp at h
  · refine ⟨passed, x, C, ⟨hsplit, hinv.passed_lt, fun c hc => ?_⟩, by simp, ?_⟩
    · exact hlt.trans ((hsplit ▸ hL : KeysSorted (passed ++ x :: C)).behind.2 c hc)
    · rw [hcmp, lexCmp_eq_lt_iff.mpr hlt]

/-- The levels of the skip list, from the highest one down. -/
lemma walkLevels_spec (hdepth : ∀ x ∈ L, 0 < x.depth) :
    ∀ (n : ℕ) (passed here : List (Insert α)) (ins : Option ℕ) (s : InsSrch),
      L = passed ++ here → InsInv srchKey n passed here s →
      (n = 0 → (ins = none ∧ here = []) ∨ (∃ x C, here = x :: C ∧ ins = some C.length ∧
        srchKey < x.key ∧ s.cmp = .lt)) →
      ∃ ins' s' A x C, walkLevels P srchKey n here ins s = some (ins', s') ∧
        Split srchKey L A x C ∧ ins'.or s'.lastIns = some C.length ∧
        s'.cmp = lexCmp srchKey x.key ∧ LogOk srchKey s'.log := by
  intro n
  induction n with
  | zero =>
    intro passed here ins s hsplit hinv hend
    obtain ⟨A, x, C, h₁, h₂, h₃⟩ := insert_end hL hne hsplit hinv (hend rfl)
    exact ⟨ins, s, A, x, C, rfl, h₁, h₂, h₃, hinv.log⟩
  | succ i ih =>
    intro passed here ins s hsplit hinv _
    obtain ⟨stop, passed', hwalk, hsplit', hstop⟩ :=
      walkLevel_spec (P := P) hL i here passed [] s hsplit (by simp) hinv
    have hdepth' : ∀ y ∈ stop.here, 0 < y.depth := fun y hy =>
      hdepth y (hsplit' ▸ mem_append_right _ hy)
    rw [nil_append] at hwalk
    rw [walkLevels, hwalk]
    simp only [Option.bind_eq_bind, Option.bind_some]
    rcases hstop with ⟨hins, hinv', hlow⟩ | ⟨A, x, C, hhere, -, hins, hlog, hcmp, hx⟩ |
      ⟨A, x, C, hhere, hA, hins, hcmp, hlt, hinv'⟩
    · rw [hins]
      refine ih passed' stop.here none stop.state hsplit' hinv'.mono fun h0 => inl ⟨rfl, ?_⟩
      refine eq_nil_iff_forall_not_mem.mpr fun y hy => ?_
      have h₁ := hlow y hy
      have h₂ := hdepth' y hy
      omega
    · rw [hins]
      simp only [hcmp, lexCmp_eq_eq_iff.mpr hx.symm, reduceCtorEq, if_false]
      rw [hhere, ← append_assoc] at hsplit'
      exact ⟨_, _, _, x, C, rfl, split_of_eq hL hsplit' hx, by simp,
        by rw [hcmp, lexCmp_eq_eq_iff.mpr hx.symm], hlog⟩
    · rw [hins]
      dsimp only
      rw [if_pos hcmp]
      refine ih passed' stop.here _ _ hsplit' hinv'.mono fun h0 =>
        inr ⟨x, C, ?_, rfl, hlt, hcmp⟩
      -- on the lowest level no node was skipped
      have hnil : A = [] := by
        refine eq_nil_iff_forall_not_mem.mpr fun y hy => ?_
        have h₁ := hA y hy
        have h₂ := hdepth' y (hhere ▸ mem_append_left _ hy)
        omega
      rw [hhere, hnil, nil_append]

/-- The position `p'` is on a node of the insert list `L`, between smaller and greater ones. -/
structure OnInsert (srchKey : Key) (L : List (Insert α)) (p p' : LeafPos) : Prop where
  node : ∃ A x C, Split srchKey L A x C ∧ p'.ins = some A.length ∧
    p'.compare = lexCmp x.key srchKey
  slot : p'.slot = p.slot
  smallest : p'.smallest = p.smallest
  insHead : p'.insHead = true
  log : LogOk srchKey p'.srch.log

/-- **The search of an insert list.** -/
lemma searchInsert_spec (hdepth : ∀ x ∈ L, 0 < x.depth) {p : LeafPos}
    (hlog : LogOk srchKey p.srch.log) :
    ∃ p', searchInsert P srchKey L p = some p' ∧ OnInsert srchKey L p p' := by
  have hinit : InsInv srchKey skipMaxdepth [] L ⟨0, 0, 0, .eq, none, p.srch.log⟩ :=
    ⟨hlog, by simp, inl rfl, inl rfl, inl ⟨rfl, rfl⟩⟩
  obtain ⟨ins, s, A, x, C, hwalk, hsplit, hins, hcmp, hlog'⟩ :=
    walkLevels_spec (P := P) hL hne hdepth skipMaxdepth [] L none _ rfl hinit
      (by simp [skipMaxdepth])
  refine ⟨{ p with compare := s.cmp.swap, ins := some A.length, insHead := true,
                   srch := { p.srch with log := s.log } }, ?_,
    ⟨A, x, C, hsplit, rfl, by rw [hcmp, lexCmp_swap]⟩, rfl, rfl, rfl, hlog'⟩
  have hindx : L.length - 1 - C.length = A.length := by simp [hsplit.1]
  cases ins with
  | none =>
    have hlast : s.lastIns = some C.length := by simpa using hins
    simp [searchInsert, hwalk, hlast, hindx]
  | some n =>
    have hn : n = C.length := by simpa using hins
    simp [searchInsert, hwalk, hn, hindx]

end

/-- The fast path for a key at or behind the end of an insert list. -/
lemma searchInsertAppend_spec (hL : KeysSorted L) {p : LeafPos}
    (hlog : LogOk srchKey p.srch.log) :
    (∃ p', searchInsertAppend P srchKey L p = (true, p') ∧ OnInsert srchKey L p p' ∧
      p'.compare ≠ .gt) ∨
    (∃ log, searchInsertAppend P srchKey L p = (false, { p with srch := { p.srch with log } }) ∧
      LogOk srchKey log) := by
  rcases eq_nil_or_concat L with rfl | ⟨A, x, rfl⟩
  · exact inr ⟨p.srch.log, rfl, hlog⟩
  by_cases hlt : lexCmp srchKey x.key = .lt
  · refine inr ⟨(x.key, .lt) :: p.srch.log, ?_, hlt ▸ hlog.cons x.key⟩
    simp [searchInsertAppend, lexCompare_false, hlt, Srch.record]
  · have hle : ¬ srchKey < x.key := fun h => hlt (lexCmp_eq_lt_iff.mpr h)
    rw [concat_eq_append] at hL ⊢
    refine inl ⟨{ p with compare := (lexCmp srchKey x.key).swap, ins := some A.length,
                            insHead := true,
                            srch := p.srch.record x.key (lexCmp srchKey x.key) },
      by simp [searchInsertAppend, lexCompare_false, hlt],
      ⟨⟨A, x, [], ⟨rfl, fun a ha => ?_, by simp⟩, rfl, lexCmp_swap _ _⟩, rfl, rfl, rfl,
      hlog.cons x.key⟩, ?_⟩
    rotate_left
    · rw [ne_eq, lexCmp_swap, lexCmp_eq_gt_iff]
      exact hle
    exact lt_of_lt_of_le (hL.behind.1 a ha) (not_lt.mp hle)

end WiredTiger
