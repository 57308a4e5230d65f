/-
# Search near with a prefix

With `prefix_search` the search key is a prefix, and a search near is to return a key that begins
with it, if there is a visible one.  The comparison that decides what matches takes a nul byte of
the prefix for its end.  So keys may match that do not begin with the prefix, and on the walk
forward nothing is checked but that the key is not yet behind the prefix.
-/
import WiredTiger.Btree.NearSpec

namespace WiredTiger

open Lib Option List

variable {α β : Type} {rd : Reader α β} {P : Platform} {root : Page α β} {srchKey : Key}
  {l : Leaf α β} {pos : LeafPos} {skip skip' : ℕ → Bool} {isa : Isa}

/-! ### Keys with a prefix -/

lemma scalarCompare_append (p tree : Key) :
    scalarCompare true p (p ++ tree) = none ∨ scalarCompare true p (p ++ tree) = some .eq := by
  induction p with
  | nil => exact .inl (by cases tree <;> rfl)
  | cons u p ih =>
    rw [cons_append, scalarCompare]
    by_cases hu : u = 0
    · exact .inr (by simp [hu])
    · simpa [hu] using ih

/-- A key that begins with the prefix matches. -/
lemma prefixMatch_eq {p k : Key} (h : p <+: k) : prefixMatch isa p k = .eq := by
  obtain ⟨tree, rfl⟩ := h
  have hskip : vectorSkip isa p (p ++ tree) ≤ p.length :=
    (vectorSkip_le_lcp isa p (p ++ tree)).trans (lcp_le_left _ _)
  rw [prefixMatch, lexCompare]
  rw [drop_append_of_le_length hskip]
  rcases scalarCompare_append (p.drop (vectorSkip isa p (p ++ tree))) tree with hs | hs
  · rw [hs]
    rcases tree with _ | ⟨t, tree⟩
    · simp [lengthOrder]
    · simp
  · rw [hs]

lemma scalarCompare_true (user tree : Key) :
    (scalarCompare true user tree = none ∧ min user.length tree.length ≤ lcp user tree) ∨
      (0 ∈ user ∧ scalarCompare true user tree = some .eq) ∨
      scalarCompare true user tree = some (lexCmp user tree) := by
  induction user generalizing tree with
  | nil => exact .inl ⟨by cases tree <;> rfl, by simp⟩
  | cons u user ih =>
    cases tree with
    | nil => exact .inl ⟨rfl, by simp⟩
    | cons t tree =>
      by_cases hu : u = 0
      · exact .inr (.inl (by simp [scalarCompare, hu]))
      by_cases hut : u = t
      · subst hut
        rcases ih tree with ⟨hnone, hle⟩ | ⟨hmem, heq⟩ | hsome
        · refine .inl ⟨by simpa [scalarCompare, hu] using hnone, ?_⟩
          simp only [length_cons, lcp_cons_cons, if_true]
          omega
        · exact .inr (.inl ⟨mem_cons_of_mem _ hmem, by simpa [scalarCompare, hu] using heq⟩)
        · exact .inr (.inr (by simpa [scalarCompare, hu, lexCmp] using hsome))
      · refine .inr (.inr ?_)
        rw [lexCmp_cons_of_ne hut]
        by_cases ht : t = 0
        · simp [scalarCompare, hu, ht, byteOrder]
        · simp [scalarCompare, hu, ht, hut]

/-- The comparison is right unless the prefix has a nul byte. -/
lemma prefixMatch_cases (isa : Isa) (p k : Key) :
    p <+: k ∨ (0 ∈ p ∧ prefixMatch isa p k = .eq) ∨ prefixMatch isa p k = lexCmp p k := by
  have hk := vectorSkip_le_lcp isa p k
  rw [prefixMatch, lexCompare]
  rcases scalarCompare_true (p.drop (vectorSkip isa p k)) (k.drop (vectorSkip isa p k)) with
    ⟨hnone, hle⟩ | ⟨hmem, heq⟩ | hsome
  · have hlcp := lcp_add hk
    simp only [length_drop] at hle
    by_cases hlen : p.length < k.length
    · obtain ⟨-, -, htake⟩ := le_lcp_iff.mp (show p.length ≤ lcp p k by omega)
      rw [take_length] at htake
      exact .inl (prefix_iff_eq_take.mpr htake)
    · refine .inr (.inr ?_)
      rw [hnone, lexCmp_eq_lengthOrder (by omega)]
      simp [hlen]
  · exact .inr (.inl ⟨mem_of_mem_drop hmem, by rw [heq]⟩)
  · exact .inr (.inr (by rw [hsome, lexCmp_drop hk]))

/-- A key compares as one with the prefix, but does not begin with it. -/
def NulMatch (isa : Isa) (p k : Key) : Prop :=
  prefixMatch isa p k = .eq ∧ ¬ p <+: k

lemma NulMatch.nul_mem {p k : Key} (h : NulMatch isa p k) : 0 ∈ p := by
  rcases prefixMatch_cases isa p k with hpre | ⟨hnul, -⟩ | heq
  · exact absurd hpre h.2
  · exact hnul
  · obtain rfl := lexCmp_eq_eq_iff.mp (heq.symm.trans h.1)
    exact absurd (prefix_refl _) h.2

/-- A key above the prefix that is not compared as behind it. -/
lemma nulMatch_of_not_out {p k : Key} (hlt : p < k) (hin : prefixOut isa (some p) k = false)
    (hpre : ¬ p <+: k) : NulMatch isa p k := by
  rcases prefixMatch_cases isa p k with hpre' | ⟨-, heq⟩ | heq
  · exact absurd hpre' hpre
  · exact ⟨heq, hpre⟩
  · simp [prefixOut, heq, lexCmp_eq_lt_iff.mpr hlt] at hin

lemma not_lt_of_isPrefix {p k : Key} (h : p <+: k) : ¬ k < p := by
  obtain ⟨tree, rfl⟩ := h
  have hlcp : p.length ≤ lcp p (p ++ tree) := le_lcp_iff.mpr ⟨le_rfl, by simp, by simp⟩
  rw [← lexCmp_eq_gt_iff, lexCmp_eq_lengthOrder ((min_le_left _ _).trans hlcp), lengthOrder]
  rcases tree with _ | ⟨t, tree⟩ <;> simp

/-- The keys that begin with a prefix follow the prefix. -/
lemma isPrefix_of_between {p k k' : Key} (h₁ : ¬ k < p) (h₂ : ¬ k' < k) (hp : p <+: k') :
    p <+: k := by
  obtain ⟨tree, rfl⟩ := hp
  have hlcp : p.length ≤ lcp p k :=
    le_lcp_of_between h₁ h₂ (lcp_self p).ge (le_lcp_iff.mpr ⟨le_rfl, by simp, by simp⟩)
  obtain ⟨-, hlen, htake⟩ := le_lcp_iff.mp hlcp
  rw [take_length] at htake
  exact prefix_iff_eq_take.mpr htake

/-! ### What the search needs -/

/-- What a prefix search near is to return: a key that begins with the prefix, and nothing only if
no visible key does. -/
def PrefixOk (rd : Reader α β) (root : Page α β) (srchKey : Key) : Option Near → Prop
  | none => ∀ r ∈ root.recs, rd.sees r = true → ¬ srchKey <+: r.key
  | some near => srchKey <+: near.key

section

variable (rd : Reader α β) (isa : Isa) (root : Page α β) (skip : ℕ → Bool) (srchKey : Key)
  (page : ℕ) (l : Leaf α β) (pos : LeafPos)

/-- There is a value at the position, and the key there compares as one with the prefix. -/
def Accepted (r : Rec α β) : Prop :=
  (r ∈ l.recs ∧ r.place = pos.place) ∧ cursorValid rd l pos ≠ .ok none ∧
    prefixMatch isa srchKey r.key = .eq

/-- The records the walk forward has in front of it. -/
def Behind (r : Rec α β) : Prop :=
  Ahead root skip page srchKey r ∧ ¬ (r ∈ l.recs ∧ r.place = pos.place)

/-- The records the walk forward comes to: none up to them is compared as behind the prefix. -/
def Reached (r : Rec α β) : Prop :=
  Behind root skip srchKey page l pos r ∧
    ∀ y, Behind root skip srchKey page l pos y → ¬ r.key < y.key →
      prefixOut isa (some srchKey) y.key = false

/-- The first visible record the walk comes to does not begin with the prefix. -/
def Misled : Prop :=
  ∃ x, Reached isa root skip srchKey page l pos x ∧ rd.sees x = true ∧
    (∀ y, Behind root skip srchKey page l pos y → rd.sees y = true → ¬ y.key < x.key) ∧
    NulMatch isa srchKey x.key

/-- The walk does not come to any visible record, and one that begins with the prefix is on a page
it skips. -/
def Hidden : Prop :=
  (∀ x, Reached isa root skip srchKey page l pos x → rd.sees x = false) ∧
    ∃ i l' x, root.leaves[i]? = some l' ∧ x ∈ l'.recs ∧ page < i ∧ skip i = true ∧
      rd.sees x = true ∧ srchKey <+: x.key

/-- A key that is accepted at the position is not one that matches because of a nul byte; and
without one, the walk is not misled by such a key, and no skipped page hides all keys that begin
with the prefix. -/
structure PrefixAt : Prop where
  accepted : ∀ r, Accepted rd isa srchKey l pos r → ¬ NulMatch isa srchKey r.key
  walk : (∀ r, ¬ Accepted rd isa srchKey l pos r) →
    ¬ Misled rd isa root skip srchKey page l pos ∧ ¬ Hidden rd isa root skip srchKey page l pos

end

/-- What a prefix search near needs besides a well-formed tree. -/
def PrefixCond (rd : Reader α β) (P : Platform) (root : Page α β) (skip : ℕ → Bool) (srchKey : Key)
    (pinned : Option (ℕ × Bool)) (appendTree : Bool) : Prop :=
  ∀ page l pos, EndsOn rd P root srchKey pinned appendTree page l pos →
    PrefixAt rd P.isa root skip srchKey page l pos

lemma prefixCond_of_nul_notMem {pinned : Option (ℕ × Bool)} {appendTree : Bool}
    (hnul : 0 ∉ srchKey) (hskip : SkipsNone rd root skip) :
    PrefixCond rd P root skip srchKey pinned appendTree := by
  refine fun page l pos _ => ⟨fun r _ hm => hnul hm.nul_mem, fun _ => ⟨?_, ?_⟩⟩
  · rintro ⟨x, -, -, -, hm⟩
    exact hnul hm.nul_mem
  · rintro ⟨-, i, l', x, hl', hx, -, hi, hxs, -⟩
    rw [hskip i l' hl' hi x hx] at hxs
    cases hxs

/-- What holds if the walk ends without a record. -/
lemma prefixOk_none_iff {page : ℕ}
    (hnone : ∀ x, Reached isa root skip srchKey page l pos x → rd.sees x = false)
    (hskip : ∀ x ∈ root.recs, rd.sees x = true → srchKey <+: x.key →
      ∃ i l', root.leaves[i]? = some l' ∧ x ∈ l'.recs ∧ page < i ∧ skip i = true) :
    PrefixOk rd root srchKey none ↔
      ¬ Misled rd isa root skip srchKey page l pos ∧
        ¬ Hidden rd isa root skip srchKey page l pos := by
  constructor
  · intro hno
    refine ⟨?_, ?_⟩
    · rintro ⟨x, hx, hxs, -⟩
      rw [hnone x hx] at hxs
      cases hxs
    · rintro ⟨-, i, l', x, hl', hx, -, -, hxs, hpre⟩
      exact hno x (mem_flatMap.mpr ⟨l', mem_of_getElem? hl', hx⟩) hxs hpre
  · rintro ⟨-, hhidden⟩ x hx hxs hpre
    obtain ⟨i, l', hl', hxl, hi, hskipped⟩ := hskip x hx hxs hpre
    exact hhidden ⟨hnone, i, l', x, hl', hxl, hi, hskipped, hxs, hpre⟩

section

variable {page : ℕ} (h : TreeEnd srchKey root.leaves page l pos)
  (hnot : ∀ r, ¬ Accepted rd P.isa srchKey l pos r)

include h hnot

/-- If no key is accepted, the visible ones that begin with the prefix are in front of the walk or
on pages it skips. -/
lemma TreeEnd.behind_of_isPrefix {x : Rec α β} (hx : x ∈ root.recs) (hxs : rd.sees x = true)
    (hpre : srchKey <+: x.key) :
    Behind root skip srchKey page l pos x ∨
      ∃ i l', root.leaves[i]? = some l' ∧ x ∈ l'.recs ∧ page < i ∧ skip i = true := by
  obtain ⟨l', hl', hxl⟩ := mem_flatMap.mp hx
  obtain ⟨i, hi⟩ := mem_iff_getElem?.mp hl'
  have hge := not_lt_of_isPrefix hpre
  have hat : ¬ (x ∈ l.recs ∧ x.place = pos.place) := by
    intro hat
    refine hnot x ⟨hat, fun hvalid => ?_, prefixMatch_eq hpre⟩
    rw [h.not_sees hvalid hat.1 hat.2 hge] at hxs
    cases hxs
  have hgt : srchKey < x.key := by
    refine lt_of_le_of_ne (not_lt.mp hge) fun heq => hat ?_
    have hmem := h.mem_leaf hx heq.symm
    rcases h.pos.lands with ⟨A, r, C, hland⟩ | ⟨hnil, -⟩
    · obtain rfl := h.eq_landing hland hx heq.symm
      exact ⟨hmem, hland.place⟩
    · rw [hnil] at hmem
      cases hmem
  rcases (h.page_le hi hxl hgt).eq_or_lt with rfl | hpage
  · exact .inl ⟨⟨page, l', hi, hxl, hgt, .inl rfl⟩, hat⟩
  · cases hskip : skip i
    · exact .inl ⟨⟨i, l', hi, hxl, hgt, .inr ⟨hpage, hskip⟩⟩, hat⟩
    · exact .inr ⟨i, l', hi, hxl, hpage, hskip⟩

/-- **The walk forward** finds a key that begins with the prefix if there is a visible one, exactly
if it is not misled and no skipped page hides them all. -/
lemma TreeEnd.prefixWalk_iff (hroot : RecsSorted root.recs) {valid : Option Value}
    {out : Option Near}
    (hout : nearWalk rd P root srchKey skip skip' true ⟨page, pos, valid⟩ = .ok out) :
    PrefixOk rd root srchKey out ↔
      ¬ Misled rd P.isa root skip srchKey page l pos ∧
        ¬ Hidden rd P.isa root skip srchKey page l pos := by
  obtain ⟨N, hN, hsub, hmem, hnext⟩ := h.nearNext rd P skip hroot (some srchKey) root.recs.length
  have hbehind : ∀ x, Behind root skip srchKey page l pos x ↔ x ∈ N := fun x => (hmem x).symm
  have hNs : RecsSorted N := by
    rw [RecsSorted] at hroot ⊢
    exact hroot.sublist (hsub.map _)
  rw [nearWalk, if_pos rfl, hnext] at hout
  rcases hscan : scan rd P.isa (some srchKey) N with e | found
  · rw [hscan] at hout
    cases hout
  rw [hscan] at hout
  have hfound := scan_ok hscan
  cases found with
  | found r value rest =>
    obtain ⟨front, hfront, hsplit, hin, hread⟩ := hfound
    cases hout
    have hsees : rd.sees r = true := Reader.sees_iff.mpr ⟨value, hread⟩
    have hrN : r ∈ N := by
      rw [hsplit]
      simp
    have hs := hsplit ▸ hNs
    -- the result is reached, and it is the first visible record
    have hreached : Reached P.isa root skip srchKey page l pos r := by
      refine ⟨(hbehind r).mpr hrN, fun y hy hle => ?_⟩
      have hyN := (hbehind y).mp hy
      rw [hsplit] at hyN
      rcases mem_append.mp hyN with hy | hy
      · exact (hfront y hy).2
      rcases mem_cons.mp hy with rfl | hy
      · exact hin
      · exact absurd (hs.around.2 y hy) hle
    have hfirst : ∀ y, Behind root skip srchKey page l pos y → rd.sees y = true →
        ¬ y.key < r.key := fun y hy hys =>
      hs.not_lt_of_sees (fun z hz => (hfront z hz).1) (hsplit ▸ (hbehind y).mp hy) hys
    constructor
    · intro (hpre : srchKey <+: r.key)
      refine ⟨?_, fun hidden => ?_⟩
      · rintro ⟨x, hx, -, hle, hm⟩
        exact hm.2 (isPrefix_of_between (hN x ((hbehind x).mp hx.1)).not_gt
          (hle r hreached.1 hsees) hpre)
      · rw [hidden.1 r hreached] at hsees
        cases hsees
    · rintro ⟨hmis, -⟩
      by_contra hpre
      exact hmis ⟨r, hreached, hsees, hfirst, nulMatch_of_not_out (hN r hrN) hin hpre⟩
  | outOfBounds =>
    obtain ⟨front, y, rest, hfront, hsplit, hy⟩ := hfound
    cases hout
    have hyN : y ∈ N := by
      rw [hsplit]
      simp
    have hs := hsplit ▸ hNs
    -- the walk ends at `y`
    have hend : ∀ x, Behind root skip srchKey page l pos x → rd.sees x = true →
        ¬ x.key < y.key := fun x hx hxs =>
      hs.not_lt_of_sees (fun z hz => (hfront z hz).1) (hsplit ▸ (hbehind x).mp hx) hxs
    have hnone : ∀ x, Reached P.isa root skip srchKey page l pos x → rd.sees x = false := by
      intro x hx
      by_contra hxs
      rw [hx.2 y ((hbehind y).mpr hyN) (hend x hx.1 (eq_true_of_ne_false hxs))] at hy
      cases hy
    refine prefixOk_none_iff hnone fun x hx hxs hpre => ?_
    refine (h.behind_of_isPrefix hnot hx hxs hpre).resolve_left fun hxb => ?_
    have hpre := isPrefix_of_between (hN y hyN).not_gt (hend x hxb hxs) hpre
    rw [prefixOut, prefixMatch_eq hpre] at hy
    cases hy
  | notFound =>
    cases hout
    refine prefixOk_none_iff (fun x hx => (hfound x ((hbehind x).mp hx.1)).1)
      fun x hx hxs hpre => ?_
    refine (h.behind_of_isPrefix hnot hx hxs hpre).resolve_left fun hxb => ?_
    rw [(hfound x ((hbehind x).mp hxb)).1] at hxs
    cases hxs

end

/-- **A prefix search near returns a key that begins with the prefix, if there is a visible one,
exactly if** neither the searches nor the walk are misled by a nul byte of the prefix, and no
skipped page hides all keys that begin with it.  In particular it does if the prefix has no nul byte
and no page with a visible key is skipped. -/
theorem searchNear_prefix_iff (S : Session) (P : Platform) {root : Page (List Update) Cell}
    (h : root.WF none none) {srchKey : Key} (hsrch : srchKey ≠ []) (refs refs' : ℕ → Ref)
    (appendTree : Bool) {pinned : Option (ℕ × Bool)}
    (hpin : ∀ x ∈ pinned, x.1 < root.leaves.length) :
    ∃ res, searchNear S.reader P root srchKey (fun i => S.walkSkips (refs i))
        (fun i => S.walkSkips (refs' i)) true appendTree pinned = some res ∧
      ∀ out, res = .ok out →
        (PrefixOk S.reader root srchKey out ↔
          PrefixCond S.reader P root (fun i => S.walkSkips (refs i)) srchKey pinned appendTree) ∧
        (0 ∉ srchKey → SkipsNone S.reader root (fun i => S.walkSkips (refs i)) →
          PrefixOk S.reader root srchKey out) := by
  have hroot : RecsSorted root.recs := h.leavesOk.recsSorted
  rcases searchLanding_spec S.reader P h hsrch hpin appendTree with
    ⟨e, herr⟩ | ⟨page, l, pos, valid, hland, hat, hend, hvalid⟩
  · exact ⟨.error e, by rw [searchNear, herr], fun out hout => nomatch hout⟩
  refine ⟨_, by rw [searchNear, hland], fun out hout => ?_⟩
  suffices hcond : PrefixOk S.reader root srchKey out ↔
      PrefixCond S.reader P root (fun i => S.walkSkips (refs i)) srchKey pinned appendTree from
    ⟨hcond, fun hnul hskip => hcond.mpr (prefixCond_of_nul_notMem hnul hskip)⟩
  rw [PrefixCond, hat.forall_iff]
  have hleaf : root.leaves[page]? = some l := hend.leaf
  -- without an accepted key the walk decides
  have hwalk : (∀ r, ¬ Accepted S.reader P.isa srchKey l pos r) →
      nearWalk S.reader P root srchKey (fun i => S.walkSkips (refs i))
        (fun i => S.walkSkips (refs' i)) true ⟨page, pos, valid⟩ = .ok out →
      (PrefixOk S.reader root srchKey out ↔
        PrefixAt S.reader P.isa root (fun i => S.walkSkips (refs i)) srchKey page l pos) := by
    intro hnot hout
    rw [hend.prefixWalk_iff hnot hroot hout]
    exact ⟨fun hcond => ⟨fun r hr => absurd hr (hnot r), fun _ => hcond⟩, fun hcond =>
      hcond.walk hnot⟩
  cases valid with
  | none =>
    exact hwalk (fun r hr => hr.2.1 hvalid) hout
  | some value =>
    obtain ⟨A, r, C, hlands⟩ := hend.pos.lands.resolve_right fun hnil => by
      rw [cursorValid_nil hnil.1] at hvalid
      cases hvalid
    have hr : ∀ x, Accepted S.reader P.isa srchKey l pos x → x = r := fun x hx =>
      eq_of_place hx.1.1 hlands.mem (hx.1.2.trans hlands.place.symm)
    simp only [nearFrom, hleaf, Bool.true_and, hlands.keyReturn hend.pos] at hout
    by_cases hmatch : prefixMatch P.isa srchKey r.key = .eq
    · rw [if_neg (by simp [hmatch])] at hout
      cases hout
      have hacc : Accepted S.reader P.isa srchKey l pos r :=
        ⟨⟨hlands.mem, hlands.place⟩, by simp [hvalid], hmatch⟩
      constructor
      · intro hpre
        exact ⟨fun x hx hm => hm.2 (hr x hx ▸ hpre), fun hnot => absurd hacc (hnot r)⟩
      · intro hcond
        by_contra hpre
        exact hcond.accepted r hacc ⟨hmatch, hpre⟩
    · rw [if_pos (by simp [hmatch])] at hout
      exact hwalk (fun x hx => hmatch (hr x hx ▸ hx.2.2)) hout

theorem searchNear_prefix_twoLeaves :
    PrefixOk quietSession.reader twoLeaves [97] (some ⟨.eq, [97], [1]⟩) ↔
      PrefixCond quietSession.reader ⟨.x86, fun _ _ => true⟩ twoLeaves
        (fun _ => quietSession.walkSkips memRef) [97] none false := by
  obtain ⟨res, hres, hout⟩ := searchNear_prefix_iff quietSession ⟨.x86, fun _ _ => true⟩
    twoLeaves_wf (by simp : ([97] : Key) ≠ []) (fun _ => memRef) (fun _ => memRef) false
    (fun x (hx : x ∈ (none : Option (ℕ × Bool))) => nomatch hx)
  have heq : some (.ok (some ⟨.eq, [97], [1]⟩)) = some res := hres
  exact (hout _ (some.inj heq).symm).1

/-- A leaf page with one key, which has a nul byte. -/
def nulRow : Page (List Update) Cell :=
  .internal [([0], .leaf ⟨[], [⟨[97, 0, 99], [], ⟨.init, [1]⟩, []⟩]⟩)]

lemma nulRow_wf : nulRow.WF none none := by
  refine .internal (.single (.leaf ⟨by decide, by decide, by decide, ?_⟩))
  rintro (_ | _ | slot) <;> simp [Leaf.insList]

/-- The key is returned for a prefix it differs from behind the nul byte. -/
theorem searchNear_prefix_nul :
    nulRow.WF none none ∧
      searchNear quietSession.reader ⟨.x86, fun _ _ => true⟩ nulRow [97, 0, 98]
        (fun _ => quietSession.walkSkips memRef) (fun _ => quietSession.walkSkips memRef) true false
        none = some (.ok (some ⟨.gt, [97, 0, 99], [1]⟩)) ∧
      ¬ PrefixOk quietSession.reader nulRow [97, 0, 98] (some ⟨.gt, [97, 0, 99], [1]⟩) := by
  refine ⟨nulRow_wf, rfl, ?_⟩
  intro (hpre : ([97, 0, 98] : Key) <+: [97, 0, 99])
  revert hpre
  decide

end WiredTiger
