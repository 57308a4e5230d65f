/-
# The key next to the search key

A search near is to return a visible key, and no other visible key is to lie between it and the
search key.  This holds exactly if the row the search ends on is not taken for a visible one because
of another key's history, and if no page that is skipped has a key that is nearer than those the
walks come to.
-/
import WiredTiger.Btree.NearLanding

namespace WiredTiger

open Lib List Option Bool Leaf

variable {α β : Type} {rd : Reader α β} {P : Platform} {root : Page α β} {srchKey : Key}
  {l : Leaf α β} {pos : LeafPos} {skip skip' : ℕ → Bool} {r : Rec α β} {A C : List (Rec α β)}
variable {x : Rec α β}

/-- A key `k` strictly between the search key and `k'`. -/
def StrictlyBetween (srchKey k k' : Key) : Prop :=
  (srchKey < k ∧ k < k') ∨ (k' < k ∧ k < srchKey)

/-- What a search near is to return: a visible key with the sign of its comparison with the search
key and no visible key in between, the search key itself if that is visible, and nothing only if no
key is visible. -/
def NearOk (rd : Reader α β) (root : Page α β) (srchKey : Key) : Option Near → Prop
  | none => ∀ r ∈ root.recs, rd.sees r = false
  | some near => (∃ r ∈ root.recs, r.key = near.key ∧ rd.sees r = true) ∧
      near.exact = lexCmp near.key srchKey ∧
      (∀ r ∈ root.recs, rd.sees r = true → ¬ StrictlyBetween srchKey r.key near.key) ∧
      ((∃ r ∈ root.recs, r.key = srchKey ∧ rd.sees r = true) → near.exact = .eq)

/-! ### What the walks come to -/

/-- The records above the search key that a walk forward from page `page` can come to. -/
def Ahead (root : Page α β) (skip : ℕ → Bool) (page : ℕ) (srchKey : Key) (r : Rec α β) : Prop :=
  ∃ i l, root.leaves[i]? = some l ∧ r ∈ l.recs ∧ srchKey < r.key ∧
    (i = page ∨ (page < i ∧ skip i = false))

/-- The records below the search key that a walk backward from the end can come to. -/
def Below (root : Page α β) (skip : ℕ → Bool) (srchKey : Key) (r : Rec α β) : Prop :=
  ∃ i l, root.leaves[i]? = some l ∧ r ∈ l.recs ∧ r.key < srchKey ∧ skip i = false

/-- The visible records the walks can end on: those above the search key if there are any, else
those below it. -/
def Offered (rd : Reader α β) (root : Page α β) (skip skip' : ℕ → Bool) (page : ℕ) (srchKey : Key)
    (r : Rec α β) : Prop :=
  rd.sees r = true ∧ (Ahead root skip page srchKey r ∨
    ((∀ r', Ahead root skip page srchKey r' → rd.sees r' = false) ∧ Below root skip' srchKey r))

lemma mem_pagesNext {rest : List (Leaf α β)} {n : ℕ} :
    r ∈ pagesNext skip rest n ↔
      ∃ i l, rest[i]? = some l ∧ r ∈ l.recs ∧ skip (n + i) = false := by
  induction rest generalizing n with
  | nil => simp [pagesNext]
  | cons l rest ih =>
    rw [pagesNext, mem_append, ih]
    constructor
    · rintro (hr | ⟨i, l', hl', hr, hskip⟩)
      · cases hs : skip n
        · exact ⟨0, l, rfl, by simpa [hs] using hr, hs⟩
        · simp [hs] at hr
      · exact ⟨i + 1, l', hl', hr, by rwa [add_right_comm] at hskip⟩
    · rintro ⟨i, l', hl', hr, hskip⟩
      rcases i with _ | i
      · cases hl'
        exact .inl (by simpa [show skip n = false from hskip] using hr)
      · exact .inr ⟨i, l', hl', hr, by rwa [add_right_comm]⟩

variable (skip) in

lemma pagesNext_sublist (rest : List (Leaf α β)) (n : ℕ) :
    (pagesNext skip rest n).Sublist (rest.flatMap recs) := by
  induction rest generalizing n with
  | nil => exact List.Sublist.refl _
  | cons l rest ih =>
    rw [pagesNext, flatMap_cons]
    refine List.Sublist.append ?_ (ih (n + 1))
    split_ifs
    · exact nil_sublist _
    · exact List.Sublist.refl _

/-- The records of a tree, around a leaf page. -/
lemma Page.recs_around {page : ℕ} (hl : root.leaves[page]? = some l) :
    root.recs = (root.leaves.take page).flatMap Leaf.recs ++
      (l.recs ++ (root.leaves.drop (page + 1)).flatMap Leaf.recs) := by
  obtain ⟨hlt, rfl⟩ := List.getElem?_eq_some_iff.mp hl
  conv_lhs => rw [Page.recs, ← take_append_drop page root.leaves,
    drop_eq_getElem_cons hlt, flatMap_append, flatMap_cons]

lemma readValid_eq_some {v : Except Stop UpdateValue} {value : Value} :
    readValid v = .ok (some value) ↔ v = .ok (.standard value) := by
  rcases v with e | v
  · simp [readValid]
  · cases v <;> simp [readValid]

lemma sees_of_readValid_none (h : readValid (rd.readRec r) = .ok none) :
    rd.sees r = false := by
  rw [Reader.sees]
  rcases hr : rd.readRec r with e | v
  · rfl
  · cases v with
    | invalid => rfl
    | standard value => simp [hr, readValid] at h
    | tombstone => rfl

section

variable {page : ℕ} (h : TreeEnd srchKey root.leaves page l pos)

include h

lemma TreeEnd.mem_recs (hr : r ∈ l.recs) : r ∈ root.recs :=
  mem_flatMap.mpr ⟨l, mem_of_getElem? h.leaf, hr⟩

/-- The records of the tree, around the landing. -/
lemma TreeEnd.split (hland : LandsAt srchKey l pos A r C) :
    root.recs = ((root.leaves.take page).flatMap Leaf.recs ++ A) ++
        r :: (C ++ (root.leaves.drop (page + 1)).flatMap Leaf.recs) ∧
      (∀ a ∈ (root.leaves.take page).flatMap Leaf.recs ++ A, a.key < srchKey) ∧
      (∀ c ∈ C ++ (root.leaves.drop (page + 1)).flatMap Leaf.recs, srchKey < c.key) := by
  refine ⟨?_, fun a ha => ?_, fun c hc => ?_⟩
  · rw [Page.recs_around h.leaf, hland.recs]
    simp
  · rcases mem_append.mp ha with ha | ha
    · obtain ⟨l', hl', ha⟩ := mem_flatMap.mp ha
      exact h.front l' hl' a ha
    · exact hland.front a ha
  · rcases mem_append.mp hc with hc | hc
    · exact hland.behind c hc
    · obtain ⟨l', hl', hc⟩ := mem_flatMap.mp hc
      exact h.behind l' hl' c hc

/-- No record of the tree is between the search key and the landing. -/
lemma TreeEnd.not_between (hs : RecsSorted root.recs) {r : Rec α β}
    (hland : LandsAt srchKey l pos A r C) (hx : x ∈ root.recs) :
    ¬ StrictlyBetween srchKey x.key r.key := by
  obtain ⟨hsplit, hA, hC⟩ := h.split hland
  rw [hsplit] at hs hx
  obtain ⟨hA', hC'⟩ := hs.around
  rcases mem_append.mp hx with hx | hx
  · rintro (⟨hlt, -⟩ | ⟨hlt, -⟩)
    · exact lt_irrefl _ (hlt.trans (hA x hx))
    · exact lt_irrefl _ (hlt.trans (hA' x hx))
  rcases mem_cons.mp hx with rfl | hx
  · rintro (⟨-, hlt⟩ | ⟨hlt, -⟩)
    · exact lt_irrefl _ hlt
    · exact lt_irrefl _ hlt
  · rintro (⟨-, hlt⟩ | ⟨-, hlt⟩)
    · exact lt_irrefl _ (hlt.trans (hC' x hx))
    · exact lt_irrefl _ (hlt.trans (hC x hx))

/-- The search key is at the landing or nowhere. -/
lemma TreeEnd.eq_landing {r : Rec α β} (hland : LandsAt srchKey l pos A r C) (hx : x ∈ root.recs)
    (hkey : x.key = srchKey) : x = r := by
  obtain ⟨hsplit, hA, hC⟩ := h.split hland
  rw [hsplit] at hx
  rcases mem_append.mp hx with hx | hx
  · exact absurd (hA x hx) (hkey ▸ lt_irrefl _)
  rcases mem_cons.mp hx with rfl | hx
  · rfl
  · exact absurd (hC x hx) (hkey ▸ lt_irrefl _)

/-- **A landing that counts** meets the contract exactly if it is visible. -/
lemma TreeEnd.nearOk_landing (hs : RecsSorted root.recs)
    (hland : LandsAt srchKey l pos A r C) (value : Value) :
    NearOk rd root srchKey (some ⟨pos.compare, r.key, value⟩) ↔ rd.sees r = true := by
  have hr : r ∈ root.recs := h.mem_recs hland.mem
  constructor
  · rintro ⟨⟨x, hx, hkey, hsees⟩, -⟩
    exact hs.eq_of_key hx hr hkey ▸ hsees
  · intro hsees
    refine ⟨⟨r, hr, rfl, hsees⟩, hland.compare, fun x hx _ => h.not_between hs hland hx, ?_⟩
    rintro ⟨x, hx, hkey, -⟩
    obtain rfl := h.eq_landing hland hx hkey
    exact hland.compare.trans (lexCmp_eq_eq_iff.mpr hkey)

/-- If the validity check fails, the search key is not visible, and neither is the landing unless it
is below the search key. -/
lemma TreeEnd.not_sees (hvalid : cursorValid rd l pos = .ok none) (hx : x ∈ l.recs)
    (hplace : x.place = pos.place) (hlt : ¬ x.key < srchKey) : rd.sees x = false := by
  rcases h.pos.lands with ⟨A, r, C, hland⟩ | ⟨hnil, -⟩
  · obtain rfl := eq_of_place hx hland.mem (hplace.trans hland.place.symm)
    have hcmp : pos.compare ≠ .lt := by
      rw [hland.compare, ne_eq, lexCmp_eq_lt_iff]
      exact hlt
    exact sees_of_readValid_none ((hland.cursorValid h.pos hcmp).symm.trans hvalid)
  · rw [hnil] at hx
    cases hx

/-- The records on the pages to the right that are not skipped. -/
lemma TreeEnd.mem_right_iff :
    x ∈ pagesNext skip (root.leaves.drop (page + 1)) (page + 1) ↔
      ∃ i l', root.leaves[i]? = some l' ∧ x ∈ l'.recs ∧ srchKey < x.key ∧ page < i ∧
        skip i = false := by
  rw [mem_pagesNext]
  constructor
  · rintro ⟨i, l', hl', hx, hskip⟩
    have hlt := h.behind l' (mem_of_getElem? hl') x hx
    rw [getElem?_drop] at hl'
    exact ⟨page + 1 + i, l', hl', hx, hlt, by omega, hskip⟩
  · rintro ⟨i, l', hl', hx, -, hi, hskip⟩
    refine ⟨i - (page + 1), l', ?_, hx, ?_⟩
    · rw [getElem?_drop, Nat.add_sub_of_le hi]
      exact hl'
    · rwa [Nat.add_sub_of_le hi]

variable (rd P skip) in
/-- The walk forward from the landing, as a scan of the records ahead without the landing. -/
lemma TreeEnd.nearNext (hroot : RecsSorted root.recs) (pfx : Option Key) (fuel : ℕ) :
    ∃ N, (∀ x ∈ N, srchKey < x.key) ∧ N.Sublist root.recs ∧
      (∀ x, x ∈ N ↔ Ahead root skip page srchKey x ∧ ¬ (x ∈ l.recs ∧ x.place = pos.place)) ∧
      nearNext rd P root srchKey skip pfx (fuel + 1) (iterateSetup page pos) =
        match scan rd P.isa pfx N with
        | .error e => .error e
        | .ok (.found r value _) => .ok (some ⟨.gt, r.key, value⟩)
        | .ok _ => .ok none := by
  obtain ⟨C, hC, hsub, hmove⟩ := h.next rd P skip pfx
  have hmem : ∀ x, x ∈ C ++ pagesNext skip (root.leaves.drop (page + 1)) (page + 1) ↔
      Ahead root skip page srchKey x ∧ ¬ (x ∈ l.recs ∧ x.place = pos.place) := by
    intro x
    rw [mem_append, hC, h.mem_right_iff]
    constructor
    · rintro (⟨hx, hlt, hne⟩ | ⟨i, l', hl', hx, hlt, hi, hskip⟩)
      · exact ⟨⟨page, l, h.leaf, hx, hlt, .inl rfl⟩, fun hp => hne hp.2⟩
      · refine ⟨⟨i, l', hl', hx, hlt, .inr ⟨hi, hskip⟩⟩, fun hp => ?_⟩
        exact lt_irrefl _ (hroot.page_lt h.leaf hl' hp.1 hi hx)
    · rintro ⟨⟨i, l', hl', hx, hlt, rfl | hi⟩, hne⟩
      · obtain rfl := some.inj (h.leaf.symm.trans hl')
        exact .inl ⟨hx, hlt, fun hplace => hne ⟨hx, hplace⟩⟩
      · exact .inr ⟨i, l', hl', hx, hlt, hi⟩
  have hgt : ∀ x ∈ C ++ pagesNext skip (root.leaves.drop (page + 1)) (page + 1),
      srchKey < x.key := by
    intro x hx
    obtain ⟨⟨-, -, -, -, hlt, -⟩, -⟩ := (hmem x).mp hx
    exact hlt
  refine ⟨_, hgt, ?_, hmem, nearNext_eq fuel hmove hgt⟩
  rw [Page.recs_around h.leaf]
  exact (hsub.append (pagesNext_sublist skip _ _)).trans (sublist_append_right _ _)

end

/-! ### The walks -/

/-- A visible record is not in front of the one a scan ends on. -/
lemma RecsSorted.not_lt_of_sees {front rest : List (Rec α β)} (hs : RecsSorted (front ++ r :: rest))
    (hfront : ∀ y ∈ front, rd.sees y = false) (hx : x ∈ front ++ r :: rest)
    (hxs : rd.sees x = true) : ¬ x.key < r.key := by
  rcases mem_append.mp hx with hx | hx
  · rw [hfront x hx] at hxs
    cases hxs
  rcases mem_cons.mp hx with rfl | hx
  · exact lt_irrefl _
  · exact (hs.around.2 x hx).not_gt

/-- A record that is offered and at least as near as all others that are. -/
lemma nearOk_iff_offered {page : ℕ} {exact : Ordering} {value : Value} (hr : r ∈ root.recs)
    (hexact : lexCmp r.key srchKey = exact) (hoff : Offered rd root skip skip' page srchKey r)
    (hbest : ∀ r', Offered rd root skip skip' page srchKey r' → ∀ k,
      StrictlyBetween srchKey k r.key → StrictlyBetween srchKey k r'.key)
    (hkey : ∀ x ∈ root.recs, x.key = srchKey → rd.sees x = false) :
    NearOk rd root srchKey (some ⟨exact, r.key, value⟩) ↔
      ∀ x ∈ root.recs, rd.sees x = true →
        ∃ r', Offered rd root skip skip' page srchKey r' ∧
          ¬ StrictlyBetween srchKey x.key r'.key := by
  constructor
  · rintro ⟨-, -, hbetween, -⟩ x hx hxs
    exact ⟨r, hoff, hbetween x hx hxs⟩
  · intro hoffer
    refine ⟨⟨r, hr, rfl, hoff.1⟩, hexact.symm, fun x hx hxs hbetween => ?_, ?_⟩
    · obtain ⟨r', hr', hnot⟩ := hoffer x hx hxs
      exact hnot (hbest r' hr' _ hbetween)
    · rintro ⟨x, hx, hxkey, hxs⟩
      rw [hkey x hx hxkey] at hxs
      cases hxs

/-- If the validity check fails, the search key is not visible. -/
lemma TreeEnd.key_not_sees {page : ℕ} (h : TreeEnd srchKey root.leaves page l pos)
    (hvalid : cursorValid rd l pos = .ok none) (hx : x ∈ root.recs) (hkey : x.key = srchKey) :
    rd.sees x = false := by
  have hmem := h.mem_leaf hx hkey
  rcases h.pos.lands with ⟨A, r, C, hland⟩ | ⟨hnil, -⟩
  · obtain rfl := h.eq_landing hland hx hkey
    exact h.not_sees hvalid hmem hland.place (hkey ▸ lt_irrefl _)
  · rw [hnil] at hmem
    cases hmem

/-- A record a walk backward comes to is on a page that is not skipped. -/
lemma below_of_mem_pagesPrev
    (hr : r ∈ pagesPrev root.leaves skip' false root.leaves.length) (hlt : r.key < srchKey) :
    Below root skip' srchKey r := by
  obtain ⟨i, l, -, hl, hr, hskip, -⟩ := (mem_pagesPrev le_rfl).mp hr
  exact ⟨i, l, hl, hr, hlt, hskip⟩

lemma mem_pagesPrev_of_below (h : Below root skip' srchKey r) :
    r ∈ pagesPrev root.leaves skip' false root.leaves.length := by
  obtain ⟨i, l, hl, hr, -, hskip⟩ := h
  exact (mem_pagesPrev le_rfl).mpr ⟨i, l, (List.getElem?_eq_some_iff.mp hl).1, hl, hr, hskip,
    fun hp => nomatch hp⟩

/-- **The walks meet the contract exactly if** no visible record is nearer than those they can end
on. -/
lemma TreeEnd.nearWalk_iff {page : ℕ} (h : TreeEnd srchKey root.leaves page l pos)
    (hroot : RecsSorted root.recs) (hvalid : cursorValid rd l pos = .ok none) {valid : Option Value}
    {out : Option Near}
    (hout : nearWalk rd P root srchKey skip skip' false ⟨page, pos, valid⟩ = .ok out) :
    NearOk rd root srchKey out ↔
      ∀ x ∈ root.recs, rd.sees x = true →
        ∃ r', Offered rd root skip skip' page srchKey r' ∧
          ¬ StrictlyBetween srchKey x.key r'.key := by
  have hkey := fun x (hx : x ∈ root.recs) hxkey => h.key_not_sees hvalid hx hxkey
  obtain ⟨N, hN, hsub, hmem, hnext⟩ := h.nearNext rd P skip hroot none root.recs.length
  have hmemN : ∀ x, rd.sees x = true → Ahead root skip page srchKey x → x ∈ N := by
    intro x hxs hx
    refine (hmem x).mpr ⟨hx, fun ⟨hxl, hplace⟩ => ?_⟩
    obtain ⟨-, -, -, -, hlt, -⟩ := hx
    rw [h.not_sees hvalid hxl hplace hlt.not_gt] at hxs
    cases hxs
  have hNs : RecsSorted N := by
    rw [RecsSorted] at hroot ⊢
    exact hroot.sublist (hsub.map _)
  rw [nearWalk, if_neg (by simp), hnext] at hout
  rcases hscan : scan rd P.isa none N with e | found
  · rw [hscan] at hout
    cases hout
  rw [hscan] at hout
  have hfound := scan_ok hscan
  cases found with
  | found r value rest =>
    obtain ⟨front, hfront, hsplit, -, hread⟩ := hfound
    cases hout
    have hsees : rd.sees r = true := Reader.sees_iff.mpr ⟨value, hread⟩
    have hrN : r ∈ N := by
      rw [hsplit]
      simp
    have hahead := ((hmem r).mp hrN).1
    refine nearOk_iff_offered (hsub.subset hrN) (lexCmp_eq_gt_iff.mpr (hN r hrN))
      ⟨hsees, .inl hahead⟩ ?_ hkey
    rintro r' ⟨hr's, hr' | ⟨hnone, -⟩⟩ k hk
    · -- the first one in the order of the keys
      have hle := (hsplit ▸ hNs).not_lt_of_sees (fun x hx => (hfront x hx).1)
        (hsplit ▸ hmemN r' hr's hr') hr's
      exact Or.imp (fun h => ⟨h.1, h.2.trans_le (not_lt.mp hle)⟩)
        (fun h => absurd (((hN r hrN).trans h.1).trans h.2) (lt_irrefl _)) hk
    · rw [hnone r hahead] at hsees
      cases hsees
  | outOfBounds => exact absurd hscan (scan_none_ne_outOfBounds N)
  | notFound =>
    have hnone : ∀ x, Ahead root skip page srchKey x → rd.sees x = false := by
      intro x hx
      by_contra hxs
      rw [not_eq_false] at hxs
      rw [(hfound x (hmemN x hxs hx)).1] at hxs
      cases hxs
    have hVsub := pagesPrev_sublist root.leaves skip' false root.leaves.length
    rw [take_length] at hVsub
    have hVs : ((pagesPrev root.leaves skip' false root.leaves.length).map Rec.key).Pairwise
        (· > ·) := by
      have hdesc : (root.recs.reverse.map Rec.key).Pairwise (· > ·) := by
        rw [map_reverse, pairwise_reverse]
        exact hroot
      exact hdesc.sublist (hVsub.map _)
    have hlen : (cbtPrev root.leaves skip' false .unpositioned).length < root.recs.length + 1 := by
      have := hVsub.length_le
      rw [length_reverse] at this
      exact Nat.lt_succ_of_le this
    rw [nearPrev_eq (.inl rfl) hlen] at hout
    have hbelow : BelowEnd rd srchKey (pagesPrev root.leaves skip' false root.leaves.length) out :=
      readBelow_ok hout
    cases out with
    | none =>
      constructor
      · intro hno x hx hxs
        rw [hno x hx] at hxs
        cases hxs
      · intro hoffer x hx
        by_contra hxs
        rw [not_eq_false] at hxs
        obtain ⟨r', ⟨hr's, hr' | ⟨-, hr'⟩⟩, -⟩ := hoffer x hx hxs
        · rw [hnone r' hr'] at hr's
          cases hr's
        · have hgt := hbelow r' (mem_pagesPrev_of_below hr') hr's
          obtain ⟨-, -, -, -, hlt, -⟩ := hr'
          exact lt_irrefl _ (hgt.trans hlt)
    | some near =>
      obtain ⟨A, r, C, hsplit, hA, hsees, hngt, hnkey, hnexact⟩ := hbelow
      have hrV : r ∈ pagesPrev root.leaves skip' false root.leaves.length := by
        rw [hsplit]
        simp
      have hr : r ∈ root.recs := mem_reverse.mp (hVsub.subset hrV)
      have hlt : r.key < srchKey := by
        refine lt_of_le_of_ne (not_lt.mp hngt) fun heq => ?_
        rw [hkey r hr heq] at hsees
        cases hsees
      obtain ⟨exact, key, value⟩ := near
      obtain rfl : key = r.key := hnkey
      obtain rfl : exact = .lt := hnexact.trans (lexCmp_eq_lt_iff.mpr hlt)
      refine nearOk_iff_offered hr (lexCmp_eq_lt_iff.mpr hlt)
        ⟨hsees, .inr ⟨hnone, below_of_mem_pagesPrev hrV hlt⟩⟩ ?_ hkey
      rintro x ⟨hxs, hx | ⟨-, hx⟩⟩ k hk
      · rw [hnone x hx] at hxs
        cases hxs
      -- the first one in the reverse order of the keys
      have hle : ¬ r.key < x.key := by
        have hxV := mem_pagesPrev_of_below hx
        obtain ⟨-, -, -, -, hxlt, -⟩ := hx
        rw [hsplit] at hxV hVs
        rcases mem_append.mp hxV with hx | hx
        · exact absurd ((hA x hx hxs).trans hxlt) (lt_irrefl _)
        rcases mem_cons.mp hx with rfl | hx
        · exact lt_irrefl _
        · rw [map_append, pairwise_append, map_cons, pairwise_cons] at hVs
          exact (hVs.2.1.1 _ (mem_map_of_mem hx)).not_gt
      exact Or.imp (fun h => absurd ((h.1.trans h.2).trans hlt) (lt_irrefl _))
        (fun h => ⟨(not_lt.mp hle).trans_lt h.1, h.2⟩) hk

/-! ### What goes wrong -/

/-- The row at a position is not visible, but there is a value for it in the history of the key the
search has compared last. -/
def Mistaken (rd : Reader α β) (l : Leaf α β) (pos : LeafPos) : Prop :=
  pos.ins = none ∧ ∃ row value, l.rows[pos.slot]? = some row ∧
    rd.read pos.srch.tmp row.upd row.cell = .ok (.standard value) ∧
    rd.sees ⟨.row pos.slot, row.key, row.upd, some row.cell⟩ = false

lemma not_mistaken_of_none (hvalid : cursorValid rd l pos = .ok none) : ¬ Mistaken rd l pos := by
  rintro ⟨hins, row, value, hrow, hread, -⟩
  simp [cursorValid, hins, hrow, hread, readValid] at hvalid

/-- A record that passes the validity check is visible if it is not mistaken. -/
lemma sees_iff_not_mistaken (hland : LandsAt srchKey l pos A r C) {value : Value}
    (hvalid : cursorValid rd l pos = .ok (some value)) :
    rd.sees r = true ↔ ¬ Mistaken rd l pos := by
  rcases hland.cases with ⟨j, node, hins, hnode, rfl⟩ | ⟨row, hins, hrow, rfl⟩
  · simp only [cursorValid, hins, hnode] at hvalid
    refine iff_of_true (Reader.sees_iff.mpr ⟨value, readValid_eq_some.mp hvalid⟩) fun hm => ?_
    exact Option.some_ne_none _ (hins.symm.trans hm.1)
  · simp only [cursorValid, hins, hrow] at hvalid
    constructor
    · rintro hsees ⟨-, row', -, hrow', -, hnot⟩
      obtain rfl := some.inj (hrow.symm.trans hrow')
      exact absurd hsees (by simp [hnot])
    · intro hm
      by_contra hnot
      exact hm ⟨hins, row, value, hrow, readValid_eq_some.mp hvalid, eq_false_of_ne_true hnot⟩

/-- A visible record on a skipped page is nearer to the search key than those the walks come to.  It
is above the search key and in front of all they come to there, and they do not end on one below
it; or it is below the search key, and they come to none above it and to no greater one below it. -/
def PassedOver (rd : Reader α β) (root : Page α β) (skip skip' : ℕ → Bool) (page : ℕ)
    (srchKey : Key) : Prop :=
  ∃ i l x, root.leaves[i]? = some l ∧ x ∈ l.recs ∧ rd.sees x = true ∧
    ((page < i ∧ skip i = true ∧
        (∀ y, Ahead root skip page srchKey y → rd.sees y = true → x.key < y.key) ∧
        ((∃ y, Ahead root skip page srchKey y ∧ rd.sees y = true) ∨
          ∀ y, Below root skip' srchKey y → rd.sees y = false)) ∨
      (x.key < srchKey ∧ skip' i = true ∧
        (∀ y, Ahead root skip page srchKey y → rd.sees y = false) ∧
        ∀ y, Below root skip' srchKey y → rd.sees y = true → y.key < x.key))

section

variable {page : ℕ} (h : TreeEnd srchKey root.leaves page l pos) {i : ℕ} {l' : Leaf α β}
  (hl : root.leaves[i]? = some l') (hx : x ∈ l'.recs)

include h hl hx

lemma TreeEnd.lt_of_page (hi : page < i) : srchKey < x.key := by
  have hl' : (root.leaves.drop (page + 1))[i - (page + 1)]? = some l' := by
    rw [getElem?_drop, Nat.add_sub_of_le hi]
    exact hl
  exact h.behind l' (mem_of_getElem? hl') x hx

lemma TreeEnd.page_le (hlt : srchKey < x.key) : page ≤ i := by
  by_contra hi
  have hl' : (root.leaves.take page)[i]? = some l' := by
    rw [getElem?_take_of_lt (not_le.mp hi)]
    exact hl
  exact lt_irrefl _ (hlt.trans (h.front l' (mem_of_getElem? hl') x hx))

end

/-- A record is passed over exactly if the walks end on none that is as near. -/
lemma TreeEnd.not_passedOver_iff {page : ℕ} (h : TreeEnd srchKey root.leaves page l pos)
    (hvalid : cursorValid rd l pos = .ok none) :
    ¬ PassedOver rd root skip skip' page srchKey ↔
      ∀ x ∈ root.recs, rd.sees x = true →
        ∃ r', Offered rd root skip skip' page srchKey r' ∧
          ¬ StrictlyBetween srchKey x.key r'.key := by
  constructor
  · intro hnot x hx hxs
    obtain ⟨l', hl', hxl⟩ := mem_flatMap.mp hx
    obtain ⟨i, hi⟩ := mem_iff_getElem?.mp hl'
    by_contra hno
    push Not at hno
    refine hnot ⟨i, l', x, hi, hxl, hxs, ?_⟩
    rcases lt_trichotomy x.key srchKey with hlt | heq | hgt
    · -- below the search key
      have hahead : ∀ y, Ahead root skip page srchKey y → rd.sees y = false := by
        intro y hy
        by_contra hys
        rcases hno y ⟨eq_true_of_ne_false hys, .inl hy⟩ with hb | hb
        · exact lt_irrefl _ (hb.1.trans hlt)
        · obtain ⟨-, -, -, -, hgt, -⟩ := hy
          exact lt_irrefl _ ((hgt.trans hb.1).trans hlt)
      have hbelow : ∀ y, Below root skip' srchKey y → rd.sees y = true → y.key < x.key := by
        intro y hy hys
        rcases hno y ⟨hys, .inr ⟨hahead, hy⟩⟩ with hb | hb
        · exact absurd (hb.1.trans hlt) (lt_irrefl _)
        · exact hb.1
      refine .inr ⟨hlt, ?_, hahead, hbelow⟩
      by_contra hskip
      exact lt_irrefl _ (hbelow x ⟨i, l', hi, hxl, hlt, eq_false_of_ne_true hskip⟩ hxs)
    · rw [h.key_not_sees hvalid hx heq] at hxs
      cases hxs
    · -- above the search key
      have hahead : ∀ y, Ahead root skip page srchKey y → rd.sees y = true → x.key < y.key := by
        intro y hy hys
        rcases hno y ⟨hys, .inl hy⟩ with hb | hb
        · exact hb.2
        · exact absurd (hb.2.trans hgt) (lt_irrefl _)
      have hself : ¬ Ahead root skip page srchKey x := fun hxa =>
        lt_irrefl _ (hahead x hxa hxs)
      have hpage : page < i := by
        refine lt_of_le_of_ne (h.page_le hi hxl hgt) fun heq => ?_
        exact hself ⟨i, l', hi, hxl, hgt, .inl heq.symm⟩
      refine .inl ⟨hpage, ?_, hahead, or_iff_not_imp_left.mpr fun hnone y hy => ?_⟩
      · by_contra hskip
        exact hself ⟨i, l', hi, hxl, hgt, .inr ⟨hpage, eq_false_of_ne_true hskip⟩⟩
      · by_contra hys
        push Not at hnone
        rcases hno y ⟨eq_true_of_ne_false hys, .inr ⟨fun z hz => eq_false_of_ne_true (hnone z hz),
          hy⟩⟩ with hb | hb
        · obtain ⟨-, -, -, -, hlt, -⟩ := hy
          exact lt_irrefl _ ((hgt.trans hb.2).trans hlt)
        · exact lt_irrefl _ (hgt.trans hb.2)
  · rintro hall ⟨i, l', x, hi, hxl, hxs, hcase⟩
    obtain ⟨r', ⟨hr's, hr'⟩, hnear⟩ :=
      hall x (mem_flatMap.mpr ⟨l', mem_of_getElem? hi, hxl⟩) hxs
    rcases hcase with ⟨hpage, -, hahead, hend⟩ | ⟨hlt, -, hahead, hbelow⟩
    · have hgt := h.lt_of_page hi hxl hpage
      rcases hr' with hr' | ⟨hnone, hr'⟩
      · exact hnear (.inl ⟨hgt, hahead r' hr' hr's⟩)
      rcases hend with ⟨y, hy, hys⟩ | hbelow
      · rw [hnone y hy] at hys
        cases hys
      · rw [hbelow r' hr'] at hr's
        cases hr's
    · rcases hr' with hr' | ⟨-, hr'⟩
      · rw [hahead r' hr'] at hr's
        cases hr's
      · exact hnear (.inr ⟨hbelow r' hr' hr's, hlt⟩)

/-! ### The whole search -/

/-- What a search near needs besides a well-formed tree: at the position the searches end on, no row
is taken for a visible one; and if there is no value at it, no visible record is passed over. -/
def NearCond (rd : Reader α β) (P : Platform) (root : Page α β) (skip skip' : ℕ → Bool)
    (srchKey : Key) (pinned : Option (ℕ × Bool)) (appendTree : Bool) : Prop :=
  ∀ page l pos, EndsOn rd P root srchKey pinned appendTree page l pos →
    ¬ Mistaken rd l pos ∧
      (cursorValid rd l pos = .ok none → ¬ PassedOver rd root skip skip' page srchKey)

/-- No page with a visible key is skipped. -/
def SkipsNone (rd : Reader α β) (root : Page α β) (skip : ℕ → Bool) : Prop :=
  ∀ i l, root.leaves[i]? = some l → skip i = true → ∀ r ∈ l.recs, rd.sees r = false

/-- No row that is not visible has a value in the history of any key. -/
def OwnHistory (rd : Reader α β) (root : Page α β) : Prop :=
  ∀ l ∈ root.leaves, ∀ slot row, l.rows[slot]? = some row → ∀ key value,
    rd.read key row.upd row.cell = .ok (.standard value) →
      rd.sees ⟨.row slot, row.key, row.upd, some row.cell⟩ = true

lemma EndsOn.leaf {pinned : Option (ℕ × Bool)} {appendTree : Bool} {page : ℕ}
    (h : EndsOn rd P root srchKey pinned appendTree page l pos) : root.leaves[page]? = some l := by
  rcases h with ⟨⟨-, hl, -⟩, -⟩ | ⟨-, -, hl⟩
  · exact hl
  · exact hl

lemma nearCond_of_skipsNone {pinned : Option (ℕ × Bool)} {appendTree : Bool}
    (hskip : SkipsNone rd root skip) (hskip' : SkipsNone rd root skip')
    (hown : OwnHistory rd root) : NearCond rd P root skip skip' srchKey pinned appendTree := by
  intro page l pos hend
  constructor
  · rintro ⟨-, row, value, hrow, hread, hnot⟩
    rw [hown l (mem_of_getElem? hend.leaf) _ row hrow _ value hread] at hnot
    cases hnot
  · rintro - ⟨i, l', x, hl', hx, hxs, ⟨-, hi, -⟩ | ⟨-, hi, -⟩⟩
    · rw [hskip i l' hl' hi x hx] at hxs
      cases hxs
    · rw [hskip' i l' hl' hi x hx] at hxs
      cases hxs

/-- **A search near returns the key next to the search key exactly if** no other key's history makes
the row it ends on visible, and no skipped page has a nearer key.  In particular it does if no page
with a visible key is skipped and no row has a value in another key's history. -/
theorem searchNear_adjacent_iff (S : Session) (P : Platform) {root : Page (List Update) Cell}
    (h : root.WF none none) {srchKey : Key} (hsrch : srchKey ≠ []) (refs refs' : ℕ → Ref)
    (appendTree : Bool) {pinned : Option (ℕ × Bool)}
    (hpin : ∀ x ∈ pinned, x.1 < root.leaves.length) :
    ∃ res, searchNear S.reader P root srchKey (fun i => S.walkSkips (refs i))
        (fun i => S.walkSkips (refs' i)) false appendTree pinned = some res ∧
      ∀ out, res = .ok out →
        (NearOk S.reader root srchKey out ↔
          NearCond S.reader P root (fun i => S.walkSkips (refs i)) (fun i => S.walkSkips (refs' i))
            srchKey pinned appendTree) ∧
        (SkipsNone S.reader root (fun i => S.walkSkips (refs i)) →
          SkipsNone S.reader root (fun i => S.walkSkips (refs' i)) → OwnHistory S.reader root →
          NearOk S.reader root srchKey out) := by
  have hroot : RecsSorted root.recs := h.leavesOk.recsSorted
  rcases searchLanding_spec S.reader P h hsrch hpin appendTree with
    ⟨e, herr⟩ | ⟨page, l, pos, valid, hland, hat, hend, hvalid⟩
  · exact ⟨.error e, by rw [searchNear, herr], fun out hout => nomatch hout⟩
  refine ⟨_, by rw [searchNear, hland], fun out hout => ?_⟩
  suffices hcond : NearOk S.reader root srchKey out ↔
      NearCond S.reader P root (fun i => S.walkSkips (refs i)) (fun i => S.walkSkips (refs' i))
        srchKey pinned appendTree from
    ⟨hcond, fun hskip hskip' hown => hcond.mpr (nearCond_of_skipsNone hskip hskip' hown)⟩
  rw [NearCond, hat.forall_iff]
  have hleaf : root.leaves[page]? = some l := hend.leaf
  cases valid with
  | none =>
    rw [hend.nearWalk_iff hroot hvalid hout, ← hend.not_passedOver_iff hvalid]
    exact ⟨fun hnot => ⟨not_mistaken_of_none hvalid, fun _ => hnot⟩, fun hcond => hcond.2 hvalid⟩
  | some value =>
    obtain ⟨A, r, C, hlands⟩ := hend.pos.lands.resolve_right fun hnil => by
      rw [cursorValid_nil hnil.1] at hvalid
      cases hvalid
    simp only [nearFrom, hleaf, Bool.false_and, Bool.false_eq_true, if_false,
      hlands.keyReturn hend.pos] at hout
    cases hout
    rw [hend.nearOk_landing hroot hlands value, sees_iff_not_mistaken hlands hvalid, hvalid]
    simp

/-- A transaction that reads at timestamp 10.  The history store has one record, an old version of
key 30. -/
def pastSession : Session where
  view := ⟨0, false, .snapshot, .quiet 100, some 10, false⟩
  global := ⟨100, 1, false⟩
  fmt := .u
  hs key := if key = [30] then [⟨5, 0, ⟨5, 5, 4, 20, 20, 6, false⟩, .standard [3]⟩] else []
  after _ := false

/-- A leaf page with three rows that were committed at timestamp 20. -/
def threeRows : Page (List Update) Cell :=
  .internal [([0], .leaf ⟨[],
    [⟨[10], [], ⟨⟨20, 20, 5, 0, tsMax, txnMax, false⟩, [1]⟩, []⟩,
     ⟨[20], [], ⟨⟨20, 20, 5, 0, tsMax, txnMax, false⟩, [2]⟩, []⟩,
     ⟨[30], [], ⟨⟨20, 20, 6, 0, tsMax, txnMax, false⟩, [4]⟩, []⟩]⟩)]

lemma threeRows_wf : threeRows.WF none none := by
  refine .internal (.single (.leaf ⟨by decide, by decide, by decide, ?_⟩))
  rintro (_ | _ | _ | _ | slot) <;> simp [insList]

theorem searchNear_threeRows :
    NearOk pastSession.reader threeRows [15] (some ⟨.gt, [30], [3]⟩) ↔
      NearCond pastSession.reader ⟨.x86, fun _ _ => true⟩ threeRows
        (fun _ => pastSession.walkSkips memRef) (fun _ => pastSession.walkSkips memRef) [15] none
        false := by
  obtain ⟨res, hres, hout⟩ := searchNear_adjacent_iff pastSession ⟨.x86, fun _ _ => true⟩
    threeRows_wf (by simp : ([15] : Key) ≠ []) (fun _ => memRef) (fun _ => memRef) false
    (fun x (hx : x ∈ (none : Option (ℕ × Bool))) => nomatch hx)
  have heq : some (.ok (some ⟨.gt, [30], [3]⟩)) = some res := hres
  exact (hout _ (some.inj heq).symm).1

/-- The search for key 25 ends on key 20, and the last key it compares with is key 30.  Key 20 is
looked up in the history store under key 30: it is returned with an old value of key 30, although it
is not visible, and key 30 is. -/
theorem searchNear_wrong_history :
    threeRows.WF none none ∧
      searchNear pastSession.reader ⟨.x86, fun _ _ => true⟩ threeRows [25]
        (fun _ => pastSession.walkSkips memRef) (fun _ => pastSession.walkSkips memRef) false false
        none = some (.ok (some ⟨.lt, [20], [3]⟩)) ∧
      ¬ NearOk pastSession.reader threeRows [25] (some ⟨.lt, [20], [3]⟩) ∧
      ∃ r ∈ threeRows.recs, r.key = [30] ∧ pastSession.reader.sees r = true := by
  refine ⟨threeRows_wf, rfl, ?_, by decide⟩
  rintro ⟨hvisible, -⟩
  revert hvisible
  decide

end WiredTiger
