/-
# A cursor walks over the leaf pages of a tree

At the level of the tree a move of a cursor is again a scan, of the records on the page the cursor
is on and on the pages behind it that are not skipped.  A run of moves backward therefore yields the
visible keys among these records, one after the other.
-/
import WiredTiger.Btree.CursorScan
import WiredTiger.Btree.Session
import WiredTiger.Btree.TreeSearch

namespace WiredTiger

open Lib List ScanEnd

variable {α β : Type} {rd : Reader α β} {isa : Isa} {pfx : Option Key}
  {leaves : List (Leaf α β)} {skip : ℕ → Bool} {prefixSearch : Bool} {i : ℕ} {l : Leaf α β}
  {L : List (Rec α β)} {r : Rec α β}

/-! ### Scans of several pages -/

/-- More records behind the end of a scan. -/
def ScanEnd.extend (more : List (Rec α β)) (next : Except Stop (ScanEnd α β)) :
    Except Stop (ScanEnd α β) → Except Stop (ScanEnd α β)
  | .ok .notFound => next
  | .ok (.found r value rest) => .ok (.found r value (rest ++ more))
  | .ok .outOfBounds => .ok .outOfBounds
  | .error e => .error e

lemma scan_append (A B : List (Rec α β)) :
    scan rd isa pfx (A ++ B) = extend B (scan rd isa pfx B) (scan rd isa pfx A) := by
  induction A with
  | nil => rfl
  | cons r A ih =>
    rw [cons_append, scan, scan]
    split_ifs
    · rfl
    · rcases rd.readRec r with e | v
      · rfl
      · cases v with
        | invalid => exact ih
        | standard value => rfl
        | tombstone => exact ih

/-- Without a prefix a scan has no bound. -/
lemma scan_none_ne_outOfBounds (L : List (Rec α β)) : scan rd isa none L ≠ .ok .outOfBounds := by
  intro h
  obtain ⟨front, r, rest, -, -, hout⟩ := scan_ok h
  simp [prefixOut] at hout

/-- The position of a cursor is one a walk along its page can be at. -/
def CbtOk (leaves : List (Leaf α β)) (cbt : Cbt) : Prop :=
  ∃ i l, cbt.ref = some i ∧ leaves[i]? = some l ∧ IterPos l cbt.rowIterationSlot cbt.ins

/-- How a move of a cursor and a scan end alike: `left` are the records that are left for a
cursor. -/
inductive TreeMatches (leaves : List (Leaf α β)) (left : Cbt → List (Rec α β)) :
    Except Stop Move → Except Stop (ScanEnd α β) → Prop
  | error (e : Stop) : TreeMatches leaves left (.error e) (.error e)
  | notFound (cbt : Cbt) : TreeMatches leaves left (.ok (.notFound cbt)) (.ok .notFound)
  | outOfBounds (cbt : Cbt) : TreeMatches leaves left (.ok (.notFound cbt)) (.ok .outOfBounds)
  | found {cbt : Cbt} (r : Rec α β) (value : Value) : CbtOk leaves cbt →
      TreeMatches leaves left (.ok (.found cbt r.key value)) (.ok (.found r value (left cbt)))

/-- A walk along page `i`, with the pages behind it. -/
lemma MoveMatches.tree (hl : leaves[i]? = some l)
    {pageLeft : ℕ → Option ℕ → List (Rec α β)} {left : Cbt → List (Rec α β)}
    {more : List (Rec α β)}
    {move : Except Stop RowMove} {found : Except Stop (ScanEnd α β)} {next : Except Stop Move}
    {behind : Except Stop (ScanEnd α β)} :
    MoveMatches l pageLeft move found →
    (∀ slot ins, left ⟨some i, slot, ins⟩ = pageLeft slot ins ++ more) → ∀ out : Cbt,
    TreeMatches leaves left next behind →
    TreeMatches leaves left
      (match move with
        | .error e => .error e
        | .ok (.found slot ins key value) => .ok (.found ⟨some i, slot, ins⟩ key value)
        | .ok .outOfBounds => .ok (.notFound out)
        | .ok .notFound => next)
      (extend more behind found) := by
  intro h hleft out hnext
  cases h with
  | error e => exact .error e
  | notFound => exact hnext
  | outOfBounds => exact .outOfBounds out
  | found r value hpos =>
    rw [extend, ← hleft]
    exact .found r value ⟨i, l, rfl, hl, hpos⟩

/-! ### Forward -/

/-- The records a walk forward has on the pages from number `i` on. -/
def pagesNext (skip : ℕ → Bool) : List (Leaf α β) → ℕ → List (Rec α β)
  | [], _ => []
  | l :: rest, i => (if skip i then [] else l.recs) ++ pagesNext skip rest (i + 1)

/-- The records a cursor has in front of it, walking forward. -/
def cbtNext (leaves : List (Leaf α β)) (skip : ℕ → Bool) (cbt : Cbt) : List (Rec α β) :=
  match cbt.ref with
  | none => pagesNext skip leaves 0
  | some i =>
    match leaves[i]? with
    | none => []
    | some l => afterNext l cbt.rowIterationSlot cbt.ins ++
        pagesNext skip (leaves.drop (i + 1)) (i + 1)

lemma cbtNext_page (hl : leaves[i]? = some l) (slot : ℕ)
    (ins : Option ℕ) : cbtNext leaves skip ⟨some i, slot, ins⟩ =
      afterNext l slot ins ++ pagesNext skip (leaves.drop (i + 1)) (i + 1) := by
  simp [cbtNext, hl]

/-- A walk to the pages from number `i` on. -/
lemma nextPages_scan (rest : List (Leaf α β)) (i : ℕ) (hrest : leaves.drop i = rest) :
    TreeMatches leaves (cbtNext leaves skip) (nextPages rd isa skip pfx rest i)
      (scan rd isa pfx (pagesNext skip rest i)) := by
  induction rest generalizing i with
  | nil => exact .notFound _
  | cons l rest ih =>
    obtain ⟨hl, hrest⟩ : leaves[i]? = some l ∧ leaves.drop (i + 1) = rest := by
      have hhead := congrArg head? hrest
      rw [head?_drop] at hhead
      refine ⟨hhead, ?_⟩
      rw [← tail_drop, hrest]
      rfl
    have hnext := ih (i + 1) hrest
    rw [nextPages, pagesNext]
    by_cases hskip : skip i
    · rw [if_pos hskip, if_pos hskip]
      exact hnext
    · rw [if_neg hskip, if_neg hskip, scan_append]
      have hpos : IterPos l 1 (skipFirst (l.iterIns 1)) :=
        iterPos_skipFirst le_rfl (by omega) rfl
      have hpage := cursorRowNext_scan rd isa pfx l.turns hpos
        (leftNext_turns hpos)
      rw [leftNext_all] at hpage
      refine MoveMatches.tree hl hpage (fun slot ins => ?_) _ hnext
      rw [cbtNext_page hl, hrest]

variable (rd isa pfx skip) in
/-- **A move forward is a scan.** -/
lemma btcurNextPrefix_scan {cbt : Cbt} (h : CbtOk leaves cbt) :
    TreeMatches leaves (cbtNext leaves skip) (btcurNextPrefix rd isa leaves skip pfx cbt)
      (scan rd isa pfx (cbtNext leaves skip cbt)) := by
  obtain ⟨i, l, href, hl, hpos⟩ := h
  obtain ⟨ref, slot, ins⟩ := cbt
  obtain rfl : ref = some i := href
  rw [btcurNextPrefix, cbtNext_page hl, scan_append]
  simp only [hl]
  have hpos' : IterPos l slot (ins.bind (skipNext (l.iterIns slot))) := by
    cases ins with
    | none => exact hpos
    | some j => exact hpos.skipNext
  exact MoveMatches.tree hl (cursorRowNext_scan rd isa pfx l.turns hpos' (leftNext_turns hpos'))
    (cbtNext_page hl) _ (nextPages_scan _ _ rfl)

/-! ### Backward -/

/-- The records a walk backward has on the pages in front of number `i`. -/
def pagesPrev (leaves : List (Leaf α β)) (skip : ℕ → Bool) (prefixSearch : Bool) :
    ℕ → List (Rec α β)
  | 0 => []
  | i + 1 =>
    if skip i then pagesPrev leaves skip prefixSearch i
    else
      match leaves[i]? with
      | none => pagesPrev leaves skip prefixSearch i
      | some l => l.recs.reverse ++
          if prefixSearch then [] else pagesPrev leaves skip prefixSearch i

/-- The records a cursor has in front of it, walking backward. -/
def cbtPrev (leaves : List (Leaf α β)) (skip : ℕ → Bool) (prefixSearch : Bool) (cbt : Cbt) :
    List (Rec α β) :=
  match cbt.ref with
  | none => pagesPrev leaves skip prefixSearch leaves.length
  | some i =>
    match leaves[i]? with
    | none => []
    | some l => afterPrev l cbt.rowIterationSlot cbt.ins ++
        if prefixSearch then [] else pagesPrev leaves skip prefixSearch i

lemma cbtPrev_page (hl : leaves[i]? = some l) (slot : ℕ)
    (ins : Option ℕ) : cbtPrev leaves skip prefixSearch ⟨some i, slot, ins⟩ =
      afterPrev l slot ins ++
        if prefixSearch then [] else pagesPrev leaves skip prefixSearch i := by
  simp [cbtPrev, hl]

/-- What the loop of `__wt_btcur_prev` does with the end of a walk along page `i`. -/
lemma prev_page (hl : leaves[i]? = some l)
    {move : Except Stop RowMove} {left : List (Rec α β)} {next : Except Stop Move}
    (hnext : TreeMatches leaves (cbtPrev leaves skip prefixSearch) next
      (scan rd isa none (pagesPrev leaves skip prefixSearch i))) :
    MoveMatches l (afterPrev l) move (scan rd isa none left) →
    TreeMatches leaves (cbtPrev leaves skip prefixSearch)
      (match move with
        | .error e => .error e
        | .ok (.found slot ins key value) => .ok (.found ⟨some i, slot, ins⟩ key value)
        | .ok _ => if prefixSearch then .ok (.notFound ⟨some i, 1, none⟩) else next)
      (scan rd isa none
        (left ++ if prefixSearch then [] else pagesPrev leaves skip prefixSearch i)) := by
  intro h
  rw [scan_append]
  generalize hfound : scan rd isa none left = found at h ⊢
  cases h with
  | error e => exact .error e
  | outOfBounds => exact absurd hfound (scan_none_ne_outOfBounds left)
  | notFound =>
    cases prefixSearch with
    | false => exact hnext
    | true => exact .notFound _
  | found r value hpos =>
    rw [extend, ← cbtPrev_page hl]
    exact .found r value ⟨i, l, rfl, hl, hpos⟩

/-- A walk to the pages in front of number `i`. -/
lemma prevPages_scan (i : ℕ) :
    TreeMatches leaves (cbtPrev leaves skip prefixSearch) (prevPages rd leaves skip prefixSearch i)
      (scan rd isa none (pagesPrev leaves skip prefixSearch i)) := by
  induction i with
  | zero => exact .notFound _
  | succ i ih =>
    rw [prevPages, pagesPrev]
    by_cases hskip : skip i
    · rw [if_pos hskip, if_pos hskip]
      exact ih
    · rw [if_neg hskip, if_neg hskip]
      rcases hl : leaves[i]? with _ | l
      · exact ih
      · have hpos : IterPos l (l.rows.length * 2 + 1)
            (skipLast (l.iterIns (l.rows.length * 2 + 1))) :=
          iterPos_skipLast (by omega) le_rfl (by omega)
        have hpage := cursorRowPrev_scan rd isa l.turns hpos (leftPrev_turns le_rfl)
        rw [leftPrev_all] at hpage
        exact prev_page hl ih hpage

variable (rd isa skip prefixSearch) in
/-- **A move backward is a scan.** -/
lemma btcurPrev_scan {cbt : Cbt} (h : cbt = .unpositioned ∨ CbtOk leaves cbt) :
    TreeMatches leaves (cbtPrev leaves skip prefixSearch)
      (btcurPrev rd leaves skip prefixSearch cbt)
      (scan rd isa none (cbtPrev leaves skip prefixSearch cbt)) := by
  rcases h with rfl | ⟨i, l, href, hl, hpos⟩
  · exact prevPages_scan leaves.length
  · obtain ⟨ref, slot, ins⟩ := cbt
    obtain rfl : ref = some i := href
    rw [btcurPrev, cbtPrev_page hl]
    simp only [hl]
    have hpos' : IterPos l slot (ins.bind skipPrev) := by
      cases ins with
      | none => exact hpos
      | some j => exact hpos.skipPrev
    exact prev_page hl (prevPages_scan i)
      (cursorRowPrev_scan rd isa l.turns hpos' (leftPrev_turns hpos.le))

/-! ### Runs -/

/-- The keys of the records that a value is seen of. -/
def readKeys (rd : Reader α β) : List (Rec α β) → Except Stop (List Key)
  | [] => .ok []
  | r :: rest =>
    match rd.readRec r with
    | .error e => .error e
    | .ok (.standard _) =>
      match readKeys rd rest with
      | .error e => .error e
      | .ok keys => .ok (r.key :: keys)
    | .ok _ => readKeys rd rest

/-- The keys are read one by one, each by a scan. -/
lemma readKeys_scan (L : List (Rec α β)) :
    readKeys rd L =
      match scan rd .scalar none L with
      | .error e => .error e
      | .ok (.found r _ rest) =>
        match readKeys rd rest with
        | .error e => .error e
        | .ok keys => .ok (r.key :: keys)
      | .ok _ => .ok [] := by
  induction L with
  | nil => rfl
  | cons r L ih =>
    rw [readKeys, scan, if_neg (by simp [prefixOut])]
    rcases rd.readRec r with e | v
    · rfl
    · cases v with
      | invalid => exact ih
      | standard value => rfl
      | tombstone => exact ih

lemma readKeys_eq {keys : List Key} (h : readKeys rd L = .ok keys) :
    keys = (L.filter rd.sees).map Rec.key := by
  induction L generalizing keys with
  | nil =>
    cases h
    rfl
  | cons r L ih =>
    rw [readKeys] at h
    rcases hr : rd.readRec r with e | v
    · simp [hr] at h
    · cases v with
      | standard value =>
        rw [filter_cons_of_pos (by simp [Reader.sees, hr])]
        rcases hL : readKeys rd L with e | keys'
        · simp [hr, hL] at h
        · obtain rfl : r.key :: keys' = keys := by simpa [hr, hL] using h
          rw [map_cons, ← ih hL]
      | invalid | tombstone =>
        rw [filter_cons_of_neg (by simp [Reader.sees, hr])]
        exact ih (by simpa [hr] using h)

/-- **A run backward reads the records in front of the cursor.** -/
lemma prevRun_eq_readKeys {fuel : ℕ} {cbt : Cbt} (h : cbt = .unpositioned ∨ CbtOk leaves cbt)
    (hfuel : (cbtPrev leaves skip prefixSearch cbt).length < fuel) :
    prevRun rd leaves skip prefixSearch fuel cbt =
      readKeys rd (cbtPrev leaves skip prefixSearch cbt) := by
  induction fuel generalizing cbt with
  | zero => omega
  | succ fuel ih =>
    have hmove := btcurPrev_scan rd .scalar skip prefixSearch h
    rw [prevRun, readKeys_scan]
    generalize btcurPrev rd leaves skip prefixSearch cbt = move at hmove ⊢
    generalize hf : scan rd .scalar none (cbtPrev leaves skip prefixSearch cbt) = found at hmove ⊢
    cases hmove with
    | error e => rfl
    | notFound => rfl
    | outOfBounds => rfl
    | @found cbt' r value hok =>
      -- the run goes on with what the scan has left
      obtain ⟨front, -, hsplit, -⟩ := scan_ok hf
      have hlen := congrArg length hsplit
      rw [length_append, length_cons] at hlen
      have hrun := ih (.inr hok) (by omega)
      cases hk : readKeys rd (cbtPrev leaves skip prefixSearch cbt') with
      | error e => simp only [hrun, hk]
      | ok keys => simp [hrun, hk]

/-! ### What a run visits -/

lemma readKeys_ok_iff :
    (∃ keys, readKeys rd L = .ok keys) ↔ ∀ r ∈ L, ∀ e, rd.readRec r ≠ .error e := by
  induction L with
  | nil => simp [readKeys]
  | cons r L ih =>
    rw [forall_mem_cons, ← ih, readKeys]
    rcases hr : rd.readRec r with e | v
    · simp
    · rcases hL : readKeys rd L with e | keys <;> cases v <;> simp

/-- A run backward walks along leaf page `i` of `n`. -/
def PrevWalks (skip : ℕ → Bool) (prefixSearch : Bool) (n i : ℕ) : Prop :=
  skip i = false ∧ (prefixSearch = true → ∀ j, i < j → j < n → skip j = true)

/-- More pages at the end. -/
lemma prevWalks_succ {n : ℕ} (hi : i < n) :
    PrevWalks skip prefixSearch (n + 1) i ↔
      PrevWalks skip prefixSearch n i ∧ (prefixSearch = true → skip n = true) := by
  constructor
  · intro ⟨h₁, h₂⟩
    exact ⟨⟨h₁, fun hp j hj hjn => h₂ hp j hj (by omega)⟩, fun hp => h₂ hp n hi (by omega)⟩
  · intro ⟨⟨h₁, h₂⟩, h₃⟩
    refine ⟨h₁, fun hp j hj hjn => ?_⟩
    rcases Nat.lt_succ_iff_lt_or_eq.mp hjn with hlt | rfl
    · exact h₂ hp j hj hlt
    · exact h₃ hp

lemma mem_pagesPrev {n : ℕ} (hn : n ≤ leaves.length) :
    r ∈ pagesPrev leaves skip prefixSearch n ↔
      ∃ i l, i < n ∧ leaves[i]? = some l ∧ r ∈ l.recs ∧ PrevWalks skip prefixSearch n i := by
  induction n with
  | zero => simp [pagesPrev]
  | succ n ih =>
    have hl := getElem?_eq_getElem (Nat.lt_of_succ_le hn)
    have hlast : PrevWalks skip prefixSearch (n + 1) n ↔ skip n = false :=
      ⟨fun h => h.1, fun h => ⟨h, fun _ j hj hjn => by omega⟩⟩
    -- the last page, or one in front of it
    have hsplit : (∃ i l, i < n + 1 ∧ leaves[i]? = some l ∧ r ∈ l.recs ∧
        PrevWalks skip prefixSearch (n + 1) i) ↔
        (r ∈ leaves[n].recs ∧ skip n = false) ∨
          (r ∈ pagesPrev leaves skip prefixSearch n ∧ (prefixSearch = true → skip n = true)) := by
      rw [ih (by omega)]
      constructor
      · rintro ⟨i, l, hi, hil, hr, hw⟩
        rcases Nat.lt_succ_iff_lt_or_eq.mp hi with hlt | rfl
        · obtain ⟨hw, hp⟩ := (prevWalks_succ hlt).mp hw
          exact .inr ⟨⟨i, l, hlt, hil, hr, hw⟩, hp⟩
        · obtain rfl := Option.some.inj (hl.symm.trans hil)
          exact .inl ⟨hr, hlast.mp hw⟩
      · rintro (⟨hr, hw⟩ | ⟨⟨i, l, hlt, hil, hr, hw⟩, hp⟩)
        · exact ⟨n, _, Nat.lt_succ_self n, hl, hr, hlast.mpr hw⟩
        · exact ⟨i, l, Nat.lt_succ_of_lt hlt, hil, hr, (prevWalks_succ hlt).mpr ⟨hw, hp⟩⟩
    rw [hsplit, pagesPrev, hl]
    cases hskip : skip n <;> cases prefixSearch <;> simp

variable (leaves skip prefixSearch) in
lemma pagesPrev_sublist (n : ℕ) :
    (pagesPrev leaves skip prefixSearch n).Sublist
      ((leaves.take n).flatMap Leaf.recs).reverse := by
  induction n with
  | zero => simp [pagesPrev]
  | succ n ih =>
    rw [pagesPrev]
    rcases hl : leaves[n]? with _ | l
    · rw [take_add_one, hl, Option.toList_none, append_nil]
      split_ifs <;> exact ih
    · rw [take_add_one, hl, flatMap_append, reverse_append]
      split_ifs
      · exact ih.trans (sublist_append_right _ _)
      · simp
      · simpa using ih

/-- The keys of a run backward are those of the records it walks over. -/
lemma prevRun_unpositioned {fuel : ℕ} (hfuel : (leaves.flatMap Leaf.recs).length < fuel) :
    prevRun rd leaves skip prefixSearch fuel .unpositioned =
      readKeys rd (pagesPrev leaves skip prefixSearch leaves.length) := by
  have hlen := (pagesPrev_sublist leaves skip prefixSearch leaves.length).length_le
  rw [take_length, length_reverse] at hlen
  exact prevRun_eq_readKeys (.inl rfl) (by
    show (pagesPrev leaves skip prefixSearch leaves.length).length < fuel
    omega)

/-- The records of a sorted tree are told apart by their keys. -/
lemma RecsSorted.eq_of_key (h : RecsSorted L) {r' : Rec α β} (hr : r ∈ L)
    (hr' : r' ∈ L) (hkey : r.key = r'.key) : r = r' :=
  inj_on_of_nodup_map (h.imp ne_of_lt) hr hr' hkey

section

variable {j : ℕ} {l' : Leaf α β} (h : RecsSorted (leaves.flatMap Leaf.recs))
  (hl : leaves[i]? = some l) (hl' : leaves[j]? = some l') (hr : r ∈ l.recs)
include h hl hl' hr

/-- The keys of a page are smaller than those of the pages behind it. -/
lemma RecsSorted.page_lt (hij : i < j) {r' : Rec α β} (hr' : r' ∈ l'.recs) : r.key < r'.key := by
  rw [← take_append_drop j leaves, flatMap_append] at h
  refine h.append.2.2 r (mem_flatMap.mpr ⟨l, ?_, hr⟩) r' (mem_flatMap.mpr ⟨l', ?_, hr'⟩)
  · exact mem_of_getElem? (i := i) (by rw [getElem?_take_of_lt hij, hl])
  · exact mem_of_getElem? (i := 0) (by rw [getElem?_drop, add_zero, hl'])

/-- A record is on one page. -/
lemma RecsSorted.page_unique (hr' : r ∈ l'.recs) : i = j := by
  rcases lt_trichotomy i j with hij | hij | hij
  · exact absurd (h.page_lt hl hl' hr hij hr') (lt_irrefl _)
  · exact hij
  · exact absurd (h.page_lt hl' hl hr' hij hr) (lt_irrefl _)

end

/-- What a run over some of the records of a sorted tree, from the last one on, visits. -/
lemma readKeys_visits_iff {walked : List (Rec α β)} (hs : RecsSorted L)
    (hsub : walked.Sublist L.reverse) :
    (∃ keys, readKeys rd walked = .ok keys ∧ keys.Pairwise (· > ·) ∧
        ∀ k, k ∈ keys ↔ ∃ r ∈ L, r.key = k ∧ rd.sees r = true) ↔
      (∀ r ∈ walked, ∀ e, rd.readRec r ≠ .error e) ∧
        ∀ r ∈ L, rd.sees r = true → r ∈ walked := by
  constructor
  · rintro ⟨keys, hkeys, -, hvisit⟩
    refine ⟨readKeys_ok_iff.mp ⟨keys, hkeys⟩, fun r hr hsees => ?_⟩
    obtain rfl := readKeys_eq hkeys
    obtain ⟨r', hr', hkey⟩ := mem_map.mp ((hvisit r.key).mpr ⟨r, hr, rfl, hsees⟩)
    have hr' := (mem_filter.mp hr').1
    have hL := mem_reverse.mp (hsub.subset hr')
    exact hs.eq_of_key hL hr hkey ▸ hr'
  · rintro ⟨hread, hwalked⟩
    obtain ⟨keys, hkeys⟩ := readKeys_ok_iff.mpr hread
    have heq := readKeys_eq hkeys
    refine ⟨keys, hkeys, ?_, fun k => ?_⟩
    · have hdesc : ((L.reverse).map Rec.key).Pairwise (· > ·) := by
        rw [map_reverse, pairwise_reverse]
        exact hs
      rw [heq]
      exact hdesc.sublist ((filter_sublist.trans hsub).map _)
    · rw [heq]
      constructor
      · intro hk
        obtain ⟨r, hr, rfl⟩ := mem_map.mp hk
        obtain ⟨hr, hsees⟩ := mem_filter.mp hr
        exact ⟨r, mem_reverse.mp (hsub.subset hr), rfl, hsees⟩
      · rintro ⟨r, hr, rfl, hsees⟩
        exact mem_map_of_mem (mem_filter.mpr ⟨hwalked r hr hsees, hsees⟩)

/-- **A run backward visits every visible key once, in descending order, exactly if** no record on a
page it walks along keeps it from reading on, and it walks along every page with a visible record:
such a page is not skipped, and in a prefix search it is the last one that is not skipped. -/
theorem prevRun_visits_iff (S : Session) {root : Page (List Update) Cell} (h : root.WF none none)
    (refs : ℕ → Ref) (prefixSearch : Bool) {fuel : ℕ} (hfuel : root.recs.length < fuel) :
    (∃ keys, prevRun S.reader root.leaves (fun i => S.walkSkips (refs i)) prefixSearch fuel
          .unpositioned = .ok keys ∧
        keys.Pairwise (· > ·) ∧
        ∀ k, k ∈ keys ↔ ∃ r ∈ root.recs, r.key = k ∧ S.reader.sees r = true) ↔
      (∀ i l, root.leaves[i]? = some l →
        PrevWalks (fun i => S.walkSkips (refs i)) prefixSearch root.leaves.length i →
        ∀ r ∈ l.recs, ∀ e, S.reader.readRec r ≠ .error e) ∧
      (∀ i l, root.leaves[i]? = some l → (∃ r ∈ l.recs, S.reader.sees r = true) →
        PrevWalks (fun i => S.walkSkips (refs i)) prefixSearch root.leaves.length i) := by
  have hsorted : RecsSorted root.recs := h.leavesOk.recsSorted
  have hsub := pagesPrev_sublist root.leaves (fun i => S.walkSkips (refs i)) prefixSearch
    root.leaves.length
  rw [take_length] at hsub
  rw [prevRun_unpositioned hfuel, readKeys_visits_iff hsorted hsub]
  simp only [mem_pagesPrev le_rfl]
  refine and_congr ⟨?_, ?_⟩ ⟨?_, ?_⟩
  · intro hread i l hl hwalks r hr
    exact hread r ⟨i, l, (List.getElem?_eq_some_iff.mp hl).1, hl, hr, hwalks⟩
  · rintro hread r ⟨i, l, -, hl, hr, hwalks⟩
    exact hread i l hl hwalks r hr
  · rintro hwalked i l hl ⟨r, hr, hsees⟩
    have hroot : r ∈ root.recs := mem_flatMap.mpr ⟨l, mem_of_getElem? hl, hr⟩
    obtain ⟨j, l', -, hl', hr', hwalks⟩ := hwalked r hroot hsees
    exact hsorted.page_unique hl hl' hr hr' ▸ hwalks
  · intro hwalks r hr hsees
    obtain ⟨l, hl, hr⟩ := mem_flatMap.mp hr
    obtain ⟨i, hi, rfl⟩ := mem_iff_getElem.mp hl
    have hil := getElem?_eq_getElem hi
    exact ⟨i, _, hi, hil, hr, hwalks i _ hil ⟨r, hr, hsees⟩⟩

/-- A snapshot transaction in a system where all others are done. -/
def quietSession : Session where
  view := ⟨0, false, .snapshot, .quiet 10, none, false⟩
  global := ⟨10, 0, false⟩
  fmt := .u
  hs _ := []
  after _ := false

/-- Two leaf pages with one row each. -/
def twoLeaves : Page (List Update) Cell :=
  .internal
    [([0], .leaf ⟨[], [⟨[97], [], ⟨.init, [1]⟩, []⟩]⟩),
     ([98], .leaf ⟨[], [⟨[98], [], ⟨.init, [2]⟩, []⟩]⟩)]

/-- A reference to a page in memory that has not been written yet. -/
def memRef : Ref := ⟨.mem, true, none, none⟩

lemma twoLeaves_wf : twoLeaves.WF none none := by
  refine .internal (.cons (.leaf ⟨by decide, by decide, by decide, ?_⟩) (by decide) (by simp)
    (by simp) (.single (.leaf ⟨by decide, by decide, by decide, ?_⟩)))
  · rintro (_ | _ | slot) <;> simp [Leaf.insList]
  · rintro (_ | _ | slot) <;> simp [Leaf.insList]

theorem prevRun_twoLeaves :
    ∃ keys, prevRun quietSession.reader twoLeaves.leaves (fun _ => quietSession.walkSkips memRef)
        false 3 .unpositioned = .ok keys ∧
      keys.Pairwise (· > ·) ∧
      ∀ k, k ∈ keys ↔ ∃ r ∈ twoLeaves.recs, r.key = k ∧ quietSession.reader.sees r = true := by
  refine (prevRun_visits_iff quietSession twoLeaves_wf (fun _ => memRef) false (by decide)).mpr
    ⟨?_, fun i l hl hsees => ⟨rfl, fun hp => nomatch hp⟩⟩
  intro i l hl hwalks r hr e he
  have hread : ∀ r ∈ twoLeaves.recs, (quietSession.reader.readRec r).isOk = true := by decide
  have hok := hread r (mem_flatMap.mpr ⟨l, mem_of_getElem? hl, hr⟩)
  simp [he, Except.isOk, Except.toBool] at hok

/-- In a prefix search the run ends with the first page. -/
theorem prevRun_twoLeaves_prefixSearch :
    twoLeaves.WF none none ∧
      prevRun quietSession.reader twoLeaves.leaves (fun _ => quietSession.walkSkips memRef)
        true 3 .unpositioned = .ok [[98]] ∧
      ∃ r ∈ twoLeaves.recs, r.key = [97] ∧ quietSession.reader.sees r = true := by
  refine ⟨twoLeaves_wf, rfl, ?_⟩
  decide

end WiredTiger
