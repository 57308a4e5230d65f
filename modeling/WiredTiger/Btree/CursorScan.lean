/-
# A cursor walks over the records of a page in order

The parts of a leaf page a cursor goes through, one after the other, are the records of the page.
So a move of a cursor is a scan of the records that are left, in either direction: the first one a
value is seen of is the result, and what is left after it is where the next move starts.
-/
import WiredTiger.Btree.Cursor
import WiredTiger.Btree.LeafSearch

namespace WiredTiger

open Lib List Nat Reader Leaf

variable {α β : Type} {rd : Reader α β} {isa : Isa} {pfx : Option Key} {l : Leaf α β} {slot : ℕ}
  {ins : Option ℕ} {r : Rec α β} {j : ℕ} {node : Insert α} {row : Row α β} {L : List (Rec α β)}

/-! ### Scans -/

/-- How a cursor reads a record. -/
def Reader.readRec (rd : Reader α β) (r : Rec α β) : Except Stop UpdateValue :=
  match r.cell with
  | none => rd.readUpdList r.upd
  | some cell => rd.read r.key r.upd cell

/-- The end of a scan. -/
inductive ScanEnd (α β : Type)
  | found (r : Rec α β) (value : Value) (rest : List (Rec α β))
  | notFound
  | outOfBounds

/-- The first of the records that a value is seen of. -/
def scan (rd : Reader α β) (isa : Isa) (pfx : Option Key) :
    List (Rec α β) → Except Stop (ScanEnd α β)
  | [] => .ok .notFound
  | r :: rest =>
    if prefixOut isa pfx r.key then .ok .outOfBounds
    else
      match rd.readRec r with
      | .error e => .error e
      | .ok (.standard value) => .ok (.found r value rest)
      | .ok _ => scan rd isa pfx rest

/-- A record that a value is seen of. -/
def Reader.sees (rd : Reader α β) (r : Rec α β) : Bool :=
  match rd.readRec r with
  | .ok (.standard _) => true
  | _ => false

lemma Reader.sees_iff :
    rd.sees r = true ↔ ∃ value, rd.readRec r = .ok (.standard value) := by
  rw [sees]
  rcases rd.readRec r with e | v
  · simp
  · cases v <;> simp

/-- The records a scan passes over: no value is seen of them, and they are not behind the
prefix. -/
def Passed (rd : Reader α β) (isa : Isa) (pfx : Option Key) (L : List (Rec α β)) : Prop :=
  ∀ r ∈ L, rd.sees r = false ∧ prefixOut isa pfx r.key = false

lemma Passed.cons (hr : rd.sees r = false)
    (hout : prefixOut isa pfx r.key = false) (h : Passed rd isa pfx L) :
    Passed rd isa pfx (r :: L) := by
  intro x hx
  rcases mem_cons.mp hx with rfl | hx
  · exact ⟨hr, hout⟩
  · exact h x hx

/-- What the end of a scan of `L` says about the records. -/
def ScanEnd.Of (rd : Reader α β) (isa : Isa) (pfx : Option Key) (L : List (Rec α β)) :
    ScanEnd α β → Prop
  | .notFound => Passed rd isa pfx L
  | .outOfBounds => ∃ front r rest, Passed rd isa pfx front ∧ L = front ++ r :: rest ∧
      prefixOut isa pfx r.key = true
  | .found r value rest => ∃ front, Passed rd isa pfx front ∧ L = front ++ r :: rest ∧
      prefixOut isa pfx r.key = false ∧ rd.readRec r = .ok (.standard value)

lemma ScanEnd.Of.cons {found : ScanEnd α β} (hr : rd.sees r = false)
    (hout : prefixOut isa pfx r.key = false) (h : found.Of rd isa pfx L) :
    found.Of rd isa pfx (r :: L) := by
  cases found with
  | notFound => exact Passed.cons hr hout h
  | outOfBounds =>
    obtain ⟨front, r', rest, hfront, rfl, hr'⟩ := h
    exact ⟨r :: front, r', rest, hfront.cons hr hout, rfl, hr'⟩
  | found r' value rest =>
    obtain ⟨front, hfront, rfl, hr'⟩ := h
    exact ⟨r :: front, hfront.cons hr hout, rfl, hr'⟩

/-- **How a scan ends.** -/
lemma scan_ok {found : ScanEnd α β} (h : scan rd isa pfx L = .ok found) :
    found.Of rd isa pfx L := by
  induction L with
  | nil =>
    cases h
    intro r hr
    cases hr
  | cons r L ih =>
    rw [scan] at h
    by_cases hout : prefixOut isa pfx r.key
    · rw [if_pos hout] at h
      cases h
      exact ⟨[], r, L, by simp [Passed], rfl, hout⟩
    rw [if_neg hout] at h
    rw [Bool.not_eq_true] at hout
    rcases hr : rd.readRec r with e | v
    · rw [hr] at h
      cases h
    · rw [hr] at h
      cases v with
      | invalid | tombstone => exact (ih h).cons (by simp [sees, hr]) hout
      | standard value =>
        cases h
        exact ⟨[], by simp [Passed], rfl, hout, hr⟩

/-! ### The parts of a page -/

/-- The records of part `slot`. -/
def partRecs (l : Leaf α β) (slot : ℕ) : List (Rec α β) :=
  if slot = 0 then []
  else if slot % 2 = 1 then insRecs (iterSlot slot) (l.iterIns slot)
  else
    match l.rows[slot / 2 - 1]? with
    | none => []
    | some row => [⟨.row (slot / 2 - 1), row.key, row.upd, some row.cell⟩]

/-- The records in front of part `slot`. -/
def frontOf (l : Leaf α β) (slot : ℕ) : List (Rec α β) :=
  (range slot).flatMap (partRecs l)

lemma frontOf_succ (slot : ℕ) : frontOf l (slot + 1) = frontOf l slot ++ partRecs l slot := by
  simp [frontOf, range_succ]

lemma partRecs_odd (hodd : slot % 2 = 1) :
    partRecs l slot = insRecs (iterSlot slot) (l.iterIns slot) := by
  rw [partRecs, if_neg (by omega), if_pos hodd]

lemma partRecs_row (heven : slot % 2 = 0) (hpos : slot ≠ 0)
    (hrow : l.rows[slot / 2 - 1]? = some row) :
    partRecs l slot = [⟨.row (slot / 2 - 1), row.key, row.upd, some row.cell⟩] := by
  rw [partRecs, if_neg hpos, if_neg (by omega), hrow]

/-- The records in front of the part behind row `n`. -/
lemma frontOf_rows {n : ℕ} (hn : n ≤ l.rows.length) :
    frontOf l (n * 2 + 2) = insRecs none l.smallest ++ rowsRecs 0 (l.rows.take n) := by
  induction n with
  | zero => simp [frontOf, range_succ, partRecs, iterSlot, iterIns, insList, rowsRecs]
  | succ n ih =>
    have hrow := getElem?_eq_getElem (l := l.rows) (i := n) (by omega)
    have h₁ : (n + 1) * 2 + 2 = n * 2 + 2 + 1 + 1 := by ring
    have h₂ : (n * 2 + 2) / 2 - 1 = n := by omega
    have hslot : iterSlot (n * 2 + 2 + 1) = some n := by
      rw [iterSlot, if_neg (by omega)]
      congr 1
      omega
    have hpart : partRecs l (n * 2 + 2) = _ :=
      partRecs_row (by omega) (by omega) ((congrArg (l.rows[·]?) h₂).trans hrow)
    have hlist : partRecs l (n * 2 + 2 + 1) = _ := partRecs_odd (by omega)
    rw [h₁, frontOf_succ, frontOf_succ, ih (by omega), hpart, hlist, h₂, iterIns, hslot,
      take_succ_eq_append_getElem (by omega), rowsRecs_append_cons,
      length_take_of_le (by omega)]
    simp [rowsRecs, insList, hrow]

/-- The parts of a page are its records. -/
lemma frontOf_all : frontOf l (l.rows.length * 2 + 2) = l.recs := by
  rw [frontOf_rows le_rfl, take_length, recs_eq]

lemma frontOf_mono {m n : ℕ} (h : m ≤ n) : frontOf l m <+: frontOf l n := by
  induction n, h using le_induction with
  | base => exact prefix_rfl
  | succ n hmn ih =>
    rw [frontOf_succ]
    exact ih.trans (prefix_append _ _)

/-- The records from part `slot` on. -/
def backOf (l : Leaf α β) (slot : ℕ) : List (Rec α β) := l.recs.drop (frontOf l slot).length

lemma frontOf_append_backOf (h : slot ≤ l.rows.length * 2 + 2) :
    frontOf l slot ++ backOf l slot = l.recs :=
  prefix_iff_eq_append.mp (frontOf_all (l := l) ▸ frontOf_mono h)

lemma backOf_eq (h : slot ≤ l.rows.length * 2 + 1) :
    backOf l slot = partRecs l slot ++ backOf l (slot + 1) := by
  have hfront := frontOf_append_backOf (le_succ_of_le h)
  rw [← frontOf_append_backOf (succ_le_succ h), frontOf_succ, append_assoc] at hfront
  exact append_cancel_left hfront

/-! ### Forward -/

/-- The records a walk forward has in front of it, when it is at the label `new_insert`. -/
def leftNext (l : Leaf α β) (slot : ℕ) (ins : Option ℕ) : List (Rec α β) :=
  match ins with
  | none => backOf l (slot + 1)
  | some j => (partRecs l slot).drop j ++ backOf l (slot + 1)

/-- The records that are left after a move forward has ended at a position. -/
def afterNext (l : Leaf α β) (slot : ℕ) (ins : Option ℕ) : List (Rec α β) :=
  leftNext l slot (ins.bind (skipNext (l.iterIns slot)))

/-- The positions a walk goes through: a node of an insert list, the end of one, or a row. -/
structure IterPos (l : Leaf α β) (slot : ℕ) (ins : Option ℕ) : Prop where
  pos : 1 ≤ slot
  le : slot ≤ l.rows.length * 2 + 1
  node : ∀ j, ins = some j → slot % 2 = 1 ∧ j < (l.iterIns slot).length

lemma iterPos_none (h₁ : 1 ≤ slot) (h₂ : slot ≤ l.rows.length * 2 + 1) :
    IterPos l slot none :=
  ⟨h₁, h₂, by simp⟩

lemma iterPos_skipFirst (h₁ : 1 ≤ slot) (h₂ : slot ≤ l.rows.length * 2 + 1)
    (hodd : slot % 2 = 1) : IterPos l slot (skipFirst (l.iterIns slot)) := by
  refine ⟨h₁, h₂, fun j hj => ⟨hodd, ?_⟩⟩
  rw [skipFirst] at hj
  split_ifs at hj with h0
  cases hj
  omega

lemma IterPos.skipNext (h : IterPos l slot (some j)) :
    IterPos l slot (skipNext (l.iterIns slot) j) := by
  refine ⟨h.pos, h.le, fun j' hj' => ⟨(h.node j rfl).1, ?_⟩⟩
  rw [WiredTiger.skipNext] at hj'
  split_ifs at hj' with hlt
  cases hj'
  exact hlt

/-- A node of an insert list. -/
lemma IterPos.partRecs_node (h : IterPos l slot (some j))
    (hnode : (l.iterIns slot)[j]? = some node) :
    ∃ hj : j < (partRecs l slot).length,
      (partRecs l slot)[j] = ⟨.ins (iterSlot slot) j, node.key, node.upd, none⟩ := by
  obtain ⟨hodd, hj⟩ := h.node j rfl
  obtain ⟨-, rfl⟩ := List.getElem?_eq_some_iff.mp hnode
  exact ⟨by simpa [partRecs_odd hodd, insRecs] using hj, by simp [partRecs_odd hodd, insRecs]⟩

lemma length_partRecs (hodd : slot % 2 = 1) :
    (partRecs l slot).length = (l.iterIns slot).length := by
  simp [partRecs_odd hodd, insRecs]

/-- Behind a node of an insert list. -/
lemma leftNext_node (h : IterPos l slot (some j))
    (hnode : (l.iterIns slot)[j]? = some node) :
    leftNext l slot (some j) =
      ⟨.ins (iterSlot slot) j, node.key, node.upd, none⟩ ::
        leftNext l slot (skipNext (l.iterIns slot) j) := by
  obtain ⟨hj, hget⟩ := h.partRecs_node hnode
  have hlen := length_partRecs (l := l) (h.node j rfl).1
  rw [leftNext, drop_eq_getElem_cons hj, hget, cons_append, skipNext]
  split_ifs
  · rfl
  · rw [drop_of_length_le (by omega)]
    rfl

/-- Behind the end of an insert list comes a row. -/
lemma leftNext_row (hodd : slot % 2 = 1) (hle : slot < l.rows.length * 2 + 1)
    (hrow : l.rows[(slot + 1) / 2 - 1]? = some row) :
    leftNext l slot none = ⟨.row ((slot + 1) / 2 - 1), row.key, row.upd, some row.cell⟩ ::
      leftNext l (slot + 1) none := by
  rw [leftNext, backOf_eq hle, partRecs_row (by omega) (by omega) hrow]
  rfl

/-- Behind a row comes its insert list. -/
lemma leftNext_first (heven : slot % 2 = 0) (hle : slot < l.rows.length * 2 + 1) :
    leftNext l slot none = leftNext l (slot + 1) (skipFirst (l.iterIns (slot + 1))) := by
  have hlen : (partRecs l (slot + 1)).length = _ := length_partRecs (by omega)
  rw [leftNext, backOf_eq hle, skipFirst]
  split_ifs with h0
  · rw [eq_nil_of_length_eq_zero (hlen.trans h0), nil_append]
    rfl
  · rfl

/-- At the end of the page. -/
lemma leftNext_end : leftNext l (l.rows.length * 2 + 1) none = [] := by
  rw [leftNext, backOf, frontOf_all, drop_length]

/-- How a walk and a scan end alike: `left` are the records that are left at a position. -/
inductive MoveMatches (l : Leaf α β) (left : ℕ → Option ℕ → List (Rec α β)) :
    Except Stop RowMove → Except Stop (ScanEnd α β) → Prop
  | error (e : Stop) : MoveMatches l left (.error e) (.error e)
  | notFound : MoveMatches l left (.ok .notFound) (.ok .notFound)
  | outOfBounds : MoveMatches l left (.ok .outOfBounds) (.ok .outOfBounds)
  | found {slot : ℕ} {ins : Option ℕ} (r : Rec α β) (value : Value) : IterPos l slot ins →
      MoveMatches l left (.ok (.found slot ins r.key value)) (.ok (.found r value (left slot ins)))

/-- A walk that comes to a record. -/
lemma MoveMatches.visit {left : ℕ → Option ℕ → List (Rec α β)} {rest : List (Rec α β)}
    {next : Except Stop RowMove}
    (hpos : IterPos l slot ins) (hleft : left slot ins = rest)
    (hnext : MoveMatches l left next (scan rd isa pfx rest)) :
    MoveMatches l left
      (if prefixOut isa pfx r.key then .ok .outOfBounds
        else match rd.readRec r with
          | .error e => .error e
          | .ok (.standard value) => .ok (.found slot ins r.key value)
          | .ok _ => next)
      (scan rd isa pfx (r :: rest)) := by
  rw [scan]
  split_ifs with hout
  · exact .outOfBounds
  · rcases rd.readRec r with e | v
    · exact .error e
    · cases v with
      | invalid => exact hnext
      | standard value => exact hleft ▸ .found r value hpos
      | tombstone => exact hnext

variable (rd isa pfx) in

/-- **A walk forward is a scan.** -/
lemma cursorRowNext_scan (fuel : ℕ) (h : IterPos l slot ins)
    (hfuel : (leftNext l slot ins).length + (l.rows.length * 2 + 1 - slot) < fuel) :
    MoveMatches l (afterNext l) (cursorRowNext rd isa pfx l fuel slot ins)
      (scan rd isa pfx (leftNext l slot ins)) := by
  induction fuel generalizing slot ins with
  | zero => omega
  | succ fuel ih =>
    rcases ins with _ | j
    · rcases mod_two_eq_zero_or_one slot with heven | hodd
      · -- the insert list of the row
        have hle : slot < l.rows.length * 2 + 1 := by
          have := h.le
          omega
        rw [leftNext_first heven hle] at hfuel ⊢
        rw [cursorRowNext, if_neg (by omega), if_pos (by omega)]
        exact ih (iterPos_skipFirst (by omega) (by omega) (by omega)) (by omega)
      · by_cases hend : l.rows.length * 2 + 1 ≤ slot
        · obtain rfl : slot = l.rows.length * 2 + 1 := le_antisymm h.le hend
          rw [leftNext_end, cursorRowNext, if_pos hend]
          exact .notFound
        · -- the next row
          have hrow := getElem?_eq_getElem (l := l.rows) (i := (slot + 1) / 2 - 1) (by omega)
          have hleft := leftNext_row hodd (not_le.mp hend) hrow
          have hpos : IterPos l (slot + 1) none := iterPos_none (by omega) (by omega)
          rw [hleft, length_cons] at hfuel
          rw [cursorRowNext, if_neg hend, if_neg (by omega), hrow, hleft]
          exact .visit (r := ⟨_, _, _, some _⟩) hpos rfl (ih hpos (by omega))
    · obtain ⟨hodd, hj⟩ := h.node j rfl
      have hnode := getElem?_eq_getElem hj
      have hleft := leftNext_node h hnode
      rw [hleft, length_cons] at hfuel
      rw [cursorRowNext, hnode, hleft]
      exact .visit (r := ⟨_, _, _, none⟩) h rfl (ih h.skipNext (by omega))

/-! ### Backward -/

/-- The records a walk backward has in front of it, when it is at the label `new_insert`. -/
def leftPrev (l : Leaf α β) (slot : ℕ) (ins : Option ℕ) : List (Rec α β) :=
  match ins with
  | none => (frontOf l slot).reverse
  | some j => (frontOf l slot ++ (partRecs l slot).take (j + 1)).reverse

/-- The records that are left after a move backward has ended at a position. -/
def afterPrev (l : Leaf α β) (slot : ℕ) (ins : Option ℕ) : List (Rec α β) :=
  leftPrev l slot (ins.bind skipPrev)

lemma iterPos_skipLast (h₁ : 1 ≤ slot) (h₂ : slot ≤ l.rows.length * 2 + 1)
    (hodd : slot % 2 = 1) : IterPos l slot (skipLast (l.iterIns slot)) := by
  refine ⟨h₁, h₂, fun j hj => ⟨hodd, ?_⟩⟩
  rw [skipLast] at hj
  split_ifs at hj with h0
  cases hj
  omega

lemma IterPos.skipPrev (h : IterPos l slot (some j)) :
    IterPos l slot (skipPrev j) := by
  refine ⟨h.pos, h.le, fun j' hj' => ?_⟩
  obtain ⟨hodd, hj⟩ := h.node j rfl
  rw [WiredTiger.skipPrev] at hj'
  split_ifs at hj' with h0
  cases hj'
  exact ⟨hodd, by omega⟩

/-- In front of a node of an insert list. -/
lemma leftPrev_node (h : IterPos l slot (some j))
    (hnode : (l.iterIns slot)[j]? = some node) :
    leftPrev l slot (some j) =
      ⟨.ins (iterSlot slot) j, node.key, node.upd, none⟩ :: leftPrev l slot (skipPrev j) := by
  obtain ⟨hlen, hget⟩ := h.partRecs_node hnode
  rw [leftPrev, take_succ_eq_append_getElem hlen, hget, ← append_assoc,
    reverse_append, reverse_singleton, singleton_append]
  congr 1
  rcases j with _ | j
  · simp [skipPrev, leftPrev]
  · rfl

/-- In front of an insert list comes its row. -/
lemma leftPrev_row (hodd : slot % 2 = 1) (hslot : slot ≠ 1)
    (hrow : l.rows[(slot - 1) / 2 - 1]? = some row) :
    leftPrev l slot none = ⟨.row ((slot - 1) / 2 - 1), row.key, row.upd, some row.cell⟩ ::
      leftPrev l (slot - 1) none := by
  obtain ⟨n, rfl⟩ : ∃ n, slot = n + 1 := ⟨slot - 1, by omega⟩
  have hpart : partRecs l n = _ := partRecs_row (by omega) (by omega) hrow
  rw [leftPrev, leftPrev, frontOf_succ, hpart]
  simp

/-- In front of a row comes the insert list before it. -/
lemma leftPrev_last (hslot : 1 ≤ slot) (heven : slot % 2 = 0) :
    leftPrev l slot none = leftPrev l (slot - 1) (skipLast (l.iterIns (slot - 1))) := by
  obtain ⟨n, rfl⟩ : ∃ n, slot = n + 1 := ⟨slot - 1, by omega⟩
  have hlen : (partRecs l n).length = _ := length_partRecs (by omega)
  rw [leftPrev, frontOf_succ, Nat.add_sub_cancel, skipLast]
  split_ifs with h0
  · rw [eq_nil_of_length_eq_zero (hlen.trans h0), append_nil]
    rfl
  · rw [leftPrev, take_of_length_le (by omega)]

/-- A walk backward that comes to a page has all its records in front of it. -/
lemma leftPrev_all :
    leftPrev l (l.rows.length * 2 + 1) (skipLast (l.iterIns (l.rows.length * 2 + 1))) =
      l.recs.reverse := by
  have h : leftPrev l (l.rows.length * 2 + 2) none = _ := leftPrev_last (by omega) (by omega)
  rw [leftPrev, frontOf_all] at h
  exact h.symm

/-- What a walk backward has in front of it is a first part of the page. -/
lemma leftPrev_isPrefix (h : slot ≤ l.rows.length * 2 + 1) :
    (leftPrev l slot ins).reverse <+: l.recs := by
  rw [← frontOf_all]
  cases ins with
  | none =>
    rw [leftPrev, reverse_reverse]
    exact frontOf_mono (by omega)
  | some j =>
    rw [leftPrev, reverse_reverse]
    refine List.IsPrefix.trans ?_ (frontOf_mono (m := slot + 1) (by omega))
    rw [frontOf_succ]
    exact (prefix_append_right_inj _).mpr ⟨_, take_append_drop _ _⟩

lemma leftPrev_turns (h : slot ≤ l.rows.length * 2 + 1) :
    (leftPrev l slot ins).length + slot < l.turns := by
  have hlen : (leftPrev l slot ins).reverse.length ≤ _ := (leftPrev_isPrefix h).length_le
  rw [length_reverse] at hlen
  rw [turns]
  omega

lemma leftPrev_end : leftPrev l 1 none = [] := by
  simp [leftPrev, frontOf, partRecs]

variable (rd isa) in

/-- **A walk backward is a scan.** -/
lemma cursorRowPrev_scan (fuel : ℕ) (h : IterPos l slot ins)
    (hfuel : (leftPrev l slot ins).length + slot < fuel) :
    MoveMatches l (afterPrev l) (cursorRowPrev rd l fuel slot ins)
      (scan rd isa none (leftPrev l slot ins)) := by
  induction fuel generalizing slot ins with
  | zero => omega
  | succ fuel ih =>
    have hpos := h.pos
    have hle := h.le
    rcases ins with _ | j
    · rcases mod_two_eq_zero_or_one slot with heven | hodd
      · -- the insert list in front of the row
        rw [leftPrev_last hpos heven] at hfuel ⊢
        rw [cursorRowPrev, if_neg (by omega), if_pos (by omega)]
        exact ih (iterPos_skipLast (by omega) (by omega) (by omega)) (by omega)
      · by_cases hend : slot = 1
        · rw [hend, leftPrev_end, cursorRowPrev, if_pos rfl]
          exact .notFound
        · -- the row of the insert list
          have hrow := getElem?_eq_getElem (l := l.rows) (i := (slot - 1) / 2 - 1) (by omega)
          have hleft := leftPrev_row hodd hend hrow
          have hpos' : IterPos l (slot - 1) none := iterPos_none (by omega) (by omega)
          rw [hleft, length_cons] at hfuel
          rw [cursorRowPrev, if_neg hend, if_neg (by omega), hrow, hleft]
          have hnext := ih hpos' (by omega)
          exact .visit (r := ⟨_, _, _, some _⟩) hpos' rfl hnext
    · obtain ⟨hodd, hj⟩ := h.node j rfl
      have hnode := getElem?_eq_getElem hj
      have hleft := leftPrev_node h hnode
      rw [hleft, length_cons] at hfuel
      rw [cursorRowPrev, hnode, hleft]
      have hnext := ih h.skipPrev (by omega)
      exact .visit (r := ⟨_, _, _, none⟩) h rfl hnext

/-! ### Positions -/

/-- What a walk forward has in front of it is a last part of the page. -/
lemma leftNext_isSuffix (h : IterPos l slot ins) :
    ∃ F, l.recs = F ++ leftNext l slot ins := by
  have hsplit := frontOf_append_backOf (succ_le_succ h.le)
  cases ins with
  | none => exact ⟨_, hsplit.symm⟩
  | some j =>
    refine ⟨frontOf l slot ++ (partRecs l slot).take j, ?_⟩
    rw [← hsplit, frontOf_succ, leftNext, append_assoc, append_assoc,
      ← append_assoc (take j _), take_append_drop]

lemma leftNext_turns (h : IterPos l slot ins) :
    (leftNext l slot ins).length + (l.rows.length * 2 + 1 - slot) < l.turns := by
  obtain ⟨F, hF⟩ := leftNext_isSuffix h
  have hlen := congrArg length hF
  rw [length_append] at hlen
  rw [turns]
  omega

/-- A walk forward that comes to a page has all its records in front of it. -/
lemma leftNext_all : leftNext l 1 (skipFirst (l.iterIns 1)) = l.recs := by
  have h : leftNext l 0 none = _ := leftNext_first rfl (succ_pos _)
  rw [← h]
  rfl

/-- The place of a position. -/
def iterPlace (slot : ℕ) (ins : Option ℕ) : Place :=
  match ins with
  | none => .row (slot / 2 - 1)
  | some j => .ins (iterSlot slot) j

/-- The record at a position, with what a move forward has left behind it. -/
lemma recs_at (h : IterPos l slot ins)
    (hon : ins = none → slot % 2 = 0) :
    ∃ F r, l.recs = F ++ r :: afterNext l slot ins ∧ r.place = iterPlace slot ins := by
  cases ins with
  | none =>
    have hpos := h.pos
    have hle := h.le
    have heven := hon rfl
    have hrow := getElem?_eq_getElem (l := l.rows) (i := slot / 2 - 1) (by omega)
    have hsplit := frontOf_append_backOf (succ_le_succ hle)
    rw [frontOf_succ, partRecs_row heven (by omega) hrow, append_assoc] at hsplit
    exact ⟨frontOf l slot, _, hsplit.symm, rfl⟩
  | some j =>
    have hnode := getElem?_eq_getElem (h.node j rfl).2
    obtain ⟨F, hF⟩ := leftNext_isSuffix h
    rw [leftNext_node h hnode] at hF
    exact ⟨F, _, hF, rfl⟩

end WiredTiger
