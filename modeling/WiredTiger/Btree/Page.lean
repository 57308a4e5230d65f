/-
# The pages of a row-store tree

A leaf page has the rows of its disk image, in order, each with a list of inserted keys behind it,
and one more such list in front of the first row.  An insert list is a skip list.  An internal
page has an index of child pages; the key of an entry is where the child's key range starts, save
that the key of entry 0 means nothing.

`α` is what hangs off a key in memory (the chain of its updates), `β` what the disk image has for a
row.  The search looks at neither.
-/
import WiredTiger.Btree.Compare

namespace WiredTiger

open Lib

/-- A `WT_INSERT`: a node of an insert list. -/
structure Insert (α : Type) where
  key : Key
  /-- The number of levels of the skip list the node is on. -/
  depth : ℕ
  upd : α
  deriving DecidableEq, Repr

/-- A `WT_ROW` of a leaf page, with the insert list of its slot. -/
structure Row (α β : Type) where
  key : Key
  upd : α
  cell : β
  ins : List (Insert α)
  deriving DecidableEq, Repr

/-- A row-store leaf page. -/
structure Leaf (α β : Type) where
  /-- `WT_ROW_INSERT_SMALLEST`: the keys inserted in front of the first row. -/
  smallest : List (Insert α)
  rows : List (Row α β)
  deriving DecidableEq, Repr

/-- A page, with the pages below it. -/
inductive Page (α β : Type)
  | leaf (l : Leaf α β)
  | internal (index : List (Key × Page α β))

/-- `WT_SKIP_MAXDEPTH`. -/
def skipMaxdepth : ℕ := 10

variable {α β : Type}

/-! ### The records of a leaf page, in order -/

/-- A place on a leaf page: a slot, or a node of the insert list of a slot (`none` is the list in
front of the first row). -/
inductive Place
  | row (slot : ℕ)
  | ins (slot : Option ℕ) (indx : ℕ)
  deriving DecidableEq, Repr

/-- What there is at a place. -/
structure Rec (α β : Type) where
  place : Place
  key : Key
  upd : α
  /-- The cell of a row; an inserted key has none. -/
  cell : Option β
  deriving DecidableEq, Repr

/-- The records of an insert list. -/
def insRecs (slot : Option ℕ) (ins : List (Insert α)) : List (Rec α β) :=
  ins.zipIdx.map fun x => ⟨.ins slot x.2, x.1.key, x.1.upd, none⟩

/-- A row and the keys inserted behind it. -/
def rowRecs (x : Row α β × ℕ) : List (Rec α β) :=
  ⟨.row x.2, x.1.key, x.1.upd, some x.1.cell⟩ :: insRecs (some x.2) x.1.ins

/-- The records of a leaf page in the order of their keys. -/
def Leaf.recs (l : Leaf α β) : List (Rec α β) :=
  insRecs none l.smallest ++ l.rows.zipIdx.flatMap rowRecs

/-- `WT_ROW_INSERT_SLOT` and `WT_ROW_INSERT_SMALLEST`; an insert list that is not there is
empty. -/
def Leaf.insList (l : Leaf α β) : Option ℕ → List (Insert α)
  | none => l.smallest
  | some slot => (l.rows[slot]?.map Row.ins).getD []

/-! ### The leaf pages of a tree, in order -/

mutual

/-- The leaf pages below a page, in order. -/
def Page.leaves : Page α β → List (Leaf α β)
  | .leaf l => [l]
  | .internal index => Page.leavesList index

/-- The leaf pages below the entries of an index. -/
def Page.leavesList : List (Key × Page α β) → List (Leaf α β)
  | [] => []
  | (_, p) :: index => p.leaves ++ Page.leavesList index

end

/-- The records of a tree, in the order of their keys. -/
def Page.recs (p : Page α β) : List (Rec α β) := p.leaves.flatMap Leaf.recs

mutual

/-- The number of internal pages above the deepest leaf page. -/
def Page.height : Page α β → ℕ
  | .leaf _ => 0
  | .internal index => Page.heightList index + 1

/-- The largest height below the entries of an index. -/
def Page.heightList : List (Key × Page α β) → ℕ
  | [] => 0
  | (_, p) :: index => max p.height (Page.heightList index)

end

/-! ### Well-formed pages -/

/-- The range of keys a page is responsible for: from a lower bound on, and below an upper one;
either may be missing, at the edges of the tree. -/
def InRange (lo hi : Option Key) (k : Key) : Prop :=
  (∀ b, lo = some b → ¬ k < b) ∧ (∀ b, hi = some b → k < b)

instance (lo hi : Option Key) (k : Key) : Decidable (InRange lo hi k) :=
  decidable_of_iff (lo.all (fun b => ¬ k < b) = true ∧ hi.all (fun b => k < b) = true)
    (by cases lo <;> cases hi <;> simp [InRange])

/-- A leaf page is well-formed: its keys are in its range and strictly increasing, none of them
is empty, and every inserted key is on the lowest level of its list. -/
structure Leaf.WF (lo hi : Option Key) (l : Leaf α β) : Prop where
  sorted : (l.recs.map Rec.key).Pairwise (· < ·)
  range : ∀ r ∈ l.recs, InRange lo hi r.key
  nonempty : ∀ r ∈ l.recs, r.key ≠ []
  depth : ∀ slot, ∀ i ∈ l.insList slot, 0 < i.depth

mutual

/-- A page is well-formed. -/
inductive Page.WF : Option Key → Option Key → Page α β → Prop
  | leaf {lo hi : Option Key} {l : Leaf α β} : l.WF lo hi → Page.WF lo hi (.leaf l)
  | internal {lo hi : Option Key} {index : List (Key × Page α β)} :
      IndexWF lo hi index → Page.WF lo hi (.internal index)

/-- The entries of an index divide the range of the page among its children.  Nothing is said
about the key of the first entry. -/
inductive IndexWF : Option Key → Option Key → List (Key × Page α β) → Prop
  | single {lo hi : Option Key} {k : Key} {p : Page α β} :
      Page.WF lo hi p → IndexWF lo hi [(k, p)]
  | cons {lo hi : Option Key} {k k' : Key} {p p' : Page α β} {index : List (Key × Page α β)} :
      Page.WF lo (some k') p → InRange lo hi k' → (∀ b, lo = some b → b < k') → k' ≠ [] →
      IndexWF (some k') hi ((k', p') :: index) → IndexWF lo hi ((k, p) :: (k', p') :: index)

end

end WiredTiger
