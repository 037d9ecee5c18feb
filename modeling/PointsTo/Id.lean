import Std.Data.ExtTreeSet

/-!
# Numbered things

Classes, fields, methods, variables, statements, abstract objects and pointers are numbered from
zero, each kind on its own, and are referred to by their number. An id may name nothing: this
matters only where it is looked up, and the lookup then fails with `Dangling`.
-/

namespace PointsTo

/-- What an id numbers. -/
inductive Kind where
  | cls
  | field
  | method
  | var
  | stmt
  | obj
  | pointer
deriving DecidableEq

/-- The letter before the index of an id in log records. -/
def Kind.letter : Kind → String
  | .cls => "c"
  | .field => "f"
  | .method => "m"
  | .var => "v"
  | .stmt => "s"
  | .obj => "o"
  | .pointer => "p"

/-- The name of a kind of id in messages. -/
def Kind.title : Kind → String
  | .cls => "ClassId"
  | .field => "FieldId"
  | .method => "MethodId"
  | .var => "VarId"
  | .stmt => "StmtId"
  | .obj => "ObjId"
  | .pointer => "PointerId"

/-- A reference to the thing of kind `k` that stands at `index` among all things of its kind. -/
structure Id (k : Kind) where
  index : Nat
deriving DecidableEq

abbrev ClassId := Id .cls
abbrev FieldId := Id .field
abbrev MethodId := Id .method
abbrev VarId := Id .var
abbrev StmtId := Id .stmt
abbrev ObjId := Id .obj
abbrev PointerId := Id .pointer

namespace Id

variable {k : Kind}

instance : LT (Id k) := ⟨fun a b => a.index < b.index⟩

instance : LE (Id k) := ⟨fun a b => a.index ≤ b.index⟩

instance (a b : Id k) : Decidable (a < b) := inferInstanceAs (Decidable (a.index < b.index))

instance (a b : Id k) : Decidable (a ≤ b) := inferInstanceAs (Decidable (a.index ≤ b.index))

theorem lt_def {a b : Id k} : a < b ↔ a.index < b.index := Iff.rfl

theorem le_def {a b : Id k} : a ≤ b ↔ a.index ≤ b.index := Iff.rfl

theorem ext_index {a b : Id k} (h : a.index = b.index) : a = b := by
  cases a
  cases b
  cases h
  rfl

instance : LawfulBEq (Id k) := inferInstance

instance : Ord (Id k) := ⟨compareOn Id.index⟩

instance : Std.TransOrd (Id k) := inferInstanceAs (Std.TransCmp (compareOn Id.index))

instance : Std.LawfulEqOrd (Id k) where
  eq_of_compare h := ext_index (Std.LawfulEqOrd.eq_of_compare h)

theorem compare_eq_lt_iff {a b : Id k} : compare a b = .lt ↔ a < b := Nat.compare_eq_lt

/-- The short form of an id in log records, such as `p3`. -/
def label (a : Id k) : String := k.letter ++ toString a.index

/-- Indices fit in 32 bits. -/
def bound : Nat := UInt32.size

/-- The first `n` ids, ascending. -/
def upTo (k : Kind) (n : Nat) : List (Id k) := (List.range n).map Id.mk

@[simp] theorem mem_upTo {n : Nat} {a : Id k} : a ∈ upTo k n ↔ a.index < n := by
  constructor
  · intro h
    obtain ⟨i, hi, rfl⟩ := List.mem_map.1 h
    exact List.mem_range.1 hi
  · intro h
    exact List.mem_map.2 ⟨a.index, List.mem_range.2 h, rfl⟩

end Id

/-- Pairs with an id are ordered by it, then by their second part. -/
instance {k : Kind} {β : Type} [Ord β] : Ord (Id k × β) := lexOrd

/-- A finite set of ids. Sets with the same members are equal, and `toList` gives the members in
ascending order. -/
abbrev IdSet (k : Kind) := Std.ExtTreeSet (Id k)

abbrev ObjSet := IdSet .obj

theorem IdSet.mem_ofList {k : Kind} {ids : List (Id k)} {a : Id k} :
    a ∈ (Std.ExtTreeSet.ofList ids : IdSet k) ↔ a ∈ ids := by
  simp

def IdSet.isSubset {k : Kind} (s t : IdSet k) : Bool := s.toList.all (· ∈ t)

theorem IdSet.isSubset_iff {k : Kind} {s t : IdSet k} : s.isSubset t = true ↔ ∀ a ∈ s, a ∈ t := by
  simp [isSubset]

theorem IdSet.toList_ascending {k : Kind} (s : IdSet k) : s.toList.Pairwise (· < ·) :=
  s.ordered_toList.imp Id.compare_eq_lt_iff.1

/-- An index that is too wide for an id. -/
structure IdOverflow where
  kind : Kind
  index : Nat
deriving DecidableEq

def IdOverflow.message (e : IdOverflow) : String := s!"{e.kind.title} index out of range: {e.index}"

/-- The id with a given index, if the index fits. -/
def Id.ofIndex (k : Kind) (i : Nat) : Except IdOverflow (Id k) :=
  if i < Id.bound then .ok ⟨i⟩ else .error ⟨k, i⟩

/-- An id that names nothing, found where it was looked up. -/
structure Dangling where
  kind : Kind
  index : Nat
deriving DecidableEq

def Dangling.message (e : Dangling) : String := s!"{e.kind.letter}{e.index} names nothing"

/-- The entry of a table that an id names. -/
def fetch {α : Type} {k : Kind} (table : Array α) (a : Id k) : Except Dangling α :=
  match table[a.index]? with
  | some x => .ok x
  | none => .error ⟨k, a.index⟩

theorem fetch_eq_ok_iff {α : Type} {k : Kind} {table : Array α} {a : Id k} {x : α} :
    fetch table a = .ok x ↔ table[a.index]? = some x := by
  unfold fetch
  split <;> simp_all

theorem fetch_eq_error_iff {α : Type} {k : Kind} {table : Array α} {a : Id k} {e : Dangling} :
    fetch table a = .error e ↔ table.size ≤ a.index ∧ e = ⟨k, a.index⟩ := by
  unfold fetch
  split <;> rename_i h
  · obtain ⟨hlt, -⟩ := Array.getElem?_eq_some_iff.1 h
    simp only [reduceCtorEq, false_iff, not_and]
    omega
  · simp only [Array.getElem?_eq_none_iff] at h
    simp [h, eq_comm]

end PointsTo
