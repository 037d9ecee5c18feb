import PointsTo.Catalog
import PointsTo.Id

/-!
# Pointers

The things that may refer to objects: variables, static fields, and the fields of abstract objects.
Pointers are numbered in the order in which they are first asked for, and each has one points-to
set.
-/

namespace PointsTo

inductive Pointer where
  | var (v : VarId)
  | static (f : FieldId)
  | field (o : ObjId) (f : FieldId)
deriving DecidableEq

namespace Pointer

/-- Variables come first in the order of pointers, then static fields, then the fields of each
object. -/
def rank : Pointer → Nat
  | var _ => 0
  | static _ => 1
  | field o _ => o.index + 2

/-- The place of a pointer among those of its rank. -/
def slot : Pointer → Nat
  | var v => v.index
  | static f => f.index
  | field _ f => f.index

theorem eq_of_rank_eq_of_slot_eq {p q : Pointer} (hrank : p.rank = q.rank)
    (hslot : p.slot = q.slot) :
    p = q := by
  cases p <;> cases q <;> simp only [rank, slot] at hrank hslot
  case var.var => rw [Id.ext_index hslot]
  case static.static => rw [Id.ext_index hslot]
  case field.field => rw [Id.ext_index hslot, Id.ext_index (Nat.add_right_cancel hrank)]
  all_goals omega

instance : Ord Pointer := ⟨compareLex (compareOn rank) (compareOn slot)⟩

instance : Std.TransOrd Pointer :=
  inferInstanceAs (Std.TransCmp (compareLex (compareOn rank) (compareOn slot)))

instance : Std.LawfulEqOrd Pointer where
  eq_of_compare h := by
    obtain ⟨hrank, hslot⟩ := compareLex_eq_eq.1 h
    exact eq_of_rank_eq_of_slot_eq (Std.LawfulEqOrd.eq_of_compare hrank)
      (Std.LawfulEqOrd.eq_of_compare hslot)

end Pointer

/-- The pointers so far, each with what it points to. -/
structure PointerTable where
  entries : Catalog (Prod.fst : Pointer × ObjSet → Pointer) := ∅
deriving DecidableEq

namespace PointerTable

def size (t : PointerTable) : Nat := t.entries.size

/-- The pointers in the order of their ids. -/
def pointers (t : PointerTable) : List Pointer := t.entries.toList.map Prod.fst

def find? (t : PointerTable) (p : Pointer) : Option PointerId := (t.entries.find? p).map Id.mk

/-- The id of a pointer, given to it now if it has none. A new pointer points to nothing. -/
def intern (t : PointerTable) (p : Pointer) : PointerId × PointerTable :=
  match t.find? p with
  | some id => (id, t)
  | none => (⟨t.size⟩, ⟨t.entries.add (p, ∅)⟩)

def get (t : PointerTable) (id : PointerId) : Except Dangling (Pointer × ObjSet) :=
  fetch t.entries.items id

/-- What a pointer points to; nothing if there is no such pointer. -/
def pts (t : PointerTable) (id : PointerId) : ObjSet :=
  (t.entries.items[id.index]?.map Prod.snd).getD ∅

/-- Lets a pointer point to some objects besides its own. -/
def absorb (t : PointerTable) (id : PointerId) (objs : ObjSet) : PointerTable :=
  ⟨t.entries.modify id.index (fun (p, own) => (p, own ∪ objs)) fun _ => rfl⟩

/-- Changes what a pointer points to. The pointer must exist. -/
def update (t : PointerTable) (id : PointerId) (f : ObjSet → ObjSet) :
    Except Dangling PointerTable := do
  let _ ← t.get id
  return ⟨t.entries.modify id.index (fun e => (e.1, f e.2)) fun _ => rfl⟩

end PointerTable

end PointsTo
