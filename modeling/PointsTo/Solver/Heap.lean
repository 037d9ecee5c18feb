import PointsTo.Catalog
import PointsTo.Program.Basic

/-!
# Abstract objects

A heap model gives each allocation a key; allocations with the same key are one abstract object, and
an allocation without a key creates none. The first allocation of a key is the one that its object
remembers.
-/

namespace PointsTo

/-- The type of an object: an instance of a class, or an array with elements of a class. -/
inductive ObjType where
  | plain (cls : ClassId)
  | array (cls : ClassId)
deriving DecidableEq

namespace ObjType

def of (cls : ClassId) (isArray : Bool) : ObjType := if isArray then array cls else plain cls

/-- The class that is named at the allocation. -/
def cls : ObjType → ClassId
  | plain c => c
  | array c => c

def isArray : ObjType → Bool
  | plain _ => false
  | array _ => true

/-- The class on which methods are dispatched; an array has none. -/
def dispatchClass? : ObjType → Option ClassId
  | plain c => some c
  | array _ => none

theorem eq_of_cls_eq_of_isArray_eq {s t : ObjType} (hcls : s.cls = t.cls)
    (harray : s.isArray = t.isArray) : s = t := by
  cases s <;> cases t <;> simp_all [cls, isArray]

instance : Ord ObjType := ⟨compareLex (compareOn cls) (compareOn isArray)⟩

instance : Std.TransOrd ObjType :=
  inferInstanceAs (Std.TransCmp (compareLex (compareOn cls) (compareOn isArray)))

instance : Std.LawfulEqOrd ObjType where
  eq_of_compare h := by
    obtain ⟨hcls, harray⟩ := compareLex_eq_eq.1 h
    exact eq_of_cls_eq_of_isArray_eq (Std.LawfulEqOrd.eq_of_compare hcls)
      (Std.LawfulEqOrd.eq_of_compare harray)

end ObjType

structure Obj where
  site : StmtId
  type : ObjType
deriving DecidableEq

/-- Which allocations share an object. -/
structure HeapModel (κ : Type) where
  key? : StmtId → ObjType → Option κ

namespace HeapModel

/-- One object for each allocation statement. -/
def bySite : HeapModel StmtId := ⟨fun s _ => some s⟩

/-- One object for each type. -/
def byType : HeapModel ObjType := ⟨fun _ t => some t⟩

/-- One object for each allocation statement, and none for arrays. -/
def withoutArrays : HeapModel StmtId := ⟨fun s t => if t.isArray then none else some s⟩

end HeapModel

/-- The objects so far, each with its key. -/
structure Heap (κ : Type) [Ord κ] [Std.TransOrd κ] where
  objs : Catalog (Prod.fst : κ × Obj → κ) := ∅

namespace Heap

variable {κ : Type} [Ord κ] [Std.TransOrd κ]

def size (h : Heap κ) : Nat := h.objs.size

def get (h : Heap κ) (o : ObjId) : Except Dangling Obj := return (← fetch h.objs.items o).2

def find? (h : Heap κ) (key : κ) : Option ObjId := (h.objs.find? key).map Id.mk

variable [Std.LawfulEqOrd κ]

instance [DecidableEq κ] : DecidableEq (Heap κ) := fun a b =>
  decidable_of_iff (a.objs = b.objs) ⟨fun h => congrArg mk h, fun h => congrArg objs h⟩

/-- The object of a key, created now if there is none. -/
def intern (h : Heap κ) (key : κ) (obj : Obj) : ObjId × Heap κ :=
  match h.find? key with
  | some o => (o, h)
  | none => (⟨h.size⟩, ⟨h.objs.add (key, obj)⟩)

/-- The object of an allocation, if the model has one for it. -/
def alloc (h : Heap κ) (model : HeapModel κ) (obj : Obj) : Option (ObjId × Heap κ) :=
  (model.key? obj.site obj.type).map fun key => h.intern key obj

/-- The object of a statement, if the statement allocates one. -/
def objectOf (h : Heap κ) (model : HeapModel κ) (d : Draft) (s : StmtId) :
    Except Dangling (Option ObjId × Heap κ) := do
  match (← d.placed s).stmt with
  | .new _ c isArray =>
    match h.alloc model ⟨s, .of c isArray⟩ with
    | some (o, h) => return (some o, h)
    | none => return (none, h)
  | _ => return (none, h)

end Heap

end PointsTo
