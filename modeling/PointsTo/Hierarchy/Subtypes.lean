import PointsTo.Hierarchy.Chain

/-!
# Subtypes

The classes and interfaces below a class. A class has its direct subclasses below it; an interface
also has the classes that implement it and the interfaces that extend it.
-/

namespace PointsTo

/-- Everything that is reached from a stack of starting points, besides what was seen before, in `n`
visits at most. -/
def explore {k : Kind} (next : Id k → List (Id k)) : Nat → List (Id k) → IdSet k → IdSet k
  | _, [], seen => seen
  | 0, _ :: _, seen => seen
  | n + 1, a :: stack, seen =>
    if a ∈ seen then explore next n stack seen
    else explore next n (next a ++ stack) (seen.insert a)

/-- What stands directly below each class. -/
abbrev Below := Array (List ClassId)

namespace Draft

variable (d : Draft)

def superclassOf (c : ClassId) : Except Dangling (Option ClassId) := return (← d.cls c).superclass

/-- The ids of the classes, each as often as `count` says. -/
def classesBy (count : Class → Nat) : List ClassId :=
  d.classes.toList.zipIdx.flatMap fun (cls, i) => List.replicate (count cls) ⟨i⟩

/-- The classes that name a class as their superclass. -/
def subclasses (c : ClassId) : List ClassId :=
  d.classesBy fun cls => if cls.superclass = some c then 1 else 0

/-- The classes that list an interface, once for each time they list it. -/
def implementors (c : ClassId) : List ClassId :=
  d.classesBy fun cls => if cls.isInterface then 0 else cls.interfaces.count c

/-- The interfaces that list an interface, once for each time they list it. -/
def subinterfaces (c : ClassId) : List ClassId :=
  d.classesBy fun cls => if cls.isInterface then cls.interfaces.count c else 0

/-- Whether there is such a class and it is an interface. -/
def isInterface (c : ClassId) : Bool := d.classes.items[c.index]?.any (·.isInterface)

/-- What a class stands directly below. What it lists as an interface counts only if it is one. -/
def supertypes (cls : Class) : List ClassId :=
  cls.superclass.toList ++ cls.interfaces.filter d.isInterface

def below : Below :=
  d.classes.toList.zipIdx.foldl
    (fun below (cls, i) => (d.supertypes cls).foldl
      (fun below c => below.modify c.index (⟨i⟩ :: ·)) below)
    (Array.replicate d.classes.size [])

/-- A class and all that is below it, ascending. Each link to something below leads to one visit. -/
def subtypesIn (below : Below) (c : ClassId) : Except Dangling (List ClassId) := do
  let _ ← d.cls c
  let visits := 1 + below.toList.flatten.length
  return (explore (fun c => below.getD c.index []) visits [c] ∅).toList

def subtypes (c : ClassId) : Except Dangling (List ClassId) := d.subtypesIn d.below c

/-- The methods that a call may enter, ascending, when only the class it names is known of the
receiver. -/
def targetsIn (below : Below) (call : Invoke) : Except Dangling (List MethodId) := do
  match call.kind with
  | .static | .special => return (← d.callee none call).toList
  | .virtual | .interface | .dynamic | .other =>
    let receivers ← d.subtypesIn below call.target.cls
    let callees ← receivers.mapM fun c => d.callee (some c) call
    return (Std.ExtTreeSet.ofList (callees.filterMap id) : IdSet .method).toList

def targets (call : Invoke) : Except Dangling (List MethodId) := d.targetsIn d.below call

end Draft

end PointsTo
