import PointsTo.Program.Basic

/-!
# Superclasses

A class, its superclass, the superclass of that, and so on: the chain on which fields are resolved
and methods are dispatched. Superclass links may form a cycle, so a walk takes at most as many steps
as there are classes. A class is looked up only when the walk comes to it.
-/

namespace PointsTo

/-- The class at which the search for the callee starts: the named one for static and special calls,
that of the receiver for all others. -/
def Invoke.lookupClass (call : Invoke) (receiver : Option ClassId) : Option ClassId :=
  match call.kind with
  | .static | .special => some call.target.cls
  | .virtual | .interface | .dynamic | .other => receiver

namespace Draft

variable (d : Draft)

/-- The class itself and its superclasses, nearest first, `n` of them at most. -/
def chainFrom : Nat → Option ClassId → Except Dangling (List ClassId)
  | _, none => return []
  | 0, some _ => return []
  | n + 1, some c => do
    let cls ← d.cls c
    return c :: (← chainFrom n cls.superclass)

def chain (c : ClassId) : Except Dangling (List ClassId) := d.chainFrom d.classes.size (some c)

/-- The first answer that the classes of a chain give to a question, among `n` of them at most. -/
def firstFrom {α : Type} (ask : Class → Option α) :
    Nat → Option ClassId → Except Dangling (Option α)
  | _, none => return none
  | 0, some _ => return none
  | n + 1, some c => do
    let cls ← d.cls c
    match ask cls with
    | some a => return some a
    | none => firstFrom ask n cls.superclass

/-- The first answer on the chain of a class. -/
def firstOnChain {α : Type} (ask : Class → Option α) (c : ClassId) : Except Dangling (Option α) :=
  d.firstFrom ask d.classes.size (some c)

/-- The field of one name that a class declares itself. -/
def declaredField? (name : String) (cls : Class) : Option FieldId :=
  cls.fields.find? fun f => d.fields[f.index]?.any fun x => x.name = name

/-- The method that a class declares itself with a body. -/
def concreteMethod? (sig : Subsig) (cls : Class) : Option MethodId :=
  (cls.method? sig).filter fun m => !d.isAbstractMethod m

/-- The field that a reference means: the nearest declaration of the name, static or not. -/
def resolveField (ref : FieldRef) : Except Dangling (Option FieldId) :=
  d.firstOnChain (d.declaredField? ref.name) ref.cls

/-- The method that an object of a class runs: the nearest declaration with a body. -/
def dispatch (c : ClassId) (sig : Subsig) : Except Dangling (Option MethodId) :=
  d.firstOnChain (d.concreteMethod? sig) c

/-- The method that a call enters, given the class of the receiver. A static call enters static
methods only, and every other call methods that are not static. -/
def callee (receiver : Option ClassId) (call : Invoke) : Except Dangling (Option MethodId) := do
  match call.lookupClass receiver with
  | none => return none
  | some c =>
    let found ← d.dispatch c call.target.sig
    return found.filter fun m => d.isStaticMethod m = decide (call.kind = .static)

end Draft

end PointsTo
