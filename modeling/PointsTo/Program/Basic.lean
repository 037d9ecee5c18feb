import PointsTo.Catalog
import PointsTo.Id

/-!
# Programs

A program is a set of tables: classes, fields, methods, variables and statements, each entry
referred to by its id. `Draft` holds the tables, `Program` adds for every variable the statements in
which it is the base of an access or the receiver of a call. Nothing here is checked: an id in a
statement may name nothing.
-/

namespace PointsTo

/-- What distinguishes the methods of one class: the name and the number of parameters. -/
structure Subsig where
  name : String
  arity : Nat
deriving DecidableEq

def Subsig.text (s : Subsig) : String := s!"{s.name}/{s.arity}"

inductive CallKind where
  | static
  | special
  | virtual
  | interface
  | dynamic
  | other
deriving DecidableEq

def CallKind.text : CallKind → String
  | .static => "static"
  | .special => "special"
  | .virtual => "virtual"
  | .interface => "interface"
  | .dynamic => "dynamic"
  | .other => "other"

/-- A field as a statement names it; the class may only inherit it. -/
structure FieldRef where
  cls : ClassId
  name : String
deriving DecidableEq

/-- A method as a call names it. -/
structure MethodRef where
  cls : ClassId
  sig : Subsig
deriving DecidableEq

structure Invoke where
  lhs : Option VarId
  kind : CallKind
  target : MethodRef
  receiver : Option VarId
  args : List VarId
deriving DecidableEq

/-- A field access without a base is an access to a static field. -/
inductive Stmt where
  | new (lhs : VarId) (cls : ClassId) (array : Bool)
  | copy (lhs rhs : VarId)
  | load (lhs : VarId) (base : Option VarId) (field : FieldRef)
  | store (base : Option VarId) (field : FieldRef) (rhs : VarId)
  | loadArray (lhs base : VarId)
  | storeArray (base rhs : VarId)
  | invoke (call : Invoke)
  | ret (value : Option VarId)
  | const (lhs : VarId)
deriving DecidableEq

/-- A class or an interface. It is declared, or only mentioned. -/
structure Class where
  name : String
  superclass : Option ClassId := none
  interfaces : List ClassId := []
  isInterface : Bool := false
  isAbstract : Bool := false
  declared : Bool := false
  fields : List FieldId := []
  methods : List (Subsig × MethodId) := []
deriving DecidableEq

/-- The method that the class itself declares with a subsignature. -/
def Class.method? (c : Class) (sig : Subsig) : Option MethodId := c.methods.lookup sig

/-- The methods that the class itself declares under a name. -/
def Class.methodsNamed (c : Class) (name : String) : List MethodId :=
  (c.methods.filter fun m => m.1.name = name).map Prod.snd

structure Field where
  name : String
  cls : ClassId
  isStatic : Bool
deriving DecidableEq

structure Method where
  name : String
  cls : ClassId
  isStatic : Bool
  isAbstract : Bool
  params : List VarId
  this : Option VarId
  returns : List VarId := []
  stmts : Array StmtId := #[]
  vars : Array VarId
deriving DecidableEq

def Method.sig (m : Method) : Subsig := ⟨m.name, m.params.length⟩

structure Var where
  name : String
  method : MethodId
deriving DecidableEq

/-- What tells variables apart. -/
def Var.key (v : Var) : MethodId × String := (v.method, v.name)

instance : Std.TransOrd (MethodId × String) := inferInstance

instance : Std.LawfulEqOrd (MethodId × String) := inferInstance

/-- A statement with the method that holds it and its position there. -/
structure Placed where
  stmt : Stmt
  method : MethodId
  position : Nat
deriving DecidableEq

/-- The tables of a program. -/
structure Draft where
  classes : Catalog Class.name := ∅
  fields : Array Field := #[]
  methods : Array Method := #[]
  vars : Catalog Var.key := ∅
  stmts : Array Placed := #[]
  entry : Option MethodId := none
deriving DecidableEq

/-- The ways in which a statement depends on the objects of a variable. -/
inductive Use where
  | storeField
  | loadField
  | storeArray
  | loadArray
  | invoke
deriving DecidableEq

/-- The statements that use a variable, in the order of their ids. -/
abbrev Uses := List (Use × StmtId)

def Uses.select (uses : Uses) (u : Use) : List StmtId := (uses.filter fun e => e.1 = u).map Prod.snd

/-- A draft with the uses of each variable. -/
structure Program extends Draft where
  uses : Array Uses := #[]
deriving DecidableEq

/-- The variable on whose objects a statement depends. -/
def Stmt.use? : Stmt → Option (Use × VarId)
  | .store (some base) _ _ => some (.storeField, base)
  | .load _ (some base) _ => some (.loadField, base)
  | .storeArray base _ => some (.storeArray, base)
  | .loadArray _ base => some (.loadArray, base)
  | .invoke call => call.receiver.map (Use.invoke, ·)
  | _ => none

/-- The variables that a call mentions. -/
def Invoke.vars (c : Invoke) : List VarId := c.lhs.toList ++ c.receiver.toList ++ c.args

/-- The variables that a statement mentions. -/
def Stmt.vars : Stmt → List VarId
  | .new lhs _ _ => [lhs]
  | .copy lhs rhs => [lhs, rhs]
  | .load lhs base _ => lhs :: base.toList
  | .store base _ rhs => base.toList ++ [rhs]
  | .loadArray lhs base => [lhs, base]
  | .storeArray base rhs => [base, rhs]
  | .invoke call => call.vars
  | .ret value => value.toList
  | .const lhs => [lhs]

namespace Draft

variable (d : Draft)

/-! ## Looking things up -/

def cls (c : ClassId) : Except Dangling Class := fetch d.classes.items c

def field (f : FieldId) : Except Dangling Field := fetch d.fields f

def method (m : MethodId) : Except Dangling Method := fetch d.methods m

def var (v : VarId) : Except Dangling Var := fetch d.vars.items v

def placed (s : StmtId) : Except Dangling Placed := fetch d.stmts s

def classIds : List ClassId := Id.upTo .cls d.classes.size

def methodIds : List MethodId := Id.upTo .method d.methods.size

def findClass? (name : String) : Option ClassId := (d.classes.find? name).map Id.mk

/-- The methods of one name that a class declares, of any number of parameters; none if there is no
such class. -/
def findMethods (className name : String) : List MethodId :=
  match (d.findClass? className).bind fun c => d.classes.items[c.index]? with
  | some c => c.methodsNamed name
  | none => []

/-- The variable of one name among those of a method. -/
def findVar (m : MethodId) (name : String) : Except Dangling (Option VarId) := do
  return (← d.method m).vars.find? fun v => d.vars.items[v.index]?.any fun x => x.name = name

/-- The call that a statement makes, if it is a call. -/
def invoke? (s : StmtId) : Except Dangling (Option Invoke) := do
  match (← d.placed s).stmt with
  | .invoke call => return some call
  | _ => return none

/-- The calls of a method with their statements, in order. -/
def callsIn (m : MethodId) : Except Dangling (List (StmtId × Invoke)) := do
  let calls ← (← d.method m).stmts.toList.mapM fun s => return (← d.invoke? s).map (s, ·)
  return calls.filterMap id

def isStaticField (f : FieldId) : Bool := d.fields[f.index]?.any (·.isStatic)

def isStaticMethod (m : MethodId) : Bool := d.methods[m.index]?.any (·.isStatic)

def isAbstractMethod (m : MethodId) : Bool := d.methods[m.index]?.any (·.isAbstract)

/-! ## Names -/

def methodName (m : MethodId) : Except Dangling String := do
  let m ← d.method m
  let c ← d.cls m.cls
  return s!"{c.name}::{m.name}"

def fieldName (f : FieldId) : Except Dangling String := do
  let f ← d.field f
  let c ← d.cls f.cls
  return s!"{c.name}::{f.name}"

def varName (v : VarId) : Except Dangling String := do
  let v ← d.var v
  let m ← d.methodName v.method
  return s!"{m}/{v.name}"

def stmtLabel (s : StmtId) : Except Dangling String := do
  let s ← d.placed s
  let m ← d.methodName s.method
  return s!"{m}#{s.position}"

end Draft

end PointsTo
