import PointsTo.Program.Basic

/-!
# Building programs

A draft grows by one operation at a time: mention or declare a class, add a field, a method, a
variable or a statement, set the entry. An operation that fails leaves nothing behind, since the
caller still holds the draft it started from. `Draft.seal` turns the finished draft into a program.
-/

namespace PointsTo

/-- Why a draft cannot grow. -/
inductive BuildError where
  | duplicateClass (name : String)
  | duplicateField (cls name : String)
  | duplicateMethod (cls : String) (sig : Subsig)
  | duplicateParam (cls method param : String)
  | dangling (id : Dangling)
deriving DecidableEq

namespace BuildError

instance : Coe Dangling BuildError := ⟨dangling⟩

def message : BuildError → String
  | duplicateClass name => s!"class `{name}` is declared more than once"
  | duplicateField cls name => s!"field `{cls}::{name}` is declared more than once"
  | duplicateMethod cls sig => s!"method `{cls}::{sig.text}` is declared more than once"
  | duplicateParam cls method param =>
    s!"parameter `{param}` of `{cls}::{method}` is declared more than once"
  | dangling id => id.message

end BuildError

/-- What the declaration of a class says about it, its name and members apart. -/
structure Header where
  superclass : Option ClassId := none
  interfaces : List ClassId := []
  isInterface : Bool := false
  isAbstract : Bool := false

/-- The first of some names that stands among those seen before it. -/
def firstRepeated? (seen : List String) : List String → Option String
  | [] => none
  | name :: names => if name ∈ seen then some name else firstRepeated? (name :: seen) names

/-- The variables that a method returns after one more statement, without repetition. -/
def Method.returnsWith (m : Method) : Stmt → List VarId
  | .ret (some v) => if v ∈ m.returns then m.returns else m.returns ++ [v]
  | _ => m.returns

namespace Draft

variable (d : Draft)

/-- The class of a name, mentioned now if it was not before. -/
def internClass (name : String) : ClassId × Draft :=
  match d.findClass? name with
  | some c => (c, d)
  | none => (⟨d.classes.size⟩, { d with classes := d.classes.add { name } })

/-- An interface counts as abstract. -/
def declareClass (name : String) (header : Header) : Except BuildError (ClassId × Draft) := do
  let (c, d) := d.internClass name
  if (← (d.cls c).mapError .dangling).declared then throw (.duplicateClass name)
  let declare (cls : Class) : Class :=
    { cls with
      declared := true
      superclass := header.superclass
      interfaces := header.interfaces
      isInterface := header.isInterface
      isAbstract := header.isAbstract || header.isInterface }
  return (c, { d with classes := d.classes.modify c.index declare fun _ => rfl })

def addField (c : ClassId) (name : String) (isStatic : Bool) :
    Except BuildError (FieldId × Draft) := do
  let cls ← (d.cls c).mapError .dangling
  if cls.fields.any fun f => d.fields[f.index]?.any fun x => x.name = name then
    throw (.duplicateField cls.name name)
  let f : FieldId := ⟨d.fields.size⟩
  let extend (cls : Class) : Class := { cls with fields := cls.fields ++ [f] }
  return (f,
    { d with
      fields := d.fields.push { name, cls := c, isStatic }
      classes := d.classes.modify c.index extend fun _ => rfl })

/-- The variables of a new method are `this`, unless it is static, and its parameters. -/
def addMethod (c : ClassId) (name : String) (params : List String) (isStatic isAbstract : Bool) :
    Except BuildError (MethodId × Draft) := do
  let cls ← (d.cls c).mapError .dangling
  let sig : Subsig := ⟨name, params.length⟩
  if (cls.method? sig).isSome then throw (.duplicateMethod cls.name sig)
  let receiver := if isStatic then [] else ["this"]
  if let some param :=
    firstRepeated? receiver params then throw (.duplicateParam cls.name name param)
  let m : MethodId := ⟨d.methods.size⟩
  let names := receiver ++ params
  let vars : List VarId := (List.range' d.vars.size names.length).map Id.mk
  let method : Method :=
    { name, cls := c, isStatic, isAbstract
      this := if isStatic then none else vars.head?
      params := vars.drop receiver.length
      vars := vars.toArray }
  let extend (cls : Class) : Class := { cls with methods := cls.methods ++ [(sig, m)] }
  return (m,
    { d with
      methods := d.methods.push method
      vars := names.foldl (fun vars name => vars.add { name, method := m }) d.vars
      classes := d.classes.modify c.index extend fun _ => rfl })

/-- The variable of a name in a method, created now if the method has none. -/
def internVar (m : MethodId) (name : String) : Except BuildError (VarId × Draft) := do
  let _ ← (d.method m).mapError .dangling
  match d.vars.find? (m, name) with
  | some i => return (⟨i⟩, d)
  | none =>
    let v : VarId := ⟨d.vars.size⟩
    return (v,
      { d with
        vars := d.vars.add { name, method := m }
        methods :=
          d.methods.modify m.index fun method => { method with vars := method.vars.push v } })

def pushStmt (m : MethodId) (stmt : Stmt) : Except BuildError (StmtId × Draft) := do
  let position := (← (d.method m).mapError .dangling).stmts.size
  let s : StmtId := ⟨d.stmts.size⟩
  let extend (method : Method) : Method :=
    { method with
      returns := method.returnsWith stmt
      stmts := method.stmts.push s }
  return (s,
    { d with
      stmts := d.stmts.push { stmt, method := m, position }
      methods := d.methods.modify m.index extend })

def setEntry (m : MethodId) : Draft := { d with entry := some m }

end Draft

/-! ## Uses of variables -/

/-- Records the use that a statement makes of a variable, before the uses that are recorded
already. -/
def recordUse (s : StmtId) (stmt : Stmt) (uses : Array Uses) : Except Dangling (Array Uses) :=
  match stmt.use? with
  | none => .ok uses
  | some (u, v) =>
    if v.index < uses.size then .ok (uses.modify v.index ((u, s) :: ·))
    else .error ⟨.var, v.index⟩

/-- The finished program. It fails if a base or a receiver names no variable. The statements are
gone through from the last to the first. -/
def Draft.seal (d : Draft) : Except Dangling Program := do
  let unused : Array Uses := Array.replicate d.vars.size []
  let uses ← d.stmts.toList.zipIdx.foldrM
    (fun (placed, i) uses => recordUse ⟨i⟩ placed.stmt uses) unused
  return { d with uses }

end PointsTo
