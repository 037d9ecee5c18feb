import PointsTo.Program.Basic

/-!
# Syntax trees

What a text says, before names are resolved. Every name keeps its line, for messages.
-/

namespace PointsTo.Text

structure Name where
  text : String
  line : Nat
deriving DecidableEq

/-- A member of a class, written `C::f`. -/
structure Qualified where
  cls : Name
  name : Name
deriving DecidableEq

structure CallTree where
  kind : CallKind
  receiver : Option Name
  target : Qualified
  args : List Name
deriving DecidableEq

/-- A right-hand side. -/
inductive Expr where
  | new (cls : Name) (array : Bool)
  | const
  | copy (value : Name)
  | load (base : Name) (field : Qualified)
  | loadStatic (field : Qualified)
  | loadArray (base : Name)
  | call (call : CallTree)
deriving DecidableEq

inductive Command where
  | assign (lhs : Name) (rhs : Expr)
  | store (base : Name) (field : Qualified) (rhs : Name)
  | storeStatic (field : Qualified) (rhs : Name)
  | storeArray (base rhs : Name)
  | call (call : CallTree)
  | ret (value : Option Name)
deriving DecidableEq

inductive Modifier where
  | static
  | abstract
deriving DecidableEq

/-- A field, or a method with its parameters and, unless a semicolon stands in its place, its
body. -/
inductive MemberKind where
  | field
  | method (params : List Name) (body : Option (List Command))
deriving DecidableEq

structure Member where
  modifiers : List Modifier
  name : Name
  kind : MemberKind
deriving DecidableEq

structure ClassTree where
  name : Name
  isInterface : Bool
  isAbstract : Bool
  superclass : Option Name
  interfaces : List Name
  members : List Member
deriving DecidableEq

/-- A declaration of a class or interface, or an entry with the line it starts on. -/
inductive Item where
  | cls (tree : ClassTree)
  | entry (target : Qualified) (line : Nat)
deriving DecidableEq

end PointsTo.Text
