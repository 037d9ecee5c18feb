import PointsTo.Program.Build
import PointsTo.Text.Format
import PointsTo.Text.Lexer

/-!
# Reading programs

A text is cut into lexemes, the lexemes are parsed into items, and the items are entered into a
draft one after the other. A class exists from its first mention on. Names are checked in the order
in which they are used; of several entries only the last counts.
-/

namespace PointsTo.Text

/-- Why a text is not a program. -/
inductive ParseError where
  | lex (error : LexError)
  | unexpected (line : Nat) (expected : List Expectation) (found : Token)
  | endOfInput (expected : List Expectation)
  | reserved (line : Nat) (name : String)
  | abstractBody (line : Nat) (method : String)
  | unknownEntry (line : Nat) (cls method : String)
  | ambiguousEntry (line : Nat) (cls method : String)
  | build (error : BuildError)
deriving DecidableEq

/-- What was expected, each text once, in alphabetical order. -/
def expectedText (expected : List Expectation) : String :=
  let texts := (expected.map Expectation.text).eraseDups.mergeSort fun a b => decide (a ≤ b)
  if texts.isEmpty then "something else" else ", ".intercalate texts

def ParseError.message : ParseError → String
  | lex error => s!"line {error.line}: unrecognized input `{error.text}`"
  | unexpected line expected found =>
    s!"line {line}: expected {expectedText expected}, found `{found.text}`"
  | endOfInput expected => s!"unexpected end of input, expected {expectedText expected}"
  | reserved line name => s!"line {line}: `{name}` is a reserved word"
  | abstractBody line method => s!"line {line}: abstract method `{method}` has a body"
  | unknownEntry line cls method => s!"line {line}: no method `{cls}::{method}`"
  | ambiguousEntry line cls method => s!"line {line}: `{cls}::{method}` is overloaded"
  | build error => error.message

/-- The failure of the grammar on some lexemes, as an error at the lexeme where it stands. -/
def ParseError.ofFailure (ls : List Lexeme) (f : Failure Expectation) : ParseError :=
  match ls[f.index]? with
  | some l => .unexpected l.line f.expected l.token
  | none => .endOfInput f.expected

def keywords : List String :=
  ["abstract", "class", "entry", "extends", "field", "implements", "interface", "invoke",
    "invokedynamic",
    "invokeinterface", "invokespecial", "invokestatic", "invokevirtual", "method", "new", "null",
    "return", "static"]

/-! ## Entering items into a draft -/

/-- A step that enters something into the draft, or refuses it. -/
abbrev Entering := StateT Draft (Except ParseError)

namespace Entering

/-- An operation on the draft that may fail. -/
def build {α : Type} (grow : Draft → Except BuildError (α × Draft)) : Entering α :=
  fun d => (grow d).mapError .build

/-- The text of a name that is no keyword. -/
def name (n : Name) : Entering String :=
  if n.text ∈ keywords then throw (.reserved n.line n.text) else return n.text

def cls (n : Name) : Entering ClassId := do
  let text ← name n
  modifyGet (·.internClass text)

def var (m : MethodId) (n : Name) : Entering VarId := do
  let text ← name n
  build (·.internVar m text)

def fieldRef (q : Qualified) : Entering FieldRef := do
  let cls ← cls q.cls
  let name ← name q.name
  return { cls, name }

def optional {α β : Type} (f : α → Entering β) : Option α → Entering (Option β)
  | none => return none
  | some a => return some (← f a)

def invoke (m : MethodId) (lhs : Option VarId) (call : CallTree) : Entering Invoke := do
  let receiver ← optional (var m) call.receiver
  let cls ← cls call.target.cls
  let name ← name call.target.name
  let args ← call.args.mapM (var m)
  return { lhs, kind := call.kind, target := { cls, sig := ⟨name, args.length⟩ }, receiver, args }

def assign (m : MethodId) (lhs : VarId) : Expr → Entering Stmt
  | .new c array => return .new lhs (← cls c) array
  | .const => return .const lhs
  | .copy value => return .copy lhs (← var m value)
  | .load base field => do
    let base ← var m base
    return .load lhs (some base) (← fieldRef field)
  | .loadStatic field => return .load lhs none (← fieldRef field)
  | .loadArray base => return .loadArray lhs (← var m base)
  | .call call => return .invoke (← invoke m (some lhs) call)

def stmt (m : MethodId) : Command → Entering Stmt
  | .assign lhs rhs => do
    let lhs ← var m lhs
    assign m lhs rhs
  | .store base field rhs => do
    let base ← var m base
    let field ← fieldRef field
    return .store (some base) field (← var m rhs)
  | .storeStatic field rhs => do
    let field ← fieldRef field
    return .store none field (← var m rhs)
  | .storeArray base rhs => do
    let base ← var m base
    return .storeArray base (← var m rhs)
  | .call call => return .invoke (← invoke m none call)
  | .ret value => return .ret (← optional (var m) value)

def command (m : MethodId) (c : Command) : Entering Unit := do
  let stmt ← stmt m c
  let _ ← build (·.pushStmt m stmt)

/-- A method is abstract if it has no body; one that is called abstract must not have any. -/
def member (c : ClassId) (x : Member) : Entering Unit := do
  let name ← name x.name
  let isStatic := decide (.static ∈ x.modifiers)
  match x.kind with
  | .field => do
    let _ ← build (·.addField c name isStatic)
  | .method params body => do
    if .abstract ∈ x.modifiers ∧ body.isSome then throw (.abstractBody x.name.line name)
    let params ← params.mapM Entering.name
    let m ← build (·.addMethod c name params isStatic body.isNone)
    (body.getD []).forM (command m)

def classTree (tree : ClassTree) : Entering Unit := do
  let name ← name tree.name
  let superclass ← optional cls tree.superclass
  let interfaces ← tree.interfaces.mapM cls
  let header : Header :=
    { superclass, interfaces, isInterface := tree.isInterface, isAbstract := tree.isAbstract }
  let c ← build (·.declareClass name header)
  tree.members.forM (member c)

/-- The entry must name exactly one method. -/
def entry (target : Qualified) (line : Nat) : Entering Unit := do
  let cls ← name target.cls
  let method ← name target.name
  let d ← get
  match d.findMethods cls method with
  | [m] => set (d.setEntry m)
  | [] => throw (.unknownEntry line cls method)
  | _ => throw (.ambiguousEntry line cls method)

end Entering

/-- The classes and interfaces among some items. -/
def Item.classes (items : List Item) : List ClassTree :=
  items.filterMap fun
    | .cls tree => some tree
    | .entry _ _ => none

/-- The last entry among some items, with its line. -/
def Item.lastEntry (items : List Item) : Option (Qualified × Nat) :=
  (items.filterMap fun
    | .cls _ => none
    | .entry target line => some (target, line)).getLast?

/-- Enters all items; the entry comes after the classes. -/
def Entering.items (items : List Item) : Entering Unit := do
  (Item.classes items).forM Entering.classTree
  match Item.lastEntry items with
  | some (target, line) => Entering.entry target line
  | none => return ()

/-- The draft that some items describe. -/
def draftOf (items : List Item) : Except ParseError Draft :=
  ((Entering.items items).run {}).map Prod.snd

end PointsTo.Text

namespace PointsTo

open Text

/-- The program that a text describes. -/
def Program.ofText (text : String) : Except ParseError Program := do
  let lexemes ← (lex text).mapError ParseError.lex
  let items ← (parseItems lexemes).mapError (ParseError.ofFailure lexemes)
  let draft ← draftOf items
  draft.seal.mapError fun id => ParseError.build (.dangling id)

end PointsTo
