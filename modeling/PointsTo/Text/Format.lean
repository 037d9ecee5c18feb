import PointsTo.Grammar
import PointsTo.Text.Token
import PointsTo.Text.Tree

/-!
# The grammar of the text format

Keywords are identifiers here, so a keyword is accepted wherever a name is; names are checked when a
tree is read.
-/

namespace PointsTo.Text

/-- The parts of a text that are expected by their name. -/
inductive Construct where
  | item
  | member
  | statement
  | expression
  | invocation
deriving DecidableEq

def Construct.text : Construct → String
  | .item => "item"
  | .member => "member"
  | .statement => "statement"
  | .expression => "expression"
  | .invocation => "invocation"

/-- What a reader may expect at a place. -/
inductive Expectation where
  | punct (p : Punct)
  | keyword (word : String)
  | name
  | arrayIndex
  | construct (c : Construct)
  | endOfInput
deriving DecidableEq

def Expectation.text : Expectation → String
  | .punct p => s!"''{p.text}''"
  | .keyword word => s!"`{word}`"
  | .name => "name"
  | .arrayIndex => "array index"
  | .construct c => c.text
  | .endOfInput => "end of input"

namespace Format

abbrev Rule (α : Type) := Grammar Lexeme Expectation α

/-! ## Single tokens -/

def punct (p : Punct) : Rule Unit :=
  .symbol [.punct p] fun l => if l.token = .punct p then some () else none

/-- A keyword, with its line. -/
def keyword (word : String) : Rule Nat :=
  .symbol [.keyword word] fun l => if l.token = .ident word then some l.line else none

def name : Rule Name :=
  .symbol [.name] fun l =>
    match l.token with
    | .ident text => some ⟨text, l.line⟩
    | _ => none

/-- An index of an array, which is not kept. -/
def index : Rule Unit :=
  .symbol [.arrayIndex] fun l =>
    match l.token with
    | .ident _ | .int _ => some ()
    | .punct _ => none

/-- The keyword of a call on a receiver. -/
def instanceKind : Rule CallKind :=
  .symbol [] fun l =>
    match l.token with
    | .ident "invokespecial" => some .special
    | .ident "invokevirtual" => some .virtual
    | .ident "invokeinterface" => some .interface
    | .ident "invokedynamic" => some .dynamic
    | .ident "invoke" => some .other
    | _ => none

/-- A value that is no object: an integer or `null`. -/
def constant : Rule Expr :=
  .symbol [] fun l =>
    match l.token with
    | .int _ | .ident "null" => some .const
    | _ => none

/-! ## Names -/

def names1 : Rule (List Name) := .separated1 (punct .comma) name

def parenthesized : Rule (List Name) :=
  .between (punct .lparen) (punct .rparen) (.separated (punct .comma) name)

def qualified : Rule Qualified :=
  (name.seq ((punct .colons).skipThen name)).map fun (cls, name) => ⟨cls, name⟩

def brackets : Rule Unit :=
  (Grammar.between (punct .lbracket) (punct .rbracket) index.optional).map fun _ => ()

/-! ## Statements -/

def callTarget : Rule (Qualified × List Name) := qualified.seq parenthesized

def staticCall : Rule CallTree :=
  ((keyword "invokestatic").skipThen callTarget).map fun (target, args) =>
    { kind := .static, receiver := none, target, args }

def instanceCall : Rule CallTree :=
  (instanceKind.seq ((name.thenSkip (punct .dot)).seq callTarget)).map
      fun (kind, receiver, target, args) =>
    { kind, receiver := some receiver, target, args }

def call : Rule CallTree := .label (.construct .invocation) (staticCall.choice instanceCall)

def allocation : Rule Expr :=
  ((keyword "new").skipThen (name.seq ((punct .lbracket).skipThen (punct .rbracket)).optional)).map
    fun (cls, array) => .new cls array.isSome

/-- What may follow a name on the right-hand side, as a function of the name. -/
def access : Rule (Name → Expr) :=
  (((punct .dot).skipThen qualified).map fun field base => .load base field).choice
    ((((punct .colons).skipThen name).map fun name cls => .loadStatic ⟨cls, name⟩).choice
      (brackets.map fun _ base => .loadArray base))

def place : Rule Expr :=
  (name.seq access.optional).map fun (first, access) =>
    match access with
    | none => .copy first
    | some f => f first

def expression : Rule Expr :=
  .label (.construct .expression)
    ((call.map Expr.call).choice (allocation.choice (constant.choice place)))

def assigned : Rule Name := (punct .equal).skipThen name

/-- What may follow a name at the start of a statement, as a function of the name. -/
def assignment : Rule (Name → Command) :=
  (((punct .equal).skipThen expression).map fun rhs lhs => .assign lhs rhs).choice
    ((((punct .dot).skipThen (qualified.seq assigned)).map
      fun (field, rhs) base => .store base field rhs).choice
      ((((punct .colons).skipThen (name.seq assigned)).map
        fun (name, rhs) cls => .storeStatic ⟨cls, name⟩ rhs).choice
        ((brackets.skipThen assigned).map fun rhs base => .storeArray base rhs)))

def command : Rule Command :=
  .label (.construct .statement)
    ((((keyword "return").skipThen name.optional).map Command.ret).choice
      ((call.map Command.call).choice
        ((name.seq assignment).map fun (first, f) => f first)))

def statement : Rule Command := command.thenSkip (punct .semicolon)

/-! ## Declarations -/

def modifier : Rule Modifier :=
  ((keyword "static").map fun _ => .static).choice ((keyword "abstract").map fun _ => .abstract)

def fieldMember : Rule (Name × MemberKind) :=
  ((keyword "field").skipThen (name.thenSkip (punct .semicolon))).map (·, .field)

def body : Rule (Option (List Command)) :=
  ((Grammar.between (punct .lbrace) (punct .rbrace) statement.many).map some).choice
    ((punct .semicolon).map fun _ => none)

def methodMember : Rule (Name × MemberKind) :=
  ((keyword "method").skipThen (name.seq (parenthesized.seq body))).map
    fun (name, params, body) => (name, .method params body)

def member : Rule Member :=
  .label (.construct .member)
    ((modifier.many.seq (fieldMember.choice methodMember)).map
      fun (modifiers, name, kind) => ⟨modifiers, name, kind⟩)

def members : Rule (List Member) := .between (punct .lbrace) (punct .rbrace) member.many

def classTree : Rule ClassTree :=
  (((keyword "abstract").optional.thenSkip (keyword "class")).seq
    (name.seq
      (((keyword "extends").skipThen name).optional.seq
        (((keyword "implements").skipThen names1).optional.seq members)))).map
    fun (isAbstract, name, superclass, interfaces, members) =>
      { name
        isInterface := false
        isAbstract := isAbstract.isSome
        superclass
        interfaces := interfaces.getD []
        members }

def interfaceTree : Rule ClassTree :=
  ((keyword "interface").skipThen
    (name.seq (((keyword "extends").skipThen names1).optional.seq members))).map
    fun (name, interfaces, members) =>
      { name
        isInterface := true
        isAbstract := false
        superclass := none
        interfaces := interfaces.getD []
        members }

def entry : Rule Item :=
  ((keyword "entry").seq (qualified.thenSkip (punct .semicolon))).map
    fun (line, target) => .entry target line

def item : Rule Item :=
  .label (.construct .item) (entry.choice ((classTree.choice interfaceTree).map Item.cls))

def program : Rule (List Item) := item.many

end Format

/-- The items of a sequence of lexemes. -/
def parseItems (ls : List Lexeme) : Except (Failure Expectation) (List Item) :=
  Format.program.parse .endOfInput ls

end PointsTo.Text
