import PointsTo.Program.Basic

/-!
# The entry method

An analysis starts at the method that the user names, else at the entry that the program declares,
else at the only static method named `main`.
-/

namespace PointsTo

/-- Why no entry method can be chosen. -/
inductive EntryError where
  | missing
  | malformed (text : String)
  | unknown (text : String)
  | ambiguous (text : String)
deriving DecidableEq

def EntryError.message : EntryError → String
  | missing => "no entry method: declare `entry C::m;` or a single static `main`"
  | malformed text => s!"malformed entry `{text}`, expected `Class::method`"
  | unknown text => s!"no method `{text}`"
  | ambiguous text => s!"`{text}` names more than one method"

/-- What stands before and after the first `::`. -/
def splitQualified : List Char → Option (List Char × List Char)
  | ':' :: ':' :: rest => some ([], rest)
  | c :: rest => (splitQualified rest).map fun (before, after) => (c :: before, after)
  | [] => none

namespace Draft

variable (d : Draft)

/-- The method that a text of the form `Class::method` names. -/
def entryNamed (text : String) : Except EntryError MethodId :=
  match splitQualified text.toList with
  | none => .error (.malformed text)
  | some (cls, method) =>
    match d.findMethods (String.ofList cls) (String.ofList method) with
    | [m] => .ok m
    | [] => .error (.unknown text)
    | _ => .error (.ambiguous text)

def staticMains : List MethodId :=
  d.methodIds.filter fun m => d.methods[m.index]?.any fun x => x.isStatic && x.name = "main"

def chooseEntry (requested : Option String) : Except EntryError MethodId :=
  match requested, d.entry with
  | some text, _ => d.entryNamed text
  | none, some m => .ok m
  | none, none =>
    match d.staticMains with
    | [m] => .ok m
    | [] => .error .missing
    | _ => .error (.ambiguous "main")

end Draft

end PointsTo
