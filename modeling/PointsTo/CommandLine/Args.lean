/-!
# Arguments

The arguments of the command line: general options and the input, then a task with options of its
own. An option is written `-xVALUE`, `-x VALUE`, `--name VALUE` or `--name=VALUE`; one-letter flags
can be written together. After `--` nothing is an option or a task.
-/

namespace PointsTo.CommandLine

inductive Opt where
  | log
  | verbose
  | entry
  | dump
deriving DecidableEq

namespace Opt

def short : Opt → Char
  | log => 'l'
  | verbose => 'v'
  | entry => 'e'
  | dump => 'd'

def long : Opt → String
  | log => "log"
  | verbose => "verbose"
  | entry => "entry"
  | dump => "dump"

def takesValue : Opt → Bool
  | verbose => false
  | log | entry | dump => true

end Opt

/-- What is asked of a program. -/
inductive Task where
  | pointsTo (entry dump : Option String)
  | hierarchy (entry : Option String)
deriving DecidableEq

structure Args where
  log : Option String
  verbose : Bool
  input : String
  task : Task
deriving DecidableEq

/-! ## One argument -/

/-- Several one-letter options in one argument: the options with their values, and the option at the
end that still waits for its value. What follows the letter of an option with a value is the value,
after an equals sign or not. -/
def readCluster (opts : List Opt) : List Char → Option (List (Opt × String) × Option Opt)
  | [] => some ([], none)
  | c :: rest => do
    let o ← opts.find? (·.short = c)
    if o.takesValue then
      match rest with
      | [] => some ([], some o)
      | '=' :: value => some ([(o, String.ofList value)], none)
      | value => some ([(o, String.ofList value)], none)
    else
      let (given, waiting) ← readCluster opts rest
      some ((o, "") :: given, waiting)

/-- A long option: with its value, or waiting for it. A flag has no value. -/
def readLong (opts : List Opt) (text : List Char) : Option (List (Opt × String) × Option Opt) := do
  let name := String.ofList (text.takeWhile (· ≠ '='))
  let o ← opts.find? (·.long = name)
  match text.dropWhile (· ≠ '='), o.takesValue with
  | [], true => some ([], some o)
  | [], false => some ([(o, "")], none)
  | _ :: value, true => some ([(o, String.ofList value)], none)
  | _ :: _, false => none

/-- The shape of one argument. -/
inductive Shape where
  | plain
  | separator
  | options (read : Option (List (Opt × String) × Option Opt))

/-- A dash alone is not an option. -/
def shape (opts : List Opt) (arg : String) : Shape :=
  match arg.toList with
  | ['-', '-'] => .separator
  | '-' :: '-' :: text => .options (readLong opts text)
  | ['-'] => .plain
  | '-' :: letters => .options (readCluster opts letters)
  | _ => .plain

/-! ## All arguments -/

/-- The arguments of one group: options with their values, plain arguments, and the name of the task
with the arguments after it. -/
structure Group where
  options : List (Opt × String) := []
  plain : List String := []
  task : Option (String × List String) := none

/-- Adds options, each of which may be given only once. -/
def Group.addOptions (group : Group) : List (Opt × String) → Option Group
  | [] => some group
  | (o, value) :: rest =>
    if group.options.any (·.1 = o) then none
    else Group.addOptions { group with options := group.options ++ [(o, value)] } rest

def Group.addPlain (group : Group) (arg : String) : Group :=
  { group with plain := group.plain ++ [arg] }

/-- Reads the arguments up to the name of a task. -/
def readGroup (opts : List Opt) (tasks : List String) : List String → Group → Option Group
  | [], group => some group
  | arg :: rest, group =>
    if arg ∈ tasks then some { group with task := some (arg, rest) }
    else
      match shape opts arg with
      | .plain => readGroup opts tasks rest (group.addPlain arg)
      | .separator => some (rest.foldl Group.addPlain group)
      | .options none => none
      | .options (some (given, none)) => do
        let group ← group.addOptions given
        readGroup opts tasks rest group
      | .options (some (given, some waiting)) =>
        match rest with
        | [] => none
        | value :: rest =>
          match shape opts value with
          | .plain => do
            let group ← group.addOptions (given ++ [(waiting, value)])
            readGroup opts tasks rest group
          | _ => none

/-- A path has at least one character. -/
def readPath (text : String) : Option String := if text.isEmpty then none else some text

/-- The path given for an option, if any is. -/
def Group.path? (group : Group) (o : Opt) : Option (Option String) :=
  match group.options.lookup o with
  | none => some none
  | some text => (readPath text).map some

def readTask (name : String) (args : List String) : Option Task := do
  match name with
  | "pta" =>
    let group ← readGroup [.entry, .dump] [] args {}
    let dump ← group.path? .dump
    if group.plain.isEmpty then some (.pointsTo (group.options.lookup .entry) dump) else none
  | "cha" =>
    let group ← readGroup [.entry] [] args {}
    if group.plain.isEmpty then some (.hierarchy (group.options.lookup .entry)) else none
  | _ => none

/-- The arguments, unless they are malformed. -/
def Args.read (args : List String) : Option Args := do
  let group ← readGroup [.log, .verbose] ["pta", "cha"] args {}
  let (name, rest) ← group.task
  let task ← readTask name rest
  let log ← group.path? .log
  match group.plain with
  | [input] =>
    let input ← readPath input
    some { log, verbose := (group.options.lookup .verbose).isSome, input, task }
  | _ => none

end PointsTo.CommandLine
