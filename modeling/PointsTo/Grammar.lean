/-!
# Grammars with furthest failures

A grammar describes how values are read off a list of symbols. Choice is ordered, repetition and
options are greedy, and none of them is undone later. A run that fails tells how far any attempt got
and what was expected there, given-up attempts included; a named part that fails at its first symbol
is expected by its name.
-/

namespace PointsTo

/-- A place that could not be passed, as the number of symbols before it, and what was expected
there. -/
structure Failure (ε : Type) where
  index : Nat
  expected : List ε
deriving DecidableEq

namespace Failure

variable {ε : Type}

/-- The further one of two failures; at the same place, both. -/
def join (f g : Failure ε) : Failure ε :=
  if f.index < g.index then g
  else if g.index < f.index then f
  else ⟨f.index, f.expected ++ g.expected⟩

/-- The further one of two failures, either of which may be missing. -/
def joinOptional : Option (Failure ε) → Option (Failure ε) → Option (Failure ε)
  | none, g => g
  | f, none => f
  | some f, some g => some (f.join g)

/-- What failed at the first symbol of a named part is expected by the part's name. -/
def named (name : ε) (start : Nat) (f : Failure ε) : Failure ε :=
  if f.index = start then ⟨start, [name]⟩ else f

end Failure

/-- Grammars of values of a type, over symbols `τ`, with expectations `ε`. -/
inductive Grammar (τ ε : Type) : Type → Type 1 where
  /-- one symbol -/
  | symbol {α : Type} (expected : List ε) (accept : τ → Option α) : Grammar τ ε α
  | seq {α β : Type} (first : Grammar τ ε α) (second : Grammar τ ε β) : Grammar τ ε (α × β)
  | choice {α : Type} (first second : Grammar τ ε α) : Grammar τ ε α
  | optional {α : Type} (part : Grammar τ ε α) : Grammar τ ε (Option α)
  | many {α : Type} (part : Grammar τ ε α) : Grammar τ ε (List α)
  | label {α : Type} (name : ε) (part : Grammar τ ε α) : Grammar τ ε α
  | map {α β : Type} (f : α → β) (part : Grammar τ ε α) : Grammar τ ε β

/-- The result of a run: a value with the place and the symbols after it, and the furthest failure
on the way; or the failure alone. -/
inductive Outcome (τ ε α : Type) where
  | ok (value : α) (next : Nat) (rest : List τ) (furthest : Option (Failure ε))
  | fail (furthest : Failure ε)

namespace Outcome

variable {τ ε α β : Type}

def map (f : α → β) : Outcome τ ε α → Outcome τ ε β
  | ok a next rest furthest => ok (f a) next rest furthest
  | fail furthest => fail furthest

/-- Takes account of a failure of an earlier attempt. -/
def after (earlier : Option (Failure ε)) : Outcome τ ε α → Outcome τ ε α
  | ok a next rest furthest => ok a next rest (Failure.joinOptional earlier furthest)
  | fail furthest =>
    match earlier with
    | some f => fail (f.join furthest)
    | none => fail furthest

/-- Names the failures at the first symbol. -/
def named (name : ε) (start : Nat) : Outcome τ ε α → Outcome τ ε α
  | ok a next rest furthest => ok a next rest (furthest.map (Failure.named name start))
  | fail furthest => fail (furthest.named name start)

end Outcome

/-- Repeats a run until it fails, at most once more than there are symbols in `bound`. -/
def repeatRun {τ ε α : Type} (run : Nat → List τ → Outcome τ ε α) (bound : List τ) (i : Nat)
    (ts : List τ) : Outcome τ ε (List α) :=
  match run i ts with
  | .fail f => .ok [] i ts (some f)
  | .ok a next rest f =>
    match bound with
    | [] => .ok [a] next rest f
    | _ :: bound => ((repeatRun run bound next rest).map (a :: ·)).after f

namespace Grammar

variable {τ ε : Type}

/-- Reads a value off the symbols from place `i` on. -/
def run {α : Type} : Grammar τ ε α → Nat → List τ → Outcome τ ε α
  | symbol expected _, i, [] => .fail ⟨i, expected⟩
  | symbol expected accept, i, t :: ts =>
    match accept t with
    | some a => .ok a (i + 1) ts none
    | none => .fail ⟨i, expected⟩
  | seq first second, i, ts =>
    match first.run i ts with
    | .fail f => .fail f
    | .ok a next rest f => ((second.run next rest).map (a, ·)).after f
  | choice first second, i, ts =>
    match first.run i ts with
    | .ok a next rest f => .ok a next rest f
    | .fail f => (second.run i ts).after (some f)
  | optional part, i, ts =>
    match part.run i ts with
    | .ok a next rest f => .ok (some a) next rest f
    | .fail f => .ok none i ts (some f)
  | many part, i, ts => repeatRun part.run ts i ts
  | label name part, i, ts => (part.run i ts).named name i
  | map f part, i, ts => (part.run i ts).map f

/-- Reads a value off all symbols. Symbols that are left over are a failure too: the end was
expected. -/
def parse {α : Type} (g : Grammar τ ε α) (finish : ε) (ts : List τ) : Except (Failure ε) α :=
  match g.run 0 ts with
  | .fail f => .error f
  | .ok a _ [] _ => .ok a
  | .ok _ next (_ :: _) none => .error ⟨next, [finish]⟩
  | .ok _ next (_ :: _) (some f) => .error (f.join ⟨next, [finish]⟩)

/-! ## Derived forms -/

/-- The second of two parts. -/
def skipThen {α β : Type} (first : Grammar τ ε α) (second : Grammar τ ε β) : Grammar τ ε β :=
  (first.seq second).map Prod.snd

/-- The first of two parts. -/
def thenSkip {α β : Type} (first : Grammar τ ε α) (second : Grammar τ ε β) : Grammar τ ε α :=
  (first.seq second).map Prod.fst

/-- A part between two others. -/
def between {α β γ : Type} (opening : Grammar τ ε α) (closing : Grammar τ ε β)
    (part : Grammar τ ε γ) : Grammar τ ε γ :=
  opening.skipThen (part.thenSkip closing)

/-- One part or more with separators between them. -/
def separated1 {α β : Type} (separator : Grammar τ ε β) (part : Grammar τ ε α) :
    Grammar τ ε (List α) :=
  (part.seq (separator.skipThen part).many).map fun (a, as) => a :: as

/-- Any number of parts with separators between them. -/
def separated {α β : Type} (separator : Grammar τ ε β) (part : Grammar τ ε α) :
    Grammar τ ε (List α) :=
  (separated1 separator part).optional.map (·.getD [])

end Grammar

end PointsTo
