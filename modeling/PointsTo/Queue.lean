/-!
# Queues

First in, first out. A queue keeps its newer elements in reverse, so that adding and removing take
constant time on average; `toList` is what it holds, oldest first.
-/

namespace PointsTo

structure Queue (α : Type) where
  /-- the older elements, the oldest first -/
  front : List α := []
  /-- the newer elements, the newest first -/
  back : List α := []
deriving DecidableEq

namespace Queue

variable {α : Type}

/-- The elements, oldest first. -/
def toList (q : Queue α) : List α := q.front ++ q.back.reverse

def ofList (as : List α) : Queue α := { front := as }

@[simp] theorem toList_ofList (as : List α) : (ofList as).toList = as := by
  simp [ofList, toList]

def length (q : Queue α) : Nat := q.front.length + q.back.length

@[simp] theorem length_toList (q : Queue α) : q.toList.length = q.length := by
  simp [toList, length]

def isEmpty (q : Queue α) : Bool := q.front.isEmpty && q.back.isEmpty

theorem isEmpty_iff {q : Queue α} : q.isEmpty = true ↔ q.toList = [] := by
  simp [isEmpty, toList]

def push (q : Queue α) (a : α) : Queue α := { q with back := a :: q.back }

@[simp] theorem toList_push (q : Queue α) (a : α) : (q.push a).toList = q.toList ++ [a] := by
  simp [push, toList]

def pushAll (q : Queue α) (as : List α) : Queue α := as.foldl push q

@[simp] theorem toList_pushAll (q : Queue α) (as : List α) :
    (q.pushAll as).toList = q.toList ++ as := by
  induction as generalizing q with
  | nil => simp [pushAll]
  | cons a as ih =>
    have h := ih (q.push a)
    rw [pushAll] at h ⊢
    rw [List.foldl_cons, h, toList_push, List.append_assoc, List.singleton_append]

/-- The oldest element and the queue without it. -/
def pop? (q : Queue α) : Option (α × Queue α) :=
  match q.front with
  | a :: front => some (a, { q with front })
  | [] =>
    match q.back.reverse with
    | a :: front => some (a, { front })
    | [] => none

theorem pop?_eq_none_iff {q : Queue α} : q.pop? = none ↔ q.toList = [] := by
  unfold pop? toList
  split <;> rename_i hfront
  · simp [hfront]
  · split <;> rename_i hback <;> simp [hfront, hback]

theorem toList_eq_cons_of_pop? {q rest : Queue α} {a : α} (h : q.pop? = some (a, rest)) :
    q.toList = a :: rest.toList := by
  unfold pop? at h
  split at h <;> rename_i hfront
  · cases h
    simp [toList, hfront]
  · split at h <;> rename_i hback
    · cases h
      simp [toList, hfront, hback]
    · cases h

end Queue

end PointsTo
