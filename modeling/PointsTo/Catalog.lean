import Std.Data.ExtTreeMap

/-!
# Catalogs

A catalog numbers things in the order in which they are added. Each thing has a key, no two things
of a catalog have the same one, and the number of a thing is found by its key.
-/

namespace PointsTo

/-- The things of a catalog in order, with an index of their keys. -/
structure Catalog {α κ : Type} [Ord κ] [Std.TransOrd κ] (key : α → κ) where
  items : Array α
  index : Std.ExtTreeMap κ Nat
  index_eq_some_iff : ∀ k i, index[k]? = some i ↔ ∃ a, items[i]? = some a ∧ key a = k

/-- A catalog of things that are their own keys: a list that holds nothing twice. -/
abbrev DistinctList (α : Type) [Ord α] [Std.TransOrd α] := Catalog (id : α → α)

namespace Catalog

variable {α κ : Type} [Ord κ] [Std.TransOrd κ] {key : α → κ}

def empty : Catalog key := ⟨#[], ∅, by simp⟩

instance : EmptyCollection (Catalog key) := ⟨empty⟩

def size (c : Catalog key) : Nat := c.items.size

def toList (c : Catalog key) : List α := c.items.toList

/-- The number of the thing with a key. -/
def find? (c : Catalog key) (k : κ) : Option Nat := c.index[k]?

def contains (c : Catalog key) (k : κ) : Bool := (c.find? k).isSome

theorem find?_eq_some_iff {c : Catalog key} {k : κ} {i : Nat} :
    c.find? k = some i ↔ ∃ a, c.items[i]? = some a ∧ key a = k :=
  c.index_eq_some_iff k i

theorem find?_eq_none_iff {c : Catalog key} {k : κ} :
    c.find? k = none ↔ ∀ a ∈ c.toList, key a ≠ k := by
  rw [Option.eq_none_iff_forall_ne_some]
  constructor
  · intro h a ha hk
    obtain ⟨i, hi, rfl⟩ := Array.mem_iff_getElem.1 (Array.mem_def.2 ha)
    exact h i (find?_eq_some_iff.2 ⟨_, Array.getElem?_eq_getElem hi, hk⟩)
  · intro h i hi
    obtain ⟨a, ha, hk⟩ := find?_eq_some_iff.1 hi
    exact h a (Array.mem_def.1 (Array.mem_of_getElem? ha)) hk

theorem contains_iff {c : Catalog key} {k : κ} :
    c.contains k = true ↔ ∃ a ∈ c.toList, key a = k := by
  rw [contains, Option.isSome_iff_ne_none, ne_eq, find?_eq_none_iff]
  simp

/-- No two things have the same key. -/
theorem eq_of_key_eq {c : Catalog key} {i j : Nat} {a b : α} (hi : c.items[i]? = some a)
    (hj : c.items[j]? = some b) (h : key a = key b) : i = j := by
  have hfound := find?_eq_some_iff.2 ⟨a, hi, h⟩
  rw [find?_eq_some_iff.2 ⟨b, hj, rfl⟩] at hfound
  exact (Option.some.inj hfound).symm

theorem index_modify {c : Catalog key} {f : α → α} (hf : ∀ a, key (f a) = key a) (n : Nat) (k : κ)
    (i : Nat) : c.index[k]? = some i ↔ ∃ a, (c.items.modify n f)[i]? = some a ∧ key a = k := by
  rw [c.index_eq_some_iff, Array.getElem?_modify]
  by_cases h : n = i
  · rw [if_pos h]
    constructor
    · rintro ⟨a, ha, hk⟩
      exact ⟨f a, by rw [ha]; rfl, (hf a).trans hk⟩
    · rintro ⟨b, hb, hk⟩
      obtain ⟨a, ha, rfl⟩ := Option.map_eq_some_iff.1 hb
      exact ⟨a, ha, (hf a).symm.trans hk⟩
  · rw [if_neg h]

/-- Changes the thing of a number in a way that keeps its key. -/
def modify (c : Catalog key) (n : Nat) (f : α → α) (hf : ∀ a, key (f a) = key a) : Catalog key :=
  ⟨c.items.modify n f, c.index, index_modify hf n⟩

variable [Std.LawfulEqOrd κ]

/-- The index says nothing that the things do not say. -/
theorem ext_items {c d : Catalog key} (h : c.items = d.items) : c = d := by
  cases c with
  | mk items index hindex =>
    cases d with
    | mk items' index' hindex' =>
      cases h
      have : index = index' := Std.ExtTreeMap.ext_getElem? fun k => by
        apply Option.ext
        intro i
        rw [hindex, hindex']
      cases this
      rfl

instance [DecidableEq α] : DecidableEq (Catalog key) := fun c d =>
  decidable_of_iff (c.items = d.items) ⟨ext_items, fun h => h ▸ rfl⟩

theorem index_push {c : Catalog key} {a : α} (h : c.index[key a]? = none) (k : κ) (i : Nat) :
    (c.index.insert (key a) c.items.size)[k]? = some i ↔
      ∃ b, (c.items.push a)[i]? = some b ∧ key b = k := by
  have hfresh := find?_eq_none_iff.1 h
  rw [Std.ExtTreeMap.getElem?_insert, Array.getElem?_push]
  by_cases hk : key a = k
  · rw [if_pos (Std.LawfulEqOrd.compare_eq_iff_eq.2 hk)]
    constructor
    · intro hi
      refine ⟨a, ?_, hk⟩
      rw [if_pos (Option.some.inj hi).symm]
    · rintro ⟨b, hb, hbk⟩
      by_cases hi : i = c.items.size
      · rw [hi]
      · rw [if_neg hi] at hb
        exact absurd (hbk.trans hk.symm) (hfresh b (Array.mem_def.1 (Array.mem_of_getElem? hb)))
  · rw [if_neg fun h => hk (Std.LawfulEqOrd.compare_eq_iff_eq.1 h), c.index_eq_some_iff]
    by_cases hi : i = c.items.size
    · rw [if_pos hi, hi, Array.getElem?_eq_none (Nat.le_refl _)]
      simp [hk]
    · rw [if_neg hi]

/-- Adds a thing, unless one with its key is there. -/
def add (c : Catalog key) (a : α) : Catalog key :=
  match h : c.index[key a]? with
  | some _ => c
  | none =>
    let index := c.index.insert (key a) c.items.size
    ⟨c.items.push a, index, index_push h⟩

theorem items_add (c : Catalog key) (a : α) :
    (c.add a).items = if c.contains (key a) then c.items else c.items.push a := by
  unfold add
  split <;> rename_i h
  · rw [if_pos (by rw [contains, find?, h]; rfl)]
  · rw [if_neg (by rw [contains, find?, h]; simp)]

theorem toList_add (c : Catalog key) (a : α) :
    (c.add a).toList = if c.contains (key a) then c.toList else c.toList ++ [a] := by
  rw [toList, items_add]
  split
  · rfl
  · rw [Array.toList_push]
    rfl

end Catalog

end PointsTo
