import Mathlib.Algebra.BigOperators.Fin
import Mathlib.Algebra.Order.BigOperators.Group.Finset
import PointsTo.Proofs.HierarchyCalls

/-!
# What stands below a class

The search below a class visits something for each link that it follows, so the number of links
bounds its visits (`linksLeft`, `searches_explore`). It finds all from which links lead to the
class: `subtypes_exact`. A link to what is listed as an interface counts only if that is one
(`StandsBelow`), so nothing stands below an undeclared interface but itself
(`Draft.undeclared_interface_skipped`).
-/

namespace PointsTo

/-! ## The search without a bound -/

/-- The search from a stack of starting points with no bound on its visits. -/
inductive Searches {k : Kind} (next : Id k → List (Id k)) :
    List (Id k) → IdSet k → IdSet k → Prop where
  | done {seen : IdSet k} : Searches next [] seen seen
  | skip {a : Id k} {stack : List (Id k)} {seen seen' : IdSet k} :
      a ∈ seen → Searches next stack seen seen' → Searches next (a :: stack) seen seen'
  | visit {a : Id k} {stack : List (Id k)} {seen seen' : IdSet k} :
      a ∉ seen → Searches next (next a ++ stack) (seen.insert a) seen' →
      Searches next (a :: stack) seen seen'

/-- A search ends with its starting points, with what was seen before, and with all to which the
rest has links. -/
theorem Searches.closed {k : Kind} {next : Id k → List (Id k)} {stack : List (Id k)}
    {seen seen' : IdSet k} (h : Searches next stack seen seen') :
    (∀ a ∈ stack, a ∈ seen') ∧ (∀ a ∈ seen, a ∈ seen') ∧ ∀ a ∈ seen', a ∈ seen ∨
    ∀ b ∈ next a, b ∈ seen' := by
  induction h with
  | done => exact ⟨fun a ha => (List.not_mem_nil ha).elim, fun a ha => ha, fun a ha => .inl ha⟩
  | skip ha _ ih =>
    obtain ⟨hstack, hseen, hnext⟩ := ih
    refine ⟨fun b hb => ?_, hseen, hnext⟩
    rcases List.mem_cons.1 hb with rfl | hb
    · exact hseen _ ha
    · exact hstack b hb
  | @visit a stack seen seen' ha _ ih =>
    obtain ⟨hstack, hseen, hnext⟩ := ih
    have hmem : a ∈ seen' := hseen a Std.ExtTreeSet.mem_insert_self
    refine ⟨fun b hb => ?_, fun b hb => hseen b (Std.ExtTreeSet.mem_insert.2 (.inr hb)),
      fun b hb => ?_⟩
    · rcases List.mem_cons.1 hb with rfl | hb
      · exact hmem
      · exact hstack b (List.mem_append_right _ hb)
    · rcases hnext b hb with hb | hb
      · rcases Std.ExtTreeSet.mem_insert.1 hb with hab | hb
        · rw [← Std.LawfulEqOrd.eq_of_compare hab]
          exact .inr fun b hb => hstack b (List.mem_append_left _ hb)
        · exact .inl hb
      · exact .inr hb

namespace Draft

/-- The links of the classes that are not seen yet. -/
def linksLeft (below : Below) (seen : IdSet .cls) : Nat :=
  ∑ i ∈ (Finset.range below.size).filter fun i => (⟨i⟩ : ClassId) ∉ seen, (below.getD i []).length

theorem linksLeft_le (below : Below) (seen : IdSet .cls) :
    linksLeft below seen ≤ below.toList.flatten.length := by
  calc linksLeft below seen ≤ ∑ i ∈ Finset.range below.size, (below.getD i []).length :=
        Finset.sum_le_sum_of_subset (Finset.filter_subset _ _)
    _ = ∑ i : Fin below.toList.length, (below.toList[i.1]).length := by
        rw [Finset.sum_range]
        exact Finset.sum_congr rfl fun i _ => by simp [Array.getD]
    _ = below.toList.flatten.length := by rw [Fin.sum_univ_fun_getElem, List.length_flatten]

/-- A visit uses up the links of the class that it sees. -/
theorem linksLeft_insert {below : Below} {seen : IdSet .cls} {a : ClassId} (ha : a ∉ seen) :
    (below.getD a.index []).length + linksLeft below (seen.insert a) ≤ linksLeft below seen := by
  have hsubset : (Finset.range below.size).filter (fun i => (⟨i⟩ : ClassId) ∉ seen.insert a) ⊆
      ((Finset.range below.size).filter fun i => (⟨i⟩ : ClassId) ∉ seen).erase a.index := by
    intro i hi
    obtain ⟨hi, hnew⟩ := Finset.mem_filter.1 hi
    have hunseen : (⟨i⟩ : ClassId) ∉ seen :=
      fun hseen => hnew (Std.ExtTreeSet.mem_insert.2 (.inr hseen))
    refine Finset.mem_erase.2 ⟨?_, Finset.mem_filter.2 ⟨hi, hunseen⟩⟩
    rintro rfl
    exact hnew Std.ExtTreeSet.mem_insert_self
  have hle : linksLeft below (seen.insert a) ≤ _ :=
    Finset.sum_le_sum_of_subset (f := fun i => (below.getD i []).length) hsubset
  by_cases hi : a.index < below.size
  · have hmem : a.index ∈ (Finset.range below.size).filter fun i => (⟨i⟩ : ClassId) ∉ seen :=
      Finset.mem_filter.2 ⟨Finset.mem_range.2 hi, ha⟩
    calc (below.getD a.index []).length + linksLeft below (seen.insert a) ≤ _ :=
      Nat.add_le_add_left hle _
      _ = linksLeft below seen := Finset.add_sum_erase _ (fun i => (below.getD i []).length) hmem
  · have hnone : below.getD a.index [] = [] := by simp [Array.getD, hi]
    rw [hnone, List.length_nil, Nat.zero_add]
    exact hle.trans (Finset.sum_le_sum_of_subset (Finset.erase_subset _ _))

/-- A search with a visit for each link that is left does not notice its bound. -/
theorem searches_explore (below : Below) (n : Nat) {stack : List ClassId} {seen : IdSet .cls}
    (hn : stack.length + linksLeft below seen ≤ n) :
    Searches (fun c => below.getD c.index []) stack seen
      (explore (fun c => below.getD c.index []) n stack seen) := by
  fun_induction explore (fun c : ClassId => below.getD c.index []) n stack seen with
  | case1 => exact .done
  | case2 => simp at hn
  | case3 n a stack seen ha ih =>
    rw [List.length_cons] at hn
    exact .skip ha (ih (by omega))
  | case4 n a stack seen ha ih =>
    have hpaid : (below.getD a.index []).length + _ ≤ _ := linksLeft_insert ha
    rw [List.length_cons] at hn
    exact .visit ha (ih (by rw [List.length_append]; omega))

/-! ## The subtypes of a class -/

/-- A class names another one as its superclass or lists it as an interface. -/
def NamesSupertype (d : Draft) (b c : ClassId) : Prop :=
  ∃ cls, d.cls b = .ok cls ∧ (cls.superclass = some c ∨ c ∈ cls.interfaces)

/-- A class stands directly below its superclass and below what it lists as an interface and is
one. -/
def StandsBelow (d : Draft) (b c : ClassId) : Prop :=
  ∃ cls, d.cls b = .ok cls ∧ (cls.superclass = some c ∨ c ∈ cls.interfaces ∧ d.isInterface c = true)

variable {d : Draft} {b c : ClassId}

theorem StandsBelow.namesSupertype (h : d.StandsBelow b c) : d.NamesSupertype b c := by
  obtain ⟨cls, hcls, hlink⟩ := h
  exact ⟨cls, hcls, hlink.imp_right And.left⟩

theorem mem_below_iff_standsBelow (hc : d.Has c) :
    b ∈ d.below.getD c.index [] ↔ d.StandsBelow b c := by
  rw [mem_below, StandsBelow]
  simp only [hc, true_and, supertypes, List.mem_append, Option.mem_toList, List.mem_filter]

/-- The search below a class ends on its own, with all from which links lead to the class. -/
theorem exists_subtypes_iff (hc : d.Has c) :
    ∃ seen, d.subtypes c = .ok seen.toList ∧
      Searches (fun c => d.below.getD c.index []) [c] ∅ seen ∧
      ∀ b, b ∈ seen.toList ↔ Relation.ReflTransGen d.StandsBelow b c := by
  obtain ⟨cls, hcls⟩ := exists_cls_iff.2 hc
  have hbudget : [c].length + linksLeft d.below ∅ ≤ 1 + d.below.toList.flatten.length :=
    Nat.add_le_add_left (linksLeft_le d.below ∅) 1
  have hsearch := searches_explore d.below _ hbudget
  obtain ⟨hstart, -, hclosed⟩ := hsearch.closed
  refine ⟨_, by rw [subtypes, subtypesIn, hcls]; rfl, hsearch, fun b => ?_⟩
  rw [Std.ExtTreeSet.mem_toList]
  constructor
  · -- links that the search follows start at classes of the draft
    have hbelow : ∀ a b, d.Has a ∧ Relation.ReflTransGen d.StandsBelow a c →
        b ∈ d.below.getD a.index [] →
        d.Has b ∧ Relation.ReflTransGen d.StandsBelow b c := by
      rintro a b ⟨ha, hpath⟩ hb
      have hlink := (mem_below_iff_standsBelow ha).1 hb
      exact ⟨exists_cls_iff.1 (hlink.imp fun _ hcls => hcls.1), .head hlink hpath⟩
    exact fun hb => (explore_induction hbelow _ (fun a ha => by
      rw [List.mem_singleton.1 ha]; exact ⟨hc, .refl⟩)
      (fun a ha => (Std.ExtTreeSet.not_mem_empty ha).elim) b hb).2
  · intro hpath
    have hfound : ∀ {a}, Relation.ReflTransGen d.StandsBelow a c → d.Has a := by
      intro a ha
      rcases Relation.ReflTransGen.cases_head ha with rfl | ⟨a', hlink, -⟩
      · exact hc
      · exact exists_cls_iff.1 (hlink.imp fun _ hcls => hcls.1)
    induction hpath using Relation.ReflTransGen.head_induction_on with
    | refl => exact hstart c (List.mem_singleton_self c)
    | head hlink hpath ih =>
      have hnext := (hclosed _ ih).resolve_left Std.ExtTreeSet.not_mem_empty
      exact hnext _ ((mem_below_iff_standsBelow (hfound hpath)).2 hlink)

/-- The subtypes of a class are, in ascending order, all from which links lead to it, where a link
to what a class lists as an interface counts only if that is one. So all links count exactly if a
class stands in some other way below each of the others that it lists, most of all if it lists
interfaces alone. -/
theorem subtypes_exact (hd : d.InRange) :
    (∀ c, d.Has c → ∃ seen, d.subtypes c = .ok seen.toList ∧
      Searches (fun c => d.below.getD c.index []) [c] ∅ seen ∧ seen.toList.Pairwise (· < ·) ∧
      ∀ b, b ∈ seen.toList ↔ Relation.ReflTransGen d.StandsBelow b c) ∧
    ((∀ c cs, d.subtypes c = .ok cs → ∀ b, b ∈ cs ↔ Relation.ReflTransGen d.NamesSupertype b c) ↔
      ∀ b cls i, d.cls b = .ok cls → i ∈ cls.interfaces → d.isInterface i = false →
        Relation.ReflTransGen d.StandsBelow b i) := by
  refine ⟨fun c hc => ?_, fun hall b cls i hcls hi _ => ?_, fun hother c cs hcs b => ?_⟩
  · obtain ⟨seen, hseen, hsearch, hmem⟩ := exists_subtypes_iff hc
    exact ⟨seen, hseen, hsearch, IdSet.toList_ascending seen, hmem⟩
  · obtain ⟨seen, hseen, -, hmem⟩ := exists_subtypes_iff ((hd.within_of_cls hcls).interfaces i hi)
    exact (hmem b).1 ((hall i _ hseen b).2 (.single ⟨cls, hcls, .inr hi⟩))
  · have hc : d.Has c := by
      obtain ⟨cls, hcls, -⟩ := bind_eq_ok.1 hcs
      exact exists_cls_iff.1 ⟨cls, hcls⟩
    obtain ⟨seen, hseen, -, hmem⟩ := exists_subtypes_iff hc
    cases hcs.symm.trans hseen
    rw [hmem]
    have hbelow : Relation.ReflTransGen d.NamesSupertype ≤ Relation.ReflTransGen d.StandsBelow := by
      refine Relation.reflTransGen_le_of_le fun a a' hlink => ?_
      obtain ⟨cls, hcls, hsuper | hi⟩ := hlink
      · exact .single ⟨cls, hcls, .inl hsuper⟩
      · cases hface : d.isInterface a' with
        | true => exact .single ⟨cls, hcls, .inr ⟨hi, hface⟩⟩
        | false => exact hother a cls a' hcls hi hface
    exact ⟨Relation.ReflTransGen.mono (fun _ _ => StandsBelow.namesSupertype) b c, hbelow b c⟩

end Draft

/-- An interface below which stand another one and, twice, a class. -/
def sampleDiamond : String :=
  "interface I { } interface J extends I { } class A implements I, J { }"

theorem Draft.sample_subtypes_exact :
    ∃ p, Program.ofText sampleDiamond = .ok p ∧ p.subtypes ⟨0⟩ = .ok [⟨0⟩, ⟨1⟩, ⟨2⟩] ∧
      ∀ b, b ∈ [⟨0⟩, ⟨1⟩, ⟨2⟩] ↔ Relation.ReflTransGen p.NamesSupertype b ⟨0⟩ := by
  obtain ⟨p, htext, hsubtypes, hfaces⟩ : ∃ p, Program.ofText sampleDiamond = .ok p ∧
      (p.subtypes ⟨0⟩).toOption = some [⟨0⟩, ⟨1⟩, ⟨2⟩] ∧
      ∀ cls ∈ p.classes.toList, ∀ i ∈ cls.interfaces, p.isInterface i = true :=
    Program.exists_ofText (by decide +kernel)
  rw [toOption_eq_some_iff] at hsubtypes
  refine ⟨p, htext, hsubtypes,
    (subtypes_exact (Program.Proper.of_ofText htext).inRange).2.2 ?_ _ _ hsubtypes⟩
  intro b cls i hcls hi hface
  have htrue := hfaces cls (mem_toList_of_fetch hcls) i hi
  rw [hface] at htrue
  cases htrue

/-- A class that implements an interface without a declaration. -/
def sampleUndeclared : String := "class A implements I { }"

theorem Draft.undeclared_interface_skipped :
    ∃ p, Program.ofText sampleUndeclared = .ok p ∧ p.implementors ⟨0⟩ = [⟨1⟩] ∧
      p.subtypes ⟨0⟩ = .ok [⟨0⟩] ∧
      Relation.ReflTransGen p.NamesSupertype ⟨1⟩ ⟨0⟩ := by
  obtain ⟨p, htext, himplementors, hsubtypes, cls, hcls, hlisted⟩ : ∃ p,
      Program.ofText sampleUndeclared = .ok p ∧
      p.implementors ⟨0⟩ = [⟨1⟩] ∧ (p.subtypes ⟨0⟩).toOption = some [⟨0⟩] ∧
      ∃ cls ∈ (p.cls ⟨1⟩).toOption, ⟨0⟩ ∈ cls.interfaces :=
    Program.exists_ofText (by decide +kernel)
  rw [toOption_eq_some_iff] at hsubtypes
  exact ⟨p, htext, himplementors, hsubtypes,
    .single ⟨cls, toOption_eq_some_iff.1 hcls, .inr hlisted⟩⟩

end PointsTo
