import Mathlib.Combinatorics.Pigeonhole
import Mathlib.Logic.Relation
import PointsTo.Hierarchy.Subtypes
import PointsTo.Proofs.Reading

/-!
# Superclasses

Superclass links lead from a class along a chain that may have no end (`ancestor?`). A walk along it
takes at most as many steps as there are classes. Were the chain any longer, it would have come to
some class twice (`InRange.exists_repeated_ancestor?`), so the walk has seen all classes of the
chain by then, and a search along it finds what it would find without a bound (`SearchesUp`).
`superclass_bound_unnoticed` says this of chains, of dispatch and of fields.
-/

namespace PointsTo

namespace Draft

/-! ## The chain without a bound -/

/-- A class names another one as its superclass. -/
def SuperclassLink (d : Draft) (c c' : ClassId) : Prop := d.superclassOf c = .ok (some c')

/-- The class to which `n` superclass links lead, if there are as many. -/
def ancestor? (d : Draft) : Nat → ClassId → Option ClassId
  | 0, c => some c
  | n + 1, c => (d.superclassOf c).toOption.join.bind (d.ancestor? n)

variable {d : Draft}

theorem superclassLink_iff {c c' : ClassId} :
    d.SuperclassLink c c' ↔ ∃ cls, d.cls c = .ok cls ∧ cls.superclass = some c' := by
  rw [SuperclassLink, superclassOf, bind_eq_ok]
  simp only [pure_eq_ok]

theorem join_superclassOf_eq_some_iff {c c' : ClassId} :
    (d.superclassOf c).toOption.join = some c' ↔ d.SuperclassLink c c' := by
  rw [Option.join_eq_some_iff, toOption_eq_some_iff, SuperclassLink]

theorem ancestor?_succ_eq_some_iff {n : Nat} {c a : ClassId} :
    d.ancestor? (n + 1) c = some a ↔ ∃ c', d.SuperclassLink c c' ∧ d.ancestor? n c' = some a := by
  rw [ancestor?, Option.bind_eq_some_iff]
  simp only [join_superclassOf_eq_some_iff]

theorem ancestor?_add (m n : Nat) (c : ClassId) :
    d.ancestor? (m + n) c = (d.ancestor? m c).bind (d.ancestor? n) := by
  induction m generalizing c with
  | zero => rw [Nat.zero_add, ancestor?, Option.bind_some]
  | succ m ih =>
    rw [Nat.succ_add, ancestor?, ancestor?, Option.bind_assoc]
    exact Option.bind_congr fun c' _ => ih c'

theorem exists_ancestor?_of_le {m n : Nat} {c a : ClassId} (h : d.ancestor? n c = some a)
    (hmn : m ≤ n) : ∃ b, d.ancestor? m c = some b := by
  obtain ⟨k, rfl⟩ := Nat.exists_eq_add_of_le hmn
  rw [ancestor?_add, Option.bind_eq_some_iff] at h
  obtain ⟨b, hb, -⟩ := h
  exact ⟨b, hb⟩

theorem reflTransGen_superclassLink_iff {c a : ClassId} :
    Relation.ReflTransGen d.SuperclassLink c a ↔ ∃ n, d.ancestor? n c = some a := by
  constructor
  · intro h
    induction h using Relation.ReflTransGen.head_induction_on with
    | refl => exact ⟨0, rfl⟩
    | head hlink _ ih =>
      obtain ⟨n, hn⟩ := ih
      exact ⟨n + 1, ancestor?_succ_eq_some_iff.2 ⟨_, hlink, hn⟩⟩
  · rintro ⟨n, h⟩
    induction n generalizing c with
    | zero =>
      cases h
      exact .refl
    | succ n ih =>
      obtain ⟨c', hlink, h⟩ := ancestor?_succ_eq_some_iff.1 h
      exact .head hlink (ih h)

/-- A class that is its own ancestor lies on a cycle. -/
theorem transGen_of_ancestor? {n : Nat} {c a : ClassId} (h : d.ancestor? (n + 1) c = some a) :
    Relation.TransGen d.SuperclassLink c a := by
  obtain ⟨c', hlink, h⟩ := ancestor?_succ_eq_some_iff.1 h
  exact .head' hlink (reflTransGen_superclassLink_iff.2 ⟨n, h⟩)

/-! ## The walk -/

section InRange

variable (hd : d.InRange) {c : ClassId} (hc : d.Has c)

include hd

theorem InRange.has_of_superclassLink {c c' : ClassId} (h : d.SuperclassLink c c') : d.Has c' := by
  obtain ⟨cls, hcls, hsuper⟩ := superclassLink_iff.1 h
  exact (hd.within_of_cls hcls).superclass c' hsuper

include hc

theorem InRange.has_of_ancestor? {n : Nat} {a : ClassId} (h : d.ancestor? n c = some a) :
    d.Has a := by
  induction n generalizing c with
  | zero =>
    cases h
    exact hc
  | succ n ih =>
    obtain ⟨c', hlink, h⟩ := ancestor?_succ_eq_some_iff.1 h
    exact ih (hd.has_of_superclassLink hlink) h

/-- A chain that goes on beyond the number of classes comes to some class twice. -/
theorem InRange.exists_repeated_ancestor? {n : Nat} {a : ClassId} (h : d.ancestor? n c = some a)
    (hn : d.classes.size ≤ n) :
    ∃ i j, i < j ∧ j ≤ d.classes.size ∧ d.ancestor? i c = d.ancestor? j c := by
  have hmaps : ∀ k ∈ Finset.range (d.classes.size + 1),
      d.ancestor? k c ∈ (Finset.range d.classes.size).image
      fun i => (some ⟨i⟩ : Option ClassId) := by
    intro k hk
    have hle : k ≤ n := (Nat.le_of_lt_succ (Finset.mem_range.1 hk)).trans hn
    obtain ⟨b, hb⟩ := exists_ancestor?_of_le h hle
    exact Finset.mem_image.2 ⟨b.index, Finset.mem_range.2 (hd.has_of_ancestor? hc hb), hb.symm⟩
  have hcard : ((Finset.range d.classes.size).image fun i => (some ⟨i⟩ : Option ClassId)).card <
      (Finset.range (d.classes.size + 1)).card := by
    refine Finset.card_image_le.trans_lt ?_
    rw [Finset.card_range, Finset.card_range]
    exact Nat.lt_succ_self _
  obtain ⟨i, hi, j, hj, hne, heq⟩ := Finset.exists_ne_map_eq_of_card_lt_of_maps_to hcard hmaps
  rw [Finset.mem_range, Nat.lt_succ_iff] at hi hj
  rcases Nat.lt_or_gt_of_ne hne with hij | hji
  · exact ⟨i, j, hij, hj, heq⟩
  · exact ⟨j, i, hji, hi, heq.symm⟩

/-- Whatever stands on the chain stands among its first classes, as many as there are. -/
theorem InRange.exists_ancestor?_lt {n : Nat} {a : ClassId} (h : d.ancestor? n c = some a) :
    ∃ k < d.classes.size, d.ancestor? k c = some a := by
  induction n using Nat.strong_induction_on with
  | _ n ih =>
    by_cases hn : n < d.classes.size
    · exact ⟨n, hn, h⟩
    -- between two visits of the same class the chain only goes round, so the round can be left out
    obtain ⟨i, j, hij, hj, heq⟩ := hd.exists_repeated_ancestor? hc h (Nat.le_of_not_lt hn)
    refine ih (i + (n - j)) (by omega) ?_
    calc d.ancestor? (i + (n - j)) c =
      (d.ancestor? j c).bind (d.ancestor? (n - j)) := by rw [ancestor?_add, heq]
      _ = d.ancestor? n c := by rw [← ancestor?_add, Nat.add_sub_cancel' (by omega)]
      _ = some a := h

omit hc in
/-- The walk lists the chain from its beginning. -/
theorem InRange.exists_chainFrom (n : Nat) {start : Option ClassId}
    (hstart : ∀ c ∈ start, d.Has c) :
    ∃ cs, d.chainFrom n start = .ok cs ∧ ∀ i, cs[i]? = if i < n then
      start.bind (d.ancestor? i) else none := by
  induction n generalizing start with
  | zero =>
    refine ⟨[], ?_, fun i => by simp⟩
    cases start <;> rfl
  | succ n ih =>
    cases start with
    | none => exact ⟨[], rfl, fun i => by simp⟩
    | some c =>
      obtain ⟨cls, hcls⟩ := exists_cls_iff.2 (hstart c rfl)
      obtain ⟨cs, hcs, hlist⟩ := ih (hd.within_of_cls hcls).superclass
      have hsuper : (d.superclassOf c).toOption.join = cls.superclass := by
        rw [superclassOf, hcls]; rfl
      refine ⟨c :: cs, by rw [chainFrom, hcls]; simp only [bind, Except.bind, hcs]; rfl,
        fun i => ?_⟩
      cases i with
      | zero => simp [ancestor?]
      | succ i => simp [hlist, ancestor?, hsuper]

theorem InRange.exists_chain :
    ∃ cs, d.chain c = .ok cs ∧ cs.length ≤ d.classes.size ∧
      (∀ i < d.classes.size, cs[i]? = d.ancestor? i c) ∧
      ∀ a, a ∈ cs ↔ Relation.ReflTransGen d.SuperclassLink c a := by
  have hstart : ∀ c' ∈ some c, d.Has c' := fun c' hc' => by
    cases hc'
    exact hc
  obtain ⟨cs, hcs, hlist⟩ := hd.exists_chainFrom d.classes.size hstart
  refine ⟨cs, hcs, ?_, fun i hi => by rw [hlist, if_pos hi, Option.bind_some], fun a => ?_⟩
  · rw [← List.getElem?_eq_none_iff, hlist, if_neg (Nat.lt_irrefl _)]
  · rw [reflTransGen_superclassLink_iff, List.mem_iff_getElem?]
    constructor
    · rintro ⟨i, hi⟩
      rw [hlist] at hi
      split at hi
      · exact ⟨i, hi⟩
      · cases hi
    · rintro ⟨n, hn⟩
      obtain ⟨k, hk, ha⟩ := hd.exists_ancestor?_lt hc hn
      exact ⟨k, by rw [hlist, if_pos hk, Option.bind_some, ha]⟩

omit hd hc in
/-- Without a cycle the chain comes to no class twice. -/
theorem nodup_of_acyclic {n : Nat} {cs : List ClassId} (hlength : cs.length ≤ n)
    (hlist : ∀ i < n, cs[i]? = d.ancestor? i c)
    (hacyclic : ∀ a, Relation.ReflTransGen d.SuperclassLink c a →
      ¬ Relation.TransGen d.SuperclassLink a a) :
    cs.Nodup := by
  rw [List.nodup_iff_getElem?_ne_getElem?]
  intro i j hij hj heq
  obtain ⟨k, rfl⟩ := Nat.exists_eq_add_of_lt hij
  obtain ⟨a, ha⟩ : ∃ a, cs[i + k + 1]? = some a := ⟨_, List.getElem?_eq_getElem hj⟩
  rw [ha, hlist i (by omega)] at heq
  rw [hlist _ (by omega), Nat.add_assoc, ancestor?_add, heq, Option.bind_some] at ha
  exact hacyclic a (reflTransGen_superclassLink_iff.2 ⟨i, heq⟩) (transGen_of_ancestor? ha)

end InRange

/-! ## Searches along the chain -/

/-- An answer is that of the first class, `n` links up the chain, that gives one. -/
def AnswersFirst {α : Type} (d : Draft) (answers : ClassId → α → Prop) (c : ClassId) (n : Nat)
    (a : α) : Prop :=
  ∃ b, d.ancestor? n c = some b ∧ answers b a ∧ ∀ k < n, ∀ b', d.ancestor? k c = some b' →
    ∀ a', ¬ answers b' a'

/-- A search for the first answer works like the recursion without a bound: the answer of a class is
its own one, or else that of its superclass, or else there is none. So the search finds the first
answer on the chain, also on one without an end. -/
structure SearchesUp {α : Type} (d : Draft) (answers : ClassId → α → Prop)
    (search : ClassId → Except Dangling (Option α)) (c : ClassId) : Prop where
  own : ∀ a, answers c a → search c = .ok (some a)
  inherited : (∀ a, ¬ answers c a) → ∀ c', d.SuperclassLink c c' → search c = search c'
  missing : (∀ a, ¬ answers c a) → (∀ c', ¬ d.SuperclassLink c c') → search c = .ok none
  first : ∃ found, search c = .ok found ∧ ∀ a, found = some a ↔ ∃ n, d.AnswersFirst answers c n a

section Search

variable {α : Type} {answers : ClassId → α → Prop} {c : ClassId} {a : α}

theorem answersFirst_zero : d.AnswersFirst answers c 0 a ↔ answers c a := by
  simp [AnswersFirst, ancestor?]

theorem answersFirst_succ {n : Nat} : d.AnswersFirst answers c (n + 1) a ↔
    (∀ a', ¬ answers c a') ∧ ∃ c', d.SuperclassLink c c' ∧ d.AnswersFirst answers c' n a := by
  constructor
  · rintro ⟨b, hb, ha, hnone⟩
    obtain ⟨c', hlink, hb⟩ := ancestor?_succ_eq_some_iff.1 hb
    refine ⟨hnone 0 (Nat.succ_pos n) c rfl, c', hlink, b, hb, ha, fun k hk b' hb' => ?_⟩
    exact hnone (k + 1) (Nat.succ_lt_succ hk) b' (ancestor?_succ_eq_some_iff.2 ⟨c', hlink, hb'⟩)
  · rintro ⟨hown, c', hlink, b, hb, ha, hnone⟩
    refine ⟨b, ancestor?_succ_eq_some_iff.2 ⟨c', hlink, hb⟩, ha, fun k hk b' hb' => ?_⟩
    cases k with
    | zero =>
      cases hb'
      exact hown
    | succ k =>
      obtain ⟨c'', hlink', hb'⟩ := ancestor?_succ_eq_some_iff.1 hb'
      cases hlink.symm.trans hlink'
      exact hnone k (Nat.lt_of_succ_lt_succ hk) b' hb'

/-- What a class says to a question. -/
def Says (d : Draft) (ask : Class → Option α) (c : ClassId) (a : α) : Prop :=
  ∃ cls, d.cls c = .ok cls ∧ ask cls = some a

variable (hd : d.InRange) (hc : d.Has c) (ask : Class → Option α)

include hd hc

/-- The search with a bound finds the first answer within the bound. -/
theorem InRange.exists_firstFrom_iff (n : Nat) :
    ∃ found, d.firstFrom ask n (some c) = .ok found ∧
      ∀ a, found = some a ↔ ∃ k < n, d.AnswersFirst (d.Says ask) c k a := by
  induction n generalizing c with
  | zero => exact ⟨none, rfl, fun a => by simp⟩
  | succ n ih =>
    obtain ⟨cls, hcls⟩ := exists_cls_iff.2 hc
    have hanswers : ∀ a, d.Says ask c a ↔ ask cls = some a := by
      intro a
      constructor
      · rintro ⟨cls', hcls', ha⟩
        cases hcls.symm.trans hcls'
        exact ha
      · intro ha
        exact ⟨cls, hcls, ha⟩
    rw [firstFrom, hcls]
    simp only [bind, Except.bind]
    cases hask : ask cls with
    | some a₀ =>
      refine ⟨some a₀, rfl, fun a => ⟨fun ha => ?_, ?_⟩⟩
      · exact ⟨0, n.succ_pos, answersFirst_zero.2 ((hanswers a).2 (hask.trans ha))⟩
      · rintro ⟨k, -, ha⟩
        cases k with
        | zero => exact hask.symm.trans ((hanswers a).1 (answersFirst_zero.1 ha))
        | succ k => exact absurd ((hanswers a₀).2 hask) ((answersFirst_succ.1 ha).1 a₀)
    | none =>
      have hown : ∀ a, ¬ d.Says ask c a := fun a ha => by cases hask.symm.trans ((hanswers a).1 ha)
      have hup : ∀ a, (∃ k < n + 1, d.AnswersFirst (d.Says ask) c k a) ↔
          ∃ c', cls.superclass = some c' ∧ ∃ k < n, d.AnswersFirst (d.Says ask) c' k a := by
        intro a
        constructor
        · rintro ⟨k, hk, ha⟩
          cases k with
          | zero => exact absurd (answersFirst_zero.1 ha) (hown a)
          | succ k =>
            obtain ⟨-, c', hlink, ha⟩ := answersFirst_succ.1 ha
            obtain ⟨cls', hcls', hsuper⟩ := superclassLink_iff.1 hlink
            cases hcls.symm.trans hcls'
            exact ⟨c', hsuper, k, Nat.lt_of_succ_lt_succ hk, ha⟩
        · rintro ⟨c', hsuper, k, hk, ha⟩
          exact ⟨k + 1, Nat.succ_lt_succ hk,
            answersFirst_succ.2 ⟨hown, c', superclassLink_iff.2 ⟨cls, hcls, hsuper⟩, ha⟩⟩
      simp only [hup]
      cases hsuper : cls.superclass with
      | none => exact ⟨none, by cases n <;> rfl, fun a => by simp⟩
      | some c' =>
        obtain ⟨found, hfound, hiff⟩ := ih ((hd.within_of_cls hcls).superclass c' hsuper)
        exact ⟨found, hfound, fun a => by simp [hiff]⟩

/-- The first answer on the chain comes before the bound. -/
theorem InRange.exists_firstOnChain_iff :
    ∃ found, d.firstOnChain ask c = .ok found ∧ ∀ a, found = some a ↔
      ∃ n, d.AnswersFirst (d.Says ask) c n a := by
  obtain ⟨found, hfound, hiff⟩ := hd.exists_firstFrom_iff hc ask d.classes.size
  refine ⟨found, hfound, fun a => (hiff a).trans ⟨fun ⟨k, _, ha⟩ => ⟨k, ha⟩, ?_⟩⟩
  rintro ⟨n, b, hb, ha, hnone⟩
  obtain ⟨k, hk, hb'⟩ := hd.exists_ancestor?_lt hc hb
  have hnk : n ≤ k := Nat.le_of_not_lt fun hlt => hnone k hlt b hb' a ha
  exact ⟨n, hnk.trans_lt hk, b, hb, ha, hnone⟩

theorem InRange.searchesUp : d.SearchesUp (d.Says ask) (d.firstOnChain ask) c := by
  obtain ⟨found, hfound, hiff⟩ := hd.exists_firstOnChain_iff hc ask
  refine ⟨fun a ha => ?_, fun hown c' hlink => ?_, fun hown hnone => ?_, found, hfound, hiff⟩
  · rw [hfound, (hiff a).2 ⟨0, answersFirst_zero.2 ha⟩]
  · obtain ⟨found', hfound', hiff'⟩ :=
      hd.exists_firstOnChain_iff (hd.has_of_superclassLink hlink) ask
    rw [hfound, hfound']
    refine congrArg Except.ok (Option.ext fun a => ?_)
    rw [hiff, hiff']
    constructor
    · rintro ⟨n, ha⟩
      cases n with
      | zero => exact absurd (answersFirst_zero.1 ha) (hown a)
      | succ n =>
        obtain ⟨-, c'', hlink', ha⟩ := answersFirst_succ.1 ha
        cases hlink.symm.trans hlink'
        exact ⟨n, ha⟩
    · rintro ⟨n, ha⟩
      exact ⟨n + 1, answersFirst_succ.2 ⟨hown, c', hlink, ha⟩⟩
  · cases found with
    | none => exact hfound
    | some a =>
      obtain ⟨n, ha⟩ := (hiff a).1 rfl
      cases n with
      | zero => exact absurd (answersFirst_zero.1 ha) (hown a)
      | succ n =>
        obtain ⟨-, c', hlink, -⟩ := answersFirst_succ.1 ha
        exact absurd hlink (hnone c')

end Search

/-! ## Methods and fields -/

/-- A class declares a method that is not abstract, by its subsignature. -/
def DeclaresBody (d : Draft) (sig : Subsig) (c : ClassId) (m : MethodId) : Prop :=
  ∃ cls method, d.cls c = .ok cls ∧ cls.method? sig = some m ∧ d.method m = .ok method ∧
    method.isAbstract = false

/-- A class declares a field of a name, and none of its fields before that has the name. -/
def DeclaresField (d : Draft) (name : String) (c : ClassId) (f : FieldId) : Prop :=
  ∃ cls before after x, d.cls c = .ok cls ∧ cls.fields = before ++ f :: after ∧ d.field f = .ok x ∧
    x.name = name ∧
    ∀ g ∈ before, ∀ y, d.field g = .ok y → y.name ≠ name

theorem InRange.says_concreteMethod? (hd : d.InRange) (sig : Subsig) :
    d.Says (d.concreteMethod? sig) = d.DeclaresBody sig := by
  funext c m
  refine propext ⟨fun ⟨cls, hcls, hask⟩ => ?_,
    fun ⟨cls, method, hcls, hsig, hmethod, hbody⟩ => ⟨cls, hcls, ?_⟩⟩
  · rw [concreteMethod?, Option.filter_eq_some_iff] at hask
    obtain ⟨hsig, hbody⟩ := hask
    obtain ⟨method, hmethod⟩ :=
      exists_method_iff.2 ((hd.within_of_cls hcls).methods _ (mem_of_lookup_eq_some hsig))
    refine ⟨cls, method, hcls, hsig, hmethod, ?_⟩
    simpa [isAbstractMethod, fetch_eq_ok_iff.1 hmethod] using hbody
  · rw [concreteMethod?, Option.filter_eq_some_iff]
    exact ⟨hsig, by simp [isAbstractMethod, fetch_eq_ok_iff.1 hmethod, hbody]⟩

theorem says_declaredField? (name : String) :
    d.Says (d.declaredField? name) = d.DeclaresField name := by
  have hnamed : ∀ f : FieldId, (d.fields[f.index]?.any fun x => x.name = name) = true ↔
      ∃ x, d.field f = .ok x ∧ x.name = name := by
    intro f
    simp only [Option.any_eq_true, field, fetch_eq_ok_iff, decide_eq_true_eq]
  funext c f
  refine propext (exists_congr fun cls => ?_)
  rw [declaredField?, List.find?_eq_some_iff_append, hnamed]
  constructor
  · rintro ⟨hcls, ⟨x, hx, hname⟩, before, after, hfields, hnone⟩
    refine ⟨before, after, x, hcls, hfields, hx, hname, fun g hg y hy hyname => ?_⟩
    have hsome := (hnamed g).2 ⟨y, hy, hyname⟩
    have hg := hnone g hg
    rw [hsome] at hg
    cases hg
  · rintro ⟨before, after, x, hcls, hfields, hx, hname, hnone⟩
    refine ⟨hcls, ⟨x, hx, hname⟩, before, after, hfields, fun g hg => ?_⟩
    rw [Bool.not_eq_true', ← Bool.not_eq_true, hnamed]
    rintro ⟨y, hy, hyname⟩
    exact hnone g hg y hy hyname

/-- The bound on walks along superclasses changes no answer. A walk has at most as many classes as
there are. It lists the chain from its beginning, has every class of the chain, and has none twice
unless the links from its start have a cycle. So methods are dispatched and fields are resolved as
by the recursion without a bound. -/
theorem superclass_bound_unnoticed (hd : d.InRange) {c : ClassId} (hc : d.Has c) :
    (∃ cs, d.chain c = .ok cs ∧ cs.length ≤ d.classes.size ∧
      (∀ i < d.classes.size, cs[i]? = d.ancestor? i c) ∧
      (∀ a, a ∈ cs ↔ Relation.ReflTransGen d.SuperclassLink c a) ∧
      ((∀ a, Relation.ReflTransGen d.SuperclassLink c a →
        ¬ Relation.TransGen d.SuperclassLink a a) → cs.Nodup)) ∧
    (∀ sig, d.SearchesUp (d.DeclaresBody sig) (fun c => d.dispatch c sig) c) ∧
    ∀ name, d.SearchesUp (d.DeclaresField name) (fun c => d.resolveField ⟨c, name⟩) c := by
  obtain ⟨cs, hcs, hlength, hlist, hmem⟩ := hd.exists_chain hc
  refine ⟨⟨cs, hcs, hlength, hlist, hmem, nodup_of_acyclic hlength hlist⟩, fun sig => ?_,
    fun name => ?_⟩
  · rw [← hd.says_concreteMethod? sig]
    exact hd.searchesUp hc _
  · rw [← says_declaredField? name]
    exact hd.searchesUp hc _

end Draft

/-- Two classes that extend each other, each with what the other one lacks. -/
def sampleCycle : String :=
  "class A extends B { field f; abstract method m(); } class B extends A { method m() { } }"

theorem Draft.sample_superclass_bound_unnoticed :
    ∃ p, Program.ofText sampleCycle = .ok p ∧ p.Has (⟨0⟩ : ClassId) ∧ p.chain ⟨0⟩ = .ok [⟨0⟩, ⟨1⟩] ∧
      p.dispatch ⟨0⟩ ⟨"m", 0⟩ = .ok (some ⟨1⟩) ∧
      (∀ a, a ∈ [⟨0⟩, ⟨1⟩] ↔ Relation.ReflTransGen p.SuperclassLink ⟨0⟩ a) ∧
      p.SearchesUp (p.DeclaresBody ⟨"m", 0⟩) (fun c => p.dispatch c ⟨"m", 0⟩) ⟨0⟩ ∧
      p.SearchesUp (p.DeclaresField "f") (fun c => p.resolveField ⟨c, "f"⟩) ⟨0⟩ := by
  obtain ⟨p, htext, hc, hchain, hdispatch⟩ : ∃ p, Program.ofText sampleCycle = .ok p ∧
      p.Has (⟨0⟩ : ClassId) ∧
      (p.chain ⟨0⟩).toOption = some [⟨0⟩, ⟨1⟩] ∧
      (p.dispatch ⟨0⟩ ⟨"m", 0⟩).toOption = some (some ⟨1⟩) :=
    Program.exists_ofText (by decide +kernel)
  rw [toOption_eq_some_iff] at hchain hdispatch
  obtain ⟨⟨cs, hcs, -, -, hmem, -⟩, hmethods, hfields⟩ :=
    superclass_bound_unnoticed (Program.Proper.of_ofText htext).inRange hc
  cases hchain.symm.trans hcs
  exact ⟨p, htext, hc, hchain, hdispatch, hmem, hmethods _, hfields _⟩

end PointsTo
