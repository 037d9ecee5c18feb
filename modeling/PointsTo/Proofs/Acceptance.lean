import PointsTo.Proofs.Members

/-!
# Which declarations are accepted

Entering declarations succeeds exactly if they are `Acceptable` (`exists_draftOf_iff`): no name is a
keyword, no two classes have the same name, no two members of a class are in each other's way, no
method called abstract has a body, and the variables that a method starts with are different. What
comes out `Describes` the declarations: classes whose outlines are theirs, and classes that are only
mentioned. `Enters` says what becomes of the last entry.
-/

namespace PointsTo

open Text

/-! ## Classes -/

namespace Draft

variable {d e : Draft} {name : String} {header : Header} {c : ClassId}

/-- The class that is interned was there before, or has nothing but its name. -/
theorem exists_cls_internClass (d : Draft) (name : String) :
    ∃ x, (d.internClass name).2.cls (d.internClass name).1 = .ok x ∧ x.name = name ∧
      (d.cls (d.internClass name).1 = .ok x ∨ x = { name }) := by
  obtain ⟨x, hx, rfl⟩ := findClass?_eq_some_iff.1 (findClass?_internClass d name)
  refine ⟨x, hx, rfl, ?_⟩
  obtain hc | hc | ⟨hnew, -⟩ := (keeps_internClass d x.name).mentioned hx
  · obtain ⟨x', hx'⟩ := exists_cls_iff.2 hc
    cases ((keeps_internClass d x.name).cls (Set.notMem_empty _) hx').symm.trans hx
    exact .inl hx'
  · cases hc
  · exact .inr hnew

/-- A class can be declared unless it is declared already. -/
theorem declareClass_isOk_iff :
    (∃ r, d.declareClass name header = .ok r) ↔ ∀ c x, d.cls c = .ok x → x.name = name →
      x.declared = false := by
  obtain ⟨x, hx, hname, hold⟩ := exists_cls_internClass d name
  constructor
  · rintro ⟨⟨c', e⟩, h⟩ c x' hx' rfl
    obtain ⟨rfl, ⟨y, hy, hdeclared⟩, -⟩ := declareClass_eq_ok_iff.1 h
    have hkept := (keeps_internClass d x'.name).cls (Set.notMem_empty c) hx'
    cases cls_unique hkept hx hname.symm
    cases hkept.symm.trans hy
    exact hdeclared
  · intro h
    refine ⟨(_, _), declareClass_eq_ok_iff.2 ⟨rfl, ⟨x, hx, ?_⟩, rfl⟩⟩
    obtain hold | hnew := hold
    · exact h _ x hold hname
    · rw [hnew]

theorem cls_of_declareClass (h : d.declareClass name header = .ok (c, e)) :
    ∃ x, x.name = name ∧ (d.cls c = .ok x ∨ x = { name }) ∧
      e.cls c = .ok (x.declaredAs header) := by
  obtain ⟨x, hx, hname, hold⟩ := exists_cls_internClass d name
  obtain ⟨rfl, -, rfl⟩ := declareClass_eq_ok_iff.1 h
  exact ⟨x, hname, hold, fetch_modify_self hx⟩

end Draft

namespace Text

/-- A declaration whose names are no keywords and whose members are acceptable and differ. -/
structure ClassTree.Acceptable (t : ClassTree) : Prop where
  header : ∀ n ∈ t.name :: (t.superclass.toList ++ t.interfaces), n.text ∉ keywords
  members : ∀ x ∈ t.members, x.Acceptable
  differ : t.members.Pairwise fun x y => x.key ≠ y.key

/-- A draft has the classes that some trees declare, and others that they mention. -/
structure Describes (ts : List ClassTree) (d : Draft) : Prop where
  regular : d.Regular
  declared : ∀ t ∈ ts, ∃ c x, d.cls c = .ok x ∧ d.outlineClass x = t.outline
  classes : ∀ c x, d.cls c = .ok x →
    (∃ t ∈ ts, t.name.text = x.name) ∨ x = { name := x.name } ∧
    x.name ∈ ts.flatMap ClassTree.mentions
  mentions : ∀ n ∈ ts.flatMap ClassTree.mentions, ∃ c, d.findClass? n = some c

namespace Describes

variable {ts : List ClassTree} {t : ClassTree} {d e : Draft} {ns : List String} {c : ClassId}
  {x : Class}

theorem empty : Describes [] {} where
  regular := .empty
  declared _ ht := absurd ht List.not_mem_nil
  classes _ _ hx := absurd hx fetch_empty_ne_ok
  mentions _ hn := absurd hn List.not_mem_nil

/-- Classes that are mentioned further leave the declared ones as they are. -/
theorem exists_declared (hd : Describes ts d) (hkeeps : d.Keeps ∅ ∅ ns e) (ht : t ∈ ts) :
    ∃ c x, e.cls c = .ok x ∧ x.name = t.name.text ∧ x.declared = true := by
  obtain ⟨c, x, hx, houtline⟩ := hd.declared t ht
  exact ⟨c, x, hkeeps.cls (Set.notMem_empty c) hx, congrArg ClassOutline.name houtline,
    congrArg ClassOutline.declared houtline⟩

/-- A class that no tree declares is only a name. -/
theorem eq_of_undeclared (hd : Describes ts d) (hkeeps : d.Keeps ∅ ∅ ns e)
    (hnew : ∀ t ∈ ts, t.name.text ≠ x.name) (hx : e.cls c = .ok x) : x = { name := x.name } := by
  obtain hc | hc | ⟨hmention, -⟩ := hkeeps.mentioned hx
  · obtain ⟨x', hx'⟩ := Draft.exists_cls_iff.2 hc
    cases (hkeeps.cls (Set.notMem_empty c) hx').symm.trans hx
    obtain ⟨t, ht, hname⟩ | ⟨hmention, -⟩ := hd.classes c x hx'
    · exact absurd hname (hnew t ht)
    · exact hmention
  · cases hc
  · exact hmention

theorem concat (hd : Describes ts d) (hnew : ∀ s ∈ ts, s.name.text ≠ t.name.text)
    (hkeeps : d.Keeps {c} ∅ t.mentions e) (hregular : e.Regular) (hx : e.cls c = .ok x)
    (houtline : e.outlineClass x = t.outline)
    (hmentions : ∀ n ∈ t.mentions, ∃ c, e.findClass? n = some c) : Describes (ts ++ [t]) e := by
  have hname : x.name = t.name.text := congrArg ClassOutline.name houtline
  refine ⟨hregular, fun s hs => ?_, fun c' x' hx' => ?_, ?_⟩
  · obtain hs | hs := List.mem_append.1 hs
    · obtain ⟨c', x', hx', houtline'⟩ := hd.declared s hs
      have hc' : c' ∉ ({c} : Set ClassId) := by
        rintro rfl
        -- the class would have the names of both trees
        obtain ⟨y, hy, hsame⟩ :=
          Draft.findClass?_eq_some_iff.1
            (hkeeps.names (Draft.findClass?_eq_some_iff.2 ⟨x', hx', rfl⟩))
        cases hx.symm.trans hy
        exact hnew s hs ((congrArg ClassOutline.name houtline').symm.trans (hsame.symm.trans hname))
      refine ⟨c', x', hkeeps.cls hc' hx', ?_⟩
      rw [hkeeps.outlineClass hd.regular.inRange (hd.regular.inRange.within_of_cls hx'), houtline']
    · cases List.mem_singleton.1 hs
      exact ⟨c, x, hx, houtline⟩
  · rw [List.flatMap_append, List.flatMap_singleton]
    by_cases hc : c' = c
    · subst hc
      cases hx.symm.trans hx'
      exact .inl ⟨t, List.mem_append_right _ (List.mem_singleton_self t), hname.symm⟩
    obtain hold | hold | ⟨hmention, hmem⟩ := hkeeps.mentioned hx'
    · obtain ⟨y, hy⟩ := Draft.exists_cls_iff.2 hold
      cases (hkeeps.cls hc hy).symm.trans hx'
      obtain ⟨s, hs, hsname⟩ | ⟨hmention, hmem⟩ := hd.classes c' x' hy
      · exact .inl ⟨s, List.mem_append_left _ hs, hsname⟩
      · exact .inr ⟨hmention, List.mem_append_left _ hmem⟩
    · exact absurd hold hc
    · exact .inr ⟨hmention, List.mem_append_right _ hmem⟩
  · simp only [List.flatMap_append, List.flatMap_singleton, List.forall_mem_append]
    refine ⟨fun n hn => ?_, hmentions⟩
    obtain ⟨c', hc'⟩ := hd.mentions n hn
    exact ⟨c', hkeeps.names hc'⟩

end Describes

/-- A class as its declaration leaves it, before it has members. -/
theorem outlineClass_declaredAs {t : ClassTree} {e : Draft} {superclass : Option ClassId}
    {interfaces : List ClassId}
    (hsuper : Option.Rel (fun (n : Name) c => e.findClass? n.text = some c) t.superclass superclass)
    (hinterfaces : List.Forall₂ (fun (n : Name) c => e.findClass? n.text =
      some c) t.interfaces interfaces) :
    e.outlineClass (Class.declaredAs ⟨superclass, interfaces, t.isInterface, t.isAbstract⟩ { name :=
  t.name.text }) =
      { t with members := [] }.outline := by
  have hmap : interfaces.map e.classText = t.interfaces.map Name.text := by
    generalize t.interfaces = ns at hinterfaces
    induction hinterfaces with
    | nil => rfl
    | cons hc _ ih => rw [List.map_cons, List.map_cons, (Draft.Knows.refl e).classText hc, ih]
  rw [Draft.outlineClass, ClassTree.outline, ClassOutline.mk.injEq]
  refine ⟨rfl, rfl, rfl, rfl, ?_, hmap, rfl, rfl⟩
  generalize t.superclass = o at hsuper
  cases hsuper with
  | none => rfl
  | some hc => exact congrArg some ((Draft.Knows.refl e).classText hc)

namespace Entering

variable {m : Option MethodId} {d₀ d e : Draft} {c : ClassId} {t : ClassTree} {ts : List ClassTree}

theorem resolves_classes (ns : List Name) : Resolves m d₀ (ns.mapM cls) ns (ns.map Name.text) []
    fun e cs => List.Forall₂ (fun (n : Name) c => e.findClass? n.text = some c) ns cs := by
  have h : Resolves m d₀ _ _ _ _ _ :=
    .mapM (fun n d₁ => resolves_cls n) (fun _ _ _ _ hd hc => hd.names hc) ns
  rwa [List.flatMap_singleton', flatMap_nil_right, ← List.map_eq_flatMap] at h

theorem resolves_optionalClass (o : Option Name) :
    Resolves m d₀ (Entering.optional cls o) o.toList (o.toList.map Name.text) []
      fun e r => Option.Rel (fun (n : Name) c => e.findClass? n.text = some c) o r := by
  have h : Resolves m d₀ _ _ _ _ _ := .optional (fun n d₁ => resolves_cls n) o
  rwa [List.flatMap_singleton', flatMap_nil_right, ← List.map_eq_flatMap] at h

/-- Declaring the class of a tree whose superclass and interfaces were looked up. -/
theorem meets_declareClass (hd : Describes ts d) {superclass : Option ClassId}
    {interfaces : List ClassId}
    (hmentions : d.Mentions none ((t.superclass.toList ++ t.interfaces).map Name.text) [] e)
    (hsuper : Option.Rel (fun (n : Name) c => e.findClass? n.text = some c) t.superclass superclass)
    (hinterfaces : List.Forall₂ (fun (n : Name) c => e.findClass? n.text =
      some c) t.interfaces interfaces)
    (hasSuper : ∀ c ∈ superclass, e.Has c) (hasInterfaces : ∀ c ∈ interfaces, e.Has c) :
    Meets (build (·.declareClass t.name.text ⟨superclass, interfaces, t.isInterface,
      t.isAbstract⟩)) e
      (∀ s ∈ ts, s.name.text ≠ t.name.text)
      fun c e' => (∀ s ∈ ts, s.name.text ≠ t.name.text) ∧ e.Knows e' ∧
        d.Keeps {c} ∅ ((t.superclass.toList ++ t.interfaces).map Name.text) e' ∧
          Stocked e' c t [] e' := by
  have hkeeps : d.Keeps ∅ ∅ _ e :=
    hmentions.keeps.mono subset_rfl (fun _ hx => by cases hx) (List.Subset.refl _)
  have hcond : (∃ r, e.declareClass t.name.text ⟨superclass, interfaces, t.isInterface,
      t.isAbstract⟩ = .ok r) ↔
      ∀ s ∈ ts, s.name.text ≠ t.name.text := by
    rw [Draft.declareClass_isOk_iff]
    constructor
    · intro h s hs hname
      obtain ⟨c, x, hx, hxname, hdeclared⟩ := hd.exists_declared hkeeps hs
      rw [h c x hx (hxname.trans hname)] at hdeclared
      cases hdeclared
    · rintro h c x hx hname
      rw [hd.eq_of_undeclared hkeeps (hname ▸ h) hx]
  refine Meets.build.imp hcond fun c e' hok h => ⟨hcond.1 hok, ?_⟩
  have hdeclare := Draft.keeps_declareClass h
  obtain ⟨x, hname, hx, hx'⟩ := Draft.cls_of_declareClass h
  obtain rfl : x = { name := t.name.text } := by
    obtain hx | hx := hx
    · rw [← hname]
      exact hd.eq_of_undeclared hkeeps (hname ▸ hcond.1 hok) hx
    · exact hx
  refine ⟨hdeclare.knows, ?_, ?_⟩
  · rw [← List.append_nil (List.map _ _)]
    exact (hkeeps.mono (Set.empty_subset _) subset_rfl (List.Subset.refl _)).trans hdeclare
  · refine ⟨(hmentions.regular.declareClass hasSuper hasInterfaces h).1, .refl e',
      fun _ hn => absurd hn List.not_mem_nil, _,
      hx', outlineClass_declaredAs ?_ (hinterfaces.imp fun _ _ hc => hdeclare.names hc)⟩
    generalize t.superclass = o at hsuper
    cases hsuper with
    | none => exact .none
    | some hc => exact .some (hdeclare.names hc)

theorem meets_classTree (hd : Describes ts d) (t : ClassTree) :
    Meets (classTree t) d (t.Acceptable ∧ ∀ s ∈ ts, s.name.text ≠ t.name.text)
      fun _ e => Describes (ts ++ [t]) e ∧ e.entry = d.entry := by
  have hnone : ∀ e : Draft, ∀ m ∈ (none : Option MethodId), e.Has m := fun _ _ hm => by cases hm
  have hsuperclass :=
    (resolves_optionalClass t.superclass d (.refl d) hd.regular (hnone d)).and_keeps hd.regular
    (.optional has_mono (fun n => keeps_cls n) t.superclass)
  refine ((meets_name t.name d).bind (q := (∀ n ∈ t.superclass.toList, n.text ∉ keywords) ∧
    (∀ n ∈ t.interfaces, n.text ∉ keywords) ∧ (∀ s ∈ ts, s.name.text ≠ t.name.text) ∧
      (∀ x ∈ t.members, x.Acceptable) ∧ t.members.Pairwise fun x y => x.key ≠ y.key) ?_).imp ?_
      fun _ _ _ => id
  · rintro _ e ⟨rfl, heq⟩
    rw [heq]
    refine hsuperclass.bind fun superclass e₁ ⟨⟨hmentions₁, hsuper⟩, hregular₁, hasSuper⟩ => ?_
    have hlists :=
      (resolves_classes t.interfaces e₁ (.refl e₁) hregular₁ (hnone e₁)).and_keeps hregular₁
      (.mapM has_mono (fun n d _ => keeps_cls n) t.interfaces)
    refine hlists.bind fun interfaces e₂ ⟨⟨hmentions₂, hinterfaces⟩, hregular₂, hasInterfaces⟩ => ?_
    have hmentions := hmentions₁.trans hmentions₂
    rw [← List.map_append] at hmentions
    have hsuper₂ : Option.Rel (fun (n : Name) c => e₂.findClass? n.text =
        some c) t.superclass superclass := by
      generalize t.superclass = o at hsuper
      cases hsuper with
      | none => exact .none
      | some hc => exact .some (hmentions₂.keeps.names hc)
    have hasSuper₂ : ∀ c ∈ superclass, e₂.Has c := by
      intro c hc
      obtain ⟨x, hx⟩ := Draft.exists_cls_iff.2 (hasSuper c hc)
      exact Draft.exists_cls_iff.1 ⟨x, hmentions₂.keeps.cls (Set.notMem_empty c) hx⟩
    refine (meets_declareClass hd hmentions hsuper₂ hinterfaces hasSuper₂ hasInterfaces).bind
      fun c e₃ ⟨hnew, hknows, hkeeps, hstocked⟩ => ?_
    refine (meets_members hstocked t.members).imp Iff.rfl fun _ e₄ _ h => ?_
    obtain ⟨x, hx, houtline⟩ := h.outline
    have hall : d.Keeps {c} ∅ t.mentions e₄ := hkeeps.trans h.keeps
    refine ⟨hd.concat hnew hall h.regular hx houtline ?_, hall.entry⟩
    simp only [ClassTree.mentions, List.forall_mem_append]
    refine ⟨fun n hn => ?_, h.classes⟩
    obtain ⟨c', hc'⟩ := hmentions.classes n hn
    exact ⟨c', h.keeps.names (hknows.names hc')⟩
  · constructor
    · rintro ⟨hname, hsuper, hinterfaces, hnew, hmembers, hdiffer⟩
      refine ⟨⟨?_, hmembers, hdiffer⟩, hnew⟩
      simp only [List.forall_mem_cons, List.forall_mem_append]
      exact ⟨hname, hsuper, hinterfaces⟩
    · rintro ⟨⟨hheader, hmembers, hdiffer⟩, hnew⟩
      simp only [List.forall_mem_cons, List.forall_mem_append] at hheader
      exact ⟨hheader.1, hheader.2.1, hheader.2.2, hnew, hmembers, hdiffer⟩

/-- The trees are entered exactly if each of them is acceptable and no two declare the same
class. -/
theorem meets_classes (ts : List ClassTree) :
    Meets (ts.forM classTree) {} ((∀ t ∈ ts, t.Acceptable) ∧
      ts.Pairwise fun s t => s.name.text ≠ t.name.text)
      fun _ d => Describes ts d ∧ d.entry = none := by
  refine Meets.forM (I := fun ts d => Describes ts d ∧ d.entry = none)
    (fun ts t d hd => ?_) ts ⟨.empty, rfl⟩
  exact (meets_classTree hd.1 t).imp Iff.rfl fun _ e _ h => ⟨h.1, h.2.trans hd.2⟩

end Entering

/-! ## Whole programs -/

/-- The outline of the class of a name: as it is declared, or without any content if it is only
mentioned. -/
def ClassTree.outlineIn (ts : List ClassTree) (name : String) : Option ClassOutline :=
  match ts.find? fun t => t.name.text = name with
  | some t => some t.outline
  | none => if name ∈ ts.flatMap ClassTree.mentions then some { name } else none

theorem Describes.outline?_eq {ts : List ClassTree} {d : Draft} (hd : Describes ts d)
    (name : String) : d.outline? name = ClassTree.outlineIn ts name := by
  rw [ClassTree.outlineIn]
  split
  next t hfind =>
    obtain ⟨c, x, hx, houtline⟩ := hd.declared t (List.mem_of_find?_eq_some hfind)
    have hname : t.name.text = name := by simpa using List.find?_some hfind
    exact Draft.outline?_eq_some_iff.2
      ⟨c, x, hx, (congrArg ClassOutline.name houtline).trans hname, houtline⟩
  next hfind =>
    have hnew : ∀ c x, d.cls c = .ok x → x.name = name →
        x = { name := x.name } ∧ x.name ∈ ts.flatMap ClassTree.mentions := by
      rintro c x hx rfl
      obtain ⟨t, ht, hname⟩ | hmention := hd.classes c x hx
      · simpa [hname] using List.find?_eq_none.1 hfind t ht
      · exact hmention
    split
    next hmem =>
      obtain ⟨c, hc⟩ := hd.mentions name hmem
      obtain ⟨x, hx, hname⟩ := Draft.findClass?_eq_some_iff.1 hc
      refine Draft.outline?_eq_some_iff.2 ⟨c, x, hx, hname, ?_⟩
      rw [(hnew c x hx hname).1, hname]
      rfl
    next hmem =>
      refine Option.eq_none_iff_forall_ne_some.2 fun o ho => ?_
      obtain ⟨c, x, hx, hname, -⟩ := Draft.outline?_eq_some_iff.1 ho
      exact hmem (hname ▸ (hnew c x hx hname).2)

end Text

/-- The methods of a name in the outline of a class that may be missing. -/
def ClassOutline.methodsNamed (name : String) (o : Option ClassOutline) : List MethodOutline :=
  o.elim [] fun o => o.methods.filter fun m => m.name = name

/-- The methods that are found under a name. -/
theorem Draft.map_findMethods {d : Draft} (hd : d.Regular) (className name : String) :
    (d.findMethods className name).map d.methodOutline =
      ClassOutline.methodsNamed name (d.outline? className) := by
  cases hc : d.findClass? className with
  | none =>
    rw [findMethods, outline?, hc]
    rfl
  | some c =>
    obtain ⟨x, hx, rfl⟩ := findClass?_eq_some_iff.1 hc
    rw [findMethods_of_cls hx, outline?, hc, Option.bind_some, hx]
    simp only [ClassOutline.methodsNamed, Class.methodsNamed, Except.toOption, Option.map_some,
      Option.elim_some, outlineClass, List.filter_map, List.map_map]
    refine congrArg (List.map _) (List.filter_congr fun p hp => ?_)
    obtain ⟨y, hy, -, hsig⟩ := hd.built.owned.methods c x hx p hp
    rw [Function.comp_apply, methodOutline_of_method hy, ← hsig]
    rfl

namespace Text

/-- Declarations that are acceptable and declare different classes. The last entry, if there is any,
names exactly one of the declared methods. -/
structure Acceptable (items : List Item) : Prop where
  classes : ∀ t ∈ Item.classes items, t.Acceptable
  differ : (Item.classes items).Pairwise fun s t => s.name.text ≠ t.name.text
  entry : ∀ q line, Item.lastEntry items = some (q, line) → (∀ n ∈ q.names, n.text ∉ keywords) ∧
    ∃ o, ClassOutline.methodsNamed q.name.text
    (ClassTree.outlineIn (Item.classes items) q.cls.text) = [o]

/-- The entry of a draft is the only method that the last entry among some items names. -/
def Enters (items : List Item) (d : Draft) : Prop :=
  match Item.lastEntry items with
  | some (q, _) => ∃ m, d.findMethods q.cls.text q.name.text = [m] ∧ d.entry = some m
  | none => d.entry = none

namespace Entering

theorem meets_entry (q : Qualified) (line : Nat) (d : Draft) :
    Meets (entry q line) d ((∀ n ∈ q.names, n.text ∉ keywords) ∧
      ∃ m, d.findMethods q.cls.text q.name.text = [m])
      fun _ e => ∃ m, d.findMethods q.cls.text q.name.text = [m] ∧ e = d.setEntry m := by
  refine ((meets_name q.cls d).bind (q :=
    q.name.text ∉ keywords ∧ ∃ m, d.findMethods q.cls.text q.name.text = [m]) ?_).imp
    ?_ fun _ _ _ => id
  · rintro _ e ⟨rfl, heq⟩
    rw [heq]
    refine (meets_name q.name d).bind ?_
    rintro _ e ⟨rfl, heq⟩
    rw [heq]
    refine ⟨?_, fun {_ e} hrun => ?_⟩
    · rintro ⟨m, hm⟩
      refine ⟨(), d.setEntry m, ?_⟩
      rw [StateT.run_bind, StateT.run_get, pure_bind]
      dsimp only
      rw [hm]
      rfl
    · rw [StateT.run_bind, StateT.run_get, pure_bind] at hrun
      dsimp only at hrun
      split at hrun
      next m hm =>
        cases hrun
        exact ⟨⟨m, hm⟩, m, hm, rfl⟩
      next => cases hrun
      next => cases hrun
  · simp [Qualified.names, and_assoc]

theorem meets_items (items : List Item) :
    Meets (Entering.items items) {} (Acceptable items) fun _ d => Describes (Item.classes items) d ∧
      Enters items d := by
  have hcond : (((∀ t ∈ Item.classes items, t.Acceptable) ∧
      (Item.classes items).Pairwise fun s t => s.name.text ≠ t.name.text) ∧
      ∀ q line, Item.lastEntry items = some (q, line) → (∀ n ∈ q.names, n.text ∉ keywords) ∧
        ∃ o, ClassOutline.methodsNamed q.name.text
        (ClassTree.outlineIn (Item.classes items) q.cls.text) = [o]) ↔
      Acceptable items :=
    ⟨fun ⟨⟨hclasses, hdiffer⟩, hentry⟩ => ⟨hclasses, hdiffer, hentry⟩,
      fun h => ⟨⟨h.classes, h.differ⟩, h.entry⟩⟩
  refine ((meets_classes (Item.classes items)).bind fun _ d ⟨hd, hnone⟩ => ?_).imp hcond
    fun _ _ _ => id
  simp only [Enters]
  cases hlast : Item.lastEntry items with
  | none => exact (Meets.pure ⟨hd, hnone⟩).imp (by simp) fun _ _ _ => id
  | some last =>
    obtain ⟨q, line⟩ := last
    have hone : (∃ m, d.findMethods q.cls.text q.name.text = [m]) ↔
        ∃ o, ClassOutline.methodsNamed q.name.text
        (ClassTree.outlineIn (Item.classes items) q.cls.text) = [o] := by
      rw [← hd.outline?_eq, ← Draft.map_findMethods hd.regular]
      simp [List.map_eq_singleton_iff]
    refine (meets_entry q line d).imp ?_ ?_
    · rw [hone]
      constructor
      · rintro h _ _ ⟨⟩
        exact h
      · exact fun h => h q line rfl
    · rintro _ _ - ⟨m, hm, rfl⟩
      have hhas : d.Has m :=
        hd.regular.inRange.has_of_mem_findMethods (by rw [hm]; exact List.mem_singleton_self m)
      exact ⟨⟨hd.regular.setEntry hhas, hd.declared, hd.classes, hd.mentions⟩, m, hm, rfl⟩

end Entering

/-- Items describe a draft exactly if they are acceptable. -/
theorem exists_draftOf_iff {items : List Item} :
    (∃ d, draftOf items = .ok d) ↔ Acceptable items := by
  have hmeets := Entering.meets_items items
  simp only [draftOf_eq_ok_iff]
  constructor
  · rintro ⟨d, hrun⟩
    exact (hmeets.run hrun).1
  · intro h
    obtain ⟨_, d, hrun⟩ := hmeets.succeeds h
    exact ⟨d, hrun⟩

theorem describes_of_draftOf {items : List Item} {d : Draft} (h : draftOf items = .ok d) :
    Describes (Item.classes items) d ∧ Enters items d :=
  ((Entering.meets_items items).run (draftOf_eq_ok_iff.1 h)).2

end Text

end PointsTo
