import PointsTo.Proofs.Resolution

/-!
# Which members are accepted

Entering a member into a class succeeds exactly if it is acceptable (`Member.Acceptable`) and is not
in the way of another member: no name is a keyword, no method called abstract has a body, and the
variables that a method starts with are different. The outline of the class then has the outline of
the member at its end (`meets_addField`, `meets_addMethod`).
-/

namespace PointsTo

open Text

/-! ## Bodies -/

/-- The variable that a statement returns. -/
def Stmt.returned? : Stmt → Option VarId
  | .ret value => value
  | _ => none

theorem Method.returnsWith_eq (y : Method) (s : Stmt) :
    y.returnsWith s = s.returned?.toList.foldl addNew y.returns := by
  cases s with
  | ret value => cases value <;> rfl
  | _ => rfl

theorem Stmt.returned?_of_command? {var : VarId → String} {cls : ClassId → String} {s : Stmt}
    {c : Command} (h : s.command? var cls = some c) : s.returned?.map var = c.returned? := by
  cases s with
  | ret value =>
    cases h
    cases value <;> rfl
  | invoke call =>
    obtain ⟨t, -, rfl⟩ := Option.map_eq_some_iff.1 h
    cases call.lhs <;> rfl
  | load lhs base ref => cases base <;> cases h <;> rfl
  | store base ref rhs => cases base <;> cases h <;> rfl
  | _ =>
    cases h
    rfl

theorem Stmt.mem_vars_of_returned? {s : Stmt} {v : VarId} (h : s.returned? = some v) :
    v ∈ s.vars := by
  cases s with
  | ret value =>
    cases h
    exact List.mem_singleton_self v
  | _ => cases h

theorem Text.Command.returned?_bare (c : Command) : c.bare.returned? = c.returned? := by
  cases c with
  | ret value => cases value <;> rfl
  | _ => rfl

theorem MethodOutline.of_concat (name : String) (isStatic isAbstract : Bool) (params : List String)
    (body : List Command) (c : Command) :
    MethodOutline.of name isStatic isAbstract params (body ++ [c]) =
      { MethodOutline.of name isStatic isAbstract params body with
        returns :=
  c.returned?.toList.foldl addNew (MethodOutline.of name isStatic isAbstract params body).returns
        vars := c.vars.foldl addNew (MethodOutline.of name isStatic isAbstract params body).vars
        body := (MethodOutline.of name isStatic isAbstract params body).body ++
          [some c.bare] } := by
  simp only [of, List.filterMap_append, List.foldl_append, List.flatMap_append, List.map_append,
    List.flatMap_singleton, List.map_singleton]
  cases h : c.returned? <;> simp [h]

namespace Draft

variable {d e : Draft} {m : MethodId} {y : Method}

theorem Mentions.outlineMethod {cs vs : List String} (h : d.Mentions (some m) cs vs e)
    (hd : d.Regular) (hy : d.method m = .ok y) :
    ∃ y', e.method m = .ok y' ∧
      e.outlineMethod y' =
        { d.outlineMethod y with vars := vs.foldl addNew (d.outlineMethod y).vars } := by
  obtain ⟨vars, hvars, hnames⟩ := h.method m rfl y hy
  refine ⟨_, hvars, ?_⟩
  rw [← h.keeps.outlineMethod hd.inRange (hd.inRange.within_of_method hy), Draft.outlineMethod,
    MethodOutline.mk.injEq]
  refine ⟨rfl, rfl, rfl, rfl, rfl, rfl, ?_, rfl⟩
  rw [hnames]
  exact congrArg (List.foldl addNew · vs)
    (congrArg MethodOutline.vars
      (h.keeps.outlineMethod hd.inRange (hd.inRange.within_of_method hy))).symm

theorem outlineMethod_pushStmt {s : Stmt} {i : StmtId} (hd : d.Regular) (hy : d.method m = .ok y)
    (hs : ∀ v ∈ s.vars, d.Owns m v) (h : d.pushStmt m s = .ok (i, e)) :
    ∃ y', e.method m = .ok y' ∧ e.outlineMethod y' =
      { d.outlineMethod y with
        returns := (s.returned?.map d.varText).toList.foldl addNew (d.outlineMethod y).returns
        body := (d.outlineMethod y).body ++ [s.command? d.varText d.classText] } := by
  have hsame := (keeps_pushStmt h).outlineMethod hd.inRange (hd.inRange.within_of_method hy)
  obtain ⟨n, hlast⟩ := placed_of_pushStmt h
  obtain ⟨rfl, y', hy', rfl⟩ := pushStmt_eq_ok_iff.1 h
  cases hy.symm.trans hy'
  refine ⟨_, fetch_modify_self hy, ?_⟩
  rw [← hsame, Draft.outlineMethod, MethodOutline.mk.injEq]
  refine ⟨rfl, rfl, rfl, rfl, rfl, ?_, rfl, ?_⟩
  · rw [Method.returnsWith_eq]
    cases hreturned : s.returned? with
    | none => rfl
    | some v =>
      -- the returned variables are all of this method, so their texts tell them apart
      have hv : d.Owns m v := hs v (s.mem_vars_of_returned? hreturned)
      have hinj : ∀ w ∈ y.returns, d.varText w = d.varText v → w = v := fun w hw =>
        (hd.locals.methods m y hy w (List.mem_append_right _ hw)).eq_of_varText hv
      exact map_addNew hinj
  · rw [Array.toList_push, List.map_append, List.map_singleton, command?_of_placed hlast]
    rfl

/-- The variables that a new method starts with, by name. -/
theorem map_varText_startVars (hd : d.Regular) {c : ClassId} {name : String} {params : List String}
    {isStatic isAbstract : Bool} (h : d.addMethod c name params isStatic isAbstract = .ok (m, e)) :
    (d.startVars params isStatic).map e.varText = startNames params isStatic := by
  refine List.ext_getElem (by simp [startVars]) fun i _ hi => ?_
  have hvar := var_addMethod hd.inRange.vars h (List.getElem?_eq_getElem hi)
  simp only [startVars, List.map_map, List.getElem_map, List.getElem_range',
    Function.comp_apply, Nat.one_mul]
  rw [varText_of_var hvar]

theorem outlineMethod_addMethod (hd : d.Regular) {c : ClassId} {name : String}
    {params : List String} {isStatic isAbstract : Bool}
    (h : d.addMethod c name params isStatic isAbstract = .ok (m, e)) :
    ∃ y, e.method m = .ok y ∧ e.outlineMethod y = .of name isStatic isAbstract params [] := by
  have hstart := map_varText_startVars hd h
  refine ⟨_, method_of_addMethod h, ?_⟩
  rw [MethodOutline.of, Draft.outlineMethod, MethodOutline.mk.injEq]
  refine ⟨rfl, rfl, rfl, ?_, ?_, rfl, ?_, rfl⟩
  · rw [newMethod, List.map_drop, hstart, startNames, List.drop_left]
  · cases isStatic with
    | true => rfl
    | false => exact (List.head?_map ..).symm.trans (congrArg List.head? hstart)
  · rw [newMethod, List.toList_toArray, hstart]
    rfl

end Draft

namespace Text.Entering

variable {α β : Type}

theorem Meets.and_keeps {x : Entering α} {d : Draft} {p : Prop} {P : α → Draft → Prop}
    {R : Draft → α → Prop} (hx : Meets x d p P) (hd : d.Regular) (hkeeps : Keeps d x R) :
    Meets x d p fun a e => P a e ∧ e.Regular ∧ R e a where
  succeeds := hx.succeeds
  run hrun := by
    obtain ⟨hregular, -, ha⟩ := hkeeps d _ _ hd (.refl d) hrun
    exact ⟨(hx.run hrun).1, (hx.run hrun).2, hregular, ha⟩

/-- Some commands were entered into a method that `d₁` has already. -/
structure Filled (d₁ : Draft) (m : MethodId) (o : List Command → MethodOutline)
    (body : List Command) (e : Draft) : Prop where
  regular : e.Regular
  keeps : d₁.Keeps ∅ {m} (body.flatMap Command.classes) e
  classes : ∀ n ∈ body.flatMap Command.classes, ∃ c, e.findClass? n = some c
  outline : ∃ y, e.method m = .ok y ∧ e.outlineMethod y = o body

variable {d₁ e e' : Draft} {m : MethodId} {body : List Command}

/-- Entering a command into a body that some commands were entered into. -/
theorem meets_command {name : String} {isStatic isAbstract : Bool} {params : List String}
    (he : Filled d₁ m (MethodOutline.of name isStatic isAbstract params) body e) (c : Command) :
    Meets (command m c) e (∀ n ∈ c.names, n.text ∉ keywords)
      fun _ => Filled d₁ m (MethodOutline.of name isStatic isAbstract params) (body ++ [c]) := by
  obtain ⟨y, hy, houtline⟩ := he.outline
  have hm : ∀ x ∈ some m, e.Has x := by
    rintro _ ⟨⟩
    exact Draft.exists_method_iff.1 ⟨y, hy⟩
  have hstmt := (resolves_stmt m c e (.refl e) he.regular hm).and_keeps he.regular (keeps_stmt m c)
  refine (hstmt.bind (q := True) fun s e₁ ⟨⟨hmentions, hcommand⟩, hregular, hfits⟩ => ?_).imp
    (.of_eq (and_true _)) fun _ _ _ => id
  obtain ⟨y₁, hy₁, houtline₁⟩ := hmentions.outlineMethod he.regular hy
  refine (Meets.build.bind (q := True) fun i e' hpush => .pure ?_).imp ?_ fun _ _ _ => id
  · obtain ⟨y', hy', houtline'⟩ := Draft.outlineMethod_pushStmt hregular hy₁ hfits.vars hpush
    have hkeeps : e.Keeps ∅ {m} c.classes e' := by
      have hmention :=
        hmentions.keeps.mono subset_rfl (fun _ hx => (Option.some.inj hx).symm) (List.Subset.refl _)
      rw [← List.append_nil c.classes]
      exact hmention.trans (Draft.keeps_pushStmt hpush)
    refine ⟨(hregular.pushStmt hfits.vars hfits.classes hpush).1, ?_, ?_, y', hy', ?_⟩
    · rw [List.flatMap_append, List.flatMap_singleton]
      exact he.keeps.trans hkeeps
    · simp only [List.flatMap_append, List.flatMap_singleton, List.forall_mem_append]
      refine ⟨fun n hn => ?_, fun n hn => ?_⟩
      · obtain ⟨x, hx⟩ := he.classes n hn
        exact ⟨x, hkeeps.names hx⟩
      · obtain ⟨x, hx⟩ := hmentions.classes n hn
        exact ⟨x, (Draft.keeps_pushStmt hpush).names hx⟩
    · rw [houtline', houtline₁, houtline, MethodOutline.of_concat, hcommand,
        Stmt.returned?_of_command? hcommand, Command.returned?_bare]
  · exact iff_true_intro ⟨⟨(_, _), Draft.pushStmt_eq_ok_iff.2 ⟨rfl, _, hy₁, rfl⟩⟩, trivial⟩

/-- Entering a whole body. -/
theorem meets_body {name : String} {isStatic isAbstract : Bool} {params : List String}
    (he : Filled d₁ m (MethodOutline.of name isStatic isAbstract params) [] e)
    (body : List Command) :
    Meets (body.forM (command m)) e (∀ n ∈ body.flatMap Command.names, n.text ∉ keywords)
      fun _ => Filled d₁ m (MethodOutline.of name isStatic isAbstract params) body := by
  have hstep : ∀ before c d, Filled d₁ m
      (MethodOutline.of name isStatic isAbstract params) before d →
      Meets (command m c) d ((∀ n ∈ c.names, n.text ∉ keywords) ∧ ∀ b ∈ before, True)
        fun _ => Filled d₁ m (MethodOutline.of name isStatic isAbstract params) (before ++ [c]) :=
    fun before c d hd => (meets_command hd c).imp (by simp) fun _ _ _ => id
  refine (Meets.forM hstep body he).imp ?_ fun _ _ _ => id
  rw [List.forall_mem_flatMap, and_iff_left (List.pairwise_of_forall fun _ _ => trivial)]

end Text.Entering

/-! ## Members -/

namespace Draft

variable {d e f : Draft} {c : ClassId} {x : Class} {name : String} {params : List String}
  {isStatic isAbstract : Bool}

theorem addField_isOk_iff (hd : d.Regular) (hx : d.cls c = .ok x) :
    (∃ r, d.addField c name isStatic = .ok r) ↔ name ∉ (d.outlineClass x).fields.map Prod.fst := by
  have hmem : name ∈ (d.outlineClass x).fields.map Prod.fst ↔
      ∃ f ∈ x.fields, ∃ z, d.field f = .ok z ∧ z.name = name := by
    simp only [outlineClass, List.map_map, List.mem_map, Function.comp_apply]
    refine exists_congr fun f => and_congr_right fun hf => ?_
    obtain ⟨z, hz⟩ : ∃ z, d.field f = .ok z :=
      fetch_isOk_iff.2 ((hd.inRange.within_of_cls hx).fields f hf)
    rw [fieldOutline_of_field hz, hz]
    simp
  rw [hmem]
  constructor
  · rintro ⟨⟨f, e⟩, h⟩ ⟨f', hf', z, hz, hname⟩
    obtain ⟨⟨x', hx', hfresh⟩, -⟩ := addField_eq_ok_iff.1 h
    cases hx.symm.trans hx'
    exact hfresh f' hf' z hz hname
  · intro hfresh
    exact ⟨(_, _), addField_eq_ok_iff.2
      ⟨⟨x, hx, fun f hf z hz hname => hfresh ⟨f, hf, z, hz, hname⟩⟩, rfl, rfl⟩⟩

theorem addMethod_isOk_iff (hd : d.Regular) (hx : d.cls c = .ok x) :
    (∃ r, d.addMethod c name params isStatic isAbstract = .ok r) ↔
      ⟨name, params.length⟩ ∉ (d.outlineClass x).methods.map MethodOutline.sig ∧
        (startNames params isStatic).Nodup := by
  have hmem : x.method? ⟨name, params.length⟩ = none ↔
      ⟨name, params.length⟩ ∉ (d.outlineClass x).methods.map MethodOutline.sig := by
    have hsig : ∀ p ∈ x.methods, (d.methodOutline p.2).sig = p.1 := by
      intro p hp
      obtain ⟨y, hy, -, hsig⟩ := hd.built.owned.methods c x hx p hp
      rw [methodOutline_of_method hy, ← hsig, MethodOutline.sig, Method.sig, outlineMethod,
        List.length_map]
    rw [Class.method?, List.lookup_eq_none_iff, outlineClass, List.map_map,
      List.mem_map, not_exists]
    refine forall_congr' fun p => ?_
    rw [not_and, Function.comp_apply]
    refine forall_congr' fun hp => ?_
    rw [hsig p hp, bne_iff_ne, ne_comm]
  rw [← hmem]
  constructor
  · rintro ⟨⟨m, e⟩, h⟩
    obtain ⟨⟨x', hx', hfresh⟩, hnodup, -⟩ := addMethod_eq_ok_iff.1 h
    cases hx.symm.trans hx'
    exact ⟨hfresh, hnodup⟩
  · rintro ⟨hfresh, hnodup⟩
    exact ⟨(_, _), addMethod_eq_ok_iff.2 ⟨⟨x, hx, hfresh⟩, hnodup, rfl, rfl⟩⟩

theorem outlineClass_addField (hd : d.Regular) (hx : d.cls c = .ok x) {i : FieldId}
    (h : d.addField c name isStatic = .ok (i, e)) :
    ∃ x', e.cls c = .ok x' ∧
      e.outlineClass x' = { d.outlineClass x with fields := (d.outlineClass x).fields ++
        [(name, isStatic)] } := by
  obtain ⟨hx', hi⟩ := cls_of_addField hx h
  refine ⟨_, hx', ?_⟩
  rw [← (keeps_addField h).outlineClass hd.inRange (hd.inRange.within_of_cls hx), outlineClass,
    ClassOutline.mk.injEq]
  refine ⟨rfl, rfl, rfl, rfl, rfl, rfl, ?_, rfl⟩
  rw [List.map_append, List.map_singleton, fieldOutline_of_field hi]
  rfl

/-- A method that is added to a class, and then filled. -/
theorem outlineClass_addMethod (hd : d.Regular) (hx : d.cls c = .ok x) {m : MethodId}
    {ns : List String} (h : d.addMethod c name params isStatic isAbstract = .ok (m, e))
    (hfill : e.Keeps ∅ {m} ns f) :
    d.Keeps {c} ∅ ns f ∧ ∃ x', f.cls c = .ok x' ∧
      f.outlineClass x' = { d.outlineClass x with methods := (d.outlineClass x).methods ++
        [f.methodOutline m] } := by
  have hnew : ∀ m' ∈ ({m} : Set MethodId), ¬ d.Has m' := by
    rintro _ rfl
    obtain ⟨-, -, rfl, -⟩ := addMethod_eq_ok_iff.1 h
    exact Nat.lt_irrefl _
  have hkeeps : d.Keeps {c} ∅ ns f := by
    have hadd := (keeps_addMethod h).mono subset_rfl (Set.empty_subset {m}) (List.Subset.refl _)
    exact (hadd.trans (hfill.mono (Set.empty_subset {c}) subset_rfl
      (List.Subset.refl _))).of_new hnew
  refine ⟨hkeeps, _, hfill.cls (Set.notMem_empty c) (cls_of_addMethod hx h), ?_⟩
  rw [← hkeeps.outlineClass hd.inRange (hd.inRange.within_of_cls hx), outlineClass,
    ClassOutline.mk.injEq]
  refine ⟨rfl, rfl, rfl, rfl, rfl, rfl, rfl, ?_⟩
  rw [List.map_append, List.map_singleton]
  rfl

end Draft

namespace Text

/-- A member whose names are no keywords. A method called abstract has no body, and the variables
that a method starts with are different. -/
def Member.Acceptable (x : Member) : Prop :=
  (∀ n ∈ x.names, n.text ∉ keywords) ∧
    match x.kind with
    | .field => True
    | .method params body => ¬ (.abstract ∈ x.modifiers ∧ body.isSome) ∧
      (Draft.startNames (params.map Name.text) x.isStatic).Nodup

theorem Member.key_eq_inl_iff {x : Member} {name : String} :
    x.key = .inl name ↔ ∃ z, x.outline = .inl z ∧ z.1 = name := by
  rw [Member.key]
  cases x.outline <;> simp

theorem Member.key_eq_inr_iff {x : Member} {sig : Subsig} :
    x.key = .inr sig ↔ ∃ o, x.outline = .inr o ∧ o.sig = sig := by
  rw [Member.key]
  cases x.outline <;> simp

section Members

variable (t : ClassTree) (xs : List Member)

theorem ClassTree.mem_fields_iff {name : String} :
    name ∈ ({ t with members := xs }.outline).fields.map Prod.fst ↔
      ∃ x ∈ xs, x.key = .inl name := by
  simp only [ClassTree.outline, List.mem_map, List.mem_filterMap, Sum.getLeft?_eq_some_iff,
    Member.key_eq_inl_iff]
  tauto

theorem ClassTree.mem_methods_iff {sig : Subsig} :
    sig ∈ ({ t with members := xs }.outline).methods.map MethodOutline.sig ↔
      ∃ x ∈ xs, x.key = .inr sig := by
  simp only [ClassTree.outline, List.mem_map, List.mem_filterMap, Sum.getRight?_eq_some_iff,
    Member.key_eq_inr_iff]
  tauto

theorem ClassTree.outline_concat (x : Member) :
    { t with members := xs ++ [x] }.outline =
      { { t with members := xs }.outline with
        fields := { t with members := xs }.outline.fields ++ x.outline.getLeft?.toList
        methods := { t with members := xs }.outline.methods ++ x.outline.getRight?.toList } := by
  simp only [ClassTree.outline, List.filterMap_append, ClassOutline.mk.injEq, true_and]
  cases h : x.outline <;> simp [h]

end Members

namespace Entering

/-- Some members were entered into a class that `d₀` has already. -/
structure Stocked (d₀ : Draft) (c : ClassId) (t : ClassTree) (xs : List Member) (e : Draft) :
    Prop where
  regular : e.Regular
  keeps : d₀.Keeps {c} ∅ (xs.flatMap Member.classes) e
  classes : ∀ n ∈ xs.flatMap Member.classes, ∃ c, e.findClass? n = some c
  outline : ∃ x, e.cls c = .ok x ∧ e.outlineClass x = { t with members := xs }.outline

variable {d₀ e e' : Draft} {c : ClassId} {t : ClassTree} {xs : List Member}

theorem Stocked.concat (h : Stocked d₀ c t xs e) {x : Member} (hregular : e'.Regular)
    (hkeeps : e.Keeps {c} ∅ x.classes e')
    (hclasses : ∀ n ∈ x.classes, ∃ c, e'.findClass? n = some c)
    (houtline : ∃ z, e'.cls c = .ok z ∧ e'.outlineClass z = { t with members :=
  xs ++ [x] }.outline) :
    Stocked d₀ c t (xs ++ [x]) e' := by
  refine ⟨hregular, ?_, ?_, houtline⟩
  · rw [List.flatMap_append, List.flatMap_singleton]
    exact h.keeps.trans hkeeps
  · simp only [List.flatMap_append, List.flatMap_singleton, List.forall_mem_append]
    refine ⟨fun n hn => ?_, hclasses⟩
    obtain ⟨c', hc'⟩ := h.classes n hn
    exact ⟨c', hkeeps.names hc'⟩

theorem meets_names (ns : List Name) (d : Draft) :
    Meets (ns.mapM name) d (∀ n ∈ ns, n.text ∉ keywords) fun texts e => texts =
      ns.map Name.text ∧ e = d := by
  induction ns with
  | nil =>
    rw [List.mapM_nil]
    exact (Meets.pure ⟨rfl, rfl⟩).imp (by simp) fun _ _ _ => id
  | cons n ns ih =>
    rw [List.mapM_cons]
    refine ((meets_name n d).bind (q := ∀ n ∈ ns, n.text ∉ keywords) ?_).imp (by simp)
      fun _ _ _ => id
    rintro _ e ⟨rfl, heq⟩
    rw [heq]
    refine (ih.bind (q := True) ?_).imp (by simp) fun _ _ _ => id
    rintro _ e ⟨rfl, heq⟩
    exact .pure ⟨rfl, heq⟩

/-- Entering a field. -/
theorem meets_addField (he : Stocked d₀ c t xs e) (modifiers : List Modifier) (n : Name) :
    Meets (build (·.addField c n.text (decide (.static ∈ modifiers)))) e
      (∀ b ∈ xs, b.key ≠ (⟨modifiers, n, .field⟩ : Member).key)
      fun _ => Stocked d₀ c t (xs ++ [⟨modifiers, n, .field⟩]) := by
  obtain ⟨x, hx, houtline⟩ := he.outline
  refine Meets.build.imp ?_ fun f e' _ h => ?_
  · rw [Draft.addField_isOk_iff he.regular hx, houtline, ClassTree.mem_fields_iff]
    simp only [not_exists, not_and]
    rfl
  · obtain ⟨x', hx', houtline'⟩ := Draft.outlineClass_addField he.regular hx h
    refine he.concat (he.regular.addField h).1 (Draft.keeps_addField h)
      (fun _ hn => absurd hn List.not_mem_nil) ⟨x', hx', ?_⟩
    rw [houtline', houtline, ClassTree.outline_concat]
    simp [Member.outline, Member.isStatic]

/-- Entering a method with its body. -/
theorem meets_addMethod (he : Stocked d₀ c t xs e) (modifiers : List Modifier) (n : Name)
    (params : List Name) (body : Option (List Command)) :
    Meets (do
        let texts ← params.mapM name
        let m ← build (·.addMethod c n.text texts (decide (.static ∈ modifiers)) body.isNone)
        (body.getD []).forM (command m)) e
      ((∀ n ∈ params, n.text ∉ keywords) ∧
        ((∀ b ∈ xs, b.key ≠ (⟨modifiers, n, .method params body⟩ : Member).key) ∧
          (Draft.startNames (params.map Name.text) (decide (.static ∈ modifiers))).Nodup) ∧
        ∀ n ∈ (body.getD []).flatMap Command.names, n.text ∉ keywords)
      fun _ => Stocked d₀ c t (xs ++ [⟨modifiers, n, .method params body⟩]) := by
  obtain ⟨x, hx, houtline⟩ := he.outline
  refine (meets_names params e).bind ?_
  rintro _ e₁ ⟨rfl, heq⟩
  rw [heq]
  refine (Meets.build.bind fun m e₁ h => ?_).imp (and_congr_left fun _ => ?_) fun _ _ _ => id
  rotate_right
  · rw [Draft.addMethod_isOk_iff he.regular hx, houtline, ClassTree.mem_methods_iff]
    simp only [not_exists, not_and]
    rfl
  · obtain ⟨y, hy, hnew⟩ := Draft.outlineMethod_addMethod he.regular h
    have hfilled : Filled e₁ m (.of n.text (decide (.static ∈ modifiers)) body.isNone
        (params.map Name.text)) [] e₁ :=
      ⟨(he.regular.addMethod h).1, .refl e₁, fun _ hn => absurd hn List.not_mem_nil, y, hy, hnew⟩
    refine (meets_body hfilled (body.getD [])).imp Iff.rfl fun _ e₂ _ hbody => ?_
    obtain ⟨hkeeps, x', hx', houtline'⟩ := Draft.outlineClass_addMethod he.regular hx h hbody.keeps
    obtain ⟨y', hy', hfull⟩ := hbody.outline
    refine he.concat hbody.regular hkeeps hbody.classes ⟨x', hx', ?_⟩
    rw [houtline', houtline, ClassTree.outline_concat, Draft.methodOutline_of_method hy', hfull]
    simp [Member.outline, Member.isStatic]

theorem meets_member (he : Stocked d₀ c t xs e) (x : Member) :
    Meets (member c x) e (x.Acceptable ∧ ∀ b ∈ xs, b.key ≠ x.key) fun _ =>
      Stocked d₀ c t (xs ++ [x]) := by
  obtain ⟨modifiers, n, kind⟩ := x
  cases kind with
  | field =>
    refine ((meets_name n e).bind (q :=
      ∀ b ∈ xs, b.key ≠ (⟨modifiers, n, .field⟩ : Member).key) ?_).imp ?_ fun _ _ _ => id
    · rintro _ e₁ ⟨rfl, heq⟩
      rw [heq]
      refine ((meets_addField he modifiers n).bind (q := True) fun _ _ h => ?_).imp
        (.of_eq (and_true _)) fun _ _ _ => id
      exact .pure h
    · simp [Member.Acceptable, Member.names, MemberKind.names]
  | method params body =>
    refine ((meets_name n e).bind (q := ¬ (Modifier.abstract ∈ modifiers ∧ body.isSome) ∧
      (∀ n ∈ params, n.text ∉ keywords) ∧
        ((∀ b ∈ xs, b.key ≠ (⟨modifiers, n, .method params body⟩ : Member).key) ∧
          (Draft.startNames (params.map Name.text) (decide (Modifier.static ∈ modifiers))).Nodup) ∧
        ∀ n ∈ (body.getD []).flatMap Command.names, n.text ∉ keywords) ?_).imp ?_ fun _ _ _ => id
    · rintro _ e₁ ⟨rfl, heq⟩
      rw [heq]
      dsimp only
      split
      next habstract =>
        refine ((Meets.throw (P := fun _ _ => False)).bind (q := True) fun _ _ h => h.elim).imp ?_
          fun _ _ _ => id
        simp [habstract]
      next habstract =>
        exact (meets_addMethod he modifiers n params body).imp (by rw [and_iff_right habstract])
          fun _ _ _ => id
    · simp only [Member.Acceptable, Member.names, MemberKind.names, List.forall_mem_cons,
        List.forall_mem_append]
      tauto

theorem meets_members (he : Stocked d₀ c t [] e) (xs : List Member) :
    Meets (xs.forM (member c)) e ((∀ x ∈ xs, x.Acceptable) ∧ xs.Pairwise fun x y => x.key ≠ y.key)
      fun _ => Stocked d₀ c t xs :=
  Meets.forM (fun _ x _ hd => meets_member hd x) xs he

end Entering

end Text

end PointsTo
