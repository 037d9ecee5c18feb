import PointsTo.Proofs.Consistency

/-!
# Operations that fail

A draft refuses a second declaration of a class, a second field or method of the same name, and a
parameter that a method has already (`RefusesDuplicates`).

Here the operations are also carried out `InPlace`, step by step: a class is looked up, and
mentioned if need be, before it is known whether it may be declared, and a new method gets its
variables one after the other. Whatever such an operation has done to the draft when it fails stays
done. It has done nothing (`Built.eq_of_error`): in place, the operations give what they give at
once (`performAllInPlace_eq`), and a failure leaves the draft as it was. So one can go on after it
as if the operation had not been asked for. `failures_leave_nothing` puts this together.
-/

namespace PointsTo

/-! ## Repeated parameters -/

theorem firstRepeated?_eq_some_iff {seen names : List String} {name : String} :
    firstRepeated? seen names = some name ↔
      ∃ before after, names = before ++ name :: after ∧ firstRepeated? seen before = none ∧
        (name ∈ seen ∨ name ∈ before) := by
  induction names generalizing seen with
  | nil => simp [firstRepeated?]
  | cons n names ih =>
    by_cases hn : n ∈ seen
    · rw [firstRepeated?, if_pos hn]
      constructor
      · rintro ⟨⟩
        exact ⟨[], names, rfl, rfl, .inl hn⟩
      · rintro ⟨before, after, heq, hnone, -⟩
        cases before with
        | nil =>
          cases heq
          rfl
        | cons b before =>
          cases heq
          rw [firstRepeated?, if_pos hn] at hnone
          cases hnone
    · rw [firstRepeated?, if_neg hn, ih]
      constructor
      · rintro ⟨before, after, rfl, hnone, hname⟩
        refine ⟨n :: before, after, rfl, ?_, ?_⟩
        · rwa [firstRepeated?, if_neg hn]
        · simp only [List.mem_cons] at hname ⊢
          tauto
      · rintro ⟨before, after, heq, hnone, hname⟩
        cases before with
        | nil =>
          cases heq
          exact absurd (hname.resolve_right List.not_mem_nil) hn
        | cons b before =>
          cases heq
          rw [firstRepeated?, if_neg hn] at hnone
          refine ⟨before, after, rfl, hnone, ?_⟩
          simp only [List.mem_cons] at hname ⊢
          tauto

/-- A parameter is one of those before it, or is named like the receiver of a method that has
one. -/
def Offends (isStatic : Bool) (before : List String) (param : String) : Prop :=
  param ∈ before ∨ isStatic = false ∧ param = "this"

/-- A parameter offends, and none before it does. -/
def FirstOffender (isStatic : Bool) (params : List String) (param : String) : Prop :=
  ∃ before after, params = before ++ param :: after ∧ Offends isStatic before param ∧
    ∀ earlier q later, before = earlier ++ q :: later → ¬ Offends isStatic earlier q

section Offenders

variable {isStatic : Bool} {params before : List String} {param : String}

theorem offends_iff :
    Offends isStatic before param ↔ param ∈ (if isStatic then [] else ["this"]) ∨
      param ∈ before := by
  rw [Offends, or_comm]
  cases isStatic <;> simp

theorem not_offends_of_firstRepeated?
    (h : firstRepeated? (if isStatic then [] else ["this"]) params = none) {later : List String}
    (hparams : params = before ++ param :: later) : ¬ Offends isStatic before param := by
  obtain ⟨hnodup, hseen⟩ := firstRepeated?_eq_none_iff.1 h
  subst hparams
  rw [offends_iff, not_or]
  refine ⟨hseen param (by simp), fun hmem => ?_⟩
  exact (List.nodup_append.1 hnodup).2.2 param hmem param (List.mem_cons_self ..) rfl

theorem firstRepeated?_eq_some_iff_firstOffender :
    firstRepeated? (if isStatic then [] else ["this"]) params = some param ↔
      FirstOffender isStatic params param := by
  rw [firstRepeated?_eq_some_iff]
  constructor
  · rintro ⟨before, after, rfl, hnone, hparam⟩
    exact ⟨before, after, rfl, offends_iff.2 hparam,
      fun _ _ _ heq => not_offends_of_firstRepeated? hnone heq⟩
  · rintro ⟨before, after, rfl, hparam, hearlier⟩
    refine ⟨before, after, rfl, ?_, offends_iff.1 hparam⟩
    cases hfirst : firstRepeated? (if isStatic then [] else ["this"]) before with
    | none => rfl
    | some q =>
      obtain ⟨earlier, later, heq, -, hq⟩ := firstRepeated?_eq_some_iff.1 hfirst
      exact absurd (offends_iff.2 hq) (hearlier earlier q later heq)

/-- There is a first one that offends if any does. -/
theorem exists_firstOffender_iff :
    (∃ param, FirstOffender isStatic params param) ↔
      ∃ before param after, params = before ++ param :: after ∧ Offends isStatic before param := by
  constructor
  · rintro ⟨param, before, after, heq, hparam, -⟩
    exact ⟨before, param, after, heq, hparam⟩
  · rintro ⟨before, param, after, heq, hparam⟩
    cases hfirst : firstRepeated? (if isStatic then [] else ["this"]) params with
    | none => exact absurd hparam (not_offends_of_firstRepeated? hfirst heq)
    | some q => exact ⟨q, firstRepeated?_eq_some_iff_firstOffender.1 hfirst⟩

end Offenders

/-- A class gets one more field. -/
def Class.withField (f : FieldId) (x : Class) : Class := { x with fields := x.fields ++ [f] }

/-- A class gets one more method. -/
def Class.withMethod (sig : Subsig) (m : MethodId) (x : Class) : Class :=
  { x with methods := x.methods ++ [(sig, m)] }

/-- A method gets further variables. -/
def Method.gain (vs : List VarId) (y : Method) : Method := { y with vars := y.vars ++ vs.toArray }

theorem Method.gain_gain (vs ws : List VarId) (y : Method) :
    (y.gain vs).gain ws = y.gain (vs ++ ws) := by
  simp [gain]

namespace Draft

variable {d e : Draft}

/-! ## What is refused -/

/-- A class declares a method of a name with so many parameters. -/
def HasMethod (d : Draft) (c : ClassId) (name : String) (arity : Nat) : Prop :=
  ∃ m y, d.method m = .ok y ∧ y.cls = c ∧ y.name = name ∧ y.params.length = arity

/-- The operations on classes that exist refuse duplicates, and nothing else. -/
structure RefusesDuplicates (d : Draft) : Prop where
  declareClass : ∀ name header err, d.declareClass name header = .error err ↔
    err = .duplicateClass name ∧ ∃ c x, d.cls c = .ok x ∧ x.name = name ∧ x.declared = true
  addField : ∀ c x, d.cls c = .ok x → ∀ name isStatic err, d.addField c name isStatic = .error err ↔
    err = .duplicateField x.name name ∧ ∃ f z, d.field f = .ok z ∧ z.cls = c ∧ z.name = name
  addMethod : ∀ c x, d.cls c = .ok x → ∀ name params isStatic isAbstract err,
    d.addMethod c name params isStatic isAbstract = .error err ↔
      (err = .duplicateMethod x.name ⟨name, params.length⟩ ∧ d.HasMethod c name params.length) ∨
      (¬ d.HasMethod c name params.length ∧
        ∃ param, err = .duplicateParam x.name name param ∧ FirstOffender isStatic params param)
  addMethod_fails : ∀ c x, d.cls c = .ok x → ∀ name params isStatic isAbstract,
    (∃ err, d.addMethod c name params isStatic isAbstract = .error err) ↔
      d.HasMethod c name params.length ∨
      ∃ before param after, params = before ++ param :: after ∧ Offends isStatic before param

/-- A class that is there already is found, and one that is mentioned now is not declared. -/
theorem internClass_of_declared {name : String} {x : Class}
    (hx : (d.internClass name).2.cls (d.internClass name).1 = .ok x)
    (hdeclared : x.declared = true) :
    (d.internClass name).2 = d := by
  cases h : d.findClass? name with
  | some c => rw [internClass, h]
  | none =>
    have hsnd := d.internClass_snd name
    have hnew : ∀ y ∈ (d.internClass name).2.classes.toList, y ∈ d.classes.toList ∨
        y = { name } := by
      intro y hy
      rw [hsnd] at hy
      exact (Catalog.mem_toList_add.1 hy).imp_right And.left
    obtain ⟨y, hy, hname⟩ := findClass?_eq_some_iff.1 (d.findClass?_internClass name)
    cases hx.symm.trans hy
    rcases hnew x (mem_toList_of_fetch hx) with hold | rfl
    · obtain ⟨i, hi⟩ := Catalog.mem_toList_iff.1 hold
      have hfound : d.findClass? name = some ⟨i⟩ :=
        findClass?_eq_some_iff.2 ⟨x, fetch_eq_ok_iff.2 hi, hname⟩
      rw [h] at hfound
      cases hfound
    · cases hdeclared

theorem declareClass_eq {name : String} {x : Class}
    (hx : (d.internClass name).2.cls (d.internClass name).1 = .ok x) (header : Header) :
    d.declareClass name header =
      if x.declared then .error (.duplicateClass name)
      else .ok ((d.internClass name).1,
        { (d.internClass name).2 with
          classes :=
  (d.internClass name).2.classes.modify (d.internClass name).1.index (Class.declaredAs header)
            fun _ => rfl }) := by
  rw [declareClass]
  simp only [hx, Except.mapError, bind, Except.bind]
  split <;> rfl

theorem declareClass_eq_error_iff {name : String} {header : Header} {err : BuildError} :
    d.declareClass name header = .error err ↔
      err = .duplicateClass name ∧ ∃ c x, d.cls c = .ok x ∧ x.name = name ∧ x.declared = true := by
  obtain ⟨x, hx, hname⟩ := findClass?_eq_some_iff.1 (d.findClass?_internClass name)
  rw [declareClass_eq hx]
  split
  next hdeclared =>
    have hsame := internClass_of_declared hx hdeclared
    rw [hsame] at hx
    constructor
    · rintro ⟨⟩
      exact ⟨rfl, _, x, hx, hname, hdeclared⟩
    · rintro ⟨rfl, -⟩
      rfl
  next hfresh =>
    refine ⟨fun h => (by cases h), ?_⟩
    rintro ⟨-, c, y, hy, hyname, hdeclared⟩
    -- the class that is found is the declared one
    have hfind : d.findClass? name = some c := findClass?_eq_some_iff.2 ⟨y, hy, hyname⟩
    simp only [internClass, hfind] at hx
    cases hx.symm.trans hy
    exact absurd hdeclared hfresh

theorem addField_eq {c : ClassId} {x : Class} (hx : d.cls c = .ok x) (name : String)
    (isStatic : Bool) :
    d.addField c name isStatic =
      if x.fields.any fun f => d.fields[f.index]?.any fun z => z.name = name then
        .error (.duplicateField x.name name)
      else .ok (⟨d.fields.size⟩,
        { d with
          fields := d.fields.push { name, cls := c, isStatic }
          classes := d.classes.modify c.index (Class.withField ⟨d.fields.size⟩)
            fun _ => rfl }) := by
  rw [addField, hx]
  simp only [Except.mapError, bind, Except.bind]
  split <;> rfl

theorem Built.addField_eq_error_iff (h : d.Built) {c : ClassId} {x : Class} (hx : d.cls c = .ok x)
    {name : String} {isStatic : Bool} {err : BuildError} :
    d.addField c name isStatic = .error err ↔
      err = .duplicateField x.name name ∧ ∃ f z, d.field f = .ok z ∧ z.cls = c ∧ z.name = name := by
  have hany : (x.fields.any fun f => d.fields[f.index]?.any fun z => z.name = name) = true ↔
      ∃ f z, d.field f = .ok z ∧ z.cls = c ∧ z.name = name := by
    simp only [List.any_eq_true, Option.any_eq_true, decide_eq_true_eq]
    constructor
    · rintro ⟨f, hf, z, hz, hname⟩
      obtain ⟨z', hz', hcls⟩ := (h.fields_iff c f).1 ⟨x, hx, hf⟩
      cases (fetch_eq_ok_iff.2 hz : d.field f = .ok z).symm.trans hz'
      exact ⟨f, z, hz', hcls, hname⟩
    · rintro ⟨f, z, hz, hcls, hname⟩
      obtain ⟨x', hx', hf⟩ := (h.fields_iff c f).2 ⟨z, hz, hcls⟩
      cases hx.symm.trans hx'
      exact ⟨f, hf, z, fetch_eq_ok_iff.1 hz, hname⟩
  rw [addField_eq hx, ← hany]
  split
  next hdup =>
    simp only [hdup, and_true, Except.error.injEq]
    exact eq_comm
  next hfresh =>
    refine ⟨fun heq => (by cases heq), ?_⟩
    rintro ⟨-, hdup⟩
    exact absurd hdup hfresh

/-- The draft with a new method and its variables. -/
def withNewMethod (d : Draft) (c : ClassId) (name : String) (params : List String)
    (isStatic isAbstract : Bool) : Draft :=
  { d with
    methods := d.methods.push (d.newMethod c name params isStatic isAbstract)
    vars :=
      (startNames params isStatic).foldl (fun vars name => vars.add ⟨name, ⟨d.methods.size⟩⟩) d.vars
    classes :=
      d.classes.modify c.index (Class.withMethod ⟨name, params.length⟩ ⟨d.methods.size⟩)
      fun _ => rfl }

theorem addMethod_eq {c : ClassId} {x : Class} (hx : d.cls c = .ok x) (name : String)
    (params : List String) (isStatic isAbstract : Bool) :
    d.addMethod c name params isStatic isAbstract =
      if (x.method? ⟨name, params.length⟩).isSome then
        .error (.duplicateMethod x.name ⟨name, params.length⟩)
      else match firstRepeated? (if isStatic then [] else ["this"]) params with
      | some param => .error (.duplicateParam x.name name param)
      | none => .ok (⟨d.methods.size⟩, d.withNewMethod c name params isStatic isAbstract) := by
  rw [addMethod, hx]
  simp only [Except.mapError, bind, Except.bind]
  cases (x.method? ⟨name, params.length⟩).isSome with
  | true => rfl
  | false => cases firstRepeated? (if isStatic then [] else ["this"]) params <;> rfl

theorem Built.isSome_method?_iff (h : d.Built) {c : ClassId} {x : Class} (hx : d.cls c = .ok x)
    {name : String} {arity : Nat} :
    (x.method? ⟨name, arity⟩).isSome = true ↔ d.HasMethod c name arity := by
  rw [Option.isSome_iff_exists]
  constructor
  · rintro ⟨m, hm⟩
    obtain ⟨y, hy, hcls, hsig⟩ := (h.methods_iff c ⟨name, arity⟩ m).1 ⟨x, hx, hm⟩
    rw [Method.sig, Subsig.mk.injEq] at hsig
    exact ⟨m, y, hy, hcls, hsig⟩
  · rintro ⟨m, y, hy, hcls, hname, harity⟩
    have hsig : y.sig = ⟨name, arity⟩ := by rw [Method.sig, hname, harity]
    obtain ⟨x', hx', hm⟩ := (h.methods_iff c ⟨name, arity⟩ m).2 ⟨y, hy, hcls, hsig⟩
    cases hx.symm.trans hx'
    exact ⟨m, hm⟩

theorem Built.addMethod_eq_error_iff (h : d.Built) {c : ClassId} {x : Class} (hx : d.cls c = .ok x)
    {name : String} {params : List String} {isStatic isAbstract : Bool} {err : BuildError} :
    d.addMethod c name params isStatic isAbstract = .error err ↔
      (err = .duplicateMethod x.name ⟨name, params.length⟩ ∧ d.HasMethod c name params.length) ∨
      (¬ d.HasMethod c name params.length ∧
        ∃ param, err = .duplicateParam x.name name param ∧
          FirstOffender isStatic params param) := by
  rw [addMethod_eq hx, ← h.isSome_method?_iff hx]
  split
  next hdup =>
    simp only [hdup, and_true, not_true_eq_false, false_and, or_false, Except.error.injEq]
    exact eq_comm
  next hfresh =>
    simp only [hfresh, Bool.false_eq_true, not_false_eq_true, true_and, and_false, false_or,
      ← firstRepeated?_eq_some_iff_firstOffender]
    cases firstRepeated? (if isStatic then [] else ["this"]) params with
    | none => simp
    | some param =>
      simp only [Except.error.injEq, Option.some.injEq]
      constructor
      · rintro rfl
        exact ⟨param, rfl, rfl⟩
      · rintro ⟨q, rfl, rfl⟩
        rfl

theorem Built.addMethod_fails_iff (h : d.Built) {c : ClassId} {x : Class} (hx : d.cls c = .ok x)
    {name : String} {params : List String} {isStatic isAbstract : Bool} :
    (∃ err, d.addMethod c name params isStatic isAbstract = .error err) ↔
      d.HasMethod c name params.length ∨
      ∃ before param after, params = before ++ param :: after ∧ Offends isStatic before param := by
  rw [← exists_firstOffender_iff]
  simp only [h.addMethod_eq_error_iff hx]
  constructor
  · rintro ⟨err, ⟨-, hdup⟩ | ⟨-, param, -, hparam⟩⟩
    · exact .inl hdup
    · exact .inr ⟨param, hparam⟩
  · intro hfails
    by_cases hdup : d.HasMethod c name params.length
    · exact ⟨_, .inl ⟨rfl, hdup⟩⟩
    · obtain ⟨param, hparam⟩ := hfails.resolve_left hdup
      exact ⟨_, .inr ⟨hdup, param, rfl, hparam⟩⟩

theorem Built.refusesDuplicates (h : d.Built) : d.RefusesDuplicates where
  declareClass _ _ _ := declareClass_eq_error_iff
  addField _ _ hx _ _ _ := h.addField_eq_error_iff hx
  addMethod _ _ hx _ _ _ _ _ := h.addMethod_eq_error_iff hx
  addMethod_fails _ _ hx _ _ _ _ := h.addMethod_fails_iff hx

/-! ## In place -/

/-- A computation that changes a draft in place. What it has done when it fails stays done. -/
abbrev InPlace (α : Type) := EStateM BuildError Draft α

/-- What an operation leaves that takes effect at once: the new draft, or the old one if it
fails. -/
def outcome {α : Type} (d : Draft) :
    Except BuildError (α × Draft) → EStateM.Result BuildError Draft α
  | .ok (a, e) => .ok a e
  | .error err => .error err d

namespace InPlace

def atOnce {α : Type} (f : Draft → Except BuildError (α × Draft)) : InPlace α :=
  fun d => d.outcome (f d)

def classOf (c : ClassId) : InPlace Class := fun d =>
  match d.cls c with
  | .ok x => .ok x d
  | .error id => .error (.dangling id) d

def internVar (m : MethodId) (name : String) : InPlace VarId := atOnce (·.internVar m name)

def internVars (m : MethodId) : List String → InPlace (List VarId)
  | [] => return []
  | name :: names => do
    let v ← internVar m name
    let vs ← internVars m names
    return v :: vs

/-- The class is mentioned first, if it was not before. -/
def declareClass (name : String) (header : Header) : InPlace ClassId := do
  let c ← modifyGet (·.internClass name)
  if (← classOf c).declared then throw (.duplicateClass name)
  modify fun d =>
    { d with classes := d.classes.modify c.index (Class.declaredAs header) fun _ => rfl }
  return c

/-- The field gets its record first, and the class its field then. -/
def addField (c : ClassId) (name : String) (isStatic : Bool) : InPlace FieldId := do
  let x ← classOf c
  let fields := (← get).fields
  if x.fields.any fun f => fields[f.index]?.any fun z => z.name = name then
    throw (.duplicateField x.name name)
  let f : FieldId := ⟨fields.size⟩
  modify fun d => { d with fields := d.fields.push { name, cls := c, isStatic } }
  modify fun d => { d with classes := d.classes.modify c.index (Class.withField f) fun _ => rfl }
  return f

def setThis (m : MethodId) (v : VarId) : InPlace Unit :=
  modify fun d => { d with methods := d.methods.modify m.index fun y => { y with this := some v } }

def setParams (m : MethodId) (vs : List VarId) : InPlace Unit :=
  modify fun d => { d with methods := d.methods.modify m.index fun y => { y with params := vs } }

/-- The record of the method comes first, without variables. Its receiver and its parameters are
variables that it gets later. -/
def enterMethod (c : ClassId) (name : String) (params : List String) (isStatic isAbstract : Bool) :
    InPlace MethodId := do
  let m : MethodId := ⟨(← get).methods.size⟩
  let bare : Method :=
    { name, cls := c, isStatic, isAbstract, params := [], this := none, vars := #[] }
  modify fun d => { d with methods := d.methods.push bare }
  modify fun d => { d with
    classes := d.classes.modify c.index (Class.withMethod ⟨name, params.length⟩ m) fun _ => rfl }
  unless isStatic do setThis m (← internVar m "this")
  setParams m (← internVars m params)
  return m

def addMethod (c : ClassId) (name : String) (params : List String) (isStatic isAbstract : Bool) :
    InPlace MethodId := do
  let x ← classOf c
  let sig : Subsig := ⟨name, params.length⟩
  if (x.method? sig).isSome then throw (.duplicateMethod x.name sig)
  if let some param := firstRepeated? (if isStatic then [] else ["this"]) params then
    throw (.duplicateParam x.name name param)
  enterMethod c name params isStatic isAbstract

section Steps

variable {α β : Type} {x : InPlace α} {f : α → InPlace β} {a : α}

theorem bind_of_ok (h : x.run d = .ok a e) : (x >>= f).run d = (f a).run e := by
  rw [EStateM.run_bind, h]

theorem bind_of_error {err : BuildError} (h : x.run d = .error err e) :
    (x >>= f).run d = .error err e := by
  rw [EStateM.run_bind, h]

theorem classOf_of_ok {c : ClassId} {x : Class} (hx : d.cls c = .ok x) :
    (classOf c).run d = .ok x d := by
  rw [EStateM.run, classOf, hx]

theorem classOf_of_error {c : ClassId} {id : Dangling} (hx : d.cls c = .error id) :
    (classOf c).run d = .error (.dangling id) d := by
  rw [EStateM.run, classOf, hx]

end Steps

theorem declareClass_eq_outcome (d : Draft) (name : String) (header : Header) :
    (declareClass name header).run d = d.outcome (d.declareClass name header) := by
  obtain ⟨x, hx, -⟩ := findClass?_eq_some_iff.1 (d.findClass?_internClass name)
  have hintern : (modifyGet (·.internClass name) : InPlace ClassId).run d =
      .ok (d.internClass name).1 (d.internClass name).2 := rfl
  rw [declareClass, bind_of_ok hintern, bind_of_ok (classOf_of_ok hx), Draft.declareClass_eq hx]
  cases hdeclared : x.declared with
  | true =>
    -- the class was there before, so that mentioning it has changed nothing
    have hsame := internClass_of_declared hx hdeclared
    rw [if_pos rfl, if_pos rfl, hsame]
    rfl
  | false => rfl

theorem addField_eq_outcome (d : Draft) (c : ClassId) (name : String) (isStatic : Bool) :
    (addField c name isStatic).run d = d.outcome (d.addField c name isStatic) := by
  cases hx : d.cls c with
  | error id =>
    rw [addField, bind_of_error (classOf_of_error hx), Draft.addField, hx]
    rfl
  | ok x =>
    have hget : (get : InPlace Draft).run d = .ok d d := rfl
    rw [addField, bind_of_ok (classOf_of_ok hx), bind_of_ok hget, Draft.addField_eq hx]
    dsimp only
    cases x.fields.any fun f => d.fields[f.index]?.any fun z => z.name = name with
    | true => rfl
    | false => rfl

end InPlace

/-! ## New variables -/

/-- The ids of the next variables. -/
def nextVars (d : Draft) (n : Nat) : List VarId := (List.range' d.vars.size n).map Id.mk

/-- A method gets further variables. -/
def withVars (d : Draft) (m : MethodId) (names : List String) : Draft :=
  { d with
    vars := names.foldl (fun vars name => vars.add ⟨name, m⟩) d.vars
    methods := d.methods.modify m.index (Method.gain (d.nextVars names.length)) }

theorem modify_modify {α : Type} (xs : Array α) (i : Nat) (f g : α → α) :
    (xs.modify i f).modify i g = xs.modify i fun x => g (f x) := by
  refine Array.ext_getElem? fun j => ?_
  simp only [Array.getElem?_modify]
  split
  · rw [Option.map_map]
    rfl
  · rfl

theorem modify_push {α : Type} (xs : Array α) (x : α) (f : α → α) :
    (xs.push x).modify xs.size f = xs.push (f x) := by
  refine Array.ext_getElem? fun j => ?_
  simp only [Array.getElem?_modify, Array.getElem?_push]
  by_cases hj : j = xs.size
  · simp [hj]
  · rw [if_neg (Ne.symm hj), if_neg hj, if_neg hj]

section NewVars

variable {m : MethodId} {name : String} {names : List String}

theorem withVars_nil (d : Draft) (m : MethodId) : d.withVars m [] = d := by
  have hmethods : d.methods.modify m.index (Method.gain []) = d.methods := by
    refine Array.ext_getElem? fun j => ?_
    rw [Array.getElem?_modify]
    split
    · have hgain : Method.gain [] = id := by
        funext y
        simp [Method.gain]
      rw [hgain, Option.map_id, id]
    · rfl
  exact congrArg (fun methods => { d with methods }) hmethods

theorem has_withVars (hm : d.Has m) (names : List String) : (d.withVars m names).Has m := by
  have hsize : (d.withVars m names).methods.size = d.methods.size := Array.size_modify
  exact Nat.lt_of_lt_of_eq hm hsize.symm

/-- After a variable is added, those of other names are still new. -/
theorem var_withVars_ne (hnew : ∀ v, d.var v ≠ .ok ⟨name, m⟩) {n : String} (hne : n ≠ name)
    (hn : ∀ v, d.var v ≠ .ok ⟨n, m⟩) (v : VarId) : (d.withVars m [name]).var v ≠ .ok ⟨n, m⟩ := by
  intro hv
  change fetch (d.vars.add ⟨name, m⟩).items v = _ at hv
  rw [items_add_var hnew] at hv
  obtain hv | ⟨-, hv⟩ := fetch_push_cases hv
  · exact hn v hv
  · cases hv
    exact hne rfl

theorem nextVars_cons (hnew : ∀ v, d.var v ≠ .ok ⟨name, m⟩) (n : Nat) :
    d.nextVars (n + 1) = ⟨d.vars.size⟩ :: (d.withVars m [name]).nextVars n := by
  have hsize : (d.withVars m [name]).vars.size = d.vars.size + 1 := by
    change (d.vars.add ⟨name, m⟩).items.size = _
    rw [items_add_var hnew, Array.size_push]
    rfl
  rw [nextVars, nextVars, List.range'_succ, List.map_cons, hsize]

theorem withVars_cons (hnew : ∀ v, d.var v ≠ .ok ⟨name, m⟩) :
    (d.withVars m [name]).withVars m names = d.withVars m (name :: names) := by
  have hmethods : (d.methods.modify m.index (Method.gain (d.nextVars 1))).modify m.index
      (Method.gain ((d.withVars m [name]).nextVars names.length)) =
        d.methods.modify m.index (Method.gain (d.nextVars (names.length + 1))) := by
    simp only [modify_modify, Method.gain_gain, nextVars_cons hnew]
    rfl
  exact congrArg (fun methods => { d with
    vars := (name :: names).foldl (fun vars name => vars.add ⟨name, m⟩) d.vars
    methods }) hmethods

end NewVars

/-- The draft when a new method has a record but no variables. -/
def withBareMethod (d : Draft) (c : ClassId) (name : String) (params : List String)
    (isStatic isAbstract : Bool) : Draft :=
  { d with
    methods := d.methods.push
      { name, cls := c, isStatic, isAbstract, params := [], this := none, vars := #[] }
    classes := d.classes.modify c.index (Class.withMethod ⟨name, params.length⟩ ⟨d.methods.size⟩)
      fun _ => rfl }

section NewMethods

variable {c : ClassId} {name : String} {params : List String} {isStatic isAbstract : Bool}

theorem has_withBareMethod (d : Draft) :
    (d.withBareMethod c name params isStatic isAbstract).Has (⟨d.methods.size⟩ : MethodId) := by
  change d.methods.size < (d.methods.push _).size
  rw [Array.size_push]
  exact Nat.lt_succ_self _

theorem Built.var_withBareMethod_ne (hd : d.Built) (n : String) (v : VarId) :
    (d.withBareMethod c name params isStatic isAbstract).var v ≠ .ok ⟨n, ⟨d.methods.size⟩⟩ := by
  intro hv
  obtain ⟨y, hy, -⟩ := hd.listed.vars v ⟨n, ⟨d.methods.size⟩⟩ hv
  exact absurd (exists_method_iff.1 ⟨y, hy⟩) (Nat.lt_irrefl _)

end NewMethods

namespace InPlace

section NewVars

variable {m : MethodId} {name : String} {names : List String}

theorem internVar_of_new (hm : d.Has m) (hnew : ∀ v, d.var v ≠ .ok ⟨name, m⟩) :
    (internVar m name).run d = .ok ⟨d.vars.size⟩ (d.withVars m [name]) := by
  have hgain : (fun y : Method => { y with vars := y.vars.push ⟨d.vars.size⟩ }) =
      Method.gain (d.nextVars 1) := by
    funext y
    simp [Method.gain, nextVars]
  rw [internVar, EStateM.run, atOnce, internVar_eq_ok_iff.2 ⟨hm, .inr ⟨hnew, rfl, rfl⟩⟩, hgain]
  rfl

/-- New variables of a method are added one after the other. -/
theorem internVars_of_new (hm : d.Has m) (hnodup : names.Nodup)
    (hnew : ∀ n ∈ names, ∀ v, d.var v ≠ .ok ⟨n, m⟩) :
    (internVars m names).run d = .ok (d.nextVars names.length) (d.withVars m names) := by
  induction names generalizing d with
  | nil =>
    rw [withVars_nil]
    rfl
  | cons name names ih =>
    obtain ⟨hname, hnodup⟩ := List.nodup_cons.1 hnodup
    obtain ⟨hfirst, hrest⟩ := List.forall_mem_cons.1 hnew
    have hstill : ∀ n ∈ names, ∀ v, (d.withVars m [name]).var v ≠ .ok ⟨n, m⟩ := fun n hn =>
      var_withVars_ne hfirst (fun heq => hname (heq ▸ hn)) (hrest n hn)
    rw [internVars, bind_of_ok (internVar_of_new hm hfirst),
      bind_of_ok (ih (has_withVars hm _) hnodup hstill),
      withVars_cons hfirst, List.length_cons, nextVars_cons hfirst]
    rfl

end NewVars

section NewMethods

variable {c : ClassId} {name : String} {params : List String} {isStatic isAbstract : Bool}

theorem enterMethod_of_static (hd : d.Built) (hnodup : params.Nodup) :
    (enterMethod c name params true isAbstract).run d =
      .ok ⟨d.methods.size⟩ (d.withNewMethod c name params true isAbstract) := by
  let m : MethodId := ⟨d.methods.size⟩
  let bare := d.withBareMethod c name params true isAbstract
  change (internVars m params >>= fun vs => setParams m vs >>= fun _ => return m).run bare = _
  rw [bind_of_ok (internVars_of_new d.has_withBareMethod hnodup
    fun n _ => hd.var_withBareMethod_ne n)]
  have hmethods :
      ((bare.methods.modify m.index (Method.gain (bare.nextVars params.length))).modify m.index
      fun y => { y with params := bare.nextVars params.length }) =
        d.methods.push (d.newMethod c name params true isAbstract) := by
    simp only [bare, withBareMethod, m, modify_push]
    simp [newMethod, startVars, startNames, nextVars, Method.gain]
  exact congrArg (fun methods => EStateM.Result.ok m
    { bare.withVars m params with methods }) hmethods

theorem enterMethod_of_instance (hd : d.Built) (hthis : "this" ∉ params) (hnodup : params.Nodup) :
    (enterMethod c name params false isAbstract).run d =
      .ok ⟨d.methods.size⟩ (d.withNewMethod c name params false isAbstract) := by
  let m : MethodId := ⟨d.methods.size⟩
  let bare := d.withBareMethod c name params false isAbstract
  have hnew : ∀ n v, bare.var v ≠ .ok ⟨n, m⟩ := hd.var_withBareMethod_ne
  -- the draft when the method has its receiver
  let received : Draft :=
    { bare.withVars m ["this"] with
      methods :=
        (bare.withVars m ["this"]).methods.modify m.index
        fun y => { y with this := some ⟨d.vars.size⟩ } }
  have hm : received.Has m := by
    have hsize : received.methods.size = (bare.withVars m ["this"]).methods.size :=
      Array.size_modify
    exact Nat.lt_of_lt_of_eq (has_withVars d.has_withBareMethod _) hsize.symm
  have hstill : ∀ n ∈ params, ∀ v, received.var v ≠ .ok ⟨n, m⟩ := fun n hn =>
    var_withVars_ne (hnew "this") (fun heq => hthis (heq ▸ hn)) (hnew n)
  change (internVar m "this" >>= fun v => setThis m v >>= fun _ =>
    internVars m params >>= fun vs => setParams m vs >>= fun _ => return m).run bare = _
  rw [bind_of_ok (internVar_of_new d.has_withBareMethod (hnew "this"))]
  change (internVars m params >>= fun vs => setParams m vs >>= fun _ => return m).run received = _
  rw [bind_of_ok (internVars_of_new hm hnodup hstill)]
  have hmethods :
      ((received.methods.modify m.index
        (Method.gain (received.nextVars params.length))).modify m.index
      fun y => { y with params := received.nextVars params.length }) =
        d.methods.push (d.newMethod c name params false isAbstract) := by
    have hstart : d.startVars params false = ⟨d.vars.size⟩ :: received.nextVars params.length :=
      nextVars_cons (hnew "this") params.length
    rw [newMethod, hstart]
    generalize received.nextVars params.length = vs
    simp only [received, withVars, bare, withBareMethod, m, modify_push]
    simp [nextVars, Method.gain]
  exact congrArg (fun methods => EStateM.Result.ok m
    { received.withVars m params with methods }) hmethods

theorem enterMethod_of_new (hd : d.Built) (hnodup : (startNames params isStatic).Nodup) :
    (enterMethod c name params isStatic isAbstract).run d =
      .ok ⟨d.methods.size⟩ (d.withNewMethod c name params isStatic isAbstract) := by
  cases isStatic with
  | true => exact enterMethod_of_static hd hnodup
  | false =>
    obtain ⟨hthis, hparams⟩ : "this" ∉ params ∧ params.Nodup := List.nodup_cons.1 hnodup
    exact enterMethod_of_instance hd hthis hparams

end NewMethods

theorem addMethod_eq_outcome (hd : d.Built) (c : ClassId) (name : String) (params : List String)
    (isStatic isAbstract : Bool) :
    (addMethod c name params isStatic isAbstract).run d =
      d.outcome (d.addMethod c name params isStatic isAbstract) := by
  cases hx : d.cls c with
  | error id =>
    rw [addMethod, bind_of_error (classOf_of_error hx), Draft.addMethod, hx]
    rfl
  | ok x =>
    rw [addMethod, bind_of_ok (classOf_of_ok hx), Draft.addMethod_eq hx]
    dsimp only
    cases (x.method? ⟨name, params.length⟩).isSome with
    | true => rfl
    | false =>
      cases hrepeated : firstRepeated? (if isStatic then [] else ["this"]) params with
      | some param => rfl
      | none => exact enterMethod_of_new hd (firstRepeated?_startNames.1 hrepeated)

end InPlace

/-! ## Going on -/

/-- An operation without its result. -/
def InPlace.forget {α : Type} (x : InPlace α) : InPlace Unit := do
  let _ ← x
  return

def Operation.inPlace : Operation → InPlace Unit
  | .internClass name => modify fun d => (d.internClass name).2
  | .declareClass name header => (InPlace.declareClass name header).forget
  | .addField c name isStatic => (InPlace.addField c name isStatic).forget
  | .addMethod c name params isStatic isAbstract =>
    (InPlace.addMethod c name params isStatic isAbstract).forget
  | .internVar m name => (InPlace.internVar m name).forget
  | .pushStmt m stmt => (InPlace.atOnce (·.pushStmt m stmt)).forget
  | .findMethods _ _ => return
  | .setEntry m => modify (·.setEntry m)

/-- The draft to go on with, also after an operation that failed, is the one that it leaves. There
is none if an id was looked up that names nothing. -/
def goOn : EStateM.Result BuildError Draft Unit → Except Dangling Draft
  | .ok _ e => .ok e
  | .error (.dangling id) _ => .error id
  | .error _ e => .ok e

def performInPlace (d : Draft) (op : Operation) : Except Dangling Draft := goOn (op.inPlace.run d)

/-- The draft that operations lead to from nothing, each of them carried out in place. -/
def performAllInPlace (ops : List Operation) : Except Dangling Draft := ops.foldlM performInPlace {}

section Outcomes

variable {α : Type} {x : InPlace α} {r : Except BuildError (α × Draft)}

theorem goOn_forget (h : x.run d = d.outcome r) : goOn (x.forget.run d) = d.resume r := by
  cases r with
  | ok r =>
    rw [InPlace.forget, InPlace.bind_of_ok h]
    rfl
  | error err =>
    rw [InPlace.forget, InPlace.bind_of_error h]
    cases err <;> rfl

theorem eq_of_forget_error (h : x.run d = d.outcome r) {err : BuildError}
    (herr : x.forget.run d = .error err e) : e = d := by
  cases r with
  | ok r =>
    rw [InPlace.forget, InPlace.bind_of_ok h] at herr
    cases herr
  | error err =>
    rw [InPlace.forget, InPlace.bind_of_error h] at herr
    cases herr
    rfl

end Outcomes

theorem Built.performInPlace_eq (hd : d.Built) (op : Operation) :
    d.performInPlace op = d.perform op := by
  cases op with
  | declareClass name header => exact goOn_forget (InPlace.declareClass_eq_outcome d name header)
  | addField c name isStatic => exact goOn_forget (InPlace.addField_eq_outcome d c name isStatic)
  | addMethod c name params isStatic isAbstract =>
    exact goOn_forget (InPlace.addMethod_eq_outcome hd c name params isStatic isAbstract)
  | internVar m name => exact goOn_forget (x := InPlace.internVar m name) rfl
  | pushStmt m stmt => exact goOn_forget (x := InPlace.atOnce (·.pushStmt m stmt)) rfl
  | internClass | findMethods | setEntry => rfl

/-- An operation that fails leaves the draft as it was. -/
theorem Built.eq_of_error (hd : d.Built) {op : Operation} {err : BuildError}
    (h : op.inPlace.run d = .error err e) : e = d := by
  cases op with
  | declareClass name header =>
    exact eq_of_forget_error (InPlace.declareClass_eq_outcome d name header) h
  | addField c name isStatic =>
    exact eq_of_forget_error (InPlace.addField_eq_outcome d c name isStatic) h
  | addMethod c name params isStatic isAbstract =>
    exact eq_of_forget_error (InPlace.addMethod_eq_outcome hd c name params isStatic isAbstract) h
  | internVar m name => exact eq_of_forget_error (x := InPlace.internVar m name) rfl h
  | pushStmt m stmt => exact eq_of_forget_error (x := InPlace.atOnce (·.pushStmt m stmt)) rfl h
  | internClass | findMethods | setEntry => cases h

theorem Built.foldlM_performInPlace (hd : d.Built) (ops : List Operation) :
    ops.foldlM performInPlace d = ops.foldlM perform d := by
  induction ops generalizing d with
  | nil => rfl
  | cons op ops ih =>
    rw [List.foldlM_cons, List.foldlM_cons, hd.performInPlace_eq]
    cases h : d.perform op with
    | error id => rfl
    | ok e => exact ih (hd.of_perform h)

/-- Operations in place lead to the same drafts as operations that take effect at once. -/
theorem performAllInPlace_eq (ops : List Operation) : performAllInPlace ops = performAll ops :=
  Built.foldlM_performInPlace .refl ops

/-- An operation that failed, though not for an id that names nothing, may be left out. -/
theorem performAllInPlace_skip {ops : List Operation} (h : performAllInPlace ops = .ok d)
    (hd : d.Built) {op : Operation} {err : BuildError} (herr : op.inPlace.run d = .error err e)
    (hid : ∀ id, err ≠ .dangling id) (ops' : List Operation) :
    performAllInPlace (ops ++ op :: ops') = performAllInPlace (ops ++ ops') := by
  have hstep : d.performInPlace op = .ok d := by
    rw [performInPlace, herr, hd.eq_of_error herr]
    cases err with
    | dangling id => exact absurd rfl (hid id)
    | duplicateClass | duplicateField | duplicateMethod | duplicateParam => rfl
  rw [performAllInPlace] at h
  rw [performAllInPlace, performAllInPlace, List.foldlM_append, List.foldlM_append, h]
  change List.foldlM performInPlace d (op :: ops') = _
  rw [List.foldlM_cons, hstep]

/-- Whatever operations led to a draft, it refuses duplicates and nothing else. Carried out in
place, an operation gives the same as at once, and leaves the draft as it was if it fails; what
comes after it then leads where it leads without it. -/
theorem failures_leave_nothing {ops : List Operation} (h : performAllInPlace ops = .ok d) :
    performAll ops = .ok d ∧ d.RefusesDuplicates ∧
    (∀ name header, (InPlace.declareClass name header).run d =
      d.outcome (d.declareClass name header)) ∧
    (∀ c name isStatic, (InPlace.addField c name isStatic).run d =
      d.outcome (d.addField c name isStatic)) ∧
    (∀ c name params isStatic isAbstract,
      (InPlace.addMethod c name params isStatic isAbstract).run d =
      d.outcome (d.addMethod c name params isStatic isAbstract)) ∧
    ∀ op err e, op.inPlace.run d = .error err e → e = d ∧
      ((∀ id, err ≠ .dangling id) →
        ∀ ops', performAllInPlace (ops ++ op :: ops') = performAllInPlace (ops ++ ops')) := by
  have hall : performAll ops = .ok d := by rw [← performAllInPlace_eq, h]
  have hd : d.Built := Built.performs .refl hall
  refine ⟨hall, hd.refusesDuplicates, InPlace.declareClass_eq_outcome d,
    InPlace.addField_eq_outcome d,
    InPlace.addMethod_eq_outcome hd, fun op err e herr => ⟨hd.eq_of_error herr, fun hid ops' => ?_⟩⟩
  exact performAllInPlace_skip h hd herr hid ops'

/-- A class with a field and a method. -/
def sampleClass : List Operation :=
  [.declareClass "A" {}, .addField ⟨0⟩ "f" false, .addMethod ⟨0⟩ "m" ["p"] false false]

/-- Of three parameters the second offends first. The method is refused, and the statement that
comes next is put where it would be put otherwise. -/
theorem sampleClass_failures_leave_nothing :
    ∃ d, performAllInPlace sampleClass = .ok d ∧
      d.addMethod ⟨0⟩ "n" ["q", "this", "q"] false false = .error (.duplicateParam "A" "n" "this") ∧
      FirstOffender false ["q", "this", "q"] "this" ∧
      performAllInPlace (sampleClass ++ [.addMethod ⟨0⟩ "n" ["q", "this", "q"] false false,
        .pushStmt ⟨0⟩ (.ret none)]) =
        performAllInPlace (sampleClass ++ [.pushStmt ⟨0⟩ (.ret none)]) := by
  obtain ⟨d, hd, ⟨x, hx⟩, herr, hrun⟩ : ∃ d, performAllInPlace sampleClass = .ok d ∧
      (∃ x, d.cls ⟨0⟩ = .ok x) ∧
      d.addMethod ⟨0⟩ "n" ["q", "this", "q"] false false = .error (.duplicateParam "A" "n" "this") ∧
      (Operation.addMethod ⟨0⟩ "n" ["q", "this", "q"] false false).inPlace.run d =
        .error (.duplicateParam "A" "n" "this") d := ⟨_, rfl, ⟨_, rfl⟩, rfl, rfl⟩
  obtain ⟨-, hrefuses, -, -, -, hfailed⟩ := failures_leave_nothing hd
  obtain ⟨heq, -⟩ | ⟨-, param, heq, hfirst⟩ := (hrefuses.addMethod ⟨0⟩ x hx _ _ _ _ _).1 herr
  · cases heq
  · obtain ⟨-, -, rfl⟩ := BuildError.duplicateParam.inj heq
    exact ⟨d, hd, herr, hfirst, (hfailed _ _ _ hrun).2 (fun id => BuildError.noConfusion) _⟩

end Draft

end PointsTo
