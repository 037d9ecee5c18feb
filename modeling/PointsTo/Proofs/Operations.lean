import Mathlib.Data.List.Nodup
import Mathlib.Logic.Relation
import PointsTo.Program.Build
import PointsTo.Proofs.Ranges

/-!
# Building operations

A draft comes about by building operations: `Grows` is one of them, and `Built` drafts are those
that they lead to. For each operation it is said when it succeeds and what the new draft is.
-/

namespace PointsTo

section Fetch

variable {α : Type} {k : Kind} {xs : Array α} {a : Id k} {x y : α} {n : Nat} {f : α → α}

theorem fetch_of_extended {ys : Array α} (hext : xs.toList <+: ys.toList) (h : fetch xs a = .ok x) :
    fetch ys a = .ok x := by
  rw [fetch_eq_ok_iff, ← Array.getElem?_toList] at h ⊢
  exact getElem?_of_prefix hext h

theorem fetch_push_of_ok (h : fetch xs a = .ok x) : fetch (xs.push y) a = .ok x := by
  rw [fetch_eq_ok_iff] at h ⊢
  obtain ⟨hlt, -⟩ := Array.getElem?_eq_some_iff.1 h
  rw [Array.getElem?_push, if_neg (by omega), h]

theorem fetch_push_new : fetch (xs.push y) (⟨xs.size⟩ : Id k) = .ok y :=
  fetch_eq_ok_iff.2 Array.getElem?_push_size

theorem fetch_push_cases (h : fetch (xs.push y) a = .ok x) :
    fetch xs a = .ok x ∨ a = ⟨xs.size⟩ ∧ x = y := by
  rw [fetch_eq_ok_iff, Array.getElem?_push] at h
  split at h
  next heq => exact .inr ⟨Id.ext_index heq, (Option.some.inj h).symm⟩
  next => exact .inl (fetch_eq_ok_iff.2 h)

theorem fetch_modify_of_ne (hne : n ≠ a.index) : fetch (xs.modify n f) a = fetch xs a := by
  rw [fetch, fetch, Array.getElem?_modify, if_neg hne]

theorem fetch_modify_self (h : fetch xs a = .ok x) : fetch (xs.modify a.index f) a = .ok (f x) := by
  rw [fetch_eq_ok_iff] at h ⊢
  rw [Array.getElem?_modify, if_pos rfl, h]
  rfl

theorem fetch_modify (h : fetch xs a = .ok x) :
    fetch (xs.modify n f) a = .ok (if n = a.index then f x else x) := by
  split
  next heq => exact heq ▸ fetch_modify_self h
  next hne => exact (fetch_modify_of_ne hne).trans h

theorem exists_fetch_of_modify (h : fetch (xs.modify n f) a = .ok x) :
    ∃ old, fetch xs a = .ok old ∧ (x = old ∨ a.index = n ∧ x = f old) := by
  rw [fetch_eq_ok_iff, Array.getElem?_modify] at h
  split at h <;> rename_i hn
  · obtain ⟨old, hold, rfl⟩ := Option.map_eq_some_iff.1 h
    exact ⟨old, fetch_eq_ok_iff.2 hold, .inr ⟨hn.symm, rfl⟩⟩
  · exact ⟨x, fetch_eq_ok_iff.2 h, .inl rfl⟩

end Fetch

/-- Names of which none is repeated are pairwise different, and different from those seen before. -/
theorem firstRepeated?_eq_none_iff {seen names : List String} :
    firstRepeated? seen names = none ↔ names.Nodup ∧ ∀ name ∈ names, name ∉ seen := by
  induction names generalizing seen with
  | nil => simp [firstRepeated?]
  | cons name names ih =>
    rw [firstRepeated?]
    split
    next hseen => simp [hseen]
    next hseen =>
      rw [ih, List.nodup_cons]
      simp only [List.mem_cons, forall_eq_or_imp, not_or]
      grind

/-- A class as its declaration makes it. -/
def Class.declaredAs (header : Header) (cls : Class) : Class :=
  { cls with
    declared := true
    superclass := header.superclass
    interfaces := header.interfaces
    isInterface := header.isInterface
    isAbstract := header.isAbstract || header.isInterface }

namespace Draft

/-- One building operation, with any arguments. -/
inductive Grows : Draft → Draft → Prop where
  | internClass (d : Draft) (name : String) : Grows d (d.internClass name).2
  | declareClass {d d' : Draft} {name : String} {header : Header} {c : ClassId} :
      d.declareClass name header = .ok (c, d') → Grows d d'
  | addField {d d' : Draft} {c : ClassId} {name : String} {isStatic : Bool} {f : FieldId} :
      d.addField c name isStatic = .ok (f, d') → Grows d d'
  | addMethod {d d' : Draft} {c : ClassId} {name : String} {params : List String}
      {isStatic isAbstract : Bool}
      {m : MethodId} : d.addMethod c name params isStatic isAbstract = .ok (m, d') → Grows d d'
  | internVar {d d' : Draft} {m : MethodId} {name : String} {v : VarId} :
      d.internVar m name = .ok (v, d') → Grows d d'
  | pushStmt {d d' : Draft} {m : MethodId} {stmt : Stmt} {s : StmtId} :
      d.pushStmt m stmt = .ok (s, d') → Grows d d'
  | setEntry (d : Draft) (m : MethodId) : Grows d (d.setEntry m)

/-- Drafts that building operations lead to. -/
def Built (d : Draft) : Prop := Relation.ReflTransGen Grows {} d

variable {d e : Draft}

theorem mapError_eq_ok_iff {ε ε' α : Type} {f : ε → ε'} {x : Except ε α} {a : α} :
    x.mapError f = .ok a ↔ x = .ok a := by
  cases x <;> simp [Except.mapError]

/-- The names of the variables that a new method starts with. -/
def startNames (params : List String) (isStatic : Bool) : List String :=
  (if isStatic then [] else ["this"]) ++ params

/-- The ids of these variables. -/
def startVars (d : Draft) (params : List String) (isStatic : Bool) : List VarId :=
  (List.range' d.vars.size (startNames params isStatic).length).map Id.mk

/-- A method as it is added, before it has statements. -/
def newMethod (d : Draft) (c : ClassId) (name : String) (params : List String)
    (isStatic isAbstract : Bool) : Method where
  name := name
  cls := c
  isStatic := isStatic
  isAbstract := isAbstract
  this := if isStatic then none else (d.startVars params isStatic).head?
  params := (d.startVars params isStatic).drop (if isStatic then [] else ["this"]).length
  vars := (d.startVars params isStatic).toArray

theorem mem_startVars {params : List String} {isStatic : Bool} {v : VarId} :
    v ∈ d.startVars params isStatic ↔
      ∃ i < (startNames params isStatic).length, v = ⟨d.vars.size + i⟩ := by
  simp only [startVars, List.mem_map, List.mem_range'_1]
  constructor
  · rintro ⟨j, ⟨hle, hlt⟩, rfl⟩
    exact ⟨j - d.vars.size, by omega, by rw [Nat.add_sub_cancel' hle]⟩
  · rintro ⟨i, hi, rfl⟩
    exact ⟨d.vars.size + i, by omega, rfl⟩

theorem mem_startVars_of_this {c : ClassId} {name : String} {params : List String}
    {isStatic isAbstract : Bool} {v : VarId}
    (hv : v ∈ (d.newMethod c name params isStatic isAbstract).this) :
    v ∈ d.startVars params isStatic := by
  cases isStatic with
  | true => cases hv
  | false => exact List.mem_of_mem_head? hv

theorem mem_startVars_of_params {c : ClassId} {name : String} {params : List String}
    {isStatic isAbstract : Bool} {v : VarId}
    (hv : v ∈ (d.newMethod c name params isStatic isAbstract).params) :
    v ∈ d.startVars params isStatic :=
  List.mem_of_mem_drop hv

theorem newMethod_sig (d : Draft) (c : ClassId) (name : String) (params : List String)
    (isStatic isAbstract : Bool) :
    (d.newMethod c name params isStatic isAbstract).sig = ⟨name, params.length⟩ := by
  have hlength : (d.newMethod c name params isStatic isAbstract).params.length = params.length := by
    simp [newMethod, startVars, startNames]
  rw [Method.sig, hlength]
  rfl

theorem internClass_snd (d : Draft) (name : String) :
    (d.internClass name).2 = { d with classes := d.classes.add { name } } := by
  rw [internClass, findClass?]
  cases h : d.classes.find? name with
  | none => rfl
  | some i =>
    have hadd : d.classes.add { name } = d.classes := by
      refine Catalog.ext_items ?_
      rw [Catalog.items_add, if_pos]
      rw [Catalog.contains]
      exact Option.isSome_iff_exists.2 ⟨i, h⟩
    rw [hadd]
    rfl

theorem findClass?_eq_some_iff {name : String} {c : ClassId} :
    d.findClass? name = some c ↔ ∃ x, d.cls c = .ok x ∧ x.name = name := by
  simp only [findClass?, cls, fetch_eq_ok_iff, ← Catalog.find?_eq_some_iff]
  constructor
  · intro h
    obtain ⟨i, hi, rfl⟩ := Option.map_eq_some_iff.1 h
    exact hi
  · intro h
    rw [h]
    rfl

/-- One class for each name. -/
theorem cls_unique {c c' : ClassId} {x x' : Class} (h : d.cls c = .ok x) (h' : d.cls c' = .ok x')
    (hname : x.name = x'.name) : c = c' := by
  have hc := findClass?_eq_some_iff.2 ⟨x, h, hname⟩
  rw [findClass?_eq_some_iff.2 ⟨x', h', rfl⟩] at hc
  exact (Option.some.inj hc).symm

theorem findMethods_of_cls {c : ClassId} {x : Class} (hx : d.cls c = .ok x) (name : String) :
    d.findMethods x.name name = x.methodsNamed name := by
  have hfind : d.findClass? x.name = some c := findClass?_eq_some_iff.2 ⟨x, hx, rfl⟩
  rw [findMethods, hfind, Option.bind_some, fetch_eq_ok_iff.1 hx]

/-- What is found under the name of a class is found in its record. -/
theorem exists_cls_of_mem_findMethods {className name : String} {m : MethodId}
    (h : m ∈ d.findMethods className name) :
    ∃ c x, d.cls c = .ok x ∧ x.name = className ∧ m ∈ x.methodsNamed name := by
  cases hfind : d.findClass? className with
  | none =>
    rw [findMethods, hfind] at h
    exact absurd h List.not_mem_nil
  | some c =>
    obtain ⟨x, hx, rfl⟩ := findClass?_eq_some_iff.1 hfind
    rw [findMethods_of_cls hx] at h
    exact ⟨c, x, hx, rfl, h⟩

/-- One variable for each method and name. -/
theorem var_unique {v v' : VarId} {x : Var} (h : d.var v = .ok x) (h' : d.var v' = .ok x) :
    v = v' :=
  Id.ext_index (Catalog.eq_of_key_eq (fetch_eq_ok_iff.1 h) (fetch_eq_ok_iff.1 h') rfl)

theorem var_eq_ok_iff_find? {v : VarId} {name : String} {m : MethodId} :
    d.var v = .ok ⟨name, m⟩ ↔ d.vars.find? (m, name) = some v.index := by
  rw [var, fetch_eq_ok_iff, Catalog.find?_eq_some_iff]
  constructor
  · exact fun h => ⟨_, h, rfl⟩
  · rintro ⟨⟨name', m'⟩, h, hkey⟩
    cases hkey
    exact h

theorem firstRepeated?_startNames {params : List String} {isStatic : Bool} :
    firstRepeated? (if isStatic then [] else ["this"]) params = none ↔
      (startNames params isStatic).Nodup := by
  rw [firstRepeated?_eq_none_iff, startNames, List.nodup_append]
  cases isStatic <;> simp [eq_comm]

theorem findClass?_internClass (d : Draft) (name : String) :
    (d.internClass name).2.findClass? name = some (d.internClass name).1 := by
  cases h : d.findClass? name with
  | some c => simp only [internClass, h]
  | none =>
    simp only [internClass, h]
    have hnone : d.classes.find? name = none := Option.map_eq_none_iff.1 h
    refine findClass?_eq_some_iff.2 ⟨{ name }, fetch_eq_ok_iff.2 ?_, rfl⟩
    rw [Catalog.items_add, if_neg (by rw [Catalog.contains, hnone]; simp)]
    exact Array.getElem?_push_size

theorem declareClass_eq_ok_iff {name : String} {header : Header} {c : ClassId} :
    d.declareClass name header = .ok (c, e) ↔
      c = (d.internClass name).1 ∧
        (∃ x, (d.internClass name).2.cls c = .ok x ∧ x.declared = false) ∧
        e = { (d.internClass name).2 with
          classes := (d.internClass name).2.classes.modify c.index (Class.declaredAs header)
            fun _ => rfl } := by
  rw [declareClass]
  generalize d.internClass name = r
  obtain ⟨c₀, d₀⟩ := r
  simp only [bind_eq_ok, mapError_eq_ok_iff]
  constructor
  · rintro ⟨x, hx, h⟩
    split at h
    next => cases h
    next hdeclared =>
      cases h
      exact ⟨rfl, ⟨x, hx, by simpa using hdeclared⟩, rfl⟩
  · rintro ⟨rfl, ⟨x, hx, hdeclared⟩, rfl⟩
    refine ⟨x, hx, ?_⟩
    rw [hdeclared]
    rfl

theorem addField_eq_ok_iff {c : ClassId} {name : String} {isStatic : Bool} {f : FieldId} :
    d.addField c name isStatic = .ok (f, e) ↔
      (∃ x, d.cls c = .ok x ∧ ∀ f ∈ x.fields, ∀ y, d.field f = .ok y → y.name ≠ name) ∧
      f = ⟨d.fields.size⟩ ∧
        e = { d with
          fields := d.fields.push ⟨name, c, isStatic⟩
          classes := d.classes.modify c.index (fun x => { x with fields := x.fields ++ [f] })
            fun _ => rfl } := by
  have hany : ∀ x : Class, (x.fields.any fun f => d.fields[f.index]?.any fun y => y.name =
      name) = false ↔
      ∀ f ∈ x.fields, ∀ y, d.field f = .ok y → y.name ≠ name := by
    intro x
    rw [List.any_eq_false]
    refine forall₂_congr fun f _ => ?_
    simp only [field, fetch_eq_ok_iff]
    cases d.fields[f.index]? <;> simp
  rw [addField]
  simp only [bind_eq_ok, mapError_eq_ok_iff]
  constructor
  · rintro ⟨x, hx, h⟩
    split at h
    next => cases h
    next hfresh =>
      cases h
      exact ⟨⟨x, hx, (hany x).1 (by simpa using hfresh)⟩, rfl, rfl⟩
  · rintro ⟨⟨x, hx, hfresh⟩, rfl, rfl⟩
    refine ⟨x, hx, ?_⟩
    rw [(hany x).2 hfresh]
    rfl

theorem cls_of_addField {c : ClassId} {x : Class} {name : String} {isStatic : Bool} {f : FieldId}
    (hx : d.cls c = .ok x) (h : d.addField c name isStatic = .ok (f, e)) :
    e.cls c = .ok { x with fields := x.fields ++ [f] } ∧ e.field f = .ok ⟨name, c, isStatic⟩ := by
  obtain ⟨-, rfl, rfl⟩ := addField_eq_ok_iff.1 h
  exact ⟨fetch_modify_self hx, fetch_push_new⟩

theorem addMethod_eq_ok_iff {c : ClassId} {name : String} {params : List String}
    {isStatic isAbstract : Bool} {m : MethodId} :
    d.addMethod c name params isStatic isAbstract = .ok (m, e) ↔
      (∃ x, d.cls c = .ok x ∧ x.method? ⟨name, params.length⟩ = none) ∧
      (startNames params isStatic).Nodup ∧
        m = ⟨d.methods.size⟩ ∧
        e = { d with
          methods := d.methods.push (d.newMethod c name params isStatic isAbstract)
          vars := (startNames params isStatic).foldl (fun vars name => vars.add ⟨name, m⟩) d.vars
          classes := d.classes.modify c.index
            (fun x => { x with methods := x.methods ++ [(⟨name, params.length⟩, m)] })
              fun _ => rfl } := by
  rw [addMethod, ← firstRepeated?_startNames]
  simp only [bind_eq_ok, mapError_eq_ok_iff]
  constructor
  · rintro ⟨x, hx, h⟩
    split at h
    next => cases h
    next hfresh =>
      cases hrepeated : firstRepeated? (if isStatic then [] else ["this"]) params with
      | some param => rw [hrepeated] at h; cases h
      | none =>
        rw [hrepeated] at h
        cases h
        exact ⟨⟨x, hx, Option.not_isSome_iff_eq_none.1 hfresh⟩, rfl, rfl, rfl⟩
  · rintro ⟨⟨x, hx, hfresh⟩, hrepeated, rfl, rfl⟩
    refine ⟨x, hx, ?_⟩
    rw [hfresh, hrepeated]
    rfl

/-- New variables of one method come last, in order. -/
theorem toList_foldl_add {m : MethodId} {names : List String} {vars : Catalog Var.key}
    (hnodup : names.Nodup) (hnew : ∀ v ∈ vars.toList, v.method = m → v.name ∉ names) :
    (names.foldl (fun vars name => vars.add ⟨name, m⟩) vars).toList =
      vars.toList ++ names.map fun name => ⟨name, m⟩ := by
  induction names generalizing vars with
  | nil => simp
  | cons name names ih =>
    have hadd : (vars.add ⟨name, m⟩).toList = vars.toList ++ [⟨name, m⟩] := by
      rw [Catalog.toList_add, if_neg]
      intro hcontains
      obtain ⟨v, hv, hkey⟩ := Catalog.contains_iff.1 hcontains
      cases hkey
      exact hnew v hv rfl (List.mem_cons_self ..)
    obtain ⟨hname, hnodup⟩ := List.nodup_cons.1 hnodup
    rw [List.foldl_cons, ih hnodup, hadd, List.map_cons, List.append_assoc, List.singleton_append]
    intro v hv hm hmem
    rw [hadd, List.mem_append, List.mem_singleton] at hv
    rcases hv with hv | rfl
    · exact hnew v hv hm (List.mem_cons_of_mem _ hmem)
    · exact hname hmem

/-- The variables that a new method starts with are the last ones, since no variable is of a method
that does not exist. -/
theorem toList_startVars (hd : ∀ v ∈ d.vars.toList, d.Has v.method) {names : List String}
    (hnames : names.Nodup) :
    (names.foldl (fun vars name => vars.add ⟨name, ⟨d.methods.size⟩⟩) d.vars).toList =
      d.vars.toList ++ names.map fun name => ⟨name, ⟨d.methods.size⟩⟩ := by
  refine toList_foldl_add hnames fun v hv hm => ?_
  have hlt : v.method.index < d.methods.size := hd v hv
  rw [hm] at hlt
  exact absurd hlt (Nat.lt_irrefl _)

theorem var_addMethod (hd : ∀ v ∈ d.vars.toList, d.Has v.method) {c : ClassId} {name : String}
    {params : List String} {isStatic isAbstract : Bool} {m : MethodId}
    (heq : d.addMethod c name params isStatic isAbstract = .ok (m, e)) {i : Nat} {n : String}
    (hn : (startNames params isStatic)[i]? = some n) : e.var ⟨d.vars.size + i⟩ = .ok ⟨n, m⟩ := by
  obtain ⟨-, hnodup, rfl, rfl⟩ := addMethod_eq_ok_iff.1 heq
  have hsize : d.vars.toList.length = d.vars.size := Array.length_toList
  rw [Draft.var, fetch_eq_ok_iff, ← Array.getElem?_toList, ← Catalog.toList,
    toList_startVars hd hnodup,
    List.getElem?_append_right (by simp; omega), List.getElem?_map, hsize,
    Nat.add_sub_cancel_left, hn]
  rfl

theorem owns_addMethod (hd : ∀ v ∈ d.vars.toList, d.Has v.method) {c : ClassId} {name : String}
    {params : List String} {isStatic isAbstract : Bool} {m : MethodId}
    (heq : d.addMethod c name params isStatic isAbstract = .ok (m, e)) {v : VarId}
    (hv : v ∈ d.startVars params isStatic) : e.Owns m v := by
  obtain ⟨i, hi, rfl⟩ := mem_startVars.1 hv
  exact ⟨_, var_addMethod hd heq (List.getElem?_eq_getElem hi), rfl⟩

theorem cls_of_addMethod {c : ClassId} {x : Class} {name : String} {params : List String}
    {isStatic isAbstract : Bool} {m : MethodId} (hx : d.cls c = .ok x)
    (h : d.addMethod c name params isStatic isAbstract = .ok (m, e)) :
    e.cls c = .ok { x with methods := x.methods ++ [(⟨name, params.length⟩, m)] } := by
  obtain ⟨-, -, rfl, rfl⟩ := addMethod_eq_ok_iff.1 h
  exact fetch_modify_self hx

theorem method_of_addMethod {c : ClassId} {name : String} {params : List String}
    {isStatic isAbstract : Bool} {m : MethodId}
    (h : d.addMethod c name params isStatic isAbstract = .ok (m, e)) :
    e.method m = .ok (d.newMethod c name params isStatic isAbstract) := by
  obtain ⟨-, -, rfl, rfl⟩ := addMethod_eq_ok_iff.1 h
  exact fetch_push_new

theorem items_add_var {m : MethodId} {name : String} (hnew : ∀ v, d.var v ≠ .ok ⟨name, m⟩) :
    (d.vars.add ⟨name, m⟩).items = d.vars.items.push ⟨name, m⟩ := by
  rw [Catalog.items_add, if_neg]
  intro hcontains
  obtain ⟨i, hi⟩ := Option.isSome_iff_exists.1 hcontains
  exact hnew ⟨i⟩ (var_eq_ok_iff_find?.2 hi)

theorem internVar_eq_ok_iff {m : MethodId} {name : String} {v : VarId} :
    d.internVar m name = .ok (v, e) ↔ d.Has m ∧
      ((d.var v = .ok ⟨name, m⟩ ∧ e = d) ∨
        ((∀ w, d.var w ≠ .ok ⟨name, m⟩) ∧ v = ⟨d.vars.size⟩ ∧
          e = { d with
            vars := d.vars.add ⟨name, m⟩
            methods := d.methods.modify m.index fun y => { y with vars := y.vars.push v } })) := by
  rw [internVar, ← exists_method_iff]
  simp only [bind_eq_ok, mapError_eq_ok_iff, exists_and_right]
  refine and_congr_right fun _ => ?_
  cases hfind : d.vars.find? (m, name) with
  | some i =>
    have hi : d.var ⟨i⟩ = .ok ⟨name, m⟩ := var_eq_ok_iff_find?.2 hfind
    constructor
    · intro h
      cases h
      exact .inl ⟨hi, rfl⟩
    · rintro (⟨hv, rfl⟩ | ⟨hnone, -⟩)
      · rw [var_unique hv hi]
        rfl
      · exact absurd hi (hnone ⟨i⟩)
  | none =>
    have hnone : ∀ w, d.var w ≠ .ok ⟨name, m⟩ := by
      intro w hw
      rw [var_eq_ok_iff_find?, hfind] at hw
      cases hw
    constructor
    · intro h
      cases h
      exact .inr ⟨hnone, rfl, rfl⟩
    · rintro (⟨hv, -⟩ | ⟨-, rfl, rfl⟩)
      · exact absurd hv (hnone v)
      · rfl

theorem var_of_internVar {m : MethodId} {name : String} {v : VarId}
    (h : d.internVar m name = .ok (v, e)) : e.var v = .ok ⟨name, m⟩ := by
  obtain ⟨-, ⟨hv, rfl⟩ | ⟨hnew, rfl, rfl⟩⟩ := internVar_eq_ok_iff.1 h
  · exact hv
  · refine fetch_eq_ok_iff.2 ?_
    rw [items_add_var hnew]
    exact Array.getElem?_push_size

theorem pushStmt_eq_ok_iff {m : MethodId} {stmt : Stmt} {s : StmtId} :
    d.pushStmt m stmt = .ok (s, e) ↔ s = ⟨d.stmts.size⟩ ∧ ∃ y, d.method m = .ok y ∧
      e = { d with
        stmts := d.stmts.push ⟨stmt, m, y.stmts.size⟩
        methods := d.methods.modify m.index fun y =>
          { y with returns := y.returnsWith stmt, stmts := y.stmts.push s } } := by
  rw [pushStmt]
  simp only [bind_eq_ok, mapError_eq_ok_iff]
  constructor
  · rintro ⟨y, hy, h⟩
    cases h
    exact ⟨rfl, y, hy, rfl⟩
  · rintro ⟨rfl, y, hy, rfl⟩
    exact ⟨y, hy, rfl⟩

theorem placed_of_pushStmt {m : MethodId} {stmt : Stmt} {s : StmtId}
    (h : d.pushStmt m stmt = .ok (s, e)) : ∃ n, e.placed s = .ok ⟨stmt, m, n⟩ := by
  obtain ⟨rfl, y, -, rfl⟩ := pushStmt_eq_ok_iff.1 h
  exact ⟨y.stmts.size, fetch_push_new⟩

end Draft

end PointsTo
