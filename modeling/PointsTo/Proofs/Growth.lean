import Mathlib.Data.Set.Basic
import PointsTo.Proofs.Building

/-!
# What building keeps

`Keeps` says what stays as it was when a draft grows: all but the records of some classes and of
some methods, and which classes may be new. It is shown for a change of one class
(`keeps_modifyClass`) and of one method (`keeps_modifyMethod`), and so for every operation.
-/

namespace PointsTo

namespace Draft

variable {d e : Draft}

/-- Everything stays but the records of the classes in `cs` and of the methods in `ms`. Classes that
are new, other than those in `cs`, are only mentioned, by names in `ns`. -/
structure Keeps (cs : Set ClassId) (ms : Set MethodId) (ns : List String) (d e : Draft) : Prop where
  names : ∀ {n c}, d.findClass? n = some c → e.findClass? n = some c
  cls : ∀ {c x}, c ∉ cs → d.cls c = .ok x → e.cls c = .ok x
  field : ∀ {f x}, d.field f = .ok x → e.field f = .ok x
  method : ∀ {m y}, m ∉ ms → d.method m = .ok y → e.method m = .ok y
  var : ∀ {v x}, d.var v = .ok x → e.var v = .ok x
  placed : ∀ {s x}, d.placed s = .ok x → e.placed s = .ok x
  entry : e.entry = d.entry
  mentioned : ∀ {c x}, e.cls c = .ok x → d.Has c ∨ c ∈ cs ∨ x = { name := x.name } ∧ x.name ∈ ns

section Keeps

variable {f : Draft} {cs cs' : Set ClassId} {ms ms' : Set MethodId} {ns ns' : List String}

theorem Keeps.refl (d : Draft) : d.Keeps cs ms ns d where
  names := id
  cls _ := id
  field := id
  method _ := id
  var := id
  placed := id
  entry := rfl
  mentioned h := .inl (exists_cls_iff.1 ⟨_, h⟩)

theorem Keeps.trans (h : d.Keeps cs ms ns e) (h' : e.Keeps cs ms ns' f) :
    d.Keeps cs ms (ns ++ ns') f where
  names hn := h'.names (h.names hn)
  cls hc hx := h'.cls hc (h.cls hc hx)
  field hx := h'.field (h.field hx)
  method hm hy := h'.method hm (h.method hm hy)
  var hx := h'.var (h.var hx)
  placed hx := h'.placed (h.placed hx)
  entry := h'.entry.trans h.entry
  mentioned {c x} hx := by
    obtain hc | hc | ⟨hname, hmem⟩ := h'.mentioned hx
    · obtain ⟨y, hy⟩ := exists_cls_iff.2 hc
      obtain hc | hc | ⟨hname, hmem⟩ := h.mentioned hy
      · exact .inl hc
      · exact .inr (.inl hc)
      · -- what was mentioned on the way to `e` has not changed since, unless it is in `cs`
        by_cases hcs : c ∈ cs
        · exact .inr (.inl hcs)
        · cases (h'.cls hcs hy).symm.trans hx
          exact .inr (.inr ⟨hname, List.mem_append_left _ hmem⟩)
    · exact .inr (.inl hc)
    · exact .inr (.inr ⟨hname, List.mem_append_right _ hmem⟩)

theorem Keeps.mono (h : d.Keeps cs ms ns e) (hcs : cs ⊆ cs') (hms : ms ⊆ ms') (hns : ns ⊆ ns') :
    d.Keeps cs' ms' ns' e where
  names := h.names
  cls hc := h.cls fun hmem => hc (hcs hmem)
  field := h.field
  method hm := h.method fun hmem => hm (hms hmem)
  var := h.var
  placed := h.placed
  entry := h.entry
  mentioned hx :=
    (h.mentioned hx).imp_right (Or.imp (fun hc => hcs hc) fun ⟨hname, hmem⟩ => ⟨hname, hns hmem⟩)

/-- A method that was not there yet has no record to keep. -/
theorem Keeps.of_new (h : d.Keeps cs ms ns e) (hms : ∀ m ∈ ms, ¬ d.Has m) : d.Keeps cs ∅ ns e :=
  { h with method := fun _ hy => h.method (fun hm => hms _ hm (exists_method_iff.1 ⟨_, hy⟩)) hy }

theorem Keeps.of_tables (names : ∀ {n c}, d.findClass? n = some c → e.findClass? n = some c)
    (cls : ∀ {c x}, c ∉ cs → d.cls c = .ok x → e.cls c = .ok x)
    (fields : d.fields.toList <+: e.fields.toList)
    (method : ∀ {m y}, m ∉ ms → d.method m = .ok y → e.method m = .ok y)
    (vars : d.vars.toList <+: e.vars.toList) (stmts : d.stmts.toList <+: e.stmts.toList)
    (entry : e.entry = d.entry)
    (mentioned : ∀ {c x}, e.cls c = .ok x → d.Has c ∨ c ∈ cs ∨ x = { name := x.name } ∧
      x.name ∈ ns) :
    d.Keeps cs ms ns e where
  names := names
  cls := cls
  field := fetch_of_extended fields
  method := method
  var := fetch_of_extended vars
  placed := fetch_of_extended stmts
  entry := entry
  mentioned := mentioned

theorem keeps_internClass (d : Draft) (name : String) :
    d.Keeps ∅ ∅ [name] (d.internClass name).2 := by
  rw [internClass_snd]
  have hcls : ∀ {c x}, d.cls c = .ok x → fetch (d.classes.add { name }).items c = .ok x :=
    fetch_of_extended (Catalog.prefix_add _ _)
  refine .of_tables (fun {n c} hn => ?_) (fun _ => hcls) List.prefix_rfl
    (fun _ => id) List.prefix_rfl List.prefix_rfl rfl fun {c x} hx => ?_
  · obtain ⟨x, hx, hname⟩ := findClass?_eq_some_iff.1 hn
    exact findClass?_eq_some_iff.2 ⟨x, hcls hx, hname⟩
  · rw [Draft.cls, Catalog.items_add] at hx
    split at hx
    next => exact .inl (exists_cls_iff.1 ⟨x, hx⟩)
    next =>
      obtain hx | ⟨-, rfl⟩ := fetch_push_cases hx
      · exact .inl (exists_cls_iff.1 ⟨x, hx⟩)
      · exact .inr (.inr ⟨rfl, List.mem_singleton_self name⟩)

/-- A change of one class. -/
theorem keeps_modifyClass (d : Draft) (c : ClassId) (g : Class → Class)
    (hg : ∀ x, (g x).name = x.name) {fields : Array Field} {methods : Array Method}
    {vars : Catalog Var.key} (hfields : d.fields.toList <+: fields.toList)
    (hmethods : d.methods.toList <+: methods.toList) (hvars : d.vars.toList <+: vars.toList) :
    d.Keeps {c} ∅ []
      { d with classes := d.classes.modify c.index g hg, fields, methods, vars } := by
  refine .of_tables id (fun {c' x} hc hx => ?_) hfields
    (fun _ => fetch_of_extended hmethods) hvars List.prefix_rfl rfl fun {c' x} hx => ?_
  · have hne : c.index ≠ c'.index := fun heq => hc (Id.ext_index heq.symm)
    exact (fetch_modify_of_ne hne).trans hx
  · obtain ⟨y, hy, -⟩ := exists_fetch_of_modify hx
    exact .inl (exists_cls_iff.1 ⟨y, hy⟩)

/-- A change of one method. -/
theorem keeps_modifyMethod (d : Draft) (m : MethodId) (g : Method → Method) {vars : Catalog Var.key}
    {stmts : Array Placed} (hvars : d.vars.toList <+: vars.toList)
    (hstmts : d.stmts.toList <+: stmts.toList) :
    d.Keeps ∅ {m} [] { d with methods := d.methods.modify m.index g, vars, stmts } := by
  refine .of_tables id (fun _ => id) List.prefix_rfl (fun {m' y} hm hy => ?_) hvars hstmts rfl
    fun hx => .inl (exists_cls_iff.1 ⟨_, hx⟩)
  have hne : m.index ≠ m'.index := fun heq => hm (Id.ext_index heq.symm)
  exact (fetch_modify_of_ne hne).trans hy

theorem keeps_declareClass {name : String} {header : Header} {c : ClassId}
    (h : d.declareClass name header = .ok (c, e)) : d.Keeps {c} ∅ [] e := by
  obtain ⟨rfl, -, rfl⟩ := declareClass_eq_ok_iff.1 h
  have hchange :=
    (d.internClass name).2.keeps_modifyClass (d.internClass name).1 (Class.declaredAs header)
      (fun _ => rfl)
    List.prefix_rfl List.prefix_rfl List.prefix_rfl
  have hboth :=
    ((keeps_internClass d name).mono (Set.empty_subset _) subset_rfl
      (List.Subset.refl _)).trans hchange
  refine { hboth with mentioned := fun {c x} hx => ?_ }
  -- a class that is new here is the one that is declared
  obtain ⟨y, hy, -⟩ := exists_fetch_of_modify hx
  obtain hc | hc | ⟨-, hname⟩ := (keeps_internClass d name).mentioned hy
  · exact .inl hc
  · cases hc
  · have hfound := findClass?_eq_some_iff.2 ⟨y, hy, List.mem_singleton.1 hname⟩
    rw [findClass?_internClass] at hfound
    exact .inr (.inl (Option.some.inj hfound).symm)

theorem keeps_addField {c : ClassId} {name : String} {isStatic : Bool} {f : FieldId}
    (h : d.addField c name isStatic = .ok (f, e)) : d.Keeps {c} ∅ [] e := by
  obtain ⟨-, rfl, rfl⟩ := addField_eq_ok_iff.1 h
  refine d.keeps_modifyClass c _ _ ?_ List.prefix_rfl List.prefix_rfl
  rw [Array.toList_push]
  exact List.prefix_append _ _

theorem prefix_foldl_add (names : List String) (m : MethodId) (vars : Catalog Var.key) :
    vars.toList <+: (names.foldl (fun vars name => vars.add ⟨name, m⟩) vars).toList := by
  induction names generalizing vars with
  | nil => exact List.prefix_rfl
  | cons name names ih => exact (Catalog.prefix_add _ _).trans (ih _)

theorem keeps_addMethod {c : ClassId} {name : String} {params : List String}
    {isStatic isAbstract : Bool} {m : MethodId}
    (h : d.addMethod c name params isStatic isAbstract = .ok (m, e)) : d.Keeps {c} ∅ [] e := by
  obtain ⟨-, -, rfl, rfl⟩ := addMethod_eq_ok_iff.1 h
  refine d.keeps_modifyClass c _ _ List.prefix_rfl ?_ (prefix_foldl_add _ _ _)
  rw [Array.toList_push]
  exact List.prefix_append _ _

theorem keeps_internVar {m : MethodId} {name : String} {v : VarId}
    (h : d.internVar m name = .ok (v, e)) : d.Keeps ∅ {m} [] e := by
  obtain ⟨-, ⟨-, rfl⟩ | ⟨-, rfl, rfl⟩⟩ := internVar_eq_ok_iff.1 h
  · exact .refl e
  · exact d.keeps_modifyMethod m _ (Catalog.prefix_add _ _) List.prefix_rfl

theorem keeps_pushStmt {m : MethodId} {stmt : Stmt} {s : StmtId}
    (h : d.pushStmt m stmt = .ok (s, e)) : d.Keeps ∅ {m} [] e := by
  obtain ⟨rfl, y, -, rfl⟩ := pushStmt_eq_ok_iff.1 h
  refine d.keeps_modifyMethod m _ List.prefix_rfl ?_
  rw [Array.toList_push]
  exact List.prefix_append _ _

end Keeps

end Draft

end PointsTo
