import PointsTo.Proofs.Coherence
import PointsTo.Proofs.Renderings

/-!
# Programs by name

An outline says what a draft says, with names in place of ids: a class comes with its fields and
methods (`ClassOutline`), a method with its variables and its statements (`MethodOutline`), and a
statement is a command. A tree has an outline too, that of the class which it declares
(`ClassTree.outline`). Growth changes no outline but those of the classes and methods that it works
on (`Keeps.outlineClass`).
-/

namespace PointsTo

/-- Adds a value at the end, unless it is there already. -/
def addNew {α : Type} [DecidableEq α] (as : List α) (a : α) : List α :=
  if a ∈ as then as else as ++ [a]

theorem map_addNew {α β : Type} [DecidableEq α] [DecidableEq β] {f : α → β} {as : List α} {a : α}
    (hf : ∀ b ∈ as, f b = f a → b = a) : (addNew as a).map f = addNew (as.map f) (f a) := by
  have hmem : f a ∈ as.map f ↔ a ∈ as := by
    constructor
    · intro h
      obtain ⟨b, hb, heq⟩ := List.mem_map.1 h
      exact hf b hb heq ▸ hb
    · exact List.mem_map_of_mem
  rw [addNew, addNew]
  split <;> rename_i ha
  · rw [if_pos (hmem.2 ha)]
  · rw [if_neg fun h => ha (hmem.1 h), List.map_append, List.map_singleton]

/-! ## Outlines -/

structure MethodOutline where
  name : String
  isStatic : Bool
  isAbstract : Bool
  params : List String
  this : Option String
  returns : List String
  vars : List String
  body : List (Option Text.Command)
deriving DecidableEq, Inhabited

def MethodOutline.sig (o : MethodOutline) : Subsig := ⟨o.name, o.params.length⟩

/-- A field is given by its name and whether it is static. -/
structure ClassOutline where
  name : String
  declared : Bool := false
  isInterface : Bool := false
  isAbstract : Bool := false
  superclass : Option String := none
  interfaces : List String := []
  fields : List (String × Bool) := []
  methods : List MethodOutline := []
deriving DecidableEq

namespace Text

def Name.plain (text : String) : Name := { text, line := 0 }

def Qualified.plain (cls name : String) : Qualified := ⟨.plain cls, .plain name⟩

end Text

open Text

/-! ## Outlines of drafts -/

/-- A call by names; none if the arity that it asks for is not the number of its arguments. -/
def Invoke.tree? (var : VarId → String) (cls : ClassId → String) (c : Invoke) : Option CallTree :=
  if c.target.sig.arity = c.args.length then
    some
      { kind := c.kind
        receiver := c.receiver.map fun v => .plain (var v)
        target := .plain (cls c.target.cls) c.target.sig.name
        args := c.args.map fun v => .plain (var v) }
  else none

/-- A statement by names. -/
def Stmt.command? (var : VarId → String) (cls : ClassId → String) : Stmt → Option Command
  | .new lhs c array => some (.assign (.plain (var lhs)) (.new (.plain (cls c)) array))
  | .copy lhs rhs => some (.assign (.plain (var lhs)) (.copy (.plain (var rhs))))
  | .load lhs (some base) ref =>
    some (.assign (.plain (var lhs)) (.load (.plain (var base)) (.plain (cls ref.cls) ref.name)))
  | .load lhs none ref =>
    some (.assign (.plain (var lhs)) (.loadStatic (.plain (cls ref.cls) ref.name)))
  | .store (some base) ref rhs =>
    some (.store (.plain (var base)) (.plain (cls ref.cls) ref.name) (.plain (var rhs)))
  | .store none ref rhs => some (.storeStatic (.plain (cls ref.cls) ref.name) (.plain (var rhs)))
  | .loadArray lhs base => some (.assign (.plain (var lhs)) (.loadArray (.plain (var base))))
  | .storeArray base rhs => some (.storeArray (.plain (var base)) (.plain (var rhs)))
  | .invoke c =>
    (c.tree? var cls).map fun t => c.lhs.elim (.call t)
      fun lhs => .assign (.plain (var lhs)) (.call t)
  | .ret value => some (.ret (value.map fun v => .plain (var v)))
  | .const lhs => some (.assign (.plain (var lhs)) .const)

namespace Draft

def classText (d : Draft) (c : ClassId) : String := (d.cls c).toOption.elim "" Class.name

def varText (d : Draft) (v : VarId) : String := (d.var v).toOption.elim "" Var.name

def command? (d : Draft) (s : StmtId) : Option Command :=
  (d.placed s).toOption.bind fun x => x.stmt.command? d.varText d.classText

def outlineMethod (d : Draft) (y : Method) : MethodOutline where
  name := y.name
  isStatic := y.isStatic
  isAbstract := y.isAbstract
  params := y.params.map d.varText
  this := y.this.map d.varText
  returns := y.returns.map d.varText
  vars := y.vars.toList.map d.varText
  body := y.stmts.toList.map d.command?

def fieldOutline (d : Draft) (f : FieldId) : String × Bool :=
  (d.field f).toOption.elim ("", false) fun z => (z.name, z.isStatic)

def methodOutline (d : Draft) (m : MethodId) : MethodOutline :=
  (d.method m).toOption.elim default d.outlineMethod

def outlineClass (d : Draft) (x : Class) : ClassOutline where
  name := x.name
  declared := x.declared
  isInterface := x.isInterface
  isAbstract := x.isAbstract
  superclass := x.superclass.map d.classText
  interfaces := x.interfaces.map d.classText
  fields := x.fields.map d.fieldOutline
  methods := x.methods.map fun p => d.methodOutline p.2

/-- The outline of the class of a name, if there is one. -/
def outline? (d : Draft) (name : String) : Option ClassOutline :=
  (d.findClass? name).bind fun c => (d.cls c).toOption.map d.outlineClass

variable {d e : Draft}

theorem classText_of_cls {c : ClassId} {x : Class} (h : d.cls c = .ok x) :
    d.classText c = x.name := by
  rw [classText, h]
  rfl

theorem varText_of_var {v : VarId} {z : Var} (h : d.var v = .ok z) : d.varText v = z.name := by
  rw [varText, h]
  rfl

theorem command?_of_placed {s : StmtId} {x : Placed} (h : d.placed s = .ok x) :
    d.command? s = x.stmt.command? d.varText d.classText := by
  rw [command?, h]
  rfl

theorem fieldOutline_of_field {f : FieldId} {z : Field} (h : d.field f = .ok z) :
    d.fieldOutline f = (z.name, z.isStatic) := by
  rw [fieldOutline, h]
  rfl

theorem methodOutline_of_method {m : MethodId} {y : Method} (h : d.method m = .ok y) :
    d.methodOutline m = d.outlineMethod y := by
  rw [methodOutline, h]
  rfl

theorem outline?_of_cls {c : ClassId} {x : Class} (h : d.cls c = .ok x) :
    d.outline? x.name = some (d.outlineClass x) := by
  rw [outline?, findClass?_eq_some_iff.2 ⟨x, h, rfl⟩, Option.bind_some, h]
  rfl

theorem outline?_eq_some_iff {name : String} {o : ClassOutline} :
    d.outline? name = some o ↔ ∃ c x, d.cls c = .ok x ∧ x.name = name ∧ d.outlineClass x = o := by
  constructor
  · intro h
    obtain ⟨c, hc, ho⟩ := Option.bind_eq_some_iff.1 h
    obtain ⟨x, hx, hname⟩ := findClass?_eq_some_iff.1 hc
    rw [hx] at ho
    exact ⟨c, x, hx, hname, Option.some.inj ho⟩
  · rintro ⟨c, x, hx, rfl, rfl⟩
    exact outline?_of_cls hx

/-- The text of the variables of one method tells them apart. -/
theorem Owns.eq_of_varText {m : MethodId} {v w : VarId} (hv : d.Owns m v) (hw : d.Owns m w)
    (h : d.varText v = d.varText w) : v = w := by
  obtain ⟨⟨n, _⟩, hz, rfl⟩ := hv
  obtain ⟨⟨n', _⟩, hz', rfl⟩ := hw
  rw [varText_of_var hz, varText_of_var hz'] at h
  cases h
  exact var_unique hz hz'

end Draft

/-! ## What growth keeps of them -/

theorem Invoke.tree?_congr {c : Invoke} {var var' : VarId → String} {cls cls' : ClassId → String}
    (hvars : ∀ v ∈ c.vars, var v = var' v) (hcls : cls c.target.cls = cls' c.target.cls) :
    c.tree? var cls = c.tree? var' cls' := by
  have hreceiver : c.receiver.map (fun v => Name.plain (var v)) =
      c.receiver.map fun v => Name.plain (var' v) := by
    refine Option.map_congr fun v hv => ?_
    rw [hvars v (by simp [Invoke.vars, hv])]
  have hargs : c.args.map (fun v => Name.plain (var v)) =
      c.args.map fun v => Name.plain (var' v) := by
    refine List.map_congr_left fun v hv => ?_
    rw [hvars v (by simp [Invoke.vars, hv])]
  rw [tree?, tree?, hreceiver, hargs, hcls]

theorem Stmt.command?_congr {s : Stmt} {var var' : VarId → String} {cls cls' : ClassId → String}
    (hvars : ∀ v ∈ s.vars, var v = var' v) (hclasses : ∀ c ∈ s.classes, cls c = cls' c) :
    s.command? var cls = s.command? var' cls' := by
  cases s with
  | invoke c =>
    rw [command?, command?, Invoke.tree?_congr hvars (hclasses _ (List.mem_singleton_self _))]
    refine Option.map_congr fun t _ => ?_
    cases hlhs : c.lhs with
    | none => rfl
    | some lhs =>
      have heq := hvars lhs (by simp [Stmt.vars, Invoke.vars, hlhs])
      simp only [Option.elim_some, heq]
  | load lhs base ref => cases base <;> simp_all [command?, Stmt.vars, Stmt.classes]
  | store base ref rhs => cases base <;> simp_all [command?, Stmt.vars, Stmt.classes]
  | ret value => cases value <;> simp_all [command?, Stmt.vars]
  | _ => simp_all [command?, Stmt.vars, Stmt.classes]

namespace Draft

variable {d e : Draft} {cs : Set ClassId} {ms : Set MethodId} {ns : List String}

namespace Keeps

variable (h : d.Keeps cs ms ns e)

include h

theorem classText {c : ClassId} (hc : d.Has c) : e.classText c = d.classText c := by
  obtain ⟨x, hx⟩ := exists_cls_iff.2 hc
  obtain ⟨x', hx', hname⟩ :=
    findClass?_eq_some_iff.1 (h.names (findClass?_eq_some_iff.2 ⟨x, hx, rfl⟩))
  rw [classText_of_cls hx, classText_of_cls hx', hname]

theorem varText {v : VarId} (hv : d.Has v) : e.varText v = d.varText v := by
  obtain ⟨z, hz⟩ : ∃ z, d.var v = .ok z := fetch_isOk_iff.2 hv
  rw [varText_of_var hz, varText_of_var (h.var hz)]

theorem command? (hrange : d.InRange) {s : StmtId} (hs : d.Has s) :
    e.command? s = d.command? s := by
  obtain ⟨x, hx⟩ := exists_placed_iff.2 hs
  have hwithin := hrange.within_of_hasStmt (hasStmt_of_placed hx)
  rw [command?_of_placed hx, command?_of_placed (h.placed hx)]
  exact Stmt.command?_congr (fun v hv => h.varText (hwithin.vars v hv))
    fun c hc => h.classText (hwithin.classes c hc)

theorem outlineMethod (hrange : d.InRange) {y : Method} (hy : y.Within d.size) :
    e.outlineMethod y = d.outlineMethod y := by
  rw [Draft.outlineMethod, Draft.outlineMethod, MethodOutline.mk.injEq]
  refine ⟨rfl, rfl, rfl, ?_, ?_, ?_, ?_, ?_⟩
  · exact List.map_congr_left fun v hv => h.varText (hy.params v hv)
  · exact Option.map_congr fun v hv => h.varText (hy.this v hv)
  · exact List.map_congr_left fun v hv => h.varText (hy.returns v hv)
  · exact List.map_congr_left fun v hv => h.varText (hy.vars v hv)
  · exact List.map_congr_left fun s hs => h.command? hrange (hy.stmts s hs)

end Keeps

/-- A class of which no member changes looks as before. -/
theorem Keeps.outlineClass (h : d.Keeps cs ∅ ns e) (hrange : d.InRange) {x : Class}
    (hx : x.Within d.size) : e.outlineClass x = d.outlineClass x := by
  rw [Draft.outlineClass, Draft.outlineClass, ClassOutline.mk.injEq]
  refine ⟨rfl, rfl, rfl, rfl, ?_, ?_, ?_, ?_⟩
  · exact Option.map_congr fun c hc => h.classText (hx.superclass c hc)
  · exact List.map_congr_left fun c hc => h.classText (hx.interfaces c hc)
  · refine List.map_congr_left fun f hf => ?_
    obtain ⟨z, hz⟩ : ∃ z, d.field f = .ok z := fetch_isOk_iff.2 (hx.fields f hf)
    rw [fieldOutline_of_field hz, fieldOutline_of_field (h.field hz)]
  · refine List.map_congr_left fun p hp => ?_
    obtain ⟨y, hy⟩ := exists_method_iff.2 (hx.methods p hp)
    rw [methodOutline_of_method hy, methodOutline_of_method (h.method id hy),
      h.outlineMethod hrange (hrange.within_of_method hy)]

end Draft

/-! ## Outlines of trees -/

namespace Text

/-- The variables that a command mentions, in the order in which they are looked up. -/
def CallTree.vars (c : CallTree) : List String := (c.receiver.toList ++ c.args).map Name.text

def Expr.vars : Expr → List String
  | .copy value => [value.text]
  | .load base _ => [base.text]
  | .loadArray base => [base.text]
  | .call c => c.vars
  | _ => []

def Command.vars : Command → List String
  | .assign lhs rhs => lhs.text :: rhs.vars
  | .store base _ rhs => [base.text, rhs.text]
  | .storeStatic _ rhs => [rhs.text]
  | .storeArray base rhs => [base.text, rhs.text]
  | .call c => c.vars
  | .ret value => value.toList.map Name.text

/-- The classes that a command mentions. -/
def Expr.classes : Expr → List String
  | .new cls _ => [cls.text]
  | .load _ field => [field.cls.text]
  | .loadStatic field => [field.cls.text]
  | .call c => [c.target.cls.text]
  | _ => []

def Command.classes : Command → List String
  | .assign _ rhs => rhs.classes
  | .store _ field _ => [field.cls.text]
  | .storeStatic field _ => [field.cls.text]
  | .call c => [c.target.cls.text]
  | .storeArray .. | .ret _ => []

def Command.returned? : Command → Option String
  | .ret value => value.map Name.text
  | _ => none

end Text

/-- A method with these statements. -/
def MethodOutline.of (name : String) (isStatic isAbstract : Bool) (params : List String)
    (body : List Command) : MethodOutline where
  name := name
  isStatic := isStatic
  isAbstract := isAbstract
  params := params
  this := if isStatic then none else some "this"
  returns := (body.filterMap Command.returned?).foldl addNew []
  vars := (body.flatMap Command.vars).foldl addNew (Draft.startNames params isStatic)
  body := body.map fun c => some c.bare

namespace Text

def Member.isStatic (x : Member) : Bool := decide (.static ∈ x.modifiers)

/-- A field with whether it is static, or a method. -/
def Member.outline (x : Member) : (String × Bool) ⊕ MethodOutline :=
  match x.kind with
  | .field => .inl (x.name.text, x.isStatic)
  | .method params body =>
    .inr (MethodOutline.of x.name.text x.isStatic body.isNone (params.map Name.text) (body.getD []))

/-- What tells the members of a class apart. -/
def Member.key (x : Member) : String ⊕ Subsig := x.outline.map Prod.fst MethodOutline.sig

def Member.classes (x : Member) : List String :=
  match x.kind with
  | .field => []
  | .method _ body => (body.getD []).flatMap Command.classes

def ClassTree.outline (t : ClassTree) : ClassOutline where
  name := t.name.text
  declared := true
  isInterface := t.isInterface
  isAbstract := t.isAbstract || t.isInterface
  superclass := t.superclass.map Name.text
  interfaces := t.interfaces.map Name.text
  fields := t.members.filterMap fun x => x.outline.getLeft?
  methods := t.members.filterMap fun x => x.outline.getRight?

/-- The classes that a tree mentions, other than the one it declares. -/
def ClassTree.mentions (t : ClassTree) : List String :=
  (t.superclass.toList ++ t.interfaces).map Name.text ++ t.members.flatMap Member.classes

end Text

end PointsTo
