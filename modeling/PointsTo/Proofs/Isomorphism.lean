import Mathlib.Data.Set.Function
import PointsTo.Proofs.Outline

/-!
# Drafts up to renumbering

Two drafts are `Isomorphic` if their ids can be renumbered, each kind on its own, such that the
tables of the one become those of the other (`Corresponds`). Within a draft a class is known by its
name, a field or a method by its class and its name or subsignature, a variable by its method and
its name, a statement by its method and its position (`Kind.Label`). Drafts that are `Alike`, with
the same outlines, have things that are known by the same, and to match these is an isomorphism
(`Alike.isomorphic`).
-/

namespace PointsTo

open Text

/-! ## Renumbering -/

/-- New ids for the ids of each kind. -/
abbrev Renumbering := ∀ k : Kind, Id k → Id k

def Invoke.map (f : VarId → VarId) (g : ClassId → ClassId) (c : Invoke) : Invoke where
  lhs := c.lhs.map f
  kind := c.kind
  target := { c.target with cls := g c.target.cls }
  receiver := c.receiver.map f
  args := c.args.map f

def Stmt.map (f : VarId → VarId) (g : ClassId → ClassId) : Stmt → Stmt
  | .new lhs c array => .new (f lhs) (g c) array
  | .copy lhs rhs => .copy (f lhs) (f rhs)
  | .load lhs base ref => .load (f lhs) (base.map f) { ref with cls := g ref.cls }
  | .store base ref rhs => .store (base.map f) { ref with cls := g ref.cls } (f rhs)
  | .loadArray lhs base => .loadArray (f lhs) (f base)
  | .storeArray base rhs => .storeArray (f base) (f rhs)
  | .invoke c => .invoke (c.map f g)
  | .ret value => .ret (value.map f)
  | .const lhs => .const (f lhs)

section

variable (r : Renumbering)

def Class.renumber (x : Class) : Class :=
  { x with
    superclass := x.superclass.map (r .cls)
    interfaces := x.interfaces.map (r .cls)
    fields := x.fields.map (r .field)
    methods := x.methods.map fun p => (p.1, r .method p.2) }

def Field.renumber (z : Field) : Field := { z with cls := r .cls z.cls }

def Method.renumber (y : Method) : Method :=
  { y with
    cls := r .cls y.cls
    params := y.params.map (r .var)
    this := y.this.map (r .var)
    returns := y.returns.map (r .var)
    stmts := y.stmts.map (r .stmt)
    vars := y.vars.map (r .var) }

def Var.renumber (z : Var) : Var := { z with method := r .method z.method }

def Placed.renumber (x : Placed) : Placed :=
  { x with
    stmt := x.stmt.map (r .var) (r .cls)
    method := r .method x.method }

end

namespace Draft

/-- A renumbering turns the tables of one draft into those of another one: it matches all the ids,
and a record stands in the new tables where its id says, with its ids renumbered. -/
structure Corresponds (r : Renumbering) (d d' : Draft) : Prop where
  bij : ∀ k, Set.BijOn (r k) {a | d.Has a} {a | d'.Has a}
  cls : ∀ c x, d.cls c = .ok x → d'.cls (r .cls c) = .ok (x.renumber r)
  field : ∀ f z, d.field f = .ok z → d'.field (r .field f) = .ok (z.renumber r)
  method : ∀ m y, d.method m = .ok y → d'.method (r .method m) = .ok (y.renumber r)
  var : ∀ v z, d.var v = .ok z → d'.var (r .var v) = .ok (z.renumber r)
  placed : ∀ s x, d.placed s = .ok x → d'.placed (r .stmt s) = .ok (x.renumber r)
  entry : d'.entry = d.entry.map (r .method)

def Isomorphic (d d' : Draft) : Prop := ∃ r, Corresponds r d d'

end Draft

/-! ## Lists by their images -/

section Images

variable {α β γ : Type} {f : α → γ} {f' : β → γ} {g : α → β}

theorem eq_map_of_map_eq {l : List α} {l' : List β} (h : l'.map f' = l.map f)
    (hg : ∀ a ∈ l, ∀ b ∈ l', f' b = f a → b = g a) : l' = l.map g := by
  induction l generalizing l' with
  | nil => exact List.map_eq_nil_iff.1 h
  | cons a l ih =>
    obtain ⟨b, l', rfl, hb, hl⟩ := List.map_eq_cons_iff.1 h
    rw [List.map_cons, hg a (.head l) b (.head l') hb,
      ih hl fun a ha b hb => hg a (.tail _ ha) b (.tail _ hb)]

theorem eq_optionMap_of_map_eq {o : Option α} {o' : Option β} (h : o'.map f' = o.map f)
    (hg : ∀ a ∈ o, ∀ b ∈ o', f' b = f a → b = g a) : o' = o.map g := by
  cases o with
  | none => exact Option.map_eq_none_iff.1 h
  | some a =>
    obtain ⟨b, rfl, hb⟩ := Option.map_eq_some_iff.1 h
    exact congrArg some (hg a rfl b rfl hb)

end Images

/-! ## Statements by their commands -/

namespace Text

/-- The call that a tree stands for, where names are looked up. -/
def CallTree.resolve (var : String → VarId) (cls : String → ClassId) (lhs : Option VarId)
    (c : CallTree) : Invoke where
  lhs := lhs
  kind := c.kind
  target := ⟨cls c.target.cls.text, ⟨c.target.name.text, c.args.length⟩⟩
  receiver := c.receiver.map fun n => var n.text
  args := c.args.map fun n => var n.text

/-- The statement that a command stands for, where names are looked up. -/
def Command.resolve (var : String → VarId) (cls : String → ClassId) : Command → Stmt
  | .assign lhs (.new c array) => .new (var lhs.text) (cls c.text) array
  | .assign lhs .const => .const (var lhs.text)
  | .assign lhs (.copy value) => .copy (var lhs.text) (var value.text)
  | .assign lhs (.load base field) =>
    .load (var lhs.text) (some (var base.text)) ⟨cls field.cls.text, field.name.text⟩
  | .assign lhs (.loadStatic field) =>
    .load (var lhs.text) none ⟨cls field.cls.text, field.name.text⟩
  | .assign lhs (.loadArray base) => .loadArray (var lhs.text) (var base.text)
  | .assign lhs (.call c) => .invoke (c.resolve var cls (some (var lhs.text)))
  | .store base field rhs =>
    .store (some (var base.text)) ⟨cls field.cls.text, field.name.text⟩ (var rhs.text)
  | .storeStatic field rhs => .store none ⟨cls field.cls.text, field.name.text⟩ (var rhs.text)
  | .storeArray base rhs => .storeArray (var base.text) (var rhs.text)
  | .call c => .invoke (c.resolve var cls none)
  | .ret value => .ret (value.map fun n => var n.text)

end Text

section Commands

variable {s s' : Stmt} {k : Command} {var var' : VarId → String} {cls cls' : ClassId → String}
  {f : VarId → VarId} {g : ClassId → ClassId}

theorem Invoke.resolve_of_tree? {c : Invoke} {t : CallTree} (h : c.tree? var cls = some t)
    (look : String → VarId) (find : String → ClassId) :
    t.resolve look find (c.lhs.map fun v => look (var v)) = c.map (fun v => look (var v)) fun c =>
      find (cls c) := by
  rw [tree?] at h
  split at h
  next harity =>
    cases h
    simp [CallTree.resolve, Invoke.map, Qualified.plain, Name.plain, Function.comp_def, ← harity]
  next => cases h

/-- To look up the names of the command of a statement is to put other ids in the place of its
ids. -/
theorem Stmt.resolve_of_command? (h : s.command? var cls = some k) (look : String → VarId)
    (find : String → ClassId) :
    k.resolve look find = s.map (fun v => look (var v)) fun c => find (cls c) := by
  cases s with
  | load lhs base ref => cases base <;> cases h <;> rfl
  | store base ref rhs => cases base <;> cases h <;> rfl
  | invoke c =>
    obtain ⟨t, ht, rfl⟩ := Option.map_eq_some_iff.1 h
    rw [Stmt.map, ← Invoke.resolve_of_tree? ht look find]
    cases c.lhs <;> rfl
  | ret value => cases value <;> cases h <;> rfl
  | _ => cases h; rfl

theorem Invoke.map_congr {c : Invoke} {f' : VarId → VarId} {g' : ClassId → ClassId}
    (hvars : ∀ v ∈ c.vars, f v = f' v) (hcls : g c.target.cls = g' c.target.cls) :
    c.map f g = c.map f' g' := by
  simp only [Invoke.vars, List.mem_append, Option.mem_toList] at hvars
  rw [map, map, hcls, Option.map_congr fun v hv => hvars v (.inl (.inl hv)),
    Option.map_congr fun v hv => hvars v (.inl (.inr hv)),
    List.map_congr_left fun v hv => hvars v (.inr hv)]

theorem Stmt.map_congr {f' : VarId → VarId} {g' : ClassId → ClassId}
    (hvars : ∀ v ∈ s.vars, f v = f' v) (hclasses : ∀ c ∈ s.classes, g c = g' c) :
    s.map f g = s.map f' g' := by
  cases s with
  | invoke c =>
    exact congrArg Stmt.invoke (c.map_congr hvars (hclasses _ (List.mem_singleton_self _)))
  | load lhs base ref => cases base <;> simp_all [map, Stmt.vars, Stmt.classes]
  | store base ref rhs => cases base <;> simp_all [map, Stmt.vars, Stmt.classes]
  | ret value => cases value <;> simp_all [map, Stmt.vars]
  | _ => simp_all [map, Stmt.vars, Stmt.classes]

theorem Stmt.map_id (s : Stmt) : s.map id id = s := by
  cases s <;> simp [map, Invoke.map]

/-- Statements of two drafts with the same command are the same up to ids, if names are looked up in
the second one. -/
theorem Stmt.eq_map_of_command? (h : s.command? var cls = some k)
    (h' : s'.command? var' cls' = some k) {look : String → VarId} {find : String → ClassId}
    (hvars : ∀ v ∈ s.vars, look (var v) = f v) (hvars' : ∀ v ∈ s'.vars, look (var' v) = v)
    (hclasses : ∀ c ∈ s.classes, find (cls c) = g c)
    (hclasses' : ∀ c ∈ s'.classes, find (cls' c) = c) : s' = s.map f g :=
  calc s' = s'.map id id := s'.map_id.symm
    _ = s'.map (fun v => look (var' v)) fun c => find (cls' c) :=
      map_congr (fun v hv => (hvars' v hv).symm) fun c hc => (hclasses' c hc).symm
    _ = k.resolve look find := (resolve_of_command? h' look find).symm
    _ = s.map (fun v => look (var v)) fun c => find (cls c) := resolve_of_command? h look find
    _ = s.map f g := map_congr hvars hclasses

end Commands

/-! ## Labels -/

/-- What a thing is known by within a draft: the name of a class, the class and the name of a field,
the class and the subsignature of a method, the method and the name of a variable, the method and
the position of a statement. -/
abbrev Kind.Label : Kind → Type
  | .cls => String
  | .field => String × String
  | .method => String × Subsig
  | .var => (String × Subsig) × String
  | .stmt => (String × Subsig) × Nat
  | .obj | .pointer => Unit

namespace Draft

def methodLabel (d : Draft) (m : MethodId) : String × Subsig :=
  (d.method m).toOption.elim ("", ⟨"", 0⟩) fun y => (d.classText y.cls, y.sig)

def label (d : Draft) : {k : Kind} → Id k → k.Label
  | .cls, c => d.classText c
  | .field, f => (d.field f).toOption.elim ("", "") fun z => (d.classText z.cls, z.name)
  | .method, m => d.methodLabel m
  | .var, v => (d.var v).toOption.elim (("", ⟨"", 0⟩), "") fun z => (d.methodLabel z.method, z.name)
  | .stmt, s =>
    (d.placed s).toOption.elim (("", ⟨"", 0⟩), 0) fun x => (d.methodLabel x.method, x.position)
  | .obj, _ | .pointer, _ => ()

variable {d d' : Draft} {c c' : ClassId} {x x' : Class} {f f' : FieldId} {z : Field}
  {m m' : MethodId} {y y' : Method} {v : VarId} {w : Var} {s : StmtId} {p : Placed}

theorem label_cls (hx : d.cls c = .ok x) : d.label c = x.name := classText_of_cls hx

theorem label_field (hz : d.field f = .ok z) : d.label f = (d.label z.cls, z.name) := by
  simp only [label, hz, Except.toOption, Option.elim_some]

theorem label_method (hy : d.method m = .ok y) : d.label m = (d.label y.cls, y.sig) := by
  simp only [label, methodLabel, hy, Except.toOption, Option.elim_some]

theorem label_var (hw : d.var v = .ok w) : d.label v = (d.label w.method, w.name) := by
  simp only [label, hw, Except.toOption, Option.elim_some]

theorem label_placed (hp : d.placed s = .ok p) : d.label s = (d.label p.method, p.position) := by
  simp only [label, hp, Except.toOption, Option.elim_some]

theorem label_of_owns (hv : d.Owns m v) : d.label v = (d.label m, d.varText v) := by
  obtain ⟨w, hw, rfl⟩ := hv
  rw [label_var hw, varText_of_var hw]

theorem outlineMethod_sig (d : Draft) (y : Method) : (d.outlineMethod y).sig = y.sig := by
  simp [outlineMethod, MethodOutline.sig, Method.sig]

theorem cls_eq_of_label {c c' : ClassId} (hc : d.Has c) (hc' : d.Has c')
    (heq : d.label c = d.label c') : c = c' := by
  obtain ⟨x, hx⟩ := exists_cls_iff.2 hc
  obtain ⟨x', hx'⟩ := exists_cls_iff.2 hc'
  rw [label_cls hx, label_cls hx'] at heq
  exact cls_unique hx hx' heq

theorem Regular.method_eq_of_label (hd : d.Regular) {m m' : MethodId} (hm : d.Has m)
    (hm' : d.Has m') (heq : d.label m = d.label m') : m = m' := by
  obtain ⟨y, hy⟩ := exists_method_iff.2 hm
  obtain ⟨y', hy'⟩ := exists_method_iff.2 hm'
  rw [label_method hy, label_method hy', Prod.mk.injEq] at heq
  have hsame :=
    cls_eq_of_label (hd.inRange.within_of_method hy).cls (hd.inRange.within_of_method hy').cls heq.1
  exact hd.built.distinct.methods m m' y y' hy hy' hsame heq.2

/-- Things of one kind have different labels. -/
theorem Regular.label_injOn (hd : d.Regular) (k : Kind) :
    Set.InjOn (d.label (k := k)) {a | d.Has a} := by
  cases k with
  | cls => exact fun c hc c' hc' => cls_eq_of_label hc hc'
  | method => exact fun m hm m' hm' => hd.method_eq_of_label hm hm'
  | field =>
    intro f hf f' hf' heq
    obtain ⟨z, hz⟩ : ∃ z, d.field f = .ok z := fetch_isOk_iff.2 hf
    obtain ⟨z', hz'⟩ : ∃ z, d.field f' = .ok z := fetch_isOk_iff.2 hf'
    obtain ⟨x, hx, -⟩ := hd.built.listed.fields f z hz
    obtain ⟨x', hx', -⟩ := hd.built.listed.fields f' z' hz'
    rw [label_field hz, label_field hz', Prod.mk.injEq] at heq
    have hsame := cls_eq_of_label (exists_cls_iff.1 ⟨x, hx⟩) (exists_cls_iff.1 ⟨x', hx'⟩) heq.1
    exact hd.built.distinct.fields f f' z z' hz hz' hsame heq.2
  | var =>
    intro v hv v' hv' heq
    obtain ⟨⟨n, m⟩, hw⟩ : ∃ w, d.var v = .ok w := fetch_isOk_iff.2 hv
    obtain ⟨⟨n', m'⟩, hw'⟩ : ∃ w, d.var v' = .ok w := fetch_isOk_iff.2 hv'
    obtain ⟨y, hy, -⟩ := hd.built.listed.vars v _ hw
    obtain ⟨y', hy', -⟩ := hd.built.listed.vars v' _ hw'
    rw [label_var hw, label_var hw', Prod.mk.injEq] at heq
    obtain rfl :=
      hd.method_eq_of_label (exists_method_iff.1 ⟨y, hy⟩) (exists_method_iff.1 ⟨y', hy'⟩) heq.1
    obtain rfl : n = n' := heq.2
    exact var_unique hw hw'
  | stmt =>
    intro s hs s' hs' heq
    obtain ⟨⟨stmt, m, i⟩, hp⟩ := exists_placed_iff.2 hs
    obtain ⟨⟨stmt', m', i'⟩, hp'⟩ := exists_placed_iff.2 hs'
    obtain ⟨y, hy, hi⟩ := hd.built.filed.stands s _ hp
    obtain ⟨y', hy', hi'⟩ := hd.built.filed.stands s' _ hp'
    rw [label_placed hp, label_placed hp', Prod.mk.injEq] at heq
    obtain rfl :=
      hd.method_eq_of_label (exists_method_iff.1 ⟨y, hy⟩) (exists_method_iff.1 ⟨y', hy'⟩) heq.1
    obtain rfl : i = i' := heq.2
    cases hy.symm.trans hy'
    exact Option.some.inj (hi.symm.trans hi')
  | obj | pointer => exact fun a ha => absurd ha (Nat.not_lt_zero _)

/-- The variable of a name in a method. -/
def varNamed (d : Draft) (m : MethodId) (name : String) : VarId := ⟨(d.vars.find? (m, name)).getD 0⟩

/-- The class of a name. -/
def classNamed (d : Draft) (name : String) : ClassId := (d.findClass? name).getD ⟨0⟩

theorem varNamed_varText (hv : d.Owns m v) : d.varNamed m (d.varText v) = v := by
  obtain ⟨⟨name, _⟩, hw, rfl⟩ := hv
  rw [varNamed, varText_of_var hw, var_eq_ok_iff_find?.1 hw]
  rfl

theorem classNamed_classText (hc : d.Has c) : d.classNamed (d.classText c) = c := by
  obtain ⟨x, hx⟩ := exists_cls_iff.2 hc
  rw [classNamed, classText_of_cls hx, findClass?_eq_some_iff.2 ⟨x, hx, rfl⟩]
  rfl

/-! ## Drafts with the same outlines -/

/-- Two regular drafts with the same outlines, in which every statement has a command. -/
structure Alike (d d' : Draft) : Prop where
  left : d.Regular
  right : d'.Regular
  outline : ∀ name, d'.outline? name = d.outline? name
  complete : ∀ name o, d.outline? name = some o → ∀ m ∈ o.methods, none ∉ m.body

namespace Alike

variable (h : d.Alike d')

include h

theorem symm : d'.Alike d where
  left := h.right
  right := h.left
  outline name := (h.outline name).symm
  complete name o ho := h.complete name o ((h.outline name).symm.trans ho)

theorem outlineClass_eq (hx : d.cls c = .ok x) (hx' : d'.cls c' = .ok x')
    (hlabel : d'.label c' = d.label c) : d'.outlineClass x' = d.outlineClass x := by
  rw [label_cls hx, label_cls hx'] at hlabel
  have houtline := h.outline x.name
  rw [outline?_of_cls hx, ← hlabel, outline?_of_cls hx'] at houtline
  exact Option.some.inj houtline

theorem exists_cls (hx : d.cls c = .ok x) :
    ∃ c' x', d'.cls c' = .ok x' ∧ d'.label c' = d.label c ∧
      d'.outlineClass x' = d.outlineClass x := by
  obtain ⟨c', x', hx', hname, houtline⟩ :=
    outline?_eq_some_iff.1 ((h.outline x.name).trans (outline?_of_cls hx))
  refine ⟨c', x', hx', ?_, houtline⟩
  rw [label_cls hx, label_cls hx', hname]

theorem exists_field (hf : d.Has f) :
    ∃ f', d'.Has f' ∧ d'.label f' = d.label f ∧ d'.fieldOutline f' = d.fieldOutline f := by
  obtain ⟨z, hz⟩ : ∃ z, d.field f = .ok z := fetch_isOk_iff.2 hf
  obtain ⟨x, hx, hmem⟩ := h.left.built.listed.fields f z hz
  obtain ⟨c', x', hx', hlabel, houtline⟩ := h.exists_cls hx
  have hfields : x'.fields.map d'.fieldOutline = x.fields.map d.fieldOutline :=
    congrArg ClassOutline.fields houtline
  obtain ⟨f', hmem', heq⟩ := List.mem_map.1 (hfields ▸ List.mem_map_of_mem hmem)
  obtain ⟨z', hz', rfl⟩ := h.right.built.owned.fields c' x' hx' f' hmem'
  refine ⟨f', fetch_isOk_iff.1 ⟨z', hz'⟩, ?_, heq⟩
  rw [fieldOutline_of_field hz, fieldOutline_of_field hz'] at heq
  rw [label_field hz, label_field hz', hlabel, (Prod.mk.inj heq).1]

theorem exists_method (hm : d.Has m) :
    ∃ m', d'.Has m' ∧ d'.label m' = d.label m ∧ d'.methodOutline m' = d.methodOutline m := by
  obtain ⟨y, hy⟩ := exists_method_iff.2 hm
  obtain ⟨x, hx, hmem⟩ := h.left.built.listed.methods m y hy
  obtain ⟨c', x', hx', hlabel, houtline⟩ := h.exists_cls hx
  have hmethods : x'.methods.map (fun p => d'.methodOutline p.2) =
      x.methods.map fun p => d.methodOutline p.2 :=
    congrArg ClassOutline.methods houtline
  obtain ⟨⟨sig, m'⟩, hmem', heq⟩ := List.mem_map.1 (hmethods ▸ List.mem_map_of_mem hmem)
  obtain ⟨y', hy', rfl, -⟩ := h.right.built.owned.methods c' x' hx' _ hmem'
  refine ⟨m', exists_method_iff.1 ⟨y', hy'⟩, ?_, heq⟩
  dsimp only at heq hy'
  rw [methodOutline_of_method hy, methodOutline_of_method hy'] at heq
  rw [label_method hy, label_method hy', hlabel, ← d'.outlineMethod_sig, heq, outlineMethod_sig]

theorem fieldOutline_eq (hf : d.Has f) (hf' : d'.Has f') (hlabel : d'.label f' = d.label f) :
    d'.fieldOutline f' = d.fieldOutline f := by
  obtain ⟨f₁, hf₁, hlabel₁, houtline⟩ := h.exists_field hf
  rwa [h.right.label_injOn _ hf' hf₁ (hlabel.trans hlabel₁.symm)]

theorem methodOutline_eq (hm : d.Has m) (hm' : d'.Has m') (hlabel : d'.label m' = d.label m) :
    d'.methodOutline m' = d.methodOutline m := by
  obtain ⟨m₁, hm₁, hlabel₁, houtline⟩ := h.exists_method hm
  rwa [h.right.label_injOn _ hm' hm₁ (hlabel.trans hlabel₁.symm)]

theorem outlineMethod_eq (hy : d.method m = .ok y) (hy' : d'.method m' = .ok y')
    (hlabel : d'.label m' = d.label m) : d'.outlineMethod y' = d.outlineMethod y := by
  rw [← methodOutline_of_method hy, ← methodOutline_of_method hy']
  exact h.methodOutline_eq (exists_method_iff.1 ⟨y, hy⟩) (exists_method_iff.1 ⟨y', hy'⟩) hlabel

/-- The statements at one position of the same method. -/
theorem exists_stmt (hy : d.method m = .ok y) (hy' : d'.method m' = .ok y')
    (hlabel : d'.label m' = d.label m) {i : Nat} (hs : y.stmts[i]? = some s) :
    ∃ s', y'.stmts[i]? = some s' ∧ d'.command? s' = d.command? s := by
  have hbody : y'.stmts.toList.map d'.command? = y.stmts.toList.map d.command? :=
    congrArg MethodOutline.body (h.outlineMethod_eq hy hy' hlabel)
  have hget := congrArg (fun l => l[i]?) hbody
  simp only [List.getElem?_map, Array.getElem?_toList, hs, Option.map_some] at hget
  exact Option.map_eq_some_iff.1 hget

theorem exists_label {k : Kind} {a : Id k} (ha : d.Has a) :
    ∃ a', d'.Has a' ∧ d'.label a' = d.label a := by
  cases k with
  | cls =>
    obtain ⟨x, hx⟩ := exists_cls_iff.2 ha
    obtain ⟨c', x', hx', hlabel, -⟩ := h.exists_cls hx
    exact ⟨c', exists_cls_iff.1 ⟨x', hx'⟩, hlabel⟩
  | field =>
    obtain ⟨f', hf', hlabel, -⟩ := h.exists_field ha
    exact ⟨f', hf', hlabel⟩
  | method =>
    obtain ⟨m', hm', hlabel, -⟩ := h.exists_method ha
    exact ⟨m', hm', hlabel⟩
  | var =>
    obtain ⟨w, hw⟩ : ∃ w, d.var a = .ok w := fetch_isOk_iff.2 ha
    obtain ⟨y, hy, hmem⟩ := h.left.built.listed.vars a w hw
    obtain ⟨m', hm', hlabel, -⟩ := h.exists_method (exists_method_iff.1 ⟨y, hy⟩)
    obtain ⟨y', hy'⟩ := exists_method_iff.2 hm'
    have hvars : y'.vars.toList.map d'.varText = y.vars.toList.map d.varText :=
      congrArg MethodOutline.vars (h.outlineMethod_eq hy hy' hlabel)
    obtain ⟨v', hmem', htext⟩ := List.mem_map.1 (hvars ▸ List.mem_map_of_mem hmem)
    have howns := h.right.built.owned.vars m' y' hy' v' hmem'
    refine ⟨v', howns.has, ?_⟩
    rw [label_of_owns howns, label_of_owns ⟨w, hw, rfl⟩, hlabel, htext]
  | stmt =>
    obtain ⟨p, hp⟩ := exists_placed_iff.2 ha
    obtain ⟨y, hy, hi⟩ := h.left.built.filed.stands a p hp
    obtain ⟨m', hm', hlabel, -⟩ := h.exists_method (exists_method_iff.1 ⟨y, hy⟩)
    obtain ⟨y', hy'⟩ := exists_method_iff.2 hm'
    obtain ⟨s', hs', -⟩ := h.exists_stmt hy hy' hlabel hi
    obtain ⟨stmt, hp'⟩ := h.right.built.filed.listed m' y' _ s' hy' hs'
    refine ⟨s', exists_placed_iff.1 ⟨_, hp'⟩, ?_⟩
    rw [label_placed hp, label_placed hp', hlabel]
  | obj | pointer => exact absurd ha (Nat.not_lt_zero _)

/-- Every statement has a command. -/
theorem exists_command (hs : d.Has s) : ∃ k, d.command? s = some k := by
  obtain ⟨p, hp⟩ := exists_placed_iff.2 hs
  obtain ⟨y, hy, hi⟩ := h.left.built.filed.stands s p hp
  obtain ⟨x, hx, hmem⟩ := h.left.built.listed.methods _ y hy
  refine Option.ne_none_iff_exists'.1 fun hnone => ?_
  refine h.complete x.name _ (outline?_of_cls hx) (d.methodOutline p.method)
    (List.mem_map_of_mem hmem) ?_
  rw [methodOutline_of_method hy]
  exact List.mem_map.2 ⟨s, Array.mem_def.1 (Array.mem_of_getElem? hi), hnone⟩

end Alike

/-! ## Matching what has the same label -/

/-- A renumbering goes from the ids of one draft to those of another one with the same labels. -/
def Matches (r : Renumbering) (d d' : Draft) : Prop :=
  ∀ {k : Kind} (a : Id k), d.Has a → d'.Has (r k a) ∧ d'.label (r k a) = d.label a

theorem Alike.exists_matches (h : d.Alike d') : ∃ r, Matches r d d' := by
  have hchoose : ∀ (k : Kind) (a : Id k), ∃ a', d.Has a → d'.Has a' ∧ d'.label a' = d.label a := by
    intro k a
    by_cases ha : d.Has a
    · obtain ⟨a', ha'⟩ := h.exists_label ha
      exact ⟨a', fun _ => ha'⟩
    · exact ⟨a, fun h => absurd h ha⟩
  choose r hr using hchoose
  exact ⟨r, fun a => hr _ a⟩

namespace Alike

variable (h : d.Alike d') {r : Renumbering} (hr : Matches r d d')

include h hr

theorem eq_of_label {k : Kind} {a a' : Id k} (ha : d.Has a) (ha' : d'.Has a')
    (hlabel : d'.label a' = d.label a) : a' = r k a := by
  obtain ⟨hmem, heq⟩ := hr a ha
  exact h.right.label_injOn k ha' hmem (hlabel.trans heq.symm)

theorem bijOn (k : Kind) : Set.BijOn (r k) {a | d.Has a} {a | d'.Has a} := by
  refine ⟨fun a ha => (hr a ha).1, fun a ha b hb heq => ?_, fun a' ha' => ?_⟩
  · refine h.left.label_injOn k ha hb ?_
    rw [← (hr a ha).2, ← (hr b hb).2, heq]
  · obtain ⟨a, ha, hlabel⟩ := h.symm.exists_label ha'
    exact ⟨a, ha, (h.eq_of_label hr ha ha' hlabel.symm).symm⟩

/-- Variables of matching methods match if they have the same name. -/
theorem eq_of_varText {w : VarId} (hm : d.Has m) (hv : d.Owns m v) (hw : d'.Owns (r .method m) w)
    (htext : d'.varText w = d.varText v) : w = r .var v := by
  refine h.eq_of_label hr hv.has hw.has ?_
  rw [label_of_owns hv, label_of_owns hw, htext, (hr m hm).2]

theorem cls_renumber (hx : d.cls c = .ok x) : d'.cls (r .cls c) = .ok (x.renumber r) := by
  obtain ⟨hc', hlabel⟩ := hr c (exists_cls_iff.1 ⟨x, hx⟩)
  obtain ⟨x', hx'⟩ := exists_cls_iff.2 hc'
  have houtline := h.outlineClass_eq hx hx' hlabel
  have hwithin := h.left.inRange.within_of_cls hx
  have hwithin' := h.right.inRange.within_of_cls hx'
  simp only [outlineClass, ClassOutline.mk.injEq] at houtline
  obtain ⟨hname, hdeclared, hinterface, habstract, hsuper, hinterfaces, hfields, hmethods⟩ :=
    houtline
  suffices hsame : x' = x.renumber r by rw [hx', hsame]
  have hsuper' : x'.superclass = x.superclass.map (r .cls) :=
    eq_optionMap_of_map_eq hsuper fun a ha b hb =>
      h.eq_of_label hr (hwithin.superclass a ha) (hwithin'.superclass b hb)
  have hinterfaces' : x'.interfaces = x.interfaces.map (r .cls) :=
    eq_map_of_map_eq hinterfaces fun a ha b hb =>
      h.eq_of_label hr (hwithin.interfaces a ha) (hwithin'.interfaces b hb)
  have hfields' : x'.fields = x.fields.map (r .field) := by
    refine eq_map_of_map_eq hfields fun a ha b hb heq => ?_
    obtain ⟨z, hz, rfl⟩ := h.left.built.owned.fields c x hx a ha
    obtain ⟨z', hz', hcls⟩ := h.right.built.owned.fields _ x' hx' b hb
    refine h.eq_of_label hr (hwithin.fields a ha) (hwithin'.fields b hb) ?_
    rw [fieldOutline_of_field hz, fieldOutline_of_field hz'] at heq
    rw [label_field hz, label_field hz', hcls, hlabel, (Prod.mk.inj heq).1]
  have hmethods' : x'.methods = x.methods.map fun p => (p.1, r .method p.2) := by
    refine eq_map_of_map_eq hmethods fun a ha b hb heq => ?_
    obtain ⟨y, hy, rfl, hsig⟩ := h.left.built.owned.methods c x hx a ha
    obtain ⟨y', hy', hcls, hsig'⟩ := h.right.built.owned.methods _ x' hx' b hb
    rw [methodOutline_of_method hy, methodOutline_of_method hy'] at heq
    have hsame : y'.sig = y.sig := by rw [← d'.outlineMethod_sig, heq, outlineMethod_sig]
    refine Prod.ext (hsig'.symm.trans (hsame.trans hsig)) ?_
    refine h.eq_of_label hr (hwithin.methods a ha) (hwithin'.methods b hb) ?_
    rw [label_method hy, label_method hy', hcls, hlabel, hsame]
  cases x'
  simp_all [Class.renumber]

theorem field_renumber (hz : d.field f = .ok z) : d'.field (r .field f) = .ok (z.renumber r) := by
  have hf : d.Has f := fetch_isOk_iff.1 ⟨z, hz⟩
  obtain ⟨hf', hlabel⟩ := hr f hf
  obtain ⟨⟨name, c', isStatic⟩, hz'⟩ : ∃ z', d'.field (r .field f) = .ok z' := fetch_isOk_iff.2 hf'
  have houtline := h.fieldOutline_eq hf hf' hlabel
  rw [fieldOutline_of_field hz, fieldOutline_of_field hz', Prod.mk.injEq] at houtline
  rw [label_field hz, label_field hz', Prod.mk.injEq] at hlabel
  obtain ⟨x, hx, -⟩ := h.left.built.listed.fields f z hz
  obtain ⟨x', hx', -⟩ := h.right.built.listed.fields _ _ hz'
  have hcls := h.eq_of_label hr (exists_cls_iff.1 ⟨x, hx⟩) (exists_cls_iff.1 ⟨x', hx'⟩) hlabel.1
  rw [hz', Field.renumber, ← hcls, ← houtline.1, ← houtline.2]

/-- Matching methods have matching statements at the same positions. -/
theorem stmts_renumber (hy : d.method m = .ok y) (hy' : d'.method (r .method m) = .ok y')
    (hlabel : d'.label (r .method m) = d.label m) : y'.stmts = y.stmts.map (r .stmt) := by
  refine Array.ext_getElem? fun i => ?_
  rw [Array.getElem?_map]
  cases hs : y.stmts[i]? with
  | none =>
    -- a statement of the second method would have one of the first at its position
    refine Option.eq_none_iff_forall_ne_some.2 fun s' hs' => ?_
    obtain ⟨s, hs₁, -⟩ := h.symm.exists_stmt hy' hy hlabel.symm hs'
    rw [hs] at hs₁
    cases hs₁
  | some s =>
    obtain ⟨s', hs', -⟩ := h.exists_stmt hy hy' hlabel hs
    obtain ⟨stmt, hp⟩ := h.left.built.filed.listed m y i s hy hs
    obtain ⟨stmt', hp'⟩ := h.right.built.filed.listed _ y' i s' hy' hs'
    rw [hs', Option.map_some, ← h.eq_of_label hr (exists_placed_iff.1 ⟨_, hp⟩)
      (exists_placed_iff.1 ⟨_, hp'⟩)]
    rw [label_placed hp, label_placed hp', hlabel]

theorem method_renumber (hy : d.method m = .ok y) :
    d'.method (r .method m) = .ok (y.renumber r) := by
  have hm : d.Has m := exists_method_iff.1 ⟨y, hy⟩
  obtain ⟨hm', hlabel⟩ := hr m hm
  obtain ⟨y', hy'⟩ := exists_method_iff.2 hm'
  have houtline := h.outlineMethod_eq hy hy' hlabel
  have hends := h.left.locals.methods m y hy
  have hends' := h.right.locals.methods _ y' hy'
  simp only [Method.ends, List.mem_append, Option.mem_toList] at hends hends'
  suffices hsame : y' = y.renumber r by rw [hy', hsame]
  have hcls : y'.cls = r .cls y.cls := by
    rw [label_method hy, label_method hy', Prod.mk.injEq] at hlabel
    exact h.eq_of_label hr (h.left.inRange.within_of_method hy).cls
      (h.right.inRange.within_of_method hy').cls hlabel.1
  have hstmts := h.stmts_renumber hr hy hy' hlabel
  simp only [outlineMethod, MethodOutline.mk.injEq] at houtline
  obtain ⟨hname, hstatic, habstract, hparams, hthis, hreturns, hvars, -⟩ := houtline
  have hparams' : y'.params = y.params.map (r .var) := eq_map_of_map_eq hparams fun a ha b hb =>
    h.eq_of_varText hr hm (hends a (.inl (.inr ha))) (hends' b (.inl (.inr hb)))
  have hthis' : y'.this = y.this.map (r .var) := eq_optionMap_of_map_eq hthis fun a ha b hb =>
    h.eq_of_varText hr hm (hends a (.inl (.inl ha))) (hends' b (.inl (.inl hb)))
  have hreturns' : y'.returns = y.returns.map (r .var) := eq_map_of_map_eq hreturns fun a ha b hb =>
    h.eq_of_varText hr hm (hends a (.inr ha)) (hends' b (.inr hb))
  have hvars' : y'.vars = y.vars.map (r .var) := by
    rw [← Array.toList_inj, Array.toList_map]
    exact eq_map_of_map_eq hvars fun a ha b hb => h.eq_of_varText hr hm
      (h.left.built.owned.vars m y hy a ha) (h.right.built.owned.vars _ y' hy' b hb)
  cases y'
  simp_all [Method.renumber]

theorem var_renumber (hw : d.var v = .ok w) : d'.var (r .var v) = .ok (w.renumber r) := by
  obtain ⟨hv', hlabel⟩ := hr v (fetch_isOk_iff.1 ⟨w, hw⟩)
  obtain ⟨⟨name, m'⟩, hw'⟩ : ∃ w', d'.var (r .var v) = .ok w' := fetch_isOk_iff.2 hv'
  obtain ⟨y, hy, -⟩ := h.left.built.listed.vars v w hw
  obtain ⟨y', hy', -⟩ := h.right.built.listed.vars _ _ hw'
  rw [label_var hw, label_var hw', Prod.mk.injEq] at hlabel
  have hmethod :=
    h.eq_of_label hr (exists_method_iff.1 ⟨y, hy⟩) (exists_method_iff.1 ⟨y', hy'⟩) hlabel.1
  rw [hw', Var.renumber, ← hmethod, ← hlabel.2]

theorem placed_renumber (hp : d.placed s = .ok p) : d'.placed (r .stmt s) = .ok (p.renumber r) := by
  have hs : d.Has s := exists_placed_iff.1 ⟨p, hp⟩
  obtain ⟨hs', hlabel⟩ := hr s hs
  obtain ⟨⟨stmt', m', i⟩, hp'⟩ := exists_placed_iff.2 hs'
  obtain ⟨y, hy, hi⟩ := h.left.built.filed.stands s p hp
  obtain ⟨y', hy', hi'⟩ := h.right.built.filed.stands _ _ hp'
  have hm : d.Has p.method := exists_method_iff.1 ⟨y, hy⟩
  rw [label_placed hp, label_placed hp', Prod.mk.injEq] at hlabel
  obtain rfl : m' = r .method p.method :=
    h.eq_of_label hr hm (exists_method_iff.1 ⟨y', hy'⟩) hlabel.1
  obtain rfl : i = p.position := hlabel.2
  have hcommand : d'.command? (r .stmt s) = d.command? s := by
    obtain ⟨s', hs', hcommand⟩ := h.exists_stmt hy hy' hlabel.1 hi
    cases hi'.symm.trans hs'
    exact hcommand
  obtain ⟨k, hk⟩ := h.exists_command hs
  have hstmt : stmt' = p.stmt.map (r .var) (r .cls) := by
    have hvars := h.left.locals.stmts p (mem_toList_of_fetch hp)
    have hvars' := h.right.locals.stmts _ (mem_toList_of_fetch hp')
    have hclasses := (h.left.inRange.stmts p (mem_toList_of_fetch hp)).2.classes
    have hclasses' := (h.right.inRange.stmts _ (mem_toList_of_fetch hp')).2.classes
    refine Stmt.eq_map_of_command? ((command?_of_placed hp).symm.trans hk)
      ((command?_of_placed hp').symm.trans (hcommand.trans hk)) (fun v hv => ?_)
      (fun v hv => varNamed_varText (hvars' v hv)) (fun c hc => ?_)
      fun c hc => classNamed_classText (hclasses' c hc)
    · obtain ⟨w, hw, hmethod⟩ := hvars v hv
      have hw' := h.var_renumber hr hw
      have howns : d'.Owns (r .method p.method) (r .var v) := ⟨_, hw', congrArg (r .method) hmethod⟩
      rw [← varNamed_varText howns, varText_of_var hw, varText_of_var hw']
      rfl
    · obtain ⟨hc', hlabel'⟩ := hr c (hclasses c hc)
      rw [← classNamed_classText hc']
      exact congrArg d'.classNamed hlabel'.symm
  rw [hp', hstmt]
  rfl

omit hr in
/-- Drafts with the same outlines are isomorphic, if the entry has the same label, too. -/
theorem isomorphic (hentry : d'.entry.map d'.label = d.entry.map d.label) : d.Isomorphic d' := by
  obtain ⟨r, hr⟩ := h.exists_matches
  refine ⟨r, h.bijOn hr, fun c x => h.cls_renumber hr, fun f z => h.field_renumber hr,
    fun m y => h.method_renumber hr,
    fun v w => h.var_renumber hr, fun s p => h.placed_renumber hr, ?_⟩
  exact eq_optionMap_of_map_eq hentry fun m hm m' hm' =>
    h.eq_of_label hr (h.left.inRange.entry m hm) (h.right.inRange.entry m' hm')

end Alike

end Draft

end PointsTo
