import PointsTo.Proofs.Identifiers
import PointsTo.Proofs.Labels
import PointsTo.Proofs.Lookups

/-!
# What labels identify

A label is read in one way, and its names lead back to what it was written for: a class has a name
of its own, a field is known by its class and its name, a variable by its method and its name, a
statement by its method and its place. Only a method is not known by its class and its name, since
there may be `Overloads` of it.

`Program.labels_identify_up_to_overloading`: so labels identify statements, objects and pointers up
to overloading (`stmtLabel_eq_iff`, `objLabel_eq_iff`, `Confusable`), and without overloads each
line of a report says what it is about (`LabelsLine.eq`).
-/

namespace PointsTo

open Text

/-! ## Labels of statements -/

namespace Draft

variable (d : Draft)

/-- Methods of one class with one name. -/
def SameName (m m' : MethodId) : Prop :=
  ∃ y y', d.method m = .ok y ∧ d.method m' = .ok y' ∧ y.cls = y'.cls ∧ y.name = y'.name

/-- Different methods of one class with one name. -/
def Overloads (m m' : MethodId) : Prop := m ≠ m' ∧ d.SameName m m'

def NoOverloads : Prop := ∀ m m', ¬ d.Overloads m m'

/-- A label is written for a member with a name of a class. -/
def LabelsMember (l : MemberLabel) (c : ClassId) (name : String) : Prop :=
  ∃ x, d.cls c = .ok x ∧ l.cls.text = x.name ∧ l.name.text = name

def LabelsMethod (l : MemberLabel) (m : MethodId) : Prop :=
  ∃ y, d.method m = .ok y ∧ d.LabelsMember l y.cls y.name

def LabelsField (l : MemberLabel) (f : FieldId) : Prop :=
  ∃ z, d.field f = .ok z ∧ d.LabelsMember l z.cls z.name

def LabelsSite (l : SiteLabel) (s : StmtId) : Prop :=
  ∃ x, d.placed s = .ok x ∧ d.LabelsMethod l.method x.method ∧ l.position = x.position

/-- Statements of overloads. -/
def OverloadedSites (s s' : StmtId) : Prop :=
  ∃ x x', d.placed s = .ok x ∧ d.placed s' = .ok x' ∧ d.Overloads x.method x'.method

variable {d}

section Written

variable (hd : d.Readable)

include hd

theorem exists_labelsMethod {m : MethodId} {t : String} (h : d.methodName m = .ok t) :
    ∃ l, d.LabelsMethod l m ∧ l.text = t := by
  obtain ⟨y, hy, h⟩ := bind_eq_ok.1 h
  obtain ⟨x, hx, h⟩ := bind_eq_ok.1 h
  exact ⟨⟨⟨x.name, hd.classes _ x hx⟩, ⟨y.name, hd.methods m y hy⟩⟩, ⟨y, hy, x, hx, rfl, rfl⟩,
    pure_eq_ok.1 h⟩

theorem exists_labelsField {f : FieldId} {t : String} (h : d.fieldName f = .ok t) :
    ∃ l, d.LabelsField l f ∧ l.text = t := by
  obtain ⟨z, hz, h⟩ := bind_eq_ok.1 h
  obtain ⟨x, hx, h⟩ := bind_eq_ok.1 h
  exact ⟨⟨⟨x.name, hd.classes _ x hx⟩, ⟨z.name, hd.fields f z hz⟩⟩, ⟨z, hz, x, hx, rfl, rfl⟩,
    pure_eq_ok.1 h⟩

theorem exists_labelsSite {s : StmtId} {t : String} (h : d.stmtLabel s = .ok t) :
    ∃ l, d.LabelsSite l s ∧ l.text = t := by
  obtain ⟨x, hx, h⟩ := bind_eq_ok.1 h
  obtain ⟨name, hname, h⟩ := bind_eq_ok.1 h
  obtain ⟨l, hl, rfl⟩ := exists_labelsMethod hd hname
  exact ⟨⟨l, x.position⟩, ⟨x, hx, hl, rfl⟩, pure_eq_ok.1 h⟩

end Written

theorem noOverloads_iff :
    d.NoOverloads ↔ (d.methods.toList.map fun y => (y.cls, y.name)).Nodup := by
  constructor
  · intro hno
    rw [List.nodup_iff_pairwise_ne, List.pairwise_iff_getElem]
    intro i j hi hj hij heq
    rw [List.length_map] at hi hj
    simp only [List.getElem_map, Prod.mk.injEq] at heq
    refine hno ⟨i⟩ ⟨j⟩ ⟨fun hid => Nat.ne_of_lt hij (congrArg Id.index hid), _, _, ?_, ?_, heq⟩
    · exact fetch_eq_ok_iff.2 (Array.getElem?_eq_getElem hi)
    · exact fetch_eq_ok_iff.2 (Array.getElem?_eq_getElem hj)
  · rintro hnodup m m' ⟨hne, y, y', hy, hy', hcls, hname⟩
    have hlt : m.index < d.methods.size := exists_method_iff.1 ⟨y, hy⟩
    refine hne (Id.ext_index ((List.getElem?_inj (by simpa using hlt) hnodup).1 ?_))
    rw [List.getElem?_map, List.getElem?_map, Array.getElem?_toList, Array.getElem?_toList,
      fetch_eq_ok_iff.1 hy, fetch_eq_ok_iff.1 hy', Option.map_some, Option.map_some, hcls, hname]

instance (d : Draft) : Decidable d.NoOverloads := decidable_of_iff _ noOverloads_iff.symm

/-- A label is written for members of one class with one name only. -/
theorem LabelsMember.unique {l : MemberLabel} {c c' : ClassId} {name name' : String}
    (h : d.LabelsMember l c name) (h' : d.LabelsMember l c' name') : c = c' ∧ name = name' := by
  obtain ⟨x, hx, hcls, hname⟩ := h
  obtain ⟨x', hx', hcls', hname'⟩ := h'
  exact ⟨cls_unique hx hx' (hcls.symm.trans hcls'), hname.symm.trans hname'⟩

theorem LabelsMethod.sameName {l : MemberLabel} {m m' : MethodId} (h : d.LabelsMethod l m)
    (h' : d.LabelsMethod l m') : d.SameName m m' := by
  obtain ⟨y, hy, hl⟩ := h
  obtain ⟨y', hy', hl'⟩ := h'
  exact ⟨y, y', hy, hy', hl.unique hl'⟩

theorem LabelsMethod.eq_or_overloads {l : MemberLabel} {m m' : MethodId} (h : d.LabelsMethod l m)
    (h' : d.LabelsMethod l m') : m = m' ∨ d.Overloads m m' := by
  by_cases hm : m = m'
  · exact .inl hm
  · exact .inr ⟨hm, h.sameName h'⟩

theorem LabelsMethod.methodName_eq {l : MemberLabel} {m : MethodId} (h : d.LabelsMethod l m) :
    d.methodName m = .ok l.text := by
  obtain ⟨y, hy, x, hx, hcls, hname⟩ := h
  rw [methodName, hy]
  simp only [bind, Except.bind, hx, ← hcls, ← hname]
  rfl

theorem LabelsSite.stmtLabel_eq {l : SiteLabel} {s : StmtId} (h : d.LabelsSite l s) :
    d.stmtLabel s = .ok l.text := by
  obtain ⟨x, hx, hm, hi⟩ := h
  rw [stmtLabel, hx]
  simp only [bind, Except.bind, hm.methodName_eq, ← hi]
  rfl

theorem SameName.methodName_eq {m m' : MethodId} (h : d.SameName m m') :
    d.methodName m = d.methodName m' := by
  obtain ⟨y, y', hy, hy', hcls, hname⟩ := h
  rw [methodName, methodName, hy, hy']
  simp only [bind, Except.bind, hcls, hname]

section Read

variable (hd : d.Regular)

include hd

theorem LabelsField.eq {l : MemberLabel} {f f' : FieldId} (h : d.LabelsField l f)
    (h' : d.LabelsField l f') : f = f' := by
  obtain ⟨z, hz, hl⟩ := h
  obtain ⟨z', hz', hl'⟩ := h'
  obtain ⟨hcls, hname⟩ := hl.unique hl'
  exact hd.built.distinct.fields f f' z z' hz hz' hcls hname

theorem LabelsSite.eq_or_overloads {l : SiteLabel} {s s' : StmtId} (h : d.LabelsSite l s)
    (h' : d.LabelsSite l s') : s = s' ∨ d.OverloadedSites s s' := by
  obtain ⟨⟨stmt, m, i⟩, hx, hm, hi⟩ := h
  obtain ⟨⟨stmt', m', i'⟩, hx', hm', hi'⟩ := h'
  rcases hm.eq_or_overloads hm' with heq | hoverloads
  · left
    apply hd.label_injOn .stmt (exists_placed_iff.1 ⟨_, hx⟩) (exists_placed_iff.1 ⟨_, hx'⟩)
    show d.label s = d.label s'
    rw [label_placed hx, label_placed hx', heq, ← hi, ← hi']
  · exact .inr ⟨_, _, hx, hx', hoverloads⟩

omit hd in
theorem NoOverloads.method_eq (hno : d.NoOverloads) {l : MemberLabel} {m m' : MethodId}
    (h : d.LabelsMethod l m) (h' : d.LabelsMethod l m') : m = m' :=
  (h.eq_or_overloads h').resolve_right (hno m m')

theorem NoOverloads.site_eq (hno : d.NoOverloads) {l : SiteLabel} {s s' : StmtId}
    (h : d.LabelsSite l s) (h' : d.LabelsSite l s') : s = s' := by
  refine (h.eq_or_overloads hd h').resolve_right ?_
  rintro ⟨x, x', -, -, hoverloads⟩
  exact hno x.method x'.method hoverloads

/-- Statements have the same label if they stand at the same place of methods of one class with one
name. -/
theorem stmtLabel_eq_iff (hnames : d.Readable) {s s' : StmtId} {x x' : Placed}
    (hx : d.placed s = .ok x) (hx' : d.placed s' = .ok x') :
    d.stmtLabel s = d.stmtLabel s' ↔ x.position = x'.position ∧ d.SameName x.method x'.method := by
  constructor
  · intro heq
    obtain ⟨t, ht⟩ := hd.inRange.exists_stmtLabel (exists_placed_iff.1 ⟨x, hx⟩)
    obtain ⟨l, ⟨y, hy, hm, hi⟩, hl⟩ := exists_labelsSite hnames ht
    obtain ⟨l', ⟨y', hy', hm', hi'⟩, hl'⟩ := exists_labelsSite hnames (heq ▸ ht)
    cases hx.symm.trans hy
    cases hx'.symm.trans hy'
    obtain rfl := SiteLabel.text_injective (hl.trans hl'.symm)
    exact ⟨hi.symm.trans hi', hm.sameName hm'⟩
  · rintro ⟨hi, hm⟩
    rw [stmtLabel, stmtLabel, hx, hx']
    simp only [bind, Except.bind, hm.methodName_eq, hi]

end Read

end Draft

/-! ## Labels of objects and pointers -/

/-- Every object is allocated by its statement, and no two objects by one statement. -/
structure Heap.Allocated {κ : Type} [Ord κ] [Std.TransOrd κ] (d : Draft) (h : Heap κ) : Prop where
  allocates : ∀ o obj, h.get o = .ok obj → d.Allocates obj.site obj.type
  injective : ∀ o o' obj obj', h.get o = .ok obj → h.get o' = .ok obj' →
    obj.site = obj'.site → o = o'

theorem State.Run.allocated {κ : Type} [Ord κ] [Std.TransOrd κ] [Std.LawfulEqOrd κ]
    {model : HeapModel κ} {p : Program} {facts : List (Fact κ)} {st : State κ} (hp : p.Proper)
    (h : State.Run model p facts st) : st.heap.Allocated p.toDraft := by
  have hobjects := (h.spec hp).1.supported.objects
  have hallocates : ∀ o obj, st.heap.get o = .ok obj →
      p.Allocates obj.site obj.type ∧ ∃ k, st.heap.keyOf o = some k ∧
      model.key? obj.site obj.type = some k := by
    intro o obj ho
    obtain ⟨k, he⟩ := Heap.get_eq_ok_iff.1 ho
    obtain ⟨-, lhs, c, isArray, -, -, hstmt, htype, hkey⟩ := hobjects o k obj he
    exact ⟨⟨lhs, c, isArray, hstmt, htype⟩, k, Heap.keyOf_of_record? he, hkey⟩
  refine ⟨fun o obj ho => (hallocates o obj ho).1, ?_⟩
  intro o o' obj obj' ho ho' hsite
  obtain ⟨htype, k, hk, hkey⟩ := hallocates o obj ho
  obtain ⟨htype', k', hk', hkey'⟩ := hallocates o' obj' ho'
  -- the site tells the type, and both tell the key
  rw [← hsite] at htype' hkey'
  rw [← htype.unique htype', hkey] at hkey'
  rw [← Option.some.inj hkey'] at hk'
  exact Heap.keyOf_injective hk hk'

namespace Solution

variable {κ : Type} [Ord κ] [Std.TransOrd κ] (r : Solution κ) (d : Draft)

def LabelsObj (l : ObjLabel) (o : ObjId) : Prop :=
  ∃ obj x, r.heap.get o = .ok obj ∧ d.cls obj.type.cls = .ok x ∧ l.cls.text = x.name ∧
    l.isArray = obj.type.isArray ∧ d.LabelsSite l.site obj.site

/-- Objects that are allocated in overloads. -/
def OverloadedObjs (o o' : ObjId) : Prop :=
  ∃ obj obj', r.heap.get o = .ok obj ∧ r.heap.get o' = .ok obj' ∧
    d.OverloadedSites obj.site obj'.site

/-- Pointers that overloads of a method keep apart: variables of two of them, or one field of
objects that are allocated in two of them. -/
inductive Confusable : Pointer → Pointer → Prop where
  | var {v v' : VarId} {x x' : Var} : d.var v = .ok x → d.var v' = .ok x' →
      d.Overloads x.method x'.method →
      Confusable (.var v) (.var v')
  | field {o o' : ObjId} {f : FieldId} : r.OverloadedObjs d o o' →
      Confusable (.field o f) (.field o' f)

inductive LabelsPointer : PointerLabel → Pointer → Prop where
  | var {l : MemberLabel} {name : Ident} {v : VarId} {x : Var} : d.var v = .ok x →
      d.LabelsMethod l x.method →
      name.text = x.name → LabelsPointer (.var l name) (.var v)
  | static {l : MemberLabel} {f : FieldId} : d.LabelsField l f →
      LabelsPointer (.static l) (.static f)
  | field {l : ObjLabel} {l' : MemberLabel} {o : ObjId} {f : FieldId} : r.LabelsObj d l o →
      d.LabelsField l' f →
      LabelsPointer (.field l l') (.field o f)

variable {r d}

section Written

variable (hd : d.Readable)

include hd

theorem exists_labelsObj {o : ObjId} {t : String} (h : r.objLabel d o = .ok t) :
    ∃ l, r.LabelsObj d l o ∧ l.text = t := by
  obtain ⟨obj, hobj, h⟩ := bind_eq_ok.1 h
  obtain ⟨x, hx, h⟩ := bind_eq_ok.1 h
  obtain ⟨site, hsite, h⟩ := bind_eq_ok.1 h
  obtain ⟨l, hl, rfl⟩ := Draft.exists_labelsSite hd hsite
  refine ⟨⟨⟨x.name, hd.classes _ x hx⟩, obj.type.isArray, l⟩, ⟨obj, x, hobj, hx, rfl, rfl, hl⟩, ?_⟩
  exact pure_eq_ok.1 h

theorem exists_labelsPointer {q : Pointer} {t : String} (h : r.pointerLabel d q = .ok t) :
    ∃ l, r.LabelsPointer d l q ∧ l.text = t := by
  cases q with
  | var v =>
    obtain ⟨x, hx, h⟩ := bind_eq_ok.1 h
    obtain ⟨name, hname, h⟩ := bind_eq_ok.1 h
    obtain ⟨l, hl, rfl⟩ := Draft.exists_labelsMethod hd hname
    exact ⟨.var l ⟨x.name, hd.vars v x hx⟩, .var hx hl rfl, pure_eq_ok.1 h⟩
  | static f =>
    obtain ⟨l, hl, ht⟩ := Draft.exists_labelsField hd h
    exact ⟨.static l, .static hl, ht⟩
  | field o f =>
    obtain ⟨obj, hobj, h⟩ := bind_eq_ok.1 h
    obtain ⟨name, hname, h⟩ := bind_eq_ok.1 h
    obtain ⟨l, hl, rfl⟩ := exists_labelsObj hd hobj
    obtain ⟨l', hl', rfl⟩ := Draft.exists_labelsField hd hname
    exact ⟨.field l l', .field hl hl', pure_eq_ok.1 h⟩

/-- Objects have the same label if they have the same type and their allocations have the same
label. -/
theorem objLabel_eq_iff {o o' : ObjId} {obj obj' : Obj} {t : String} (ho : r.heap.get o = .ok obj)
    (ho' : r.heap.get o' = .ok obj') (ht : r.objLabel d o = .ok t) :
    r.objLabel d o = r.objLabel d o' ↔ d.stmtLabel obj.site = d.stmtLabel obj'.site ∧
      obj.type.cls = obj'.type.cls ∧ obj.type.isArray = obj'.type.isArray := by
  constructor
  · intro heq
    obtain ⟨l, ⟨_, x, hobj, hx, hcls, harray, hsite⟩, hl⟩ := exists_labelsObj hd ht
    obtain ⟨l', ⟨_, x', hobj', hx', hcls', harray', hsite'⟩, hl'⟩ := exists_labelsObj hd (heq ▸ ht)
    cases ho.symm.trans hobj
    cases ho'.symm.trans hobj'
    obtain rfl := ObjLabel.text_injective (hl.trans hl'.symm)
    refine ⟨hsite.stmtLabel_eq.trans hsite'.stmtLabel_eq.symm, ?_, harray.symm.trans harray'⟩
    exact Draft.cls_unique hx hx' (hcls.symm.trans hcls')
  · rintro ⟨hsite, hcls, harray⟩
    rw [objLabel, objLabel, ho, ho']
    simp only [bind, Except.bind, hsite, hcls, harray]

end Written

section Read

variable (hd : d.Regular)

include hd

theorem LabelsObj.eq_or_overloads (hheap : r.heap.Allocated d) {l : ObjLabel} {o o' : ObjId}
    (h : r.LabelsObj d l o) (h' : r.LabelsObj d l o') : o = o' ∨ r.OverloadedObjs d o o' := by
  obtain ⟨obj, x, hobj, hx, hcls, harray, hsite⟩ := h
  obtain ⟨obj', x', hobj', hx', hcls', harray', hsite'⟩ := h'
  rcases hsite.eq_or_overloads hd hsite' with heq | hoverloads
  · exact .inl (hheap.injective o o' obj obj' hobj hobj' heq)
  · exact .inr ⟨obj, obj', hobj, hobj', hoverloads⟩

theorem LabelsPointer.eq_or_confusable (hheap : r.heap.Allocated d) {l : PointerLabel}
    {q q' : Pointer} (h : r.LabelsPointer d l q) (h' : r.LabelsPointer d l q') :
    q = q' ∨ r.Confusable d q q' := by
  cases h with
  | @var l name v x hx hl hname =>
    cases h' with
    | @var _ _ v' x' hx' hl' hname' =>
      rcases hl.eq_or_overloads hl' with heq | hoverloads
      · left
        obtain ⟨w, m⟩ := x
        obtain ⟨w', m'⟩ := x'
        obtain rfl : m = m' := heq
        obtain rfl : w = w' := hname.symm.trans hname'
        rw [Draft.var_unique hx hx']
      · exact .inr (.var hx hx' hoverloads)
  | static hl =>
    cases h' with
    | static hl' => exact .inl (congrArg _ (hl.eq hd hl'))
  | field hl hf =>
    cases h' with
    | field hl' hf' =>
      obtain rfl := hf.eq hd hf'
      rcases hl.eq_or_overloads hd hheap hl' with heq | hoverloads
      · exact .inl (heq ▸ rfl)
      · exact .inr (.field hoverloads)

end Read

end Solution

/-! ## Lines of reports -/

/-- A line of a report: a heading, a method, a call, or a pointer with the objects that it points
to. -/
inductive Line where
  | heading (h : Heading)
  | method (m : MethodId)
  | call (e : CallEdge)
  | pointer (q : Pointer) (objs : List ObjId)

namespace Solution

variable {κ : Type} [Ord κ] [Std.TransOrd κ] (r : Solution κ) (d : Draft)

/-- The lines for what pointers point to; a pointer that points to nothing has none. -/
def pointerLines (entries : List (Pointer × ObjSet)) : List Line :=
  (entries.filter fun e => !e.2.isEmpty).map fun e => .pointer e.1 e.2.toList

/-- What the lines of a report are about, in order. -/
def lines : List Line :=
  [.heading .reachable] ++ r.calls.reachable.map .method ++ [.heading .calls] ++
    r.calls.edges.map .call ++ [.heading .pointsTo] ++ pointerLines r.pointers.entries.toList

def lineText : Line → Except Dangling String
  | .heading h => return h.text
  | .method m => d.methodName m
  | .call e => e.line d
  | .pointer q objs => do
    let pointer ← r.pointerLabel d q
    let list := ", ".intercalate (← objs.mapM (r.objLabel d))
    return s!"{pointer} -> \x7b{list}\x7d"

theorem mapM_pointerLine (entries : List (Pointer × ObjSet)) :
    (do return (← entries.mapM (r.pointerLine d)).flatten) =
      (pointerLines entries).mapM (r.lineText d) := by
  induction entries with
  | nil => rfl
  | cons e entries ih =>
    rw [List.mapM_cons, pointerLine, pointerLines, List.filter_cons]
    by_cases he : e.2.isEmpty = true
    · rw [if_pos he, if_neg (by simp [he])]
      refine Eq.trans ?_ ih
      simp only [bind_assoc, pure_bind, List.flatten_cons, List.nil_append]
    · rw [if_neg he, if_pos (by simp [he]), List.map_cons, List.mapM_cons, ← pointerLines,
        ← ih, lineText]
      simp only [bind_assoc, pure_bind, List.flatten_cons, List.cons_append, List.nil_append]

/-- A report is made of the texts of its lines. -/
theorem report_eq : r.report d = do return unlines (← r.lines.mapM (r.lineText d)) := by
  have hmethods : (r.calls.reachable.map .method).mapM (r.lineText d) = r.calls.methodLines d := by
    rw [List.mapM_map]
    rfl
  have hcalls : (r.calls.edges.map .call).mapM (r.lineText d) = r.calls.edgeLines d := by
    rw [List.mapM_map]
    rfl
  have hheading : ∀ h, [Line.heading h].mapM (r.lineText d) = pure [h.text] := fun h => rfl
  rw [lines, report]
  simp only [List.mapM_append, hheading, hmethods, hcalls, ← mapM_pointerLine,
    bind_assoc, pure_bind]
  rfl

inductive LabelsLine : LineLabel → Line → Prop where
  | heading (h : Heading) : LabelsLine (.heading h) (.heading h)
  | method {l : MemberLabel} {m : MethodId} : d.LabelsMethod l m →
      LabelsLine (.method l) (.method m)
  | call {l : SiteLabel} {l' : MemberLabel} {e : CallEdge} : d.LabelsSite l e.site →
      d.LabelsMethod l' e.callee →
      LabelsLine (.call l e.kind l') (.call e)
  | pointer {l : PointerLabel} {ls : List ObjLabel} {q : Pointer} {objs : List ObjId} :
      r.LabelsPointer d l q →
      List.Forall₂ (r.LabelsObj d) ls objs → LabelsLine (.pointer l ls) (.pointer q objs)

variable {r d}

theorem exists_labelsObjs (hd : d.Readable) {objs : List ObjId} {ts : List String}
    (h : objs.mapM (r.objLabel d) = .ok ts) :
    ∃ ls, List.Forall₂ (r.LabelsObj d) ls objs ∧ ls.map ObjLabel.text = ts := by
  induction objs generalizing ts with
  | nil =>
    cases h
    exact ⟨[], .nil, rfl⟩
  | cons o objs ih =>
    rw [List.mapM_cons] at h
    obtain ⟨t, ht, h⟩ := bind_eq_ok.1 h
    obtain ⟨ts', hts, h⟩ := bind_eq_ok.1 h
    obtain ⟨l, hl, rfl⟩ := exists_labelsObj hd ht
    obtain ⟨ls, hls, rfl⟩ := ih hts
    exact ⟨l :: ls, .cons hl hls, pure_eq_ok.1 h⟩

theorem exists_labelsLine (hd : d.Readable) {line : Line} {t : String}
    (h : r.lineText d line = .ok t) : ∃ l, r.LabelsLine d l line ∧ l.text = t := by
  cases line with
  | heading h' => exact ⟨.heading h', .heading h', pure_eq_ok.1 h⟩
  | method m =>
    obtain ⟨l, hl, ht⟩ := Draft.exists_labelsMethod hd h
    exact ⟨.method l, .method hl, ht⟩
  | call e =>
    obtain ⟨site, hsite, h⟩ := bind_eq_ok.1 h
    obtain ⟨name, hname, h⟩ := bind_eq_ok.1 h
    obtain ⟨l, hl, rfl⟩ := Draft.exists_labelsSite hd hsite
    obtain ⟨l', hl', rfl⟩ := Draft.exists_labelsMethod hd hname
    exact ⟨.call l e.kind l', .call hl hl', pure_eq_ok.1 h⟩
  | pointer q objs =>
    obtain ⟨label, hlabel, h⟩ := bind_eq_ok.1 h
    obtain ⟨list, hlist, h⟩ := bind_eq_ok.1 h
    obtain ⟨l, hl, rfl⟩ := exists_labelsPointer hd hlabel
    obtain ⟨ls, hls, rfl⟩ := exists_labelsObjs hd hlist
    exact ⟨.pointer l ls, .pointer hl hls, pure_eq_ok.1 h⟩

section Read

variable (hd : d.Regular) (hheap : r.heap.Allocated d) (hno : d.NoOverloads)

include hd hheap hno

theorem LabelsObj.eq {l : ObjLabel} {o o' : ObjId} (h : r.LabelsObj d l o)
    (h' : r.LabelsObj d l o') :
    o = o' := by
  refine (h.eq_or_overloads hd hheap h').resolve_right ?_
  rintro ⟨-, -, -, -, x, x', -, -, hoverloads⟩
  exact hno x.method x'.method hoverloads

theorem LabelsPointer.eq {l : PointerLabel} {q q' : Pointer} (h : r.LabelsPointer d l q)
    (h' : r.LabelsPointer d l q') : q = q' := by
  refine (h.eq_or_confusable hd hheap h').resolve_right ?_
  rintro (⟨-, -, hoverloads⟩ | ⟨-, -, -, -, x, x', -, -, hoverloads⟩)
  · exact hno _ _ hoverloads
  · exact hno x.method x'.method hoverloads

theorem LabelsObj.list_eq {ls : List ObjLabel} {objs objs' : List ObjId}
    (h : List.Forall₂ (r.LabelsObj d) ls objs) (h' : List.Forall₂ (r.LabelsObj d) ls objs') :
    objs = objs' := by
  induction h generalizing objs' with
  | nil =>
    cases h'
    rfl
  | cons hl hls ih =>
    cases h' with
    | cons hl' hls' => rw [hl.eq hd hheap hno hl', ih hls']

/-- Without overloads, a label is written for one line only. -/
theorem LabelsLine.eq {l : LineLabel} {line line' : Line} (h : r.LabelsLine d l line)
    (h' : r.LabelsLine d l line') : line = line' := by
  cases h with
  | heading h =>
    cases h'
    rfl
  | method hm =>
    cases h' with
    | method hm' => rw [hno.method_eq hm hm']
  | @call l l' e hsite hcallee =>
    generalize hkind : e.kind = kind at h'
    cases h' with
    | @call _ _ e' hsite' hcallee' =>
      obtain ⟨kind, site, callee⟩ := e
      obtain ⟨kind', site', callee'⟩ := e'
      obtain rfl : kind = kind' := hkind
      obtain rfl : site = site' := hno.site_eq hd hsite hsite'
      obtain rfl : callee = callee' := hno.method_eq hcallee hcallee'
      rfl
  | pointer hq hobjs =>
    cases h' with
    | pointer hq' hobjs' => rw [hq.eq hd hheap hno hq', LabelsObj.list_eq hd hheap hno hobjs hobjs']

end Read

/-! ## What labels identify -/

/-- Statements have the same label exactly if they stand at the same place of methods of one class
with one name, and objects exactly if the labels of their allocations, their classes and whether
they are arrays are the same. Different pointers have the same label only if overloads keep them
apart. A report is made of lines, and without overloads the text of a line tells what it is
about. -/
structure Labelled (r : Solution κ) (d : Draft) : Prop where
  stmts : ∀ s s' x x', d.placed s = .ok x → d.placed s' = .ok x' →
    (d.stmtLabel s = d.stmtLabel s' ↔ x.position = x'.position ∧ d.SameName x.method x'.method)
  allocates : ∀ o obj, r.heap.get o = .ok obj → d.Allocates obj.site obj.type
  objs : ∀ o o' obj obj', r.heap.get o = .ok obj → r.heap.get o' = .ok obj' →
    (r.objLabel d o = r.objLabel d o' ↔ d.stmtLabel obj.site = d.stmtLabel obj'.site ∧
      obj.type.cls = obj'.type.cls ∧ obj.type.isArray = obj'.type.isArray)
  pointers : ∀ q q' t, r.pointerLabel d q = .ok t → r.pointerLabel d q' = .ok t →
    q = q' ∨ r.Confusable d q q'
  exists_stmtLabel : ∀ s, d.Has s → ∃ t, d.stmtLabel s = .ok t
  exists_objLabel : ∀ o obj, r.heap.get o = .ok obj → ∃ t, r.objLabel d o = .ok t
  exists_pointerLabel : ∀ q ∈ r.pointers.pointers, ∃ t, r.pointerLabel d q = .ok t
  report : ∃ texts, r.lines.mapM (r.lineText d) = .ok texts ∧ r.report d = .ok (unlines texts) ∧
    ∀ t ∈ texts, '\n' ∉ t.toList
  lines : d.NoOverloads → ∀ line line' t, r.lineText d line = .ok t →
    r.lineText d line' = .ok t → line = line'

end Solution

theorem State.Run.labelled {κ : Type} [Ord κ] [Std.TransOrd κ] [Std.LawfulEqOrd κ]
    {model : HeapModel κ} {p : Program} {facts : List (Fact κ)} {st : State κ} (hp : p.Proper)
    (hregular : p.Regular) (hnames : p.Readable) (h : State.Run model p facts st) :
    st.toSolution.Labelled p.toDraft := by
  have hrange := h.inRange hp
  have hheap : st.toSolution.heap.Allocated p.toDraft := h.allocated hp
  have hobj : ∀ o obj, st.heap.get o = .ok obj →
      ∃ t, st.toSolution.objLabel p.toDraft o = .ok t := by
    intro o obj ho
    obtain ⟨k, he⟩ := Heap.get_eq_ok_iff.1 ho
    exact hrange.exists_objLabel hregular.inRange (Heap.record?_isSome_iff.1 ⟨_, he⟩)
  have hreport : ∃ texts, st.toSolution.lines.mapM (st.toSolution.lineText p.toDraft) = .ok texts ∧
      st.toSolution.report p.toDraft = .ok (unlines texts) ∧ ∀ t ∈ texts, '\n' ∉ t.toList := by
    obtain ⟨text, htext⟩ := hrange.exists_report hregular.inRange
    rw [Solution.report_eq] at htext ⊢
    obtain ⟨texts, htexts, hjoin⟩ := bind_eq_ok.1 htext
    refine ⟨texts, htexts, by rw [htexts]; rfl, fun t ht => ?_⟩
    obtain ⟨line, -, hline⟩ := (mem_of_mapM_eq_ok htexts).1 ht
    obtain ⟨l, -, rfl⟩ := Solution.exists_labelsLine hnames hline
    exact l.newline_notMem
  refine
    { stmts := fun s s' x x' hx hx' => Draft.stmtLabel_eq_iff hregular hnames hx hx'
      allocates := hheap.allocates
      objs := fun o o' obj obj' ho ho' => ?_
      pointers := fun q q' t hq hq' => ?_
      exists_stmtLabel := fun s hs => hregular.inRange.exists_stmtLabel hs
      exists_objLabel := hobj
      exists_pointerLabel :=
        fun q hq => hrange.exists_pointerLabel hregular.inRange (hrange.pointers q hq)
      report := hreport
      lines := fun hno line line' t hline hline' => ?_ }
  · obtain ⟨t, ht⟩ := hobj o obj ho
    exact Solution.objLabel_eq_iff hnames ho ho' ht
  · obtain ⟨l, hl, htext⟩ := Solution.exists_labelsPointer hnames hq
    obtain ⟨l', hl', htext'⟩ := Solution.exists_labelsPointer hnames hq'
    obtain rfl := PointerLabel.text_injective (htext.trans htext'.symm)
    exact hl.eq_or_confusable hregular hheap hl'
  · obtain ⟨l, hl, htext⟩ := Solution.exists_labelsLine hnames hline
    obtain ⟨l', hl', htext'⟩ := Solution.exists_labelsLine hnames hline'
    obtain rfl := LineLabel.text_injective (htext.trans htext'.symm)
    exact hl.eq hregular hheap hno hl'

/-- In a program that was read from a text, labels identify statements, objects and pointers up to
overloading. -/
theorem Program.labels_identify_up_to_overloading {κ : Type} [Ord κ] [Std.TransOrd κ]
    [Std.LawfulEqOrd κ] (model : HeapModel κ) {text : String} {p : Program} {entry : MethodId}
    (htext : Program.ofText text = .ok p) (hentry : p.Has entry) :
    ∃ r log, p.solve model entry = .ok (r, log) ∧ r.Labelled p.toDraft := by
  have hp := Program.Proper.of_ofText htext
  obtain ⟨st, hsolve, hrun, -⟩ := State.Run.exists_finish model hp hentry
  exact ⟨st.toSolution, _, hsolve,
    hrun.labelled hp (regular_of_ofText htext).1 (readable_of_ofText htext)⟩

/-- Two methods with one name, each with a variable of one name. -/
def sampleOverloads : String :=
  "class A { static method m() { x = new A; } static method m(y) { x = new A; } }"

/-- Methods with different names. -/
def sampleCaller : String :=
  "class A { static method m() { x = new A; } static method main() { x = new A[]; invokestatic A::m(); } }"

theorem Program.sample_labels_identify :
    (∃ p r log, Program.ofText sampleOverloads = .ok p ∧ p.solve .bySite ⟨0⟩ = .ok (r, log) ∧
      r.Labelled p.toDraft ∧
      r.pointerLabel p.toDraft (.var ⟨0⟩) = .ok "A::m/x" ∧ r.pointerLabel p.toDraft (.var ⟨2⟩) =
        .ok "A::m/x" ∧
      r.Confusable p.toDraft (.var ⟨0⟩) (.var ⟨2⟩)) ∧
    ∃ p r log, Program.ofText sampleCaller = .ok p ∧ p.solve .byType ⟨1⟩ = .ok (r, log) ∧
      r.Labelled p.toDraft ∧
      ∀ line line' t, r.lineText p.toDraft line = .ok t → r.lineText p.toDraft line' = .ok t →
        line = line' := by
  constructor
  · obtain ⟨p, htext, hentry, hname, hname'⟩ : ∃ p, Program.ofText sampleOverloads = .ok p ∧
        (p.Has (⟨0⟩ : MethodId) ∧ p.varName ⟨0⟩ = .ok "A::m/x" ∧ p.varName ⟨2⟩ = .ok "A::m/x") :=
      Program.exists_ofText (by decide +kernel)
    obtain ⟨r, log, hsolve, hlabelled⟩ :=
      Program.labels_identify_up_to_overloading .bySite htext hentry
    have hconfusable :=
      (hlabelled.pointers (.var ⟨0⟩) (.var ⟨2⟩) _ hname hname').resolve_left (by decide)
    exact ⟨p, r, log, htext, hsolve, hlabelled, hname, hname', hconfusable⟩
  · obtain ⟨p, htext, hentry, hno⟩ : ∃ p, Program.ofText sampleCaller = .ok p ∧
        (p.Has (⟨1⟩ : MethodId) ∧ p.toDraft.NoOverloads) :=
      Program.exists_ofText (by decide +kernel)
    obtain ⟨r, log, hsolve, hlabelled⟩ :=
      Program.labels_identify_up_to_overloading .byType htext hentry
    exact ⟨p, r, log, htext, hsolve, hlabelled, hlabelled.lines hno⟩

end PointsTo
