import PointsTo.Proofs.Acceptance
import PointsTo.Proofs.Printing

/-!
# Trees and what they declare

What a tree declares does not depend on its lines, and neither does whether it is acceptable
(`acceptable_map_bare`). Each outline of a tree is declared by a tree of its own,
`ClassOutline.tree`, without lines, in which the fields come before the methods
(`ClassTree.outline_tree`).
-/

namespace PointsTo.Text

/-! ## Trees without lines -/

section Bare

theorem CallTree.vars_bare (c : CallTree) : c.bare.vars = c.vars := by
  cases h : c.receiver <;> simp [vars, bare, h, Function.comp_def, Name.bare]

theorem Expr.vars_bare (e : Expr) : e.bare.vars = e.vars := by
  cases e with
  | call c => exact c.vars_bare
  | _ => rfl

theorem Command.vars_bare (c : Command) : c.bare.vars = c.vars := by
  cases c with
  | assign lhs rhs => exact congrArg (lhs.text :: ·) rhs.vars_bare
  | call c => exact c.vars_bare
  | ret value => cases value <;> rfl
  | _ => rfl

theorem Command.classes_bare (c : Command) : c.bare.classes = c.classes := by
  cases c with
  | assign lhs rhs => cases rhs <;> rfl
  | _ => rfl

theorem CallTree.bare_bare (c : CallTree) : c.bare.bare = c.bare := by
  cases h : c.receiver <;> simp [bare, h, Function.comp_def, Name.bare, Qualified.bare]

theorem Command.bare_bare (c : Command) : c.bare.bare = c.bare := by
  cases c with
  | assign lhs rhs =>
    cases rhs with
    | call c => simp only [bare, Expr.bare, c.bare_bare, Name.bare]
    | _ => rfl
  | call c => exact congrArg Command.call c.bare_bare
  | ret value => cases value <;> rfl
  | _ => rfl

theorem Qualified.names_bare (q : Qualified) : q.bare.names = q.names.map Name.bare := rfl

theorem CallTree.names_bare (c : CallTree) : c.bare.names = c.names.map Name.bare := by
  cases h : c.receiver <;> simp [names, bare, h, Qualified.names, Qualified.bare]

theorem Command.names_bare (c : Command) : c.bare.names = c.names.map Name.bare := by
  cases c with
  | assign lhs rhs =>
    cases rhs with
    | call c => exact congrArg (lhs.bare :: ·) c.names_bare
    | _ => rfl
  | call c => exact c.names_bare
  | ret value => cases value <;> rfl
  | _ => rfl

end Bare

theorem map_text_bare (ns : List Name) : (ns.map Name.bare).map Name.text = ns.map Name.text := by
  rw [List.map_map]
  rfl

end Text

theorem MethodOutline.of_map_bare (name : String) (isStatic isAbstract : Bool)
    (params : List String) (body : List Text.Command) :
    MethodOutline.of name isStatic isAbstract params (body.map Text.Command.bare) =
      MethodOutline.of name isStatic isAbstract params body := by
  simp [MethodOutline.of, List.flatMap_map, List.filterMap_map, Function.comp_def,
    Text.Command.vars_bare, Text.Command.returned?_bare, Text.Command.bare_bare]

namespace Text

/-- A member without lines and with other modifiers. -/
def Member.withModifiers (ms : List Modifier) (x : Member) : Member :=
  ⟨ms, x.name.bare, x.kind.bare⟩

namespace Member

variable {ms : List Modifier} {x : Member}

theorem outline_withModifiers (hms : decide (.static ∈ ms) = x.isStatic) :
    (x.withModifiers ms).outline = x.outline := by
  obtain ⟨modifiers, name, kind⟩ := x
  cases kind with
  | field => exact congrArg (fun b => Sum.inl (name.text, b)) hms
  | method params body =>
    have hbody : (body.map (·.map Command.bare)).getD [] = (body.getD []).map Command.bare := by
      cases body <;> rfl
    simp only [withModifiers, outline, MemberKind.bare, map_text_bare, hbody,
      MethodOutline.of_map_bare, Option.isNone_map]
    exact congrArg (fun b => Sum.inr (MethodOutline.of name.text b _ _ _)) hms

theorem key_withModifiers (hms : decide (.static ∈ ms) = x.isStatic) :
    (x.withModifiers ms).key = x.key := by
  rw [key, key, outline_withModifiers hms]

theorem names_withModifiers : (x.withModifiers ms).names = x.names.map Name.bare := by
  obtain ⟨modifiers, name, kind⟩ := x
  cases kind with
  | field => rfl
  | method params body =>
    cases body <;> simp [withModifiers, names, MemberKind.names, MemberKind.bare, List.flatMap_map,
      List.map_flatMap, Command.names_bare]

theorem classes_withModifiers : (x.withModifiers ms).classes = x.classes := by
  obtain ⟨modifiers, name, kind⟩ := x
  cases kind with
  | field => rfl
  | method params body =>
    cases body <;> simp [withModifiers, classes, MemberKind.bare, List.flatMap_map,
      Command.classes_bare]

theorem spellable_withModifiers (h : Spellable x.renderings) :
    Spellable (x.withModifiers ms).renderings := by
  simp only [renderings, withModifiers, declarator_bare, spellable_mul, spellable_prod,
    List.forall_mem_map] at h ⊢
  exact ⟨fun m _ => ⟨_, m.spells⟩, h.2⟩

theorem acceptable_withModifiers (hms : decide (.static ∈ ms) = x.isStatic) :
    (x.withModifiers ms).Acceptable ↔ (∀ n ∈ x.names, n.text ∉ keywords) ∧
      match x.kind with
      | .field => True
      | .method params body => ¬ (.abstract ∈ ms ∧ body.isSome) ∧
        (Draft.startNames (params.map Name.text) x.isStatic).Nodup := by
  rw [Acceptable, names_withModifiers, List.forall_mem_map]
  refine and_congr Iff.rfl ?_
  have hstatic : (x.withModifiers ms).isStatic = x.isStatic := hms
  rw [hstatic]
  cases hkind : x.kind with
  | field => simp [withModifiers, hkind, MemberKind.bare]
  | method params body => simp [withModifiers, hkind, MemberKind.bare, Function.comp_def, Name.bare]

theorem acceptable_bare : x.bare.Acceptable ↔ x.Acceptable := acceptable_withModifiers rfl

/-- The modifiers that a member needs, without lines. -/
def normal (x : Member) : Member := x.withModifiers (if x.isStatic then [.static] else [])

theorem static_normal :
    decide (.static ∈ if x.isStatic then [Modifier.static] else []) = x.isStatic := by
  cases x.isStatic <;> rfl

theorem acceptable_normal (h : x.Acceptable) : x.normal.Acceptable := by
  refine (acceptable_withModifiers static_normal).2 ⟨h.1, ?_⟩
  have hrest := h.2
  cases hkind : x.kind with
  | field => trivial
  | method params body =>
    rw [hkind] at hrest
    refine ⟨fun habstract => ?_, hrest.2⟩
    cases hstatic : x.isStatic <;> simp [hstatic] at habstract

end Member

namespace ClassTree

variable {t : ClassTree}

theorem outline_bare : t.bare.outline = t.outline := by
  have houtline : ∀ x : Member, x.bare.outline = x.outline :=
    fun x => Member.outline_withModifiers rfl
  simp only [outline, bare, Option.map_map, List.map_map, List.filterMap_map,
    Function.comp_def, houtline]
  rfl

theorem mentions_bare : t.bare.mentions = t.mentions := by
  have hclasses : ∀ x : Member, x.bare.classes = x.classes := fun x => Member.classes_withModifiers
  simp only [mentions, bare, List.flatMap_map, hclasses]
  cases t.superclass <;> simp [Function.comp_def, Name.bare]

theorem acceptable_bare : t.bare.Acceptable ↔ t.Acceptable := by
  have hheader : t.bare.name :: (t.bare.superclass.toList ++ t.bare.interfaces) =
      (t.name :: (t.superclass.toList ++ t.interfaces)).map Name.bare := by
    cases h : t.superclass <;> simp [bare, h]
  have hkey : ∀ x : Member, x.bare.key = x.key := fun x => Member.key_withModifiers rfl
  constructor
  · rintro ⟨header, members, differ⟩
    rw [hheader, List.forall_mem_map] at header
    simp only [bare, List.forall_mem_map, Member.acceptable_bare, List.pairwise_map,
      hkey] at members differ
    exact ⟨header, members, differ⟩
  · rintro ⟨header, members, differ⟩
    refine ⟨?_, ?_, ?_⟩
    · rwa [hheader, List.forall_mem_map]
    · simpa only [bare, List.forall_mem_map, Member.acceptable_bare] using members
    · simpa only [bare, List.pairwise_map, hkey] using differ

theorem outlineIn_map_bare (ts : List ClassTree) (name : String) :
    outlineIn (ts.map bare) name = outlineIn ts name := by
  have hfind : (ts.map bare).find? (fun t => t.name.text = name) =
      (ts.find? fun t => t.name.text = name).map bare := by
    rw [List.find?_map]
    rfl
  rw [outlineIn, outlineIn, hfind, List.flatMap_map]
  simp only [mentions_bare]
  cases ts.find? fun t => t.name.text = name with
  | none => rfl
  | some t => exact congrArg some outline_bare

end ClassTree

/-- What the last entry names. -/
def Item.target? (items : List Item) : Option Qualified :=
  (Item.lastEntry items).map fun (q, _) => q.bare

theorem Item.target?_map_bare (items : List Item) :
    Item.target? (items.map Item.bare) = Item.target? items := by
  rw [target?, target?, lastEntry_map_bare, Option.map_map]
  rfl

/-- Lines do not matter for what is acceptable. -/
theorem acceptable_map_bare {items : List Item} :
    Acceptable (items.map Item.bare) ↔ Acceptable items := by
  have hclasses := Item.classes_map_bare items
  have hlast := Item.lastEntry_map_bare items
  constructor
  · rintro ⟨classes, differ, entry⟩
    rw [hclasses, List.forall_mem_map] at classes
    rw [hclasses, List.pairwise_map] at differ
    refine ⟨fun t ht => ClassTree.acceptable_bare.1 (classes t ht), differ, fun q line hq => ?_⟩
    have hbare := entry q.bare 0 (by rw [hlast, hq]; rfl)
    rwa [hclasses, ClassTree.outlineIn_map_bare, Qualified.names_bare, List.forall_mem_map] at hbare
  · rintro ⟨classes, differ, entry⟩
    refine ⟨?_, ?_, fun q line hq => ?_⟩
    · rw [hclasses, List.forall_mem_map]
      exact fun t ht => ClassTree.acceptable_bare.2 (classes t ht)
    · rwa [hclasses, List.pairwise_map]
    · rw [hlast, Option.map_eq_some_iff] at hq
      obtain ⟨⟨q, line⟩, hq, ⟨⟩⟩ := hq
      rw [hclasses, ClassTree.outlineIn_map_bare, Qualified.names_bare, List.forall_mem_map]
      exact entry q line hq

/-! Items that agree, lines apart, are acceptable together and declare the same. -/

section Agree

variable {items items' : List Item} (h : items'.map Item.bare = items.map Item.bare)

include h

theorem acceptable_iff_of_bare_eq : Acceptable items' ↔ Acceptable items := by
  rw [← acceptable_map_bare, h, acceptable_map_bare]

theorem outlineIn_eq_of_bare_eq (name : String) :
    ClassTree.outlineIn (Item.classes items') name =
      ClassTree.outlineIn (Item.classes items) name := by
  rw [← ClassTree.outlineIn_map_bare, ← Item.classes_map_bare, h, Item.classes_map_bare,
    ClassTree.outlineIn_map_bare]

theorem target?_eq_of_bare_eq : Item.target? items' = Item.target? items := by
  rw [← Item.target?_map_bare, h, Item.target?_map_bare]

end Agree

/-! ## Trees of outlines -/

/-- The declaration of a field. -/
def fieldMember (z : String × Bool) : Member := ⟨if z.2 then [.static] else [], .plain z.1, .field⟩

end Text

open Text

/-- The declaration of a method; an abstract one has no body. -/
def MethodOutline.member (o : MethodOutline) : Member where
  modifiers := if o.isStatic then [.static] else []
  name := .plain o.name
  kind := .method (o.params.map .plain) (if o.isAbstract then none else some (o.body.filterMap id))

/-- The declaration of a class, with its fields before its methods. -/
def ClassOutline.tree (o : ClassOutline) : ClassTree where
  name := .plain o.name
  isInterface := o.isInterface
  isAbstract := o.isAbstract && !o.isInterface
  superclass := o.superclass.map .plain
  interfaces := o.interfaces.map .plain
  members := o.fields.map fieldMember ++ o.methods.map MethodOutline.member

namespace Text

/-- A member is declared by its outline. -/
theorem Member.elim_outline (x : Member) :
    x.outline.elim fieldMember MethodOutline.member = x.normal := by
  obtain ⟨modifiers, name, kind⟩ := x
  cases kind with
  | field => rfl
  | method params body =>
    have hparams : (params.map Name.text).map Name.plain = params.map Name.bare := by
      rw [List.map_map]
      rfl
    have hbody : ∀ cs : List Command, (cs.map fun c => some c.bare).filterMap id =
        cs.map Command.bare := by
      intro cs
      simp [List.filterMap_map]
    cases body with
    | none =>
      simp only [outline, Sum.elim_inr, MethodOutline.member, MethodOutline.of, hparams]; rfl
    | some cs =>
      simp only [outline, Sum.elim_inr, MethodOutline.member, MethodOutline.of, hparams,
        Option.getD_some, hbody]
      rfl

theorem Member.outline_normal (x : Member) : x.normal.outline = x.outline :=
  outline_withModifiers static_normal

theorem outline_fieldMember (z : String × Bool) : (fieldMember z).outline = .inl z := by
  obtain ⟨name, _ | _⟩ := z <;> rfl

theorem Member.outline_member {x : Member} {o : MethodOutline} (h : x.outline = .inr o) :
    o.member.outline = .inr o := by
  have helim := x.elim_outline
  rw [h, Sum.elim_inr] at helim
  rw [helim, x.outline_normal, h]

/-- Values of two kinds in their order, and first those of the one kind and then those of the
other. -/
theorem perm_map_elim {α β γ : Type} (f : α → γ) (g : β → γ) (l : List (α ⊕ β)) :
    ((l.filterMap Sum.getLeft?).map f ++ (l.filterMap Sum.getRight?).map g).Perm
      (l.map (Sum.elim f g)) := by
  induction l with
  | nil => exact .nil
  | cons s l ih =>
    cases s with
    | inl a => exact ih.cons (f a)
    | inr b => exact List.perm_middle.trans (ih.cons (g b))

namespace ClassTree

variable {t : ClassTree}

theorem perm_members_tree (t : ClassTree) :
    t.outline.tree.members.Perm (t.members.map Member.normal) := by
  have hperm := perm_map_elim fieldMember MethodOutline.member (t.members.map Member.outline)
  simp only [List.filterMap_map, List.map_map, Function.comp_def, Member.elim_outline] at hperm
  exact hperm

/-- The tree of an outline declares what it says. -/
theorem outline_tree (t : ClassTree) : t.outline.tree.outline = t.outline := by
  have hmethod : ∀ o ∈ t.outline.methods, o.member.outline = .inr o := by
    intro o ho
    obtain ⟨x, -, hx⟩ := List.mem_filterMap.1 ho
    exact Member.outline_member (Sum.getRight?_eq_some_iff.1 hx)
  have hfields : t.outline.tree.members.filterMap (fun x => x.outline.getLeft?) =
      t.outline.fields := by
    have hnone : (t.outline.methods.filterMap fun o => o.member.outline.getLeft?) = [] :=
      List.filterMap_eq_nil_iff.2 fun o ho => by rw [hmethod o ho, Sum.getLeft?_inr]
    simp only [ClassOutline.tree, List.filterMap_append, List.filterMap_map, Function.comp_def,
      outline_fieldMember, Sum.getLeft?_inl, List.filterMap_some, hnone, List.append_nil]
  have hmethods : t.outline.tree.members.filterMap (fun x => x.outline.getRight?) =
      t.outline.methods := by
    have hsame : (t.outline.methods.filterMap fun o => o.member.outline.getRight?) =
        t.outline.methods := by
      rw [List.filterMap_congr fun o ho => by rw [hmethod o ho, Sum.getRight?_inr],
        List.filterMap_some]
    simp only [ClassOutline.tree, List.filterMap_append, List.filterMap_map, Function.comp_def,
      outline_fieldMember, Sum.getRight?_inl, List.filterMap_none, hsame, List.nil_append]
  have hflag : ((t.isAbstract || t.isInterface) && !t.isInterface || t.isInterface) =
      (t.isAbstract || t.isInterface) := by
    cases t.isInterface <;> simp
  rw [outline, hfields, hmethods]
  simp only [outline, ClassOutline.tree, hflag, Option.map_map, List.map_map,
    Function.comp_def, Name.plain]

/-- It mentions the same classes. -/
theorem mem_mentions_tree {n : String} : n ∈ t.outline.tree.mentions ↔ n ∈ t.mentions := by
  have hmembers : n ∈ t.outline.tree.members.flatMap Member.classes ↔
      n ∈ t.members.flatMap Member.classes := by
    rw [(t.perm_members_tree.flatMap_right _).mem_iff, List.flatMap_map]
    simp only [Member.normal, Member.classes_withModifiers]
  have hheader : (t.outline.tree.superclass.toList ++ t.outline.tree.interfaces).map Name.text =
      (t.superclass.toList ++ t.interfaces).map Name.text := by
    cases h : t.superclass <;> simp [outline, ClassOutline.tree, h, Function.comp_def, Name.plain]
  rw [mentions, mentions, hheader, List.mem_append, List.mem_append, hmembers]

theorem acceptable_tree (h : t.Acceptable) : t.outline.tree.Acceptable := by
  have hheader : t.outline.tree.name ::
      (t.outline.tree.superclass.toList ++ t.outline.tree.interfaces) =
      (t.name :: (t.superclass.toList ++ t.interfaces)).map Name.bare := by
    cases h : t.superclass <;> simp [outline, ClassOutline.tree, h, Function.comp_def,
      Name.plain, Name.bare]
  refine ⟨?_, fun x hx => ?_, ?_⟩
  · rw [hheader, List.forall_mem_map]
    exact h.header
  · obtain ⟨y, hy, rfl⟩ := List.mem_map.1 (t.perm_members_tree.mem_iff.1 hx)
    exact Member.acceptable_normal (h.members y hy)
  · rw [t.perm_members_tree.pairwise_iff fun hne => hne.symm, List.pairwise_map]
    exact h.differ.imp fun hne => by
      rwa [Member.normal, Member.normal, Member.key_withModifiers Member.static_normal,
      Member.key_withModifiers Member.static_normal]

/-- A tree can be written with other members, too, if these can. -/
theorem spellable_withMembers {ms : List Member} (h : Spellable t.renderings)
    (hms : Spellable (inBraces t.members) → Spellable (inBraces ms)) :
    Spellable { t with members := ms }.renderings := by
  obtain ⟨name, _ | _, _ | _, _ | superclass, interfaces, members⟩ := t <;>
    simp only [renderings, spellable_mul, spellable_zero] at h hms ⊢ <;> tauto

theorem spellable_tree (h : Spellable t.renderings) : Spellable t.outline.tree.renderings := by
  have hflag : ((t.isAbstract || t.isInterface) && !t.isInterface) = t.isAbstract := by
    obtain ⟨name, _ | _, _ | _, superclass, interfaces, members⟩ := t
    · rfl
    · rfl
    · rfl
    · exact absurd h spellable_zero
  have hsame : t.outline.tree = { t.bare with members := t.outline.tree.members } := by
    simp only [ClassOutline.tree, outline, bare, hflag, Option.map_map, List.map_map]
    rfl
  rw [hsame]
  refine spellable_withMembers (by rwa [renderings_bare]) fun hmembers => ?_
  simp only [bare, inBraces_map_bare] at hmembers
  simp only [inBraces, spellable_mul, spellable_prod, List.forall_mem_map, spellable_mark, true_and,
    and_true] at hmembers ⊢
  intro x hx
  obtain ⟨y, hy, rfl⟩ := List.mem_map.1 (t.perm_members_tree.mem_iff.1 hx)
  exact Member.spellable_withModifiers (hmembers y hy)

end ClassTree

end Text

end PointsTo
