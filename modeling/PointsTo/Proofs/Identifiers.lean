import PointsTo.Proofs.WellFormedness

/-!
# Names are identifiers

Every name in a tree is one of its tokens, and the tokens of a text are well formed. All names of a
program come from its trees, `this` apart, so they are identifiers: a program that was read from a
text is `Readable`.
-/

namespace PointsTo

namespace Text

/-! ## Names among tokens -/

variable {n : Name}

theorem Name.token_mem_listTokens {ns : List Name} (hn : n ∈ ns) : n.token ∈ listTokens ns := by
  cases ns with
  | nil => cases hn
  | cons m ns =>
    rw [listTokens, List.mem_cons, List.mem_flatMap]
    rcases List.mem_cons.1 hn with rfl | hn
    · exact .inl rfl
    · exact .inr ⟨n, hn, by simp⟩

theorem Name.token_mem_parenTokens {ns : List Name} (hn : n ∈ ns) : n.token ∈ parenTokens ns := by
  simp [parenTokens, Name.token_mem_listTokens hn]

theorem Qualified.token_mem_tokens {q : Qualified} (hn : n ∈ q.names) : n.token ∈ q.tokens := by
  simp only [names, List.mem_cons, List.not_mem_nil, or_false] at hn
  rcases hn with rfl | rfl <;> simp [tokens]

theorem CallTree.token_mem_tokens {c : CallTree} (hn : n ∈ c.names) : n.token ∈ c.tokens := by
  simp only [names, List.mem_append, Option.mem_toList] at hn
  rw [tokens]
  rcases hn with (hn | hn) | hn
  · simp [Option.mem_def.1 hn]
  · simp [Qualified.token_mem_tokens hn]
  · simp [Name.token_mem_parenTokens hn]

theorem Expr.token_mem_tokens {e : Expr} (hn : n ∈ e.names) : n.token ∈ e.tokens := by
  cases e with
  | load base field =>
    rcases List.mem_cons.1 hn with rfl | hn
    · simp [tokens]
    · simp [tokens, Qualified.token_mem_tokens hn]
  | loadStatic field => exact Qualified.token_mem_tokens hn
  | call c => exact CallTree.token_mem_tokens hn
  | _ => simp_all [names, tokens]

theorem Command.token_mem_tokens {k : Command} (hn : n ∈ k.names) : n.token ∈ k.tokens := by
  cases k with
  | assign lhs rhs =>
    rcases List.mem_cons.1 hn with rfl | hn
    · simp [tokens]
    · simp [tokens, Expr.token_mem_tokens hn]
  | store base field rhs =>
    simp only [names, List.cons_append, List.mem_cons, List.mem_append, List.not_mem_nil,
      or_false] at hn
    rcases hn with rfl | hn | rfl
    · simp [tokens]
    · simp [tokens, Qualified.token_mem_tokens hn]
    · simp [tokens]
  | storeStatic field rhs =>
    simp only [names, List.mem_append, List.mem_singleton] at hn
    rcases hn with hn | rfl
    · simp [tokens, Qualified.token_mem_tokens hn]
    · simp [tokens]
  | storeArray base rhs =>
    simp only [names, List.mem_cons, List.not_mem_nil, or_false] at hn
    rcases hn with rfl | rfl <;> simp [tokens]
  | call c => exact CallTree.token_mem_tokens hn
  | ret value => simp_all [names, tokens]

theorem Member.token_mem_tokens {x : Member} (hn : n ∈ x.names) : n.token ∈ x.tokens := by
  refine List.mem_append_right _ ?_
  rw [names, List.mem_cons] at hn
  cases hkind : x.kind with
  | field =>
    rw [hkind] at hn
    simp_all [declaratorTokens, MemberKind.names]
  | method params body =>
    rw [hkind, MemberKind.names, List.mem_append, List.mem_flatMap] at hn
    rw [declaratorTokens]
    rcases hn with rfl | hn | ⟨k, hk, hn⟩
    · simp
    · simp [Name.token_mem_parenTokens hn]
    · cases body with
      | none => cases hk
      | some ks =>
        have hmem : n.token ∈ ks.flatMap fun k => k.tokens ++ [.punct .semicolon] :=
          List.mem_flatMap.2 ⟨k, hk, List.mem_append_left _ (Command.token_mem_tokens hn)⟩
        simp [bodyTokens, hmem]

theorem token_mem_clauseTokens {w : String} {ns : List Name} (hn : n ∈ ns) :
    n.token ∈ clauseTokens w ns := by
  cases ns with
  | nil => cases hn
  | cons m ns => exact .tail _ (Name.token_mem_listTokens hn)

theorem ClassTree.token_mem_tokens {t : ClassTree} (hn : n ∈ t.names) : n.token ∈ t.tokens := by
  simp only [names, List.cons_append, List.mem_cons, List.mem_append, Option.mem_toList,
    List.mem_flatMap] at hn
  rw [tokens]
  rcases hn with rfl | (hn | hn) | ⟨x, hx, hn⟩
  · simp
  · simp [Option.mem_def.1 hn]
  · simp [token_mem_clauseTokens hn]
  · have hmem : n.token ∈ t.members.flatMap Member.tokens :=
      List.mem_flatMap.2 ⟨x, hx, Member.token_mem_tokens hn⟩
    simp [hmem]

/-- The names of a tree that can be written are identifiers. -/
theorem ClassTree.isIdent_of_mem_names {t : ClassTree} (h : Spellable t.renderings)
    (hn : n ∈ t.names) : isIdent n.text.toList = true :=
  (ClassTree.spells h).wellFormed n.token (token_mem_tokens hn)

/-! ## What outlines say -/

theorem CallTree.vars_subset (c : CallTree) : c.vars ⊆ c.names.map Name.text := by
  refine List.map_subset _ (List.append_subset.2 ⟨?_, List.subset_append_right _ _⟩)
  exact List.Subset.trans (List.subset_append_left _ _) (List.subset_append_left _ _)

theorem Command.vars_subset (k : Command) : k.vars ⊆ k.names.map Name.text := by
  cases k with
  | assign lhs rhs =>
    cases rhs with
    | call c => exact List.cons_subset_cons _ c.vars_subset
    | _ => simp [vars, names, Expr.vars, Expr.names]
  | call c => exact c.vars_subset
  | _ => simp [vars, names]

theorem Command.classes_subset (k : Command) : k.classes ⊆ k.names.map Name.text := by
  cases k with
  | assign lhs rhs =>
    cases rhs <;> simp [classes, names, Expr.classes, Expr.names, CallTree.names, Qualified.names]
  | _ => simp [classes, names, CallTree.names, Qualified.names]

/-- What a text says by a name, in a tree that can be written. -/
theorem ClassTree.isIdent_of_mem {t : ClassTree} (h : Spellable t.renderings) {ns : List Name}
    (hns : ns ⊆ t.names) {w : String} (hw : w ∈ ns.map Name.text) : isIdent w.toList = true := by
  obtain ⟨n, hn, rfl⟩ := List.mem_map.1 hw
  exact isIdent_of_mem_names h (hns hn)

theorem ClassTree.names_member_subset {t : ClassTree} {x : Member} (hx : x ∈ t.members) :
    x.names ⊆ t.names :=
  fun _ hn => List.mem_append_right _ (List.mem_flatMap.2 ⟨x, hx, hn⟩)

theorem Member.names_command_subset {x : Member} {params : List Name} {body : Option (List Command)}
    (hkind : x.kind = .method params body) {k : Command} (hk : k ∈ body.getD []) :
    k.names ⊆ x.names := by
  intro n hn
  rw [names, hkind]
  exact .tail _ (List.mem_append_right _ (List.mem_flatMap.2 ⟨k, hk, hn⟩))

theorem ClassTree.isIdent_of_mem_mentions {t : ClassTree} (h : Spellable t.renderings) {w : String}
    (hw : w ∈ t.mentions) : isIdent w.toList = true := by
  rw [mentions, List.mem_append, List.mem_flatMap] at hw
  rcases hw with hw | ⟨x, hx, hw⟩
  · refine isIdent_of_mem h (fun n hn => ?_) hw
    rw [names, List.cons_append]
    exact .tail _ (List.mem_append_left _ hn)
  · rw [Member.classes] at hw
    split at hw
    next => cases hw
    next params body hkind =>
      obtain ⟨k, hk, hw⟩ := List.mem_flatMap.1 hw
      refine isIdent_of_mem h (fun n hn => ?_) (k.classes_subset hw)
      exact names_member_subset hx (Member.names_command_subset hkind hk hn)

end Text

open Text

theorem mem_addNew {α : Type} [DecidableEq α] {as : List α} {a b : α} :
    b ∈ addNew as a ↔ b ∈ as ∨ b = a := by
  rw [addNew]
  split
  next ha => exact ⟨.inl, fun h => h.elim id fun heq => heq ▸ ha⟩
  next => rw [List.mem_append, List.mem_singleton]

theorem mem_foldl_addNew {α : Type} [DecidableEq α] {as bs : List α} {a : α} :
    a ∈ bs.foldl addNew as ↔ a ∈ as ∨ a ∈ bs := by
  induction bs generalizing as with
  | nil => simp
  | cons b bs ih => rw [List.foldl_cons, ih, mem_addNew, List.mem_cons, or_assoc]

/-! ## Names of programs -/

/-- All names are identifiers. -/
structure Draft.Readable (d : Draft) : Prop where
  classes : ∀ c x, d.cls c = .ok x → isIdent x.name.toList = true
  fields : ∀ f z, d.field f = .ok z → isIdent z.name.toList = true
  methods : ∀ m y, d.method m = .ok y → isIdent y.name.toList = true
  vars : ∀ v z, d.var v = .ok z → isIdent z.name.toList = true

section Readable

variable {ts : List ClassTree} {d : Draft} (hd : Describes ts d)
  (hts : ∀ t ∈ ts, Spellable t.renderings)

include hd hts

theorem Text.Describes.isIdent_cls {c : ClassId} {x : Class} (hx : d.cls c = .ok x) :
    isIdent x.name.toList = true := by
  obtain ⟨t, ht, hname⟩ | ⟨-, hmem⟩ := hd.classes c x hx
  · rw [← hname]
    exact ClassTree.isIdent_of_mem_names (hts t ht) (.head _)
  · obtain ⟨t, ht, hmem⟩ := List.mem_flatMap.1 hmem
    exact ClassTree.isIdent_of_mem_mentions (hts t ht) hmem

theorem Text.Describes.isIdent_field {f : FieldId} {z : Field} (hz : d.field f = .ok z) :
    isIdent z.name.toList = true := by
  obtain ⟨x, hx, hmem⟩ := hd.regular.built.listed.fields f z hz
  obtain ⟨t, ht, houtline⟩ :=
    hd.exists_tree hx (hd.declared_of_members hx (.inl (List.ne_nil_of_mem hmem)))
  have hfields : x.fields.map d.fieldOutline = t.outline.fields :=
    congrArg ClassOutline.fields houtline
  have hin : (z.name, z.isStatic) ∈ t.outline.fields := by
    rw [← hfields, ← Draft.fieldOutline_of_field hz]
    exact List.mem_map_of_mem hmem
  obtain ⟨x, hx, hleft⟩ := List.mem_filterMap.1 hin
  have hx' := Sum.getLeft?_eq_some_iff.1 hleft
  rw [Member.outline] at hx'
  split at hx'
  next =>
    have hname : x.name.text = z.name := congrArg Prod.fst (Sum.inl.inj hx')
    rw [← hname]
    exact ClassTree.isIdent_of_mem_names (hts t ht) (ClassTree.names_member_subset hx (.head _))
  next => cases hx'

theorem Text.Describes.isIdent_method {m : MethodId} {y : Method} (hy : d.method m = .ok y) :
    isIdent y.name.toList = true := by
  obtain ⟨t, ht, x, hx, params, body, -, houtline⟩ := hd.exists_member hy
  have hname : y.name = x.name.text := congrArg MethodOutline.name houtline
  rw [hname]
  exact ClassTree.isIdent_of_mem_names (hts t ht) (ClassTree.names_member_subset hx (.head _))

theorem Text.Describes.isIdent_var {v : VarId} {z : Var} (hz : d.var v = .ok z) :
    isIdent z.name.toList = true := by
  obtain ⟨y, hy, hv⟩ := hd.regular.built.listed.vars v z hz
  obtain ⟨t, ht, x, hx, params, body, hkind, houtline⟩ := hd.exists_member hy
  have hvars : y.vars.toList.map d.varText =
      ((body.getD []).flatMap Command.vars).foldl addNew
      (Draft.startNames (params.map Name.text) x.isStatic) :=
    congrArg MethodOutline.vars houtline
  have hin : z.name ∈ y.vars.toList.map d.varText := by
    rw [← Draft.varText_of_var hz]
    exact List.mem_map_of_mem hv
  have hnames := ClassTree.names_member_subset hx
  rw [hvars, mem_foldl_addNew, Draft.startNames, List.mem_append] at hin
  rcases hin with (hin | hin) | hin
  · split at hin
    next => cases hin
    next =>
      rw [List.mem_singleton.1 hin]
      rfl
  · refine ClassTree.isIdent_of_mem (hts t ht) (fun n hn => hnames ?_) hin
    rw [Member.names, hkind]
    exact .tail _ (List.mem_append_left _ hn)
  · obtain ⟨k, hk, hin⟩ := List.mem_flatMap.1 hin
    exact ClassTree.isIdent_of_mem (hts t ht)
      (fun n hn => hnames (Member.names_command_subset hkind hk hn)) (k.vars_subset hin)

end Readable

theorem Program.readable_of_ofText {text : String} {p : Program} (h : Program.ofText text = .ok p) :
    p.toDraft.Readable := by
  obtain ⟨ls, items, d, hlex, hparse, hdraft, hseal⟩ := ofText_eq_ok_iff.1 h
  rw [(Draft.seal_spec hseal).1]
  have hd := (describes_of_draftOf hdraft).1
  have hts : ∀ t ∈ Item.classes items, Spellable t.renderings := fun t ht =>
    spellable_of_parseItems hlex hparse (.cls t) (Item.mem_classes_iff.1 ht)
  exact ⟨fun c x => hd.isIdent_cls hts, fun f z => hd.isIdent_field hts,
    fun m y => hd.isIdent_method hts, fun v z => hd.isIdent_var hts⟩

end PointsTo
