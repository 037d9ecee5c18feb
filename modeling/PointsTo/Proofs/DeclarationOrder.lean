import Mathlib.Algebra.Order.BigOperators.Group.List
import PointsTo.Proofs.RoundTrip
import PointsTo.Proofs.Unambiguity

/-!
# The order of declarations

`Program.ofText_perm`: the items of a text may stand in any order, as long as there is at most one
entry among them, for of several entries the last one counts.

What is read off a text is known from any items that the text `Writes`, since renderings are
unambiguous (`Writes.bare_eq_shown`). So the items that are read off two texts agree, but for their
order, where those that the texts render do. Items are acceptable whatever their order
(`Acceptable.perm`), and they declare the same.
-/

namespace PointsTo

open Text

namespace Text

/-! ## What is shown of items -/

theorem Expr.renderings_le_shown (e : Expr) : e.renderings ≤ e.shown.renderings := by
  cases e with
  | copy value =>
    rw [Expr.shown]
    split_ifs with hnull
    · rw [Expr.renderings, Expr.renderings, Name.renderings, hnull]
      exact le_self_add
    · exact le_rfl
  | _ => exact (Expr.renderings_bare _).ge

theorem Command.renderings_le_shown (c : Command) : c.renderings ≤ c.shown.renderings := by
  cases c with
  | assign lhs rhs => exact mul_le_mul' le_rfl (mul_le_mul' le_rfl rhs.renderings_le_shown)
  | _ => exact (Command.renderings_bare _).ge

theorem declarator_le_shown (n : Name) (kind : MemberKind) :
    declarator n kind ≤ declarator n.bare kind.shown := by
  cases kind with
  | field => exact le_rfl
  | method params body =>
    have hbody : bodyRenderings body ≤ bodyRenderings (body.map (·.map Command.shown)) := by
      cases body with
      | none => exact le_rfl
      | some cs =>
        rw [Option.map_some, bodyRenderings, bodyRenderings, List.map_map]
        refine mul_le_mul' le_rfl (mul_le_mul' (List.prod_le_prod' fun c _ => ?_) le_rfl)
        exact mul_le_mul' c.renderings_le_shown le_rfl
    rw [MemberKind.shown, declarator, declarator, inParens_map_bare]
    exact mul_le_mul' le_rfl (mul_le_mul' le_rfl (mul_le_mul' le_rfl hbody))

theorem Member.renderings_le_shown (m : Member) : m.renderings ≤ m.shown.renderings :=
  mul_le_mul' le_rfl (declarator_le_shown m.name m.kind)

theorem ClassTree.renderings_le_shown (t : ClassTree) : t.renderings ≤ t.shown.renderings := by
  have hmembers : inBraces t.members ≤ inBraces (t.members.map Member.shown) := by
    rw [inBraces, inBraces, List.map_map]
    exact mul_le_mul' le_rfl
      (mul_le_mul' (List.prod_le_prod' fun m _ => m.renderings_le_shown) le_rfl)
  obtain ⟨name, _ | _, isAbstract, superclass, interfaces, members⟩ := t
  · cases superclass <;>
      simp only [ClassTree.renderings, ClassTree.shown, ClassTree.bare, clause_map_bare,
        Name.renderings_bare] <;>
      exact mul_le_mul' le_rfl (mul_le_mul' le_rfl
        (mul_le_mul' le_rfl (mul_le_mul' le_rfl hmembers)))
  · obtain _ | _ := isAbstract <;> obtain _ | superclass := superclass
    · simp only [ClassTree.renderings, ClassTree.shown, ClassTree.bare, clause_map_bare,
        Name.renderings_bare]
      exact mul_le_mul' le_rfl (mul_le_mul' le_rfl (mul_le_mul' le_rfl hmembers))
    · exact le_rfl
    · exact le_rfl
    · exact le_rfl

theorem Item.renderings_le_shown (i : Item) : i.renderings ≤ i.shown.renderings := by
  cases i with
  | cls t => exact t.renderings_le_shown
  | entry target line => exact le_rfl

/-- A rendering of items is one of what is shown of them. -/
theorem renderings_le_shown (items : List Item) :
    renderings items ≤ renderings (items.map Item.shown) := by
  rw [renderings, renderings, List.map_map]
  exact List.prod_le_prod' fun i _ => i.renderings_le_shown

/-! Only lines are not shown where no name is a keyword. -/

theorem Expr.shown_eq_bare {e : Expr} (h : ∀ n ∈ e.names, n.text ∉ keywords) :
    e.shown = e.bare := by
  cases e with
  | copy value =>
    have hnull : value.text ≠ "null" :=
      fun hnull => h value (List.mem_singleton_self value) (hnull ▸ by decide)
    rw [Expr.shown, if_neg hnull, Expr.bare]
  | _ => rfl

theorem Command.shown_eq_bare {c : Command} (h : ∀ n ∈ c.names, n.text ∉ keywords) :
    c.shown = c.bare := by
  cases c with
  | assign lhs rhs =>
    rw [Command.shown, Command.bare, Expr.shown_eq_bare fun n hn => h n (List.mem_cons_of_mem _ hn)]
  | _ => rfl

theorem Member.shown_eq_bare {m : Member} (h : ∀ n ∈ m.names, n.text ∉ keywords) :
    m.shown = m.bare := by
  obtain ⟨modifiers, name, _ | ⟨params, _ | cs⟩⟩ := m
  · rfl
  · rfl
  · have hcs : cs.map Command.shown = cs.map Command.bare := by
      refine List.map_congr_left fun c hc => Command.shown_eq_bare fun n hn => h n ?_
      exact List.mem_cons_of_mem _ (List.mem_append_right _ (List.mem_flatMap.2 ⟨c, hc, hn⟩))
    simp only [Member.shown, Member.bare, MemberKind.shown, MemberKind.bare, Option.map_some, hcs]

theorem ClassTree.shown_eq_bare {t : ClassTree} (h : ∀ n ∈ t.names, n.text ∉ keywords) :
    t.shown = t.bare := by
  have hmembers : t.members.map Member.shown = t.members.map Member.bare := by
    refine List.map_congr_left fun m hm => Member.shown_eq_bare fun n hn => h n ?_
    exact List.mem_append_right _ (List.mem_flatMap.2 ⟨m, hm, hn⟩)
  rw [ClassTree.shown, hmembers]
  rfl

theorem Item.shown_eq_bare {i : Item} (h : ∀ n ∈ i.names, n.text ∉ keywords) :
    i.shown = i.bare := by
  cases i with
  | cls t => exact congrArg Item.cls (ClassTree.shown_eq_bare h)
  | entry target line => rfl

/-! ## Entries -/

/-- All entries among some items, with their lines. -/
def Item.entries (items : List Item) : List (Qualified × Nat) :=
  items.filterMap fun
    | .cls _ => none
    | .entry target line => some (target, line)

theorem Item.lastEntry_eq (items : List Item) :
    Item.lastEntry items = (Item.entries items).getLast? := rfl

theorem Item.length_entries_map_shown (items : List Item) :
    (Item.entries (items.map Item.shown)).length = (Item.entries items).length := by
  have hshown : Item.entries (items.map Item.shown) =
      (Item.entries items).map fun e => (e.1.bare, 0) := by
    rw [entries, entries, List.filterMap_map, List.map_filterMap]
    refine List.filterMap_congr fun i _ => ?_
    cases i <;> rfl
  rw [hshown, List.length_map]

section Entries

variable {items items' : List Item} (hentries : (Item.entries items).length ≤ 1)

include hentries

/-- The only entry is the last one. -/
theorem Item.lastEntry_of_mem {q : Qualified} {line : Nat} (h : .entry q line ∈ items) :
    Item.lastEntry items = some (q, line) := by
  have hmem : (q, line) ∈ Item.entries items := List.mem_filterMap.2 ⟨_, h, rfl⟩
  obtain ⟨e, he⟩ := List.length_eq_one_iff.1 (le_antisymm hentries (List.length_pos_of_mem hmem))
  rw [he, List.mem_singleton] at hmem
  rw [Item.lastEntry_eq, he, hmem]
  rfl

theorem Item.lastEntry_perm (hperm : items'.Perm items) :
    Item.lastEntry items' = Item.lastEntry items := by
  have hentriesPerm : (Item.entries items').Perm (Item.entries items) := hperm.filterMap _
  rw [Item.lastEntry_eq, Item.lastEntry_eq]
  obtain hnone | hone := Nat.le_one_iff_eq_zero_or_eq_one.1 hentries
  · rw [List.eq_nil_of_length_eq_zero hnone] at hentriesPerm ⊢
    rw [hentriesPerm.eq_nil]
  · obtain ⟨e, he⟩ := List.length_eq_one_iff.1 hone
    rw [he] at hentriesPerm ⊢
    rw [hentriesPerm.eq_singleton]

theorem Acceptable.names (h : Acceptable items) :
    ∀ i ∈ items, ∀ n ∈ i.names, n.text ∉ keywords := by
  intro i hi
  cases i with
  | cls t => exact (h.classes t (Item.mem_classes_iff.2 hi)).names
  | entry q line => exact (h.entry q line (Item.lastEntry_of_mem hentries hi)).1

end Entries

/-! ## Permutations -/

/-- A class is found by its name if no other class has this name. -/
theorem ClassTree.find?_eq_some_iff {ts : List ClassTree}
    (h : ts.Pairwise fun s t => s.name.text ≠ t.name.text) {name : String} {t : ClassTree} :
    (ts.find? fun t => t.name.text = name) = some t ↔ t ∈ ts ∧ t.name.text = name := by
  constructor
  · intro hfind
    exact ⟨List.mem_of_find?_eq_some hfind, by simpa using List.find?_some hfind⟩
  · rintro ⟨ht, hname⟩
    cases hfind : ts.find? fun t => t.name.text = name with
    | none => simpa [hname] using List.find?_eq_none.1 hfind t ht
    | some t' =>
      have hname' : t'.name.text = name := by simpa using List.find?_some hfind
      have hnodup : (ts.map fun t => t.name.text).Nodup := List.pairwise_map.2 h
      rw [List.inj_on_of_nodup_map hnodup (List.mem_of_find?_eq_some hfind) ht
        (hname'.trans hname.symm)]

theorem ClassTree.outlineIn_perm {ts ts' : List ClassTree} (hperm : ts'.Perm ts)
    (h : ts.Pairwise fun s t => s.name.text ≠ t.name.text) (name : String) :
    outlineIn ts' name = outlineIn ts name := by
  have h' : ts'.Pairwise fun s t => s.name.text ≠ t.name.text := hperm.symm.pairwise h Ne.symm
  have hfind : (ts'.find? fun t => t.name.text = name) = ts.find? fun t => t.name.text = name := by
    refine Option.ext fun t => ?_
    rw [find?_eq_some_iff h', find?_eq_some_iff h, hperm.mem_iff]
  have hmentions : name ∈ ts'.flatMap mentions ↔ name ∈ ts.flatMap mentions := by
    simp only [List.mem_flatMap, hperm.mem_iff]
  rw [outlineIn, outlineIn, hfind]
  simp only [hmentions]

theorem Item.classes_perm {items items' : List Item} (hperm : items'.Perm items) :
    (Item.classes items').Perm (Item.classes items) := hperm.filterMap _

/-- Items may be put in another order, unless this could change which entry is the last one. -/
theorem Acceptable.perm {items items' : List Item} (h : Acceptable items)
    (hperm : items'.Perm items) (hentries : (Item.entries items).length ≤ 1) :
    Acceptable items' := by
  have hclasses := Item.classes_perm hperm
  refine ⟨fun t ht => h.classes t (hclasses.mem_iff.1 ht), hclasses.symm.pairwise h.differ Ne.symm,
    fun q line hq => ?_⟩
  rw [Item.lastEntry_perm hentries hperm] at hq
  rw [ClassTree.outlineIn_perm hclasses h.differ]
  exact h.entry q line hq

/-! ## Texts of items -/

/-- A text that consists of some items, with any blanks and comments between their tokens. -/
def Writes (text : String) (items : List Item) : Prop :=
  ∃ ls, lex text = .ok ls ∧ ls.map Lexeme.token ∈ renderings items

theorem Writes.spellable {text : String} {items : List Item} (h : Writes text items) :
    ∀ i ∈ items, Spellable i.renderings := by
  obtain ⟨ls, hlex, hmem⟩ := h
  exact spellable_of_mem_renderings hlex hmem

theorem exists_writes {items : List Item} (h : ∀ i ∈ items, Spellable i.renderings) :
    ∃ text, Writes text items := by
  have hspells := spells_items h
  obtain ⟨ls, hlex, htokens⟩ := lex_spell hspells.wellFormed
  exact ⟨_, ls, hlex, htokens ▸ hspells.mem⟩

/-- Items that are read off a text, lines apart. -/
theorem writes_of_parseItems {text : String} {items : List Item}
    (h : ((lex text).toOption.bind fun ls => (parseItems ls).toOption.map (·.map Item.bare)) =
      some (items.map Item.bare)) : Writes text items := by
  obtain ⟨ls, hlex, h⟩ := Option.bind_eq_some_iff.1 h
  obtain ⟨read, hparse, hread⟩ := Option.map_eq_some_iff.1 h
  refine ⟨ls, toOption_eq_some_iff.1 hlex, ?_⟩
  rw [← renderings_map_bare, ← hread, renderings_map_bare]
  exact mem_renderings_of_parseItems (toOption_eq_some_iff.1 hparse)

/-- What is read off a text, if it is acceptable, is what any items show that the text consists
of. -/
theorem Writes.bare_eq_shown {text : String} {ls : List Lexeme} {items read : List Item}
    (h : Writes text items) (hentries : (Item.entries items).length ≤ 1) (hlex : lex text = .ok ls)
    (hparse : parseItems ls = .ok read) (hacceptable : Acceptable read) :
    read.map Item.bare = items.map Item.shown := by
  obtain ⟨ls', hlex', hmem⟩ := h
  cases hlex.symm.trans hlex'
  have hshown := shown_eq_of_mem_renderings (mem_renderings_of_parseItems hparse) hmem
  have hread : (Item.entries read).length ≤ 1 := by
    rwa [← Item.length_entries_map_shown, hshown, Item.length_entries_map_shown]
  rw [← hshown]
  exact List.map_congr_left fun i hi => (Item.shown_eq_bare (hacceptable.names hread i hi)).symm

end Text

/-- A text of the same items in another order is accepted as well, and gives the same program up to
a renumbering. -/
theorem Program.exists_ofText_of_perm {items items' : List Item} {text text' : String} {p : Program}
    (hwrites : Writes text items) (hwrites' : Writes text' items') (hperm : items'.Perm items)
    (hentries : (Item.entries items).length ≤ 1) (h : Program.ofText text = .ok p) :
    ∃ p', Program.ofText text' = .ok p' ∧ p.toDraft.Isomorphic p'.toDraft := by
  obtain ⟨ls, read, d, hlex, hparse, hdraft, hseal⟩ := ofText_eq_ok_iff.1 h
  have hacceptable : Acceptable read := exists_draftOf_iff.1 ⟨d, hdraft⟩
  have hread : read.map Item.bare = items.map Item.shown :=
    hwrites.bare_eq_shown hentries hlex hparse hacceptable
  -- what is shown of the items is acceptable in both orders
  have hperm' : (items'.map Item.shown).Perm (items.map Item.shown) := hperm.map _
  have hone : (Item.entries (items.map Item.shown)).length ≤ 1 := by
    rwa [Item.length_entries_map_shown]
  have hone' : (Item.entries (items'.map Item.shown)).length ≤ 1 := by
    rw [Item.length_entries_map_shown]
    exact (hperm.filterMap _).length_eq.trans_le hentries
  have hshown : Acceptable (items.map Item.shown) := hread ▸ acceptable_map_bare.2 hacceptable
  have hshown' : Acceptable (items'.map Item.shown) := hshown.perm hperm' hone
  -- so it is read off the other text, which renders it
  obtain ⟨ls', hlex', hmem'⟩ := hwrites'
  obtain ⟨read', hparse', hread'⟩ :=
    ((parseItems_iff_rendering ls' _).1 (hshown'.names hone')).2 (renderings_le_shown items' hmem')
  obtain ⟨d', hdraft'⟩ := exists_draftOf_iff.2 ((acceptable_iff_of_bare_eq hread').2 hshown')
  obtain ⟨p', hseal'⟩ := (describes_of_draftOf hdraft').1.regular.inRange.exists_seal
  refine ⟨p', ofText_eq_ok_iff.2 ⟨ls', read', d', hlex', hparse', hdraft', hseal'⟩, ?_⟩
  rw [(Draft.seal_spec hseal).1, (Draft.seal_spec hseal').1]
  refine isomorphic_of_draftOf hdraft hdraft' (fun name => ?_) ?_
  · rw [outlineIn_eq_of_bare_eq hread',
      ClassTree.outlineIn_perm (Item.classes_perm hperm') hshown.differ, ← hread,
      Item.classes_map_bare, ClassTree.outlineIn_map_bare]
  · rw [target?_eq_of_bare_eq hread', Item.target?, Item.lastEntry_perm hone hperm', ← hread]
    exact Item.target?_map_bare read

/-- Declarations may stand in any order. If there is at most one entry among some items, then any
permutation of them can be written, and its texts are accepted just if those of the items are and
give the same programs up to a renumbering. -/
theorem Program.ofText_perm {items items' : List Item} {text : String} (hwrites : Writes text items)
    (hentries : (Item.entries items).length ≤ 1) (hperm : items'.Perm items) :
    (∃ text', Writes text' items') ∧ ∀ text', Writes text' items' →
      ((∃ p, Program.ofText text = .ok p) ↔ ∃ p', Program.ofText text' = .ok p') ∧
      ∀ p p', Program.ofText text = .ok p → Program.ofText text' = .ok p' →
        p.toDraft.Isomorphic p'.toDraft := by
  have hentries' : (Item.entries items').length ≤ 1 :=
    (hperm.filterMap _).length_eq.trans_le hentries
  refine ⟨exists_writes fun i hi => hwrites.spellable i (hperm.mem_iff.1 hi),
    fun text' hwrites' => ⟨⟨?_, ?_⟩, ?_⟩⟩
  · rintro ⟨p, hp⟩
    obtain ⟨p', hp', -⟩ := exists_ofText_of_perm hwrites hwrites' hperm hentries hp
    exact ⟨p', hp'⟩
  · rintro ⟨p', hp'⟩
    obtain ⟨p, hp, -⟩ := exists_ofText_of_perm hwrites' hwrites hperm.symm hentries' hp'
    exact ⟨p, hp⟩
  · intro p p' hp hp'
    obtain ⟨q, hq, hiso⟩ := exists_ofText_of_perm hwrites hwrites' hperm hentries hp
    cases hq.symm.trans hp'
    exact hiso

/-- A class before the one that it extends, and the entry at the end. -/
def sampleForward : String := "class A extends B { } class B { method m(p) { x = 5; } } entry B::m;"

/-- The items of `sampleForward` from the last to the first, with another constant. -/
def sampleBackward : String :=
  "entry B::m; class B { method m(p) { x = null; } } class A extends B { }"

/-- The items of `sampleForward`. -/
def sampleOrder : List Item :=
  [.cls ⟨⟨"A", 0⟩, false, false, some ⟨"B", 0⟩, [], []⟩,
    .cls ⟨⟨"B", 0⟩, false, false, none, [],
      [⟨[], ⟨"m", 0⟩, .method [⟨"p", 0⟩] (some [.assign ⟨"x", 0⟩ .const])⟩]⟩,
    .entry ⟨⟨"B", 0⟩, ⟨"m", 0⟩⟩ 0]

theorem Program.sample_ofText_perm :
    Writes sampleForward sampleOrder ∧ Writes sampleBackward sampleOrder.reverse ∧
      ∃ p p', Program.ofText sampleForward = .ok p ∧ Program.ofText sampleBackward = .ok p' ∧
        p.toDraft.Isomorphic p'.toDraft := by
  have hwrites : Writes sampleForward sampleOrder := writes_of_parseItems (by decide +kernel)
  have hwrites' : Writes sampleBackward sampleOrder.reverse :=
    writes_of_parseItems (by decide +kernel)
  obtain ⟨p, hp, -⟩ : ∃ p, Program.ofText sampleForward = .ok p ∧ p.toDraft.entry.isSome = true :=
    Program.exists_ofText (by decide +kernel)
  obtain ⟨hiff, hiso⟩ :=
    (Program.ofText_perm hwrites (by decide) (List.reverse_perm sampleOrder)).2
      sampleBackward hwrites'
  obtain ⟨p', hp'⟩ := hiff.1 ⟨p, hp⟩
  exact ⟨hwrites, hwrites', p, p', hp, hp', hiso p p' hp hp'⟩

end PointsTo
