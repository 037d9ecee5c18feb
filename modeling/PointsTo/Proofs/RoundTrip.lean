import PointsTo.Proofs.Declarations
import PointsTo.Proofs.Isomorphism
import PointsTo.Proofs.Recognition

/-!
# Programs written and read again

A program is written as declarations by name (`Draft.render`): those of its declared classes in the
order of their ids, and that of its entry. The classes that are only mentioned, the variables and
all ids come about again when the text is read. What is read is isomorphic to the program
(`Program.ofText_render`), since the declarations have the outlines of those that the program was
read from (`isomorphic_of_draftOf`).
-/

namespace PointsTo

open Text

/-! ## Items with the same outlines -/

namespace Draft

/-- A method is found under the name of its class and its own name. -/
theorem Regular.label_of_mem_findMethods {d : Draft} (hd : d.Regular) {className name : String}
    {m : MethodId} (hm : m ∈ d.findMethods className name) :
    d.label m = (className, (d.methodOutline m).sig) ∧ (d.methodOutline m).name = name := by
  obtain ⟨c, x, hx, rfl, hnamed⟩ := exists_cls_of_mem_findMethods hm
  obtain ⟨⟨sig, _⟩, hmem, rfl⟩ := List.mem_map.1 hnamed
  rw [List.mem_filter, decide_eq_true_eq] at hmem
  obtain ⟨y, hy, rfl, rfl⟩ := hd.built.owned.methods c x hx _ hmem.1
  rw [methodOutline_of_method hy, outlineMethod_sig, label_method hy, label_cls hx]
  exact ⟨rfl, hmem.2⟩

end Draft

namespace Text

/-- No statement is left out in the outline of a tree. -/
theorem ClassTree.none_notMem_body {ts : List ClassTree} {name : String} {o : ClassOutline}
    (h : outlineIn ts name = some o) : ∀ m ∈ o.methods, none ∉ m.body := by
  rw [outlineIn] at h
  split at h
  next t _ =>
    cases h
    intro m hm
    obtain ⟨x, -, hx⟩ := List.mem_filterMap.1 hm
    have houtline := Sum.getRight?_eq_some_iff.1 hx
    rw [Member.outline] at houtline
    split at houtline <;> cases houtline
    simp [MethodOutline.of]
  next =>
    split at h <;> cases h
    exact fun m hm => absurd hm List.not_mem_nil

/-- The entry has the same label in two drafts with the same outlines, if it is named alike. -/
theorem Enters.map_label_eq {items items' : List Item} {d d' : Draft} (hd : d.Regular)
    (hd' : d'.Regular) (hsame : ∀ name, d'.outline? name = d.outline? name) (h : Enters items d)
    (h' : Enters items' d') (hentry : Item.target? items' = Item.target? items) :
    d'.entry.map d'.label = d.entry.map d.label := by
  rw [Enters] at h h'
  rw [Item.target?, Item.target?] at hentry
  cases hlast : Item.lastEntry items with
  | none =>
    rw [hlast, Option.map_none, Option.map_eq_none_iff] at hentry
    rw [hlast] at h
    rw [hentry] at h'
    dsimp only at h h'
    rw [h, h']
    rfl
  | some last =>
    rw [hlast, Option.map_some, Option.map_eq_some_iff] at hentry
    obtain ⟨⟨q', line'⟩, hlast', hbare⟩ := hentry
    obtain ⟨q, line⟩ := last
    rw [hlast] at h
    rw [hlast'] at h'
    obtain ⟨m, hfind, hm⟩ := h
    obtain ⟨m', hfind', hm'⟩ := h'
    have hcls : q'.cls.text = q.cls.text := congrArg (fun q => q.cls.text) hbare
    have hname : q'.name.text = q.name.text := congrArg (fun q => q.name.text) hbare
    rw [hcls, hname] at hfind'
    -- the two methods have the same outline, and so the same subsignature
    have hmethods := d.map_findMethods hd q.cls.text q.name.text
    rw [← hsame, ← d'.map_findMethods hd', hfind, hfind', List.map_singleton,
      List.map_singleton] at hmethods
    have hlabel := (hd.label_of_mem_findMethods (hfind ▸ List.mem_singleton_self m)).1
    have hlabel' := (hd'.label_of_mem_findMethods (hfind' ▸ List.mem_singleton_self m')).1
    rw [hm, hm', Option.map_some, Option.map_some, hlabel, hlabel',
      List.head_eq_of_cons_eq hmethods]

/-- Items that declare the same, with the same last entry, describe isomorphic drafts. -/
theorem isomorphic_of_draftOf {items items' : List Item} {d d' : Draft} (h : draftOf items = .ok d)
    (h' : draftOf items' = .ok d')
    (houtline : ∀ name, ClassTree.outlineIn (Item.classes items') name =
      ClassTree.outlineIn (Item.classes items) name)
    (hentry : Item.target? items' = Item.target? items) : d.Isomorphic d' := by
  obtain ⟨hd, henters⟩ := describes_of_draftOf h
  obtain ⟨hd', henters'⟩ := describes_of_draftOf h'
  have hsame : ∀ name, d'.outline? name = d.outline? name := fun name => by
    rw [hd.outline?_eq, hd'.outline?_eq, houtline]
  have halike : d.Alike d' := by
    refine ⟨hd.regular, hd'.regular, hsame, fun name o ho => ?_⟩
    rw [hd.outline?_eq] at ho
    exact ClassTree.none_notMem_body ho
  exact halike.isomorphic (henters.map_label_eq hd.regular hd'.regular hsame henters' hentry)

end Text

/-! ## Writing programs -/

namespace Draft

/-- A method as an entry names it. -/
def target (d : Draft) (m : MethodId) : Qualified :=
  .plain (d.methodLabel m).1 (d.methodLabel m).2.name

/-- The declared classes in the order of their ids, and the entry. -/
def items (d : Draft) : List Item :=
  (d.classes.toList.filter Class.declared).map (fun x => .cls (d.outlineClass x).tree) ++
    d.entry.toList.map fun m => .entry (d.target m) 0

def render (d : Draft) : String := spell (d.items.flatMap Item.tokens)

theorem classes_items (d : Draft) :
    Item.classes d.items = (d.classes.toList.filter Class.declared).map fun x =>
      (d.outlineClass x).tree := by
  cases h : d.entry <;> simp [Item.classes, items, h, List.filterMap_map]

theorem lastEntry_items (d : Draft) :
    Item.lastEntry d.items = d.entry.map fun m => (d.target m, 0) := by
  cases h : d.entry <;> simp [Item.lastEntry, items, h, List.filterMap_map]

theorem lastEntry_of_mem_items {d : Draft} {q : Qualified} {line : Nat}
    (h : .entry q line ∈ d.items) : Item.lastEntry d.items = some (q, line) := by
  obtain hcls | hentry := List.mem_append.1 h
  · obtain ⟨x, -, hx⟩ := List.mem_map.1 hcls
    cases hx
  · obtain ⟨m, hm, ⟨⟩⟩ := List.mem_map.1 hentry
    rw [d.lastEntry_items, Option.mem_toList.1 hm]
    rfl

end Draft

namespace Text

theorem Item.mem_classes_iff {items : List Item} {t : ClassTree} :
    t ∈ Item.classes items ↔ .cls t ∈ items := by
  rw [classes, List.mem_filterMap]
  constructor
  · rintro ⟨_ | _, hi, ht⟩ <;> cases ht
    exact hi
  · exact fun hi => ⟨.cls t, hi, rfl⟩

theorem Item.mem_of_lastEntry {items : List Item} {q : Qualified} {line : Nat}
    (h : Item.lastEntry items = some (q, line)) : .entry q line ∈ items := by
  obtain ⟨_ | _, hi, hentry⟩ := List.mem_filterMap.1 (List.mem_of_getLast? h) <;> cases hentry
  exact hi

theorem ClassTree.Acceptable.names {t : ClassTree} (h : t.Acceptable) :
    ∀ n ∈ t.names, n.text ∉ keywords := by
  have hmembers : ∀ n ∈ t.members.flatMap Member.names, n.text ∉ keywords := by
    intro n hn
    obtain ⟨x, hx, hn⟩ := List.mem_flatMap.1 hn
    exact (h.members x hx).1 n hn
  have hheader := h.header
  simp only [ClassTree.names, List.cons_append, List.forall_mem_cons,
    List.forall_mem_append] at hheader ⊢
  exact ⟨hheader.1, hheader.2, hmembers⟩

section Items

variable {ts : List ClassTree} {d : Draft}

/-- A class is as a tree declares it, or it has only a name. -/
theorem Describes.cls_cases (hd : Describes ts d) {c : ClassId} {x : Class} (hx : d.cls c = .ok x) :
    (∃ t ∈ ts, d.outlineClass x = t.outline) ∨ x = { name := x.name } := by
  obtain ⟨t, ht, hname⟩ | ⟨hmention, -⟩ := hd.classes c x hx
  · obtain ⟨c', x', hx', houtline⟩ := hd.declared t ht
    have hname' : x'.name = t.name.text := congrArg ClassOutline.name houtline
    cases Draft.cls_unique hx hx' (hname.symm.trans hname'.symm)
    cases hx.symm.trans hx'
    exact .inl ⟨t, ht, houtline⟩
  · exact .inr hmention

/-- A declared class is one that a tree declares. -/
theorem Describes.exists_tree (hd : Describes ts d) {c : ClassId} {x : Class} (hx : d.cls c = .ok x)
    (hdeclared : x.declared = true) : ∃ t ∈ ts, d.outlineClass x = t.outline := by
  obtain htree | hmention := hd.cls_cases hx
  · exact htree
  · rw [hmention] at hdeclared
    cases hdeclared

/-- The trees that are written are those of the outlines of the trees that were read. -/
theorem Describes.mem_classes_items (hd : Describes ts d) {t' : ClassTree} :
    t' ∈ Item.classes d.items ↔ ∃ t ∈ ts, t.outline.tree = t' := by
  rw [d.classes_items, List.mem_map]
  constructor
  · rintro ⟨x, hx, rfl⟩
    obtain ⟨hmem, hdeclared⟩ := List.mem_filter.1 hx
    obtain ⟨i, hi⟩ := Catalog.mem_toList_iff.1 hmem
    obtain ⟨t, ht, houtline⟩ := hd.exists_tree (c := ⟨i⟩) (fetch_eq_ok_iff.2 hi) hdeclared
    exact ⟨t, ht, by rw [houtline]⟩
  · rintro ⟨t, ht, rfl⟩
    obtain ⟨c, x, hx, houtline⟩ := hd.declared t ht
    refine ⟨x, List.mem_filter.2 ⟨mem_toList_of_fetch hx, ?_⟩, by rw [houtline]⟩
    exact congrArg ClassOutline.declared houtline

theorem Describes.items (hd : Describes ts d) : Describes (Item.classes d.items) d := by
  have hmentions : ∀ n, n ∈ (Item.classes d.items).flatMap ClassTree.mentions ↔
      n ∈ ts.flatMap ClassTree.mentions := by
    intro n
    simp only [List.mem_flatMap, hd.mem_classes_items]
    constructor
    · rintro ⟨_, ⟨t, ht, rfl⟩, hn⟩
      exact ⟨t, ht, ClassTree.mem_mentions_tree.1 hn⟩
    · rintro ⟨t, ht, hn⟩
      exact ⟨_, ⟨t, ht, rfl⟩, ClassTree.mem_mentions_tree.2 hn⟩
  refine ⟨hd.regular, fun t' ht' => ?_, fun c x hx => ?_,
    fun n hn => hd.mentions n ((hmentions n).1 hn)⟩
  · obtain ⟨t, ht, rfl⟩ := hd.mem_classes_items.1 ht'
    rw [t.outline_tree]
    exact hd.declared t ht
  · obtain ⟨t, ht, hname⟩ | ⟨hmention, hmem⟩ := hd.classes c x hx
    · exact .inl ⟨_, hd.mem_classes_items.2 ⟨t, ht, rfl⟩, hname⟩
    · exact .inr ⟨hmention, (hmentions _).2 hmem⟩

/-- The entry that is written is the one that was read. -/
theorem Enters.target?_items {items : List Item} (hd : d.Regular) (h : Enters items d) :
    Item.target? d.items = Item.target? items := by
  rw [Item.target?, Item.target?, d.lastEntry_items, Option.map_map]
  rw [Enters] at h
  split at h
  next q line hlast =>
    obtain ⟨m, hfind, hm⟩ := h
    obtain ⟨hlabel, hname⟩ := hd.label_of_mem_findMethods (hfind ▸ List.mem_singleton_self m)
    have htarget : d.target m = q.bare := by
      have hmethod : d.methodLabel m = (q.cls.text, (d.methodOutline m).sig) := hlabel
      rw [Draft.target, hmethod]
      exact congrArg (Qualified.plain q.cls.text) hname
    rw [hm, hlast]
    exact congrArg some htarget
  next hlast =>
    rw [h, hlast]
    rfl

variable {items : List Item}

theorem Enters.exists_entry (hd : d.Regular) (h : Enters items d) {q : Qualified} {line : Nat}
    (hq : Item.lastEntry d.items = some (q, line)) :
    ∃ q₀ line₀, Item.lastEntry items = some (q₀, line₀) ∧ q = q₀.bare := by
  have htarget := h.target?_items hd
  rw [Item.target?, Item.target?, hq, Option.map_some, eq_comm, Option.map_eq_some_iff] at htarget
  obtain ⟨⟨q₀, line₀⟩, hq₀, hbare⟩ := htarget
  rw [d.lastEntry_items, Option.map_eq_some_iff] at hq
  obtain ⟨m, -, ⟨⟩⟩ := hq
  exact ⟨q₀, line₀, hq₀, hbare.symm⟩

/-- The items that are written of a draft are acceptable if those that were read are. -/
theorem Describes.acceptable_items (hd : Describes (Item.classes items) d)
    (henters : Enters items d) (h : Acceptable items) : Acceptable d.items := by
  refine ⟨fun t' ht' => ?_, ?_, fun q line hq => ?_⟩
  · obtain ⟨t, ht, rfl⟩ := hd.mem_classes_items.1 ht'
    exact ClassTree.acceptable_tree (h.classes t ht)
  · rw [d.classes_items, List.pairwise_map]
    have hnames : d.classes.toList.Pairwise fun x y => x.name ≠ y.name :=
      List.pairwise_map.1 d.classes.nodup_map_key
    exact hnames.filter _
  · obtain ⟨q₀, line₀, hq₀, rfl⟩ := henters.exists_entry hd.regular hq
    rw [← hd.items.outline?_eq, hd.outline?_eq, Qualified.names_bare, List.forall_mem_map]
    exact h.entry q₀ line₀ hq₀

theorem Acceptable.names_items (h : Acceptable d.items) :
    ∀ i ∈ d.items, ∀ n ∈ i.names, n.text ∉ keywords := by
  intro i hi
  cases i with
  | cls t =>
    exact (h.classes t (Item.mem_classes_iff.2 hi)).names
  | entry q line => exact (h.entry q line (d.lastEntry_of_mem_items hi)).1

/-- The items that are written of a draft have a rendering if those that were read have one. -/
theorem Describes.spellable_items (hd : Describes (Item.classes items) d) (henters : Enters items d)
    (h : ∀ i ∈ items, Spellable i.renderings) : ∀ i ∈ d.items, Spellable i.renderings := by
  intro i hi
  cases i with
  | cls t =>
    obtain ⟨t₀, ht₀, rfl⟩ := hd.mem_classes_items.1 (Item.mem_classes_iff.2 hi)
    exact ClassTree.spellable_tree (h _ (Item.mem_classes_iff.1 ht₀))
  | entry q line =>
    obtain ⟨q₀, line₀, hq₀, rfl⟩ := henters.exists_entry hd.regular (d.lastEntry_of_mem_items hi)
    have hspell : Spellable (Item.entry q₀ line₀).renderings := h _ (Item.mem_of_lastEntry hq₀)
    exact hspell

end Items

theorem mem_renderings_of_parseItems {ls : List Lexeme} {items : List Item}
    (h : parseItems ls = .ok items) : ls.map Lexeme.token ∈ renderings items := by
  obtain ⟨used, hls, hused⟩ := Format.sound_program (Grammar.parse_eq_ok_iff.1 h)
  rwa [hls, List.append_nil]

/-- Items that a text renders can be written. -/
theorem spellable_of_mem_renderings {text : String} {ls : List Lexeme} {items : List Item}
    (hlex : lex text = .ok ls) (h : ls.map Lexeme.token ∈ renderings items) :
    ∀ i ∈ items, Spellable i.renderings := by
  have hwellFormed : ∀ t ∈ ls.map Lexeme.token, t.WellFormed = true :=
    List.forall_mem_map.2 (wellFormed_of_lexFrom hlex)
  have hall : Spellable (renderings items) := ⟨_, h, hwellFormed⟩
  rwa [renderings, spellable_prod, List.forall_mem_map] at hall

theorem spellable_of_parseItems {text : String} {ls : List Lexeme} {items : List Item}
    (hlex : lex text = .ok ls) (h : parseItems ls = .ok items) :
    ∀ i ∈ items, Spellable i.renderings :=
  spellable_of_mem_renderings hlex (mem_renderings_of_parseItems h)

/-- Items that can be written are read again, lines apart. -/
theorem exists_parseItems_spell {items : List Item}
    (hnames : ∀ i ∈ items, ∀ n ∈ i.names, n.text ∉ keywords)
    (h : ∀ i ∈ items, Spellable i.renderings) :
    ∃ ls items', lex (spell (items.flatMap Item.tokens)) = .ok ls ∧ parseItems ls = .ok items' ∧
      items'.map Item.bare = items.map Item.bare := by
  have hspells := spells_items h
  obtain ⟨ls, hlex, htokens⟩ := lex_spell hspells.wellFormed
  obtain ⟨items', hread, hbare⟩ := Format.reads_program items hnames (htokens ▸ hspells.mem) rfl
  rw [List.append_nil] at hread
  exact ⟨ls, items', hlex, Grammar.parse_eq_ok_iff.2 hread, hbare⟩

end Text

/-- A program that was read from a text can be written by names, as a text that is accepted and
gives the same program up to a renumbering. -/
theorem Program.ofText_render {text : String} {p : Program} (h : Program.ofText text = .ok p) :
    ∃ p', Program.ofText p.toDraft.render = .ok p' ∧ p.toDraft.Isomorphic p'.toDraft := by
  obtain ⟨ls, items, d, hlex, hparse, hdraft, hseal⟩ := ofText_eq_ok_iff.1 h
  rw [(Draft.seal_spec hseal).1]
  obtain ⟨hd, henters⟩ := describes_of_draftOf hdraft
  have hacceptable : Acceptable d.items :=
    hd.acceptable_items henters (exists_draftOf_iff.1 ⟨d, hdraft⟩)
  have hspellable := hd.spellable_items henters (spellable_of_parseItems hlex hparse)
  obtain ⟨ls', items', hlex', hparse', hbare⟩ :=
    exists_parseItems_spell hacceptable.names_items hspellable
  obtain ⟨d', hdraft'⟩ := exists_draftOf_iff.2 ((acceptable_iff_of_bare_eq hbare).2 hacceptable)
  obtain ⟨p', hseal'⟩ := (describes_of_draftOf hdraft').1.regular.inRange.exists_seal
  refine ⟨p', ofText_eq_ok_iff.2 ⟨ls', items', d', hlex', hparse', hdraft', hseal'⟩, ?_⟩
  rw [(Draft.seal_spec hseal').1]
  refine isomorphic_of_draftOf hdraft hdraft' (fun name => ?_) ?_
  · rw [outlineIn_eq_of_bare_eq hbare, ← hd.items.outline?_eq, hd.outline?_eq]
  · rw [target?_eq_of_bare_eq hbare, henters.target?_items hd.regular]

/-- A class before the interface that it implements, with a method before a field. -/
def sampleDeclarations : String :=
  "class A implements I { method m(p) { x = 5; return p; } field f; } " ++
    "interface I { abstract method k(); } entry A::m;"

/-- The program of `sampleDeclarations`, written by names. -/
def sampleWritten : String :=
  "interface I { method k ( ) ; } " ++
    "class A implements I { field f ; method m ( p ) { x = null ; return p ; } } entry A :: m ; "

theorem Program.sample_ofText_render :
    ∃ p p', Program.ofText sampleDeclarations = .ok p ∧ p.toDraft.render = sampleWritten ∧
      Program.ofText sampleWritten = .ok p' ∧ p.toDraft.Isomorphic p'.toDraft := by
  obtain ⟨p, htext, hrender⟩ : ∃ p, Program.ofText sampleDeclarations = .ok p ∧
      p.toDraft.render = sampleWritten :=
    Program.exists_ofText (by decide +kernel)
  obtain ⟨p', hread, hiso⟩ := Program.ofText_render htext
  rw [hrender] at hread
  exact ⟨p, p', htext, hrender, hread, hiso⟩

end PointsTo
