import PointsTo.Proofs.Consistency
import PointsTo.Proofs.DeclarationOrder

/-!
# Which names are checked

A text is read with every keyword taken for a name, and names are checked when its items are
entered. All names of classes are checked then, and so is the last entry, which must name exactly
one method (`checked_effective`). An entry that a later one replaces is not looked at: it may
consist of keywords, or name a method that does not exist (`Program.replaced_entry_unchecked`).
Otherwise nothing is left out, so that all of an accepted text is `Checked` exactly if the replaced
entries are (`Program.names_checked_of_ofText`).
-/

namespace PointsTo

open Text

namespace Draft

variable {d : Draft} {className name : String} {m : MethodId}

/-- A method of a name, in a class of a name. -/
def Declares (d : Draft) (className name : String) (m : MethodId) : Prop :=
  ∃ y x, d.method m = .ok y ∧ y.name = name ∧ d.cls y.cls = .ok x ∧ x.name = className

theorem Built.mem_findMethods_iff (h : d.Built) :
    m ∈ d.findMethods className name ↔ d.Declares className name m := by
  constructor
  · intro hm
    obtain ⟨c, x, hx, hclass, hm⟩ := exists_cls_of_mem_findMethods hm
    obtain ⟨p, hp, rfl⟩ := List.mem_map.1 hm
    rw [List.mem_filter, decide_eq_true_eq] at hp
    obtain ⟨y, hy, rfl, hsig⟩ := h.owned.methods c x hx p hp.1
    exact ⟨y, x, hy, (congrArg Subsig.name hsig).trans hp.2, hx, hclass⟩
  · rintro ⟨y, x, hy, rfl, hx, rfl⟩
    obtain ⟨x', hx', hmem⟩ := h.listed.methods m y hy
    cases hx.symm.trans hx'
    rw [findMethods_of_cls hx]
    exact List.mem_map.2 ⟨_, List.mem_filter.2 ⟨hmem, decide_eq_true rfl⟩, rfl⟩

theorem Built.nodup_findMethods (h : d.Built) (className name : String) :
    (d.findMethods className name).Nodup := by
  cases hfind : d.findClass? className with
  | none =>
    rw [findMethods, hfind]
    exact List.nodup_nil
  | some c =>
    obtain ⟨x, hx, rfl⟩ := findClass?_eq_some_iff.1 hfind
    rw [findMethods_of_cls hx]
    have hids : (x.methods.map Prod.snd).Nodup := Id.nodup_of_ascending (h.ascending.methods c x hx)
    exact hids.sublist (List.filter_sublist.map _)

/-- A single method is found exactly if there is a single one. -/
theorem Built.findMethods_eq_singleton_iff (h : d.Built) :
    d.findMethods className name = [m] ↔
      d.Declares className name m ∧ ∀ m', d.Declares className name m' → m' = m := by
  simp only [← h.mem_findMethods_iff]
  constructor
  · intro hm
    rw [hm]
    exact ⟨List.mem_singleton_self m, fun m' hm' => List.mem_singleton.1 hm'⟩
  · rintro ⟨hm, hunique⟩
    exact List.perm_singleton.1
      ((List.perm_ext_iff_of_nodup (h.nodup_findMethods _ _) (List.nodup_singleton m)).2
      fun m' => ⟨fun hm' => List.mem_singleton.2 (hunique m' hm'),
        fun hm' => List.mem_singleton.1 hm' ▸ hm⟩)

/-- An entry without keywords that names exactly one method. -/
def Admits (d : Draft) (q : Qualified) : Prop :=
  (∀ n ∈ q.names, n.text ∉ keywords) ∧ ∃! m, d.Declares q.cls.text q.name.text m

end Draft

namespace Text

/-- No name of some items is a keyword, no method of theirs that is called abstract has a body, and
each entry among them names exactly one method. -/
structure Checked (items : List Item) (d : Draft) : Prop where
  names : ∀ i ∈ items, ∀ n ∈ i.names, n.text ∉ keywords
  bodies : ∀ t, .cls t ∈ items → ∀ x ∈ t.members, .abstract ∈ x.modifiers →
    ∀ params body, x.kind = .method params body → body = none
  entries : ∀ q line, .entry q line ∈ items → ∃! m, d.Declares q.cls.text q.name.text m

/-- The classes among some items, and the entry that is not replaced. -/
def Item.effective (items : List Item) : List Item :=
  (Item.classes items).map .cls ++ (Item.lastEntry items).toList.map fun e => .entry e.1 e.2

variable {items : List Item} {d : Draft}

theorem Item.cls_mem_effective {t : ClassTree} :
    .cls t ∈ Item.effective items ↔ .cls t ∈ items := by
  simp [Item.effective, Item.mem_classes_iff]

theorem Item.entry_mem_effective {q : Qualified} {line : Nat} :
    .entry q line ∈ Item.effective items ↔ Item.lastEntry items = some (q, line) := by
  simp [Item.effective]

theorem Item.mem_entries_iff {q : Qualified} {line : Nat} :
    (q, line) ∈ Item.entries items ↔ .entry q line ∈ items := by
  rw [Item.entries, List.mem_filterMap]
  constructor
  · rintro ⟨_ | ⟨q', line'⟩, hi, heq⟩
    · cases heq
    · cases heq
      exact hi
  · intro h
    exact ⟨_, h, rfl⟩

/-- An entry is replaced or the last one. -/
theorem Item.mem_entries_cases {e : Qualified × Nat} (h : e ∈ Item.entries items) :
    e ∈ (Item.entries items).dropLast ∨ Item.lastEntry items = some e := by
  have hne : Item.entries items ≠ [] := List.ne_nil_of_mem h
  rw [← List.dropLast_append_getLast hne, List.mem_append, List.mem_singleton] at h
  refine h.imp_right fun he => ?_
  rw [Item.lastEntry_eq, List.getLast?_eq_some_getLast hne, he]

theorem Member.Acceptable.body_eq_none {x : Member} (h : x.Acceptable)
    (habstract : .abstract ∈ x.modifiers) {params : List Name} {body : Option (List Command)}
    (hkind : x.kind = .method params body) : body = none := by
  have hbody := h.2
  rw [hkind] at hbody
  exact Option.not_isSome_iff_eq_none.1 fun hsome => hbody.1 ⟨habstract, hsome⟩

/-- Items that are entered are checked, but for the entries that are replaced. -/
theorem checked_effective (h : draftOf items = .ok d) : Checked (Item.effective items) d := by
  obtain ⟨hdescribes, henters⟩ := describes_of_draftOf h
  have hacceptable : Acceptable items := exists_draftOf_iff.1 ⟨d, h⟩
  refine ⟨fun i hi => ?_, fun t ht x hx habstract params body hkind => ?_, fun q line hq => ?_⟩
  · cases i with
    | cls t =>
      exact (hacceptable.classes t (Item.mem_classes_iff.2 (Item.cls_mem_effective.1 hi))).names
    | entry q line => exact (hacceptable.entry q line (Item.entry_mem_effective.1 hi)).1
  · have hclass := hacceptable.classes t (Item.mem_classes_iff.2 (Item.cls_mem_effective.1 ht))
    exact (hclass.members x hx).body_eq_none habstract hkind
  · rw [Item.entry_mem_effective] at hq
    rw [Enters, hq] at henters
    obtain ⟨m, hm, -⟩ := henters
    exact ⟨m, hdescribes.regular.built.findMethods_eq_singleton_iff.1 hm⟩

/-- All of the items are checked exactly if the entries that are replaced would pass. -/
theorem checked_iff (h : Checked (Item.effective items) d) :
    Checked items d ↔ ∀ e ∈ (Item.entries items).dropLast, d.Admits e.1 := by
  constructor
  · rintro hchecked ⟨q, line⟩ he
    have hmem : .entry q line ∈ items := Item.mem_entries_iff.1 (List.mem_of_mem_dropLast he)
    exact ⟨hchecked.names _ hmem, hchecked.entries q line hmem⟩
  · intro hreplaced
    have hentries : ∀ q line, .entry q line ∈ items → d.Admits q := by
      intro q line hmem
      obtain hdropped | hlast := Item.mem_entries_cases (Item.mem_entries_iff.2 hmem)
      · exact hreplaced _ hdropped
      · have hmem' := Item.entry_mem_effective.2 hlast
        exact ⟨h.names _ hmem', h.entries q line hmem'⟩
    refine ⟨fun i hi => ?_, fun t ht => h.bodies t (Item.cls_mem_effective.2 ht),
      fun q line hq => (hentries q line hq).2⟩
    cases i with
    | cls t => exact h.names _ (Item.cls_mem_effective.2 hi)
    | entry q line => exact (hentries q line hi).1

end Text

/-- The names of an accepted text are checked, and its last entry is the one that the program has.
Only an entry that is replaced by a later one may fail the check. -/
theorem Program.names_checked_of_ofText {text : String} {p : Program}
    (h : Program.ofText text = .ok p) :
    ∃ ls items, lex text = .ok ls ∧ parseItems ls = .ok items ∧
      Checked (Item.effective items) p.toDraft ∧
      (∀ q line, Item.lastEntry items = some (q, line) →
        ∃ m, p.entry = some m ∧ p.toDraft.Declares q.cls.text q.name.text m) ∧
      (Checked items p.toDraft ↔ ∀ e ∈ (Item.entries items).dropLast, p.toDraft.Admits e.1) := by
  obtain ⟨ls, items, d, hlex, hparse, hdraft, hseal⟩ := ofText_eq_ok_iff.1 h
  obtain ⟨rfl, -, -⟩ := Draft.seal_spec hseal
  have hchecked := checked_effective hdraft
  refine ⟨ls, items, hlex, hparse, hchecked, fun q line hq => ?_, checked_iff hchecked⟩
  obtain ⟨hdescribes, henters⟩ := describes_of_draftOf hdraft
  rw [Enters, hq] at henters
  obtain ⟨m, hm, hentry⟩ := henters
  exact ⟨m, hentry, (hdescribes.regular.built.findMethods_eq_singleton_iff.1 hm).1⟩

/-- The first entry consists of keywords and names nothing, and the second one replaces it. -/
def sampleReplaced : String :=
  "class A { static method main() { } } entry new::class; entry A::main;"

theorem Program.sample_names_checked :
    ∃ p ls items, Program.ofText sampleReplaced = .ok p ∧
    lex sampleReplaced = .ok ls ∧ parseItems ls = .ok items ∧
      Checked (Item.effective items) p.toDraft ∧
    (∀ q line, Item.lastEntry items = some (q, line) →
      ∃ m, p.entry = some m ∧ p.toDraft.Declares q.cls.text q.name.text m) ∧
    (Checked items p.toDraft ↔ ∀ e ∈ (Item.entries items).dropLast, p.toDraft.Admits e.1) := by
  obtain ⟨p, hp, -⟩ : ∃ p, Program.ofText sampleReplaced = .ok p ∧ p.entry = some ⟨0⟩ :=
    Program.exists_ofText (by decide +kernel)
  obtain ⟨ls, items, hchecked⟩ := Program.names_checked_of_ofText hp
  exact ⟨p, ls, items, hp, hchecked⟩

/-- A text is accepted although the names of one of its entries are keywords. -/
theorem Program.replaced_entry_unchecked : ∃ p ls items, Program.ofText sampleReplaced = .ok p ∧
    lex sampleReplaced = .ok ls ∧ parseItems ls = .ok items ∧ ¬ Checked items p.toDraft := by
  obtain ⟨p, hp, -⟩ : ∃ p, Program.ofText sampleReplaced = .ok p ∧ p.entry = some ⟨0⟩ :=
    Program.exists_ofText (by decide +kernel)
  obtain ⟨ls, items, d, hlex, hparse, -⟩ := ofText_eq_ok_iff.1 hp
  refine ⟨p, ls, items, hp, hlex, hparse, fun hchecked => ?_⟩
  have hread : ((lex sampleReplaced).toOption.bind fun ls =>
      (parseItems ls).toOption.map fun items =>
      decide (∀ i ∈ items, ∀ n ∈ i.names, n.text ∉ keywords)) = some false := by decide +kernel
  rw [hlex] at hread
  simp only [Except.toOption, Option.bind_some, hparse, Option.map_some, Option.some.injEq,
    decide_eq_false_iff_not] at hread
  exact hread hchecked.names

end PointsTo
