import Mathlib.Data.List.Forall2
import Deduction.Proofs.Templates
import Deduction.Rule.Encoding

/-!
# What the fields of a rule are read as

A rule that is authored with a single template where a list of templates belongs is refused. A
rule that is read from an object has its fields decoded first, and decoding takes the members of
whatever stands in a field. The result is always a list, so the refusal of a single template is
out of reach: a text is read as its characters, and an object, such as an encoded compound, as the
names of its fields. This module says which objects are rules, and which rules they are.

## Main definitions

* `Json.names?`: the members of a text or an object.
* `Rule.ReadsAs`: the templates that the value of a field is read as.
* `Rule.FieldHolds`: what a field that may be left out is read as.

## Main results

* `Rule.readsAs_iff`: the two steps of reading a field, decoding and normalising.
* `Rule.ofJson_eq_ok_iff`: the objects that are rules.
* `Rule.ofJson_setField_names`: a text or an object in a field is as good as the array of its
  members.
* `Rule.ofJson_bare_read_as_members`: a field of a rule held an array unless it held a text or an
  object, which is not refused as such.
-/

namespace Deduction

/-- The texts that are the members of a value other than an array: the characters of a text, the
names of the fields of an object. Nothing else has members. -/
def Json.names? : Json → Option (List String)
  | .string s => some (s.toList.map String.singleton)
  | .object fields => some (fields.map Prod.fst)
  | _ => none

namespace Term

/-! ### Decoding and normalising -/

/-- The term is the JSON form, decoded and normalised. -/
def IsReadFrom (j : Json) (t : Term) : Prop := ∃ u, decode j = .ok u ∧ normalize u = .ok t

theorem normalizeAll_nil_eq_ok_iff {us : List Term} : normalizeAll [] = .ok us ↔ us = [] := by
  rw [normalizeAll, Except.ok.injEq, eq_comm]

/-- Decoding and normalising a list are done item by item. -/
theorem forall₂_isReadFrom_iff {items : List Json} {ts : List Term} :
    List.Forall₂ IsReadFrom items ts ↔
      ∃ us, decodeAll items = .ok us ∧ normalizeAll us = .ok ts := by
  induction items generalizing ts with
  | nil => simp [decodeAll, normalizeAll_nil_eq_ok_iff]
  | cons j js ih =>
      rw [List.forall₂_cons_left_iff]
      constructor
      · rintro ⟨t, ts', ⟨u, hu, ht⟩, hrest, rfl⟩
        obtain ⟨us, hus, hts⟩ := ih.mp hrest
        refine ⟨u :: us, ?_, normalizeAll_cons_eq_ok_iff.mpr ⟨t, ts', ht, hts, rfl⟩⟩
        rw [decodeAll, hu, hus]
        rfl
      · rintro ⟨us, hus, hts⟩
        rw [decodeAll] at hus
        simp only [bind_eq_ok_iff] at hus
        obtain ⟨u, hu, us', hus', heq⟩ := hus
        obtain rfl := Except.ok.inj heq
        obtain ⟨t, ts', ht, hts', rfl⟩ := normalizeAll_cons_eq_ok_iff.mp hts
        exact ⟨t, ts', ⟨u, hu, ht⟩, ih.mpr ⟨us', hus', hts'⟩, rfl⟩

/-- An atom is a template unless its name is empty. -/
theorem normalize_atom_eq_ok_iff {s : String} {u : Term} :
    normalize (.atom s) = .ok u ↔ s ≠ "" ∧ u = .atom s := by
  rw [normalize]
  split_ifs with hs
  · simp [String.isEmpty_iff.mp hs]
  · rw [String.isEmpty_iff] at hs
    simp [hs, eq_comm]

/-- Names are templates unless one of them is empty. -/
theorem normalizeAll_atoms_eq_ok_iff {names : List String} {ts : List Term} :
    normalizeAll (names.map .atom) = .ok ts ↔ (∀ s ∈ names, s ≠ "") ∧ ts = names.map .atom := by
  induction names generalizing ts with
  | nil => simp [normalizeAll_nil_eq_ok_iff]
  | cons s names ih =>
      rw [List.map_cons, normalizeAll_cons_eq_ok_iff, List.forall_mem_cons]
      constructor
      · rintro ⟨u, us, hu, hus, rfl⟩
        obtain ⟨hs, rfl⟩ := normalize_atom_eq_ok_iff.mp hu
        obtain ⟨hnames, rfl⟩ := ih.mp hus
        exact ⟨⟨hs, hnames⟩, rfl⟩
      · rintro ⟨⟨hs, hnames⟩, rfl⟩
        exact ⟨_, _, normalize_atom_eq_ok_iff.mpr ⟨hs, rfl⟩, ih.mpr ⟨hnames, rfl⟩, rfl⟩

/-- The members of a text or an object are decoded as atoms. -/
theorem decodeMembers_of_names? {value : Json} {names : List String}
    (h : value.names? = some names) : decodeMembers value = .ok (names.map .atom) := by
  cases value <;> simp only [Json.names?, reduceCtorEq, Option.some.injEq] at h
  all_goals
    subst h
    rw [decodeMembers, List.map_map]
    rfl

/-- An array of texts is decoded as the same atoms. -/
theorem decodeMembers_texts (names : List String) :
    decodeMembers (.array (names.map .string)) = .ok (names.map .atom) := by
  rw [decodeMembers]
  induction names with
  | nil => rfl
  | cons s names ih =>
      rw [List.map_cons, decodeAll, ih]
      rfl

end Term

namespace Rule

/-! ### One field -/

/-- The templates that the value of a field is read as: one for every item of an array, and one
for every character of a text or name of an object. -/
inductive ReadsAs : Json → List Term → Prop
  | items {items : List Json} {ts : List Term} (h : List.Forall₂ Term.IsReadFrom items ts) :
    ReadsAs (.array items) ts
  | names {value : Json} {names : List String} (hvalue : value.names? = some names)
    (hnames : ∀ s ∈ names, s ≠ "") : ReadsAs value (names.map .atom)

/-- A field is read in two steps. -/
theorem readsAs_iff {value : Json} {ts : List Term} :
    ReadsAs value ts ↔
      ∃ us, Term.decodeMembers value = .ok us ∧ Term.normalizeAll us = .ok ts := by
  constructor
  · rintro (h | ⟨hvalue, hnames⟩)
    · exact Term.forall₂_isReadFrom_iff.mp h
    · exact ⟨_, Term.decodeMembers_of_names? hvalue,
        Term.normalizeAll_atoms_eq_ok_iff.mpr ⟨hnames, rfl⟩⟩
  · rintro ⟨us, hus, hts⟩
    cases hvalue : value.names? with
    | some names =>
        obtain rfl := Except.ok.inj ((Term.decodeMembers_of_names? hvalue).symm.trans hus)
        obtain ⟨hnames, rfl⟩ := Term.normalizeAll_atoms_eq_ok_iff.mp hts
        exact .names hvalue hnames
    | none =>
        cases value with
        | array items => exact .items (Term.forall₂_isReadFrom_iff.mpr ⟨us, hus, hts⟩)
        | string | object => simp [Json.names?] at hvalue
        | _ => simp [Term.decodeMembers] at hus

/-- The templates of a field, if the rule has the field. -/
def held (r : Rule) : Field → Option (List Term)
  | .given => some r.given
  | .extra => some r.extra
  | .conclusion => some r.conclusion
  | .prereq => r.prereq

/-- Is the field left out? For side conditions `null` is as good as nothing. -/
def IsLeftOut (fields : List (String × Json)) (field : Field) : Prop :=
  Json.fieldOf? field.name fields = none ∨
    field = .prereq ∧ Json.fieldOf? field.name fields = some .null

/-- What a rule has for a field that is left out. -/
def whenLeftOut : Field → Option (List Term)
  | .prereq => none
  | _ => some []

/-- What is read from a field: nothing if it is left out, and else the templates of its value. -/
def FieldHolds (fields : List (String × Json)) (field : Field) (templates : Option (List Term)) :
    Prop :=
  IsLeftOut fields field ∧ templates = whenLeftOut field ∨
    ∃ value ts, Json.fieldOf? field.name fields = some value ∧ ReadsAs value ts ∧
      templates = some ts

/-- A field other than that of the side conditions is decoded and normalised. -/
theorem fieldHolds_some_iff {fields : List (String × Json)} {field : Field}
    (hfield : field ≠ .prereq) {ts : List Term} :
    FieldHolds fields field (some ts) ↔
      ∃ us, decodedField fields field = .ok us ∧ Term.normalizeAll us = .ok ts := by
  have hempty : whenLeftOut field = some [] := by cases field <;> simp_all [whenLeftOut]
  unfold FieldHolds IsLeftOut decodedField
  cases hvalue : Json.fieldOf? field.name fields with
  | none => simp [hempty, Term.normalizeAll_nil_eq_ok_iff]
  | some value => simp [hfield, readsAs_iff]

/-- Side conditions, before and after normalisation. -/
def NormalizeTo : Option (List Term) → Option (List Term) → Prop
  | none, templates => templates = none
  | some us, templates => ∃ ts, Term.normalizeAll us = .ok ts ∧ templates = some ts

/-- Decoded side conditions are left out, or they are the members of a value. -/
theorem decodedPrereq_eq_ok_iff {fields : List (String × Json)} {conditions : Option (List Term)} :
    decodedPrereq fields = .ok conditions ↔
      IsLeftOut fields .prereq ∧ conditions = none ∨
        ∃ value us, Json.fieldOf? Field.prereq.name fields = some value ∧
          Term.decodeMembers value = .ok us ∧ conditions = some us := by
  unfold decodedPrereq IsLeftOut
  split
  next hvalue => simp [hvalue, eq_comm]
  next hvalue => simp [hvalue, Term.decodeMembers, eq_comm]
  next value hnull hvalue =>
    rw [bind_eq_ok_iff]
    constructor
    · rintro ⟨us, hus, heq⟩
      exact .inr ⟨value, us, hvalue, hus, (Except.ok.inj heq).symm⟩
    · rintro (⟨hout, -⟩ | ⟨_, us, hvalue', hus, rfl⟩)
      · exact absurd hout (by simpa [hvalue] using hnull)
      · obtain rfl := Option.some.inj (hvalue.symm.trans hvalue')
        exact ⟨us, hus, rfl⟩

/-- The field of the side conditions is decoded and normalised, too. -/
theorem fieldHolds_prereq_iff {fields : List (String × Json)} {templates : Option (List Term)} :
    FieldHolds fields .prereq templates ↔
      ∃ conditions, decodedPrereq fields = .ok conditions ∧ NormalizeTo conditions templates := by
  simp only [decodedPrereq_eq_ok_iff, FieldHolds, readsAs_iff, whenLeftOut]
  constructor
  · rintro (⟨hout, rfl⟩ | ⟨value, ts, hvalue, ⟨us, hus, hts⟩, rfl⟩)
    · exact ⟨none, .inl ⟨hout, rfl⟩, rfl⟩
    · exact ⟨some us, .inr ⟨value, us, hvalue, hus, rfl⟩, ts, hts, rfl⟩
  · rintro ⟨_, ⟨hout, rfl⟩ | ⟨value, us, hvalue, hus, rfl⟩, htemplates⟩
    · exact .inl ⟨hout, htemplates⟩
    · obtain ⟨ts, hts, rfl⟩ := htemplates
      exact .inr ⟨value, ts, hvalue, ⟨us, hus, hts⟩, rfl⟩

/-! ### Whole rules -/

/-- A rule authored with lists in its fields. -/
theorem author_lists_eq_ok_iff {id : Term} {given extra conclusion : List Term}
    {prereq : Option (List Term)} {r : Rule} :
    author id (.list given) (.list extra) (.list conclusion) (prereq.map .list) = .ok r ↔
      (id = .atom r.id ∧ r.id ≠ "") ∧ Term.normalizeAll given = .ok r.given ∧
        Term.normalizeAll extra = .ok r.extra ∧ Term.normalizeAll conclusion = .ok r.conclusion ∧
        NormalizeTo prereq r.prereq := by
  have hprereq : (prereq.map Term.list = none ∧ r.prereq = none ∨
      ∃ value ts, prereq.map Term.list = some value ∧
        templates r.id .prereq value = .ok ts ∧ r.prereq = some ts) ↔
      NormalizeTo prereq r.prereq := by
    cases prereq <;> simp [NormalizeTo, templates_list_eq_ok_iff]
  simp only [author_eq_ok_iff, templates_list_eq_ok_iff, hprereq, String.isEmpty_eq_false_iff]

/-- An atom is read from a text only. -/
theorem ofJson_eq_atom_iff {j : Json} {s : String} : Term.ofJson j = .atom s ↔ j = .string s := by
  cases j <;> simp [Term.ofJson]

/-- **The objects that are rules.** They have a name, and every field is left out or read. -/
theorem ofJson_eq_ok_iff {fields : List (String × Json)} {r : Rule} :
    ofJson (.object fields) = .ok r ↔
      (Json.fieldOf? "id" fields = some (.string r.id) ∧ r.id ≠ "") ∧
        ∀ field, FieldHolds fields field (r.held field) := by
  have hall : (∀ field, FieldHolds fields field (r.held field)) ↔
      FieldHolds fields .given (some r.given) ∧ FieldHolds fields .extra (some r.extra) ∧
        FieldHolds fields .conclusion (some r.conclusion) ∧
        FieldHolds fields .prereq r.prereq :=
    ⟨fun h => ⟨h .given, h .extra, h .conclusion, h .prereq⟩,
      fun ⟨hg, he, hc, hp⟩ field => by cases field <;> assumption⟩
  rw [hall, fieldHolds_some_iff (by decide), fieldHolds_some_iff (by decide),
    fieldHolds_some_iff (by decide), fieldHolds_prereq_iff, ofJson]
  cases hid : Json.fieldOf? "id" fields with
  | none => simp
  | some id =>
      simp only [bind_eq_ok_iff, author_lists_eq_ok_iff, ofJson_eq_atom_iff, Option.some.injEq]
      constructor
      · rintro ⟨gs, hgs, es, hes, cs, hcs, ps, hps, hid, hg, he, hc, hp⟩
        exact ⟨hid, ⟨gs, hgs, hg⟩, ⟨es, hes, he⟩, ⟨cs, hcs, hc⟩, ps, hps, hp⟩
      · rintro ⟨hid, ⟨gs, hgs, hg⟩, ⟨es, hes, he⟩, ⟨cs, hcs, hc⟩, ps, hps, hp⟩
        exact ⟨gs, hgs, es, hes, cs, hcs, ps, hps, hid, hg, he, hc, hp⟩

/-! ### Texts and objects in place of lists -/

theorem decodedField_setField_self (fields : List (String × Json)) (field : Field) (value : Json) :
    decodedField (Json.setField field.name value fields) field = Term.decodeMembers value := by
  rw [decodedField, Json.fieldOf?_setField_self]

/-- Setting a field leaves the others alone. -/
theorem fieldOf?_setField_of_field_ne {field other : Field} (h : other ≠ field) (value : Json)
    (fields : List (String × Json)) :
    Json.fieldOf? other.name (Json.setField field.name value fields) =
      Json.fieldOf? other.name fields := by
  refine Json.fieldOf?_setField_of_ne ?_ value fields
  revert h
  cases field <;> cases other <;> decide

theorem decodedPrereq_setField_self (fields : List (String × Json)) {value : Json}
    (h : value ≠ .null) :
    decodedPrereq (Json.setField Field.prereq.name value fields) =
      (do return some (← Term.decodeMembers value)) := by
  rw [decodedPrereq, Json.fieldOf?_setField_self]
  cases value with
  | null => exact absurd rfl h
  | _ => rfl

/-- Two values with the same decoded members can stand for each other. -/
theorem ofJson_setField_congr {value value' : Json} (hne : value ≠ .null) (hne' : value' ≠ .null)
    (h : Term.decodeMembers value = Term.decodeMembers value') (fields : List (String × Json))
    (field : Field) :
    ofJson (.object (Json.setField field.name value fields)) =
      ofJson (.object (Json.setField field.name value' fields)) := by
  have hid (j : Json) : Json.fieldOf? "id" (Json.setField field.name j fields) =
      Json.fieldOf? "id" fields :=
    Json.fieldOf?_setField_of_ne (by cases field <;> decide) j fields
  have hfield (other : Field) : decodedField (Json.setField field.name value fields) other =
      decodedField (Json.setField field.name value' fields) other := by
    by_cases hother : other = field
    · rw [hother, decodedField_setField_self, decodedField_setField_self, h]
    · simp only [decodedField, fieldOf?_setField_of_field_ne hother]
  have hprereq : decodedPrereq (Json.setField field.name value fields) =
      decodedPrereq (Json.setField field.name value' fields) := by
    by_cases hother : Field.prereq = field
    · subst hother
      rw [decodedPrereq_setField_self fields hne, decodedPrereq_setField_self fields hne', h]
    · simp only [decodedPrereq, fieldOf?_setField_of_field_ne hother]
  simp only [ofJson, hid, hfield, hprereq]

/-- A text or an object in a field is as good as the array of its members. -/
theorem ofJson_setField_names {value : Json} {names : List String}
    (h : value.names? = some names) (fields : List (String × Json)) (field : Field) :
    ofJson (.object (Json.setField field.name value fields)) =
      ofJson (.object (Json.setField field.name (.array (names.map .string)) fields)) := by
  refine ofJson_setField_congr ?_ (by simp) ?_ fields field
  · rintro rfl
    simp [Json.names?] at h
  · rw [Term.decodeMembers_of_names? h, Term.decodeMembers_texts]

/-- A value that is read as templates is an array unless it is a text or an object. -/
theorem ReadsAs.isArray_iff {value : Json} {ts : List Term} (h : ReadsAs value ts) :
    (∃ items, value = .array items ∧ List.Forall₂ Term.IsReadFrom items ts) ↔
      value.names? = none := by
  cases h with
  | @items items _ h => exact ⟨fun _ => rfl, fun _ => ⟨items, rfl, h⟩⟩
  | names hvalue =>
      rw [hvalue]
      refine ⟨?_, fun h => absurd h (by simp)⟩
      rintro ⟨items, rfl, -⟩
      simp [Json.names?] at hvalue

/-- What a field holds, if it is not left out, is read from its value. -/
theorem FieldHolds.readsAs {fields : List (String × Json)} {field : Field}
    {templates : Option (List Term)} (h : FieldHolds fields field templates) {value : Json}
    (hvalue : Json.fieldOf? field.name fields = some value) (hin : ¬ IsLeftOut fields field) :
    ∃ ts, templates = some ts ∧ ReadsAs value ts := by
  obtain ⟨hout, -⟩ | ⟨value', ts, hvalue', hts, rfl⟩ := h
  · exact absurd hout hin
  · obtain rfl := Option.some.inj (hvalue.symm.trans hvalue')
    exact ⟨ts, rfl, hts⟩

/-- An authored rule has no single template in place of a list. -/
theorem isSingleTemplate_of_author {id given extra conclusion : Term} {prereq : Option Term}
    {r : Rule} (h : author id given extra conclusion prereq = .ok r) :
    ∀ value ∈ given :: extra :: conclusion :: prereq.toList, isSingleTemplate value = false := by
  obtain ⟨-, hgiven, hextra, hconclusion, hprereq⟩ := author_eq_ok_iff.mp h
  simp only [List.forall_mem_cons]
  refine ⟨(templates_eq_ok_iff.mp hgiven).1, (templates_eq_ok_iff.mp hextra).1,
    (templates_eq_ok_iff.mp hconclusion).1, ?_⟩
  rcases hprereq with ⟨rfl, -⟩ | ⟨value, ts, rfl, hts, -⟩
  · simp
  · simpa using (templates_eq_ok_iff.mp hts).1

/-- **Single templates in the fields of an object.** An authored rule has a list in every field,
and single templates are refused. An object is a rule exactly if it has a name and all its fields
are left out or read. A field that is not left out held an array, with one template read from every
item, in order, unless it held a text or an object; and a text or an object in any field of any
object is read, or refused, just as the array of its characters or of its names. -/
theorem ofJson_bare_read_as_members (fields : List (String × Json)) :
    (∀ id given extra conclusion prereq r, author id given extra conclusion prereq = .ok r →
      ∀ value ∈ given :: extra :: conclusion :: prereq.toList, isSingleTemplate value = false) ∧
    (∀ r, ofJson (.object fields) = .ok r ↔
      (Json.fieldOf? "id" fields = some (.string r.id) ∧ r.id ≠ "") ∧
        ∀ field, FieldHolds fields field (r.held field)) ∧
    (∀ (r : Rule) (field : Field) (value : Json), ofJson (.object fields) = .ok r →
      Json.fieldOf? field.name fields = some value → ¬ IsLeftOut fields field →
      ∃ ts, r.held field = some ts ∧
        ((∃ items, value = .array items ∧ List.Forall₂ Term.IsReadFrom items ts) ↔
          value.names? = none)) ∧
    ∀ (field : Field) (value : Json) (names : List String), value.names? = some names →
      ofJson (.object (Json.setField field.name value fields)) =
        ofJson (.object (Json.setField field.name (.array (names.map .string)) fields)) := by
  refine ⟨fun _ _ _ _ _ _ => isSingleTemplate_of_author, fun _ => ofJson_eq_ok_iff, ?_,
    fun field _ _ hvalue => ofJson_setField_names hvalue fields field⟩
  intro r field value hr hvalue hin
  obtain ⟨ts, hts, hread⟩ := ((ofJson_eq_ok_iff.mp hr).2 field).readsAs hvalue hin
  exact ⟨ts, hts, hread.isArray_iff⟩

/-- A text as the givens is read as its characters, as an array of them would be. -/
theorem ofJson_bare_read_as_members_text :
    ofJson (.object [("id", .string "r"), ("given", .string "AB"),
        ("conclusion", .array [.string "A"])]) =
      ofJson (.object [("id", .string "r"), ("given", .array [.string "A", .string "B"]),
        ("conclusion", .array [.string "A"])]) :=
  (ofJson_bare_read_as_members [("id", .string "r"), ("given", .null),
    ("conclusion", .array [.string "A"])]).2.2.2 .given (.string "AB") ["A", "B"] rfl

/-- A single atom or compound as the givens is refused of an author, and gives other rules when it
is read: one with the letters of the atom, and one with the name of the field that marks a
compound. -/
theorem single_template_read :
    let conclusion := ("conclusion", Json.array [.string "A"])
    let compound := Json.object [("_fn", .array [.string "and", .string "A", .string "B"])]
    let authored (given : Term) :=
      author (.atom "r") given (.list []) (.list [.atom "A"]) none
    authored (.atom "AB") = .error (.malformed (.bareTemplate "r" .given (.atom "AB"))) ∧
    ofJson (.object [("id", .string "r"), ("given", .string "AB"), conclusion]) =
      .ok (plain "r" [.atom "A", .atom "B"] [.atom "A"]) ∧
    Term.decode compound = .ok (.ofName "and" [.atom "A", .atom "B"]) ∧
    authored (.ofName "and" [.atom "A", .atom "B"]) =
      .error (.malformed (.bareTemplate "r" .given (.ofName "and" [.atom "A", .atom "B"]))) ∧
    ofJson (.object [("id", .string "r"), ("given", compound), conclusion]) =
      .ok (plain "r" [.atom "_fn"] [.atom "A"]) :=
  ⟨rfl, rfl, rfl, rfl, rfl⟩

end Rule

end Deduction
