import Deduction.Catalogue.Store
import Deduction.Proofs.JsonText
import Deduction.Proofs.Templates

/-!
# Rules are read back from their text

The JSON form of a rule is made by one recursion over its templates and read by another, which
accepts much more than the first one writes and then authors the rule anew. On rules without logic
variables the second undoes the first: an atom may have any name, since compounds and groups are
objects and atoms are texts. The same holds of the text of all rules of a catalogue.

## Main definitions

* `Term.Codes`, `Term.CodesAll`: a JSON form of terms that reads back as them.

## Main results

* `Term.exists_codes`: every ground expression has such a form.
* `Rule.ofJson_toJson`: a rule is read back, with or without side conditions.
* `Catalogue.rulesOfText_saveText`: the rules of a catalogue are read back from its text.
-/

namespace Deduction

namespace Term

/-- The value is written for the term and reads back as it. -/
structure Codes (t : Term) (j : Json) : Prop where
  encoded : encodeWith encodeLeaf t = .ok j
  isTree : j.isTree
  decoded : decode j = .ok t

/-- The values are written for the terms and read back as them. -/
structure CodesAll (ts : List Term) (js : List Json) : Prop where
  encoded : encodeAllWith encodeLeaf ts = .ok js
  areTrees : Json.areTrees js
  decoded : decodeAll js = .ok ts

theorem exists_codesAll {ts : List Term} (h : ∀ t ∈ ts, ∃ j, Codes t j) :
    ∃ js, CodesAll ts js := by
  induction ts with
  | nil => exact ⟨[], rfl, rfl, rfl⟩
  | cons t ts ih =>
      obtain ⟨j, hj⟩ := h t (by simp)
      obtain ⟨js, hjs⟩ := ih fun u hu => h u (by simp [hu])
      refine ⟨j :: js, ?_, ?_, ?_⟩
      · rw [encodeAllWith, hj.encoded, hjs.encoded]
        rfl
      · rw [Json.areTrees, hj.isTree, hjs.areTrees]
        rfl
      · rw [decodeAll, hj.decoded, hjs.decoded]
        rfl

/-- A compound is written as an object with one field. -/
theorem CodesAll.app {args : List Term} {js : List Json} (h : CodesAll args js) (name : String) :
    Codes (.app (.atom name) args) (.object [(compoundField, .array (.string name :: js))]) where
  encoded := by
    rw [encodeWith, h.encoded]
    simp only [encodeWith, encodeLeaf]
    rfl
  isTree := by simp [Json.isTree, Json.areTreeFields, Json.areTrees, h.areTrees]
  decoded := by
    have hparts : decodeField compoundField [(compoundField, .array (.string name :: js))] =
        some (.ok (.atom name :: args)) := by
      rw [decodeField, if_pos (by simp), decodeMembers, decodeAll, h.decoded, decode]
      · rfl
      · simp
    rw [decode, hparts]
    rfl

/-- A group is written as an object with another field. -/
theorem CodesAll.group {items : List Term} {js : List Json} (h : CodesAll items js) :
    Codes (.group items) (.object [(groupField, .array js)]) where
  encoded := by
    rw [encodeWith, h.encoded]
    rfl
  isTree := by simp [Json.isTree, Json.areTreeFields, h.areTrees]
  decoded := by
    have hcompound : decodeField compoundField [(groupField, .array js)] = none := by
      rw [decodeField, if_neg (by decide), decodeField]
    have hitems : decodeField groupField [(groupField, .array js)] = some (.ok items) := by
      rw [decodeField, if_pos (by simp), decodeMembers, h.decoded]
    rw [decode, hcompound, hitems]
    rfl

/-- **A ground expression reads back from its JSON form.** -/
theorem exists_codes {t : Term} (ht : t.isExpr) (hground : t.isGround) : ∃ j, Codes t j := by
  rw [isGround_iff] at hground
  induction t using Term.walk with
  | atom s => exact ⟨.string s, rfl, rfl, rfl⟩
  | app op args ih =>
      obtain ⟨⟨name, rfl, -⟩, -, hargs⟩ := isExpr_app_iff.mp ht
      obtain ⟨js, hjs⟩ := exists_codesAll fun a ha =>
        ih a ha (hargs a ha) fun v hv => hground v (mem_vars_app.mpr ⟨a, ha, hv⟩)
      exact ⟨_, hjs.app name⟩
  | group items ih =>
      obtain ⟨js, hjs⟩ := exists_codesAll fun a ha =>
        ih a ha (isExpr_group_iff.mp ht a ha) fun v hv =>
          hground v (mem_vars_group.mpr ⟨a, ha, hv⟩)
      exact ⟨_, hjs.group⟩
  | var v => exact absurd (mem_vars_var.mpr rfl) (hground v)
  | hollow | wildcard | list | datum => simp [isExpr] at ht

end Term

namespace Rule

open Term (CodesAll)

/-- A rule without side conditions has no field for them. -/
theorem toJson_of_codes {r : Rule} {gs es cs : List Json} (hg : CodesAll r.given gs)
    (he : CodesAll r.extra es) (hc : CodesAll r.conclusion cs) (hp : r.prereq = none) :
    r.toJson = .ok (.object [("id", .string r.id), ("given", .array gs), ("extra", .array es),
      ("conclusion", .array cs)]) := by
  rw [toJson, toJsonWith, hg.encoded, he.encoded, hc.encoded, hp]
  rfl

/-- A rule with side conditions has a field for them, even if there are none in the list. -/
theorem toJson_of_codes_prereq {r : Rule} {gs es cs ps : List Json} {ts : List Term}
    (hg : CodesAll r.given gs) (he : CodesAll r.extra es) (hc : CodesAll r.conclusion cs)
    (hp : r.prereq = some ts) (hps : CodesAll ts ps) :
    r.toJson = .ok (.object [("id", .string r.id), ("given", .array gs), ("extra", .array es),
      ("conclusion", .array cs), ("prereq", .array ps)]) := by
  rw [toJson, toJsonWith, hg.encoded, he.encoded, hc.encoded, hp]
  simp only [hps.encoded]
  rfl

/-- A field that holds an array is decoded item by item. -/
theorem decodedField_of_codes {fields : List (String × Json)} {field : Field} {js : List Json}
    {ts : List Term} (hfield : Json.fieldOf? field.name fields = some (.array js))
    (h : CodesAll ts js) : decodedField fields field = .ok ts := by
  rw [decodedField, hfield]
  exact h.decoded

/-- A rule is read from any object that gives its own fields. -/
theorem ofJson_of_fields {r : Rule} (hr : r.Accepted) {fields : List (String × Json)}
    (hid : Json.fieldOf? "id" fields = some (.string r.id))
    (hgiven : decodedField fields .given = .ok r.given)
    (hextra : decodedField fields .extra = .ok r.extra)
    (hconclusion : decodedField fields .conclusion = .ok r.conclusion)
    (hprereq : decodedPrereq fields = .ok r.prereq) : ofJson (.object fields) = .ok r := by
  rw [ofJson, hid]
  simp only [hgiven, hextra, hconclusion, hprereq]
  exact author_eq_self hr.isEmpty_id hr.isExpr

/-- **A rule without logic variables is read back from its JSON form.** -/
theorem ofJson_toJson {r : Rule} (hr : r.Accepted) (hfree : r.IsVarFree) :
    ∃ j, r.toJson = .ok j ∧ j.isTree ∧ ofJson j = .ok r := by
  have hcodes : ∀ ts : List Term, (∀ t ∈ ts, t ∈ r.templatesOf) → ∃ js, CodesAll ts js :=
    fun ts hts => Term.exists_codesAll fun t ht =>
      Term.exists_codes (hr.isExpr t (hts t ht)) (hfree t (hts t ht))
  obtain ⟨gs, hg⟩ := hcodes r.given fun t ht => by simp [templatesOf, inputs, ht]
  obtain ⟨es, he⟩ := hcodes r.extra fun t ht => by simp [templatesOf, inputs, ht]
  obtain ⟨cs, hc⟩ := hcodes r.conclusion fun t ht => by simp [templatesOf, ht]
  cases hp : r.prereq with
  | none =>
      refine ⟨_, toJson_of_codes hg he hc hp, ?_, ?_⟩
      · simp [Json.isTree, Json.areTreeFields, hg.areTrees, he.areTrees, hc.areTrees]
      · exact ofJson_of_fields hr rfl (decodedField_of_codes rfl hg)
          (decodedField_of_codes rfl he) (decodedField_of_codes rfl hc) (hp ▸ rfl)
  | some ts =>
      obtain ⟨ps, hps⟩ := hcodes ts fun t ht => by simp [templatesOf, checks, hp, ht]
      have hprereq : ∀ fields, Json.fieldOf? Field.prereq.name fields = some (.array ps) →
          decodedPrereq fields = .ok (some ts) := by
        intro fields hfield
        rw [decodedPrereq, hfield]
        simp only [Term.decodeMembers, hps.decoded]
        rfl
      refine ⟨_, toJson_of_codes_prereq hg he hc hp hps, ?_, ?_⟩
      · simp [Json.isTree, Json.areTreeFields, hg.areTrees, he.areTrees, hc.areTrees,
          hps.areTrees]
      · exact ofJson_of_fields hr rfl (decodedField_of_codes rfl hg)
          (decodedField_of_codes rfl he) (decodedField_of_codes rfl hc)
          ((hprereq _ rfl).trans (congrArg _ hp.symm))

/-- The same for several rules. -/
theorem ofJsonAll_toJsonAll {rules : List Rule}
    (h : ∀ r ∈ rules, r.Accepted ∧ r.IsVarFree) :
    ∃ js, toJsonAll rules = .ok js ∧ Json.areTrees js ∧ ofJsonAll js = .ok rules := by
  induction rules with
  | nil => exact ⟨[], rfl, rfl, rfl⟩
  | cons r rules ih =>
      obtain ⟨hr, hfree⟩ := h r (by simp)
      obtain ⟨j, hj, htree, hread⟩ := ofJson_toJson hr hfree
      obtain ⟨js, hjs, htrees, hreads⟩ := ih fun s hs => h s (by simp [hs])
      refine ⟨j :: js, ?_, ?_, ?_⟩
      · rw [toJsonAll, hj, hjs]
        rfl
      · rw [Json.areTrees, htree, htrees]
        rfl
      · rw [ofJsonAll, hread, hreads]
        rfl

end Rule

/-- **The rules of a catalogue are read back from its text**, in order. -/
theorem Catalogue.rulesOfText_saveText {c : Catalogue}
    (h : ∀ r ∈ c.rules, r.Accepted ∧ r.IsVarFree) :
    ∃ text, c.saveText = .ok text ∧ rulesOfText text = .ok c.rules := by
  obtain ⟨js, hjs, htrees, hreads⟩ := Rule.ofJsonAll_toJsonAll h
  have htree : (Json.object [(rulesField, .array js)]).isTree := by
    simp [Json.isTree, Json.areTreeFields, htrees]
  refine ⟨(Json.object [(rulesField, .array js)]).pretty, ?_, ?_⟩
  · rw [saveText, Rule.fileJson, hjs]
    rfl
  · rw [rulesOfText, Json.parse_pretty htree]
    exact hreads

end Deduction
