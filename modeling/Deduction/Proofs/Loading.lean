import Deduction.Proofs.Encoding
import Deduction.Proofs.History

/-!
# Saving and loading catalogues

A text holds the rules of a catalogue and nothing that is derived from them. All its rules are read
before the first one is registered, so a text that cannot be read changes nothing. The rules are
then registered one by one, and a strict catalogue that refuses one of them keeps those before it.

## Main results

* `Catalogue.registerAll_append`: rules that are admitted are registered before all others.
* `Catalogue.replay_added_of_fresh`: rules with new names come after the old ones, in order.
* `Catalogue.replay_added_of_find?`: registering what is there changes nothing.
* `Catalogue.load_saveText`: a catalogue is restored from its text.
* `Catalogue.load_failed`: what a load that fails leaves behind.
-/

namespace Deduction.Catalogue

variable {c : Catalogue}

/-! ### Registering several rules -/

/-- Rules that are admitted are registered, and the others follow. -/
theorem registerAll_append {before : List Rule} (h : ∀ r ∈ before, r.isAdmitted c.strict)
    (rules : List Rule) :
    c.registerAll (before ++ rules) = (c.replay (before.map .added)).registerAll rules := by
  induction before generalizing c with
  | nil => rfl
  | cons r before ih =>
      rw [List.cons_append, registerAll, register_eq, if_pos (h r (by simp))]
      exact ih fun s hs => by simpa using h s (by simp [hs])

/-- Rules that are all admitted are registered. -/
theorem registerAll_of_isAdmitted {rules : List Rule} (h : ∀ r ∈ rules, r.isAdmitted c.strict) :
    c.registerAll rules = (c.replay (rules.map .added), .ok ()) := by
  simpa [registerAll] using registerAll_append h []

/-- Registration ends at the first rule that is not admitted. -/
theorem registerAll_of_refused {before : List Rule} {r : Rule}
    (h : ∀ s ∈ before, s.isAdmitted c.strict) (hr : r.isAdmitted c.strict = false)
    (after : List Rule) : c.registerAll (before ++ r :: after) =
      (c.replay (before.map .added), .error (.malformed (.unreachable r.id r.unreachable))) := by
  rw [registerAll_append h, registerAll, register_eq, strict_replay, if_neg (by simp [hr])]

/-- Registration keeps the names in their order. -/
theorem ids_prefix_replay_added (c : Catalogue) (rules : List Rule) :
    c.ids <+: (c.replay (rules.map .added)).ids := by
  induction rules generalizing c with
  | nil => exact List.prefix_rfl
  | cons r rules ih =>
      have hstep : c.ids <+: (c.step (.added r)).ids := by
        rw [ids_step_added]
        split
        next => exact List.prefix_rfl
        next => exact List.prefix_append ..
      exact hstep.trans (ih (c.step (.added r)))

/-- Registration changes nothing under other names. -/
theorem lookup_replay_added {rules : List Rule} {id : Term} (h : ∀ r ∈ rules, id ≠ .atom r.id) :
    (c.replay (rules.map .added)).lookup id = c.lookup id := by
  induction rules generalizing c with
  | nil => rfl
  | cons r rules ih =>
      have hrest := ih (c := c.step (.added r)) fun s hs => h s (by simp [hs])
      exact hrest.trans (lookup_step_of_ne c (e := .added r) (h r (by simp)))

/-- An entry with a new name comes last. -/
theorem put_of_forall_ne {e : Entry} {entries : List Entry} (h : ∀ old ∈ entries, old.id ≠ e.id) :
    put e entries = entries ++ [e] := by
  induction entries with
  | nil => rfl
  | cons old rest ih =>
      rw [put, if_neg (by simpa using h old (by simp)), ih fun o ho => h o (by simp [ho])]
      rfl

/-- **Rules with new names are put after the old ones**, in their order. -/
theorem replay_added_of_fresh {rules : List Rule} (h : (c.ids ++ rules.map Rule.id).Nodup) :
    c.replay (rules.map .added) = { c with entries := c.entries ++ rules.map .ofRule } := by
  induction rules generalizing c with
  | nil => simp [replay]
  | cons r rules ih =>
      have hnew : r.id ∉ c.ids := fun hr =>
        (List.nodup_append.mp h).2.2 r.id hr r.id (by simp) rfl
      have hput : put (.ofRule r) c.entries = c.entries ++ [.ofRule r] :=
        put_of_forall_ne fun old hold heq => hnew (List.mem_map.mpr ⟨old, hold, heq⟩)
      have hstep : c.step (.added r) = { c with entries := c.entries ++ [.ofRule r] } := by
        rw [step, hput]
      have hids : (c.step (.added r)).ids = c.ids ++ [r.id] := by
        rw [ids_step_added, if_neg hnew]
      calc c.replay ((r :: rules).map .added)
          = (c.step (.added r)).replay (rules.map .added) := rfl
        _ = { c with entries := c.entries ++ [.ofRule r] ++ rules.map .ofRule } := by
            rw [ih (by rw [hids]; simpa using h), hstep]
        _ = { c with entries := c.entries ++ (r :: rules).map .ofRule } := by simp

/-- An entry that is there already is put in its own place. -/
theorem put_of_find? {e : Entry} {entries : List Entry}
    (h : entries.find? (·.id == e.id) = some e) : put e entries = entries := by
  induction entries with
  | nil => simp at h
  | cons old rest ih =>
      rw [List.find?_cons] at h
      rw [put]
      split at h
      next hold => rw [if_pos hold, Option.some.inj h]
      next hold => rw [if_neg (by simp [hold]), ih h]

/-- **Registering rules that are there changes nothing.** -/
theorem replay_added_of_find? {rules : List Rule}
    (h : ∀ r ∈ rules, c.find? r.id = some (.ofRule r)) : c.replay (rules.map .added) = c := by
  induction rules with
  | nil => rfl
  | cons r rules ih =>
      have hput : put (.ofRule r) c.entries = c.entries := put_of_find? (h r (by simp))
      have hstep : c.step (.added r) = c := by rw [step, hput]
      calc c.replay ((r :: rules).map .added)
          = (c.step (.added r)).replay (rules.map .added) := rfl
        _ = c := by rw [hstep, ih fun s hs => h s (by simp [hs])]

/-! ### Loading what was saved -/

/-- A text whose rules are all admitted is loaded. -/
theorem load_of_isAdmitted {text : String} {rules : List Rule}
    (htext : rulesOfText text = .ok rules) (h : ∀ r ∈ rules, r.isAdmitted c.strict) :
    c.load text = (c.replay (rules.map .added), .ok (rules.map Rule.id)) := by
  rw [load, htext]
  simp only [registerAll_of_isAdmitted h]

/-- The names of a catalogue are those of its rules. -/
theorem map_id_rules (c : Catalogue) : c.rules.map Rule.id = c.ids := by
  rw [rules, List.map_map]
  rfl

/-- Each rule of a catalogue with a history was registered, and is found under its name. -/
theorem Reflects.mem_rules {h : List Event} (hc : Reflects h c) {r : Rule} (hr : r ∈ c.rules) :
    .added r ∈ h ∧ c.find? r.id = some (.ofRule r) := by
  obtain ⟨e, he, rfl⟩ := List.mem_map.mp hr
  have hfind := find?_of_mem hc.nodup_ids he
  obtain ⟨r, hmem, -, rfl⟩ := hc.exists_rule hfind
  exact ⟨hmem, hfind⟩

/-- The entries of a catalogue with a history are derived from its rules. -/
theorem Reflects.entries_eq {h : List Event} (hc : Reflects h c) :
    c.rules.map .ofRule = c.entries := by
  have hself : ∀ e ∈ c.entries, (Entry.ofRule ∘ Entry.rule) e = e := by
    intro e he
    obtain ⟨r, -, -, rfl⟩ := hc.exists_rule (find?_of_mem hc.nodup_ids he)
    rfl
  rw [rules, List.map_map, List.map_congr_left hself, List.map_id']

/-- **A catalogue is restored from its text.** Whatever calls led to it, if its rules hold no
logic variables then it can be saved. Loading the text into an empty catalogue that is not strict
gives the same entries in the same order: rules, call shapes and relations. Loading it into the
catalogue it was saved from changes nothing. Both loads return the names. -/
theorem load_saveText (predicates : PredicateTable) (strict : Bool) (changes : List Change)
    (hrules : ∀ r, .added r ∈ history strict changes → r.Accepted ∧ r.IsVarFree) :
    let c := (empty predicates strict).performAll changes
    ∃ text, c.saveText = .ok text ∧
      (∀ predicates', (empty predicates' false).load text =
        (⟨c.entries, predicates', false⟩, .ok c.ids)) ∧
      c.load text = (c, .ok c.ids) := by
  intro c
  have hc : Reflects (history strict changes) c := reflects_performAll predicates strict changes
  have hstrict : c.strict = strict := by
    rw [show c = (empty predicates strict).replay _ from performAll_eq_replay _ changes,
      strict_replay]
    rfl
  obtain ⟨text, hsave, htext⟩ := rulesOfText_saveText fun r hr => hrules r (hc.mem_rules hr).1
  refine ⟨text, hsave, fun predicates' => ?_, ?_⟩
  · have hfresh : ((empty predicates' false).ids ++ c.rules.map Rule.id).Nodup := by
      rw [map_id_rules]
      exact hc.nodup_ids
    rw [load_of_isAdmitted htext fun r _ => rfl, replay_added_of_fresh hfresh, hc.entries_eq,
      map_id_rules]
    rfl
  · have hadmitted : ∀ r ∈ c.rules, r.isAdmitted c.strict := fun r hr =>
      hstrict ▸ isAdmitted_of_mem_history (hc.mem_rules hr).1
    rw [load_of_isAdmitted htext hadmitted, map_id_rules,
      replay_added_of_find? fun r hr => (hc.mem_rules hr).2]

/-- Two rules are saved after a third one was removed. One has a compound with a group, an empty
list of side conditions and names with a quotation mark, a line break and characters outside of
the basic plane; the other has no list of side conditions. -/
theorem load_saveText_odd_names :
    let a : Rule := ⟨"a\"\n", [.app (.atom "_fn") [.group [.atom "é𝄞", .group []], .atom "A"]],
      [.atom "\\"], [.atom "A"], some []⟩
    let changes : List Change := [.register (.plain "b" [] [.atom "P"]), .register a,
      .unregister (.atom "b"), .register (.plain "c" [] [.atom "Q"])]
    let c := (empty .empty false).performAll changes
    c.ids = ["a\"\n", "c"] ∧ c.find? "a\"\n" = some (.ofRule a) ∧
      ∃ text, c.saveText = .ok text ∧
        (empty .empty false).load text = (c, .ok c.ids) ∧ c.load text = (c, .ok c.ids) := by
  intro a changes c
  have hrules : ∀ r, .added r ∈ history false changes → r.Accepted ∧ r.IsVarFree := by
    intro r hr
    have hmem : r ∈ [.plain "b" [] [.atom "P"], a, .plain "c" [] [.atom "Q"]] := by
      simpa [history, changes, Change.events, Event.additions, Rule.isAdmitted] using hr
    have hall : ∀ s ∈ [Rule.plain "b" [] [.atom "P"], a, .plain "c" [] [.atom "Q"]],
        s.id.isEmpty = false ∧ (∀ t ∈ s.templatesOf, t.isExpr) ∧ s.IsVarFree := by decide
    obtain ⟨hid, hexpr, hfree⟩ := hall r hmem
    exact ⟨Rule.accepted_of_isExpr hid hexpr, hfree⟩
  obtain ⟨text, hsave, hempty, hback⟩ := load_saveText .empty false changes hrules
  exact ⟨by decide, rfl, text, hsave, hempty .empty, hback⟩

/-! ### Loading what cannot be loaded -/

/-- **What a load that fails leaves behind.** If the text cannot be read as rules, the catalogue
is as before. Otherwise the catalogue is strict, and one of the rules has unreachable variables;
then the rules before the first such rule are registered, and nothing from it on. So the catalogue
is as before if that is the first rule of the text. In any case the names that were there keep
their order, and what is found under other names than those of the rules registered stays. -/
theorem load_failed {c c' : Catalogue} {text : String} {e : Error}
    (h : c.load text = (c', .error e)) :
    rulesOfText text = .error e ∧ c' = c ∨
      c.strict ∧ ∃ before r after, rulesOfText text = .ok (before ++ r :: after) ∧
        (∀ s ∈ before, s.unreachable = []) ∧ r.unreachable ≠ [] ∧
        e = .malformed (.unreachable r.id r.unreachable) ∧
        c.registerAll before = (c', .ok ()) ∧ (before = [] → c' = c) ∧ c.ids <+: c'.ids ∧
        ∀ id, (∀ s ∈ before, id ≠ .atom s.id) → c'.lookup id = c.lookup id := by
  rw [load] at h
  cases htext : rulesOfText text with
  | error e' =>
      simp only [htext, Prod.mk.injEq, Except.error.injEq] at h
      obtain ⟨rfl, rfl⟩ := h
      exact .inl ⟨rfl, rfl⟩
  | ok rules =>
      simp only [htext] at h
      cases hfind : rules.find? (fun r => !r.isAdmitted c.strict) with
      | none =>
          have hall : ∀ r ∈ rules, r.isAdmitted c.strict := by simpa using hfind
          simp [registerAll_of_isAdmitted hall] at h
      | some r =>
          obtain ⟨hr, before, after, rfl, hbefore⟩ := List.find?_eq_some_iff_append.mp hfind
          have hadmitted : ∀ s ∈ before, s.isAdmitted c.strict := by simpa using hbefore
          have hrefused : r.isAdmitted c.strict = false := by simpa using hr
          simp only [registerAll_of_refused hadmitted hrefused, Prod.mk.injEq,
            Except.error.injEq] at h
          obtain ⟨rfl, rfl⟩ := h
          obtain ⟨hstrict, hloose⟩ : c.strict = true ∧ r.unreachable ≠ [] := by
            simpa [Rule.isAdmitted] using hrefused
          refine .inr ⟨hstrict, before, r, after, rfl, fun s hs => ?_, hloose, rfl,
            registerAll_of_isAdmitted hadmitted, ?_, ids_prefix_replay_added c before,
            fun id hid => lookup_replay_added hid⟩
          · simpa [Rule.isAdmitted, hstrict] using hadmitted s hs
          · rintro rfl
            rfl

/-- A strict catalogue with one rule refuses the second rule of a text and keeps the first. -/
theorem load_failed_second :
    let c := (empty .empty true).performAll [.register (.plain "z" [.atom "A"] [.atom "A"])]
    ∃ c' e, c.load looseText = (c', .error e) ∧ c'.ids = ["z", "a"] ∧
      ∃ before r after, rulesOfText looseText = .ok (before ++ r :: after) ∧
        r.unreachable ≠ [] ∧ e = .malformed (.unreachable r.id r.unreachable) ∧
        c.registerAll before = (c', .ok ()) ∧ c.ids <+: c'.ids := by
  intro c
  obtain ⟨hfails, hids⟩ : (c.load looseText).2.isOk = false ∧
      (c.load looseText).1.ids = ["z", "a"] := by decide +kernel
  rcases hload : c.load looseText with ⟨c', e | names⟩
  all_goals rw [hload] at hfails hids
  · obtain ⟨-, rfl⟩ | ⟨-, before, r, after, htext, -, hr, he, hreg, -, hids', -⟩ :=
      load_failed hload
    · have hone : c.ids = ["z"] := rfl
      exact absurd (hone.symm.trans hids) (by decide)
    · exact ⟨c', e, rfl, hids, before, r, after, htext, hr, he, hreg, hids'⟩
  · cases hfails

/-- A strict catalogue without rules refuses the second rule of the text, so the load fails; yet
the first rule is registered. -/
theorem load_refused_keeps_earlier :
    let c := empty .empty true
    (c.load looseText).2.isOk = false ∧ c.ids = [] ∧ (c.load looseText).1.ids = ["a"] := by
  decide +kernel

end Deduction.Catalogue
