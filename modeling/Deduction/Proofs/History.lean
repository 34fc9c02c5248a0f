import Mathlib.Data.List.TakeWhile
import Mathlib.Data.Nat.Find
import Mathlib.Order.Bounds.Basic
import Deduction.Catalogue.Store
import Deduction.Proofs.Recheck

/-!
# Catalogues and their histories

A catalogue is changed by calls that register rules, remove them, or load them from a text. A
call may fail, and one that registers several rules may fail after some of them. Whatever the
calls were, what they did to the catalogue comes down to a history of events, each of which
registers one rule or removes one name. The history follows from the calls and the strictness
alone. This module says how the catalogue can be told from it: under each name stands what is
derived from the rule registered last, and the names are listed in the order of their first
registration since they were last removed.

The history counts a call that removes a name as a removal even if the name is not there and the
call fails. This makes no difference, because no earlier registration of the name is left then.

## Main definitions

* `Change`, `Catalogue.perform`, `Catalogue.performAll`: calls, and catalogues after them.
* `Event`, `Change.events`, `history`: what calls come down to.
* `lastRule?`: the rule registered last under a name, unless it was removed since.
* `Stands`, `RegisteredAt`: the registrations since a name was last removed, and the first one.

## Main results

* `Catalogue.perform_eq_replay`: a call does to a catalogue what its events do.
* `Catalogue.Reflects.step`: one event keeps the correspondence of catalogue and history.
* `Catalogue.reflects_performAll`: so do all calls.
* `Catalogue.performAll_invariant`: what holds of every catalogue after any calls.
-/

namespace Deduction

/-! ### Calls and events -/

/-- A call that changes a catalogue. -/
inductive Change where
  | register (r : Rule)
  | registerAll (rules : List Rule)
  | unregister (id : Term)
  | load (text : String)

/-- A change of what stands under one name. -/
inductive Event where
  | added (r : Rule)
  | removed (id : String)

/-- The name that an event is about. -/
def Event.id : Event → String
  | .added r => r.id
  | .removed id => id

/-- Does a catalogue of that strictness admit the rule? -/
def Rule.isAdmitted (strict : Bool) (r : Rule) : Bool := !strict || r.unreachable.isEmpty

/-- The registrations of rules one by one, up to the first that is refused. -/
def Event.additions (strict : Bool) (rules : List Rule) : List Event :=
  (rules.takeWhile (Rule.isAdmitted strict)).map .added

/-- What a call comes down to. -/
def Change.events (strict : Bool) : Change → List Event
  | .register r => Event.additions strict [r]
  | .registerAll rules => Event.additions strict rules
  | .unregister (.atom id) => [.removed id]
  | .unregister _ => []
  | .load text => match Catalogue.rulesOfText text with
    | .ok rules => Event.additions strict rules
    | .error _ => []

/-- What calls in a row come down to. -/
def history (strict : Bool) (changes : List Change) : List Event :=
  changes.flatMap (Change.events strict)

namespace Catalogue

/-- The catalogue after a call, and how the call ends. -/
def perform (c : Catalogue) : Change → Catalogue × Except Error Unit
  | .register r => match c.register r with
    | .ok c' => (c', .ok ())
    | .error e => (c, .error e)
  | .registerAll rules => c.registerAll rules
  | .unregister id => match c.unregister id with
    | .ok c' => (c', .ok ())
    | .error e => (c, .error e)
  | .load text => match c.load text with
    | (c', .ok _) => (c', .ok ())
    | (c', .error e) => (c', .error e)

/-- The catalogue after calls in a row, some of which may fail. -/
def performAll (c : Catalogue) (changes : List Change) : Catalogue :=
  changes.foldl (fun c change => (c.perform change).1) c

/-- The catalogue after an event. -/
def step (c : Catalogue) : Event → Catalogue
  | .added r => { c with entries := put (.ofRule r) c.entries }
  | .removed id => { c with entries := c.entries.filter (·.id ≠ id) }

/-- The catalogue after events in a row. -/
def replay (c : Catalogue) (events : List Event) : Catalogue := events.foldl step c

/-! ### Calls are events -/

@[simp] theorem strict_step (c : Catalogue) (e : Event) : (c.step e).strict = c.strict := by
  cases e <;> rfl

@[simp] theorem strict_replay (c : Catalogue) (events : List Event) :
    (c.replay events).strict = c.strict := by
  induction events generalizing c with
  | nil => rfl
  | cons e events ih => exact (ih (c.step e)).trans (strict_step c e)

/-- A rule is registered if it is admitted, and refused for its unreachable variables if not. -/
theorem register_eq (c : Catalogue) (r : Rule) :
    c.register r = if r.isAdmitted c.strict then .ok (c.step (.added r))
      else .error (.malformed (.unreachable r.id r.unreachable)) := by
  rw [register, Rule.validate, Rule.isAdmitted, step]
  cases c.strict <;> cases r.unreachable.isEmpty <;> rfl

/-- Registering rules one by one is adding them up to the first that is refused. -/
theorem registerAll_eq_replay (c : Catalogue) (rules : List Rule) :
    (c.registerAll rules).1 = c.replay (Event.additions c.strict rules) := by
  induction rules generalizing c with
  | nil => rfl
  | cons r rules ih =>
      rw [registerAll, register_eq]
      by_cases hr : r.isAdmitted c.strict
      · simp only [if_pos hr, ih]
        rw [strict_step, Event.additions, Event.additions, List.takeWhile_cons_of_pos hr]
        rfl
      · simp only [if_neg hr]
        rw [Event.additions, List.takeWhile_cons_of_neg hr]
        rfl

/-- Removing a name that is not there changes nothing. -/
theorem step_removed_of_find?_eq_none {c : Catalogue} {id : String} (h : c.find? id = none) :
    c.step (.removed id) = c := by
  have hall : c.entries.filter (·.id ≠ id) = c.entries := by
    rw [List.filter_eq_self]
    intro e he
    simpa using List.find?_eq_none.mp h e he
  rw [step, hall]

/-- What is found under a name has that name. -/
theorem id_of_find? {c : Catalogue} {id : String} {e : Entry} (h : c.find? id = some e) :
    e.id = id := by
  simpa using List.find?_some h

/-- Removal of a name succeeds if the name is there. -/
theorem unregister_atom (c : Catalogue) (id : String) :
    c.unregister (.atom id) = if (c.find? id).isSome then .ok (c.step (.removed id))
      else .error (.ruleNotFound (.atom id)) := by
  rw [unregister, lookup]
  cases hfind : c.find? id with
  | none => rfl
  | some e =>
      simp only [Option.isSome_some, if_true, step, ← id_of_find? hfind]
      rfl

/-- Removal of what is no name fails. -/
theorem exists_error_of_unregister (c : Catalogue) {id : Term} (h : ∀ name, id ≠ .atom name) :
    ∃ e, c.unregister id = .error e := by
  rw [unregister, lookup]
  · split
    · exact ⟨_, rfl⟩
    · exact ⟨_, rfl⟩
  · exact h

/-- **A call does to a catalogue what its events do**, whether it succeeds or fails. -/
theorem perform_eq_replay (c : Catalogue) (change : Change) :
    (c.perform change).1 = c.replay (change.events c.strict) := by
  cases change with
  | register r =>
      have hone := c.registerAll_eq_replay [r]
      rw [registerAll] at hone
      rw [Change.events, ← hone, perform]
      cases c.register r <;> rfl
  | registerAll rules => exact c.registerAll_eq_replay rules
  | unregister id =>
      by_cases hname : ∃ name, id = .atom name
      · obtain ⟨name, rfl⟩ := hname
        rw [perform, unregister_atom]
        cases hfind : c.find? name with
        | none => exact (step_removed_of_find?_eq_none hfind).symm
        | some e => rfl
      · obtain ⟨e, he⟩ := c.exists_error_of_unregister (not_exists.mp hname)
        rw [perform, he, Change.events]
        · rfl
        · exact not_exists.mp hname
  | load text =>
      rw [perform, load, Change.events]
      cases rulesOfText text with
      | error e => rfl
      | ok rules =>
          simp only [← registerAll_eq_replay]
          obtain ⟨c', result⟩ := c.registerAll rules
          cases result <;> rfl

/-- Calls in a row do what their history does. -/
theorem performAll_eq_replay (c : Catalogue) (changes : List Change) :
    c.performAll changes = c.replay (history c.strict changes) := by
  induction changes generalizing c with
  | nil => rfl
  | cons change changes ih =>
      have hstrict : (c.perform change).1.strict = c.strict := by
        rw [perform_eq_replay, strict_replay]
      calc c.performAll (change :: changes)
          = (c.perform change).1.performAll changes := rfl
        _ = (c.replay (change.events c.strict)).replay (history c.strict changes) := by
            rw [ih, hstrict, perform_eq_replay]
        _ = c.replay (history c.strict (change :: changes)) := by
            simp only [history, List.flatMap_cons, replay, List.foldl_append]

end Catalogue

/-! ### Registrations in a history -/

/-- The rule registered last under a name, unless the name was removed since. -/
def lastRule? (h : List Event) (id : String) : Option Rule :=
  match h.reverse.find? (·.id == id) with
  | some (.added r) => some r
  | _ => none

/-- Event `n` registers a rule under the name, and no later one removes it. -/
def Stands (h : List Event) (id : String) (n : Nat) : Prop :=
  (∃ r, h[n]? = some (.added r) ∧ r.id = id) ∧ ∀ m, n < m → h[m]? ≠ some (.removed id)

/-- Event `n` is the first registration under the name since the name was last removed. -/
def RegisteredAt (h : List Event) (id : String) (n : Nat) : Prop := IsLeast {k | Stands h id k} n

/-- The name `a` is registered before the name `b`, as counted since their last removals. -/
def Precedes (h : List Event) (a b : String) : Prop :=
  ∃ m n, RegisteredAt h a m ∧ RegisteredAt h b n ∧ m < n

variable {h : List Event} {e : Event} {r : Rule} {id : String} {m n : Nat}

/-- The last event decides about its own name. -/
theorem lastRule?_concat_added (h : List Event) (r : Rule) :
    lastRule? (h ++ [.added r]) r.id = some r := by
  simp [lastRule?, Event.id]

theorem lastRule?_concat_removed (h : List Event) (id : String) :
    lastRule? (h ++ [.removed id]) id = none := by
  simp [lastRule?, Event.id]

/-- The last event does not matter to other names. -/
theorem lastRule?_concat_of_ne (hne : e.id ≠ id) : lastRule? (h ++ [e]) id = lastRule? h id := by
  simp [lastRule?, hne]

/-- The rule registered last under a name was registered, and has that name. -/
theorem mem_of_lastRule? (hr : lastRule? h id = some r) : .added r ∈ h ∧ r.id = id := by
  rw [lastRule?] at hr
  split at hr
  next r' hfind =>
    cases hr
    exact ⟨List.mem_reverse.mp (List.mem_of_find?_eq_some hfind), by
      simpa [Event.id] using List.find?_some hfind⟩
  next => exact absurd hr (by simp)

theorem Stands.lt_length (hn : Stands h id n) : n < h.length := by
  obtain ⟨⟨r, hr, -⟩, -⟩ := hn
  exact (List.getElem?_eq_some_iff.mp hr).1

/-- What stands after one more event stood before and is not removed by it, or is that event. -/
theorem stands_concat : Stands (h ++ [e]) id n ↔
    e ≠ .removed id ∧ (Stands h id n ∨ n = h.length ∧ ∃ r, e = .added r ∧ r.id = id) := by
  have hold : ∀ k, k < h.length → (h ++ [e])[k]? = h[k]? := fun k hk =>
    List.getElem?_append_left hk
  have hnew : (h ++ [e])[h.length]? = some e := List.getElem?_concat_length
  constructor
  · rintro ⟨⟨r, hr, hid⟩, hlater⟩
    have hlt : n < h.length + 1 := by simpa using (List.getElem?_eq_some_iff.mp hr).1
    rcases Nat.lt_succ_iff_lt_or_eq.mp hlt with hn | rfl
    · rw [hold n hn] at hr
      refine ⟨fun he => hlater h.length hn (he ▸ hnew), .inl ⟨⟨r, hr, hid⟩, fun m hm hrem => ?_⟩⟩
      have hmlt := (List.getElem?_eq_some_iff.mp hrem).1
      exact hlater m hm ((hold m hmlt).trans hrem)
    · obtain rfl : e = .added r := Option.some.inj (hnew.symm.trans hr)
      exact ⟨Event.noConfusion, .inr ⟨rfl, r, rfl, hid⟩⟩
  · rintro ⟨hne, hstands | ⟨rfl, r, rfl, hid⟩⟩
    · have hn := hstands.lt_length
      obtain ⟨⟨r, hr, hid⟩, hlater⟩ := hstands
      refine ⟨⟨r, (hold n hn).trans hr, hid⟩, fun m hm hrem => ?_⟩
      have hmlt : m < h.length + 1 := by simpa using (List.getElem?_eq_some_iff.mp hrem).1
      rcases Nat.lt_succ_iff_lt_or_eq.mp hmlt with hlt | rfl
      · exact hlater m hm ((hold m hlt).symm.trans hrem)
      · exact hne (Option.some.inj (hnew.symm.trans hrem))
    · refine ⟨⟨r, hnew, hid⟩, fun m hm hrem => ?_⟩
      have hmlt : m < h.length + 1 := by simpa using (List.getElem?_eq_some_iff.mp hrem).1
      omega

/-- The last event does not matter to other names. -/
theorem stands_concat_of_ne (hne : e.id ≠ id) : Stands (h ++ [e]) id n ↔ Stands h id n := by
  have hrem : e ≠ .removed id := by
    rintro rfl
    exact hne rfl
  have hadd : ¬ (n = h.length ∧ ∃ r, e = .added r ∧ r.id = id) := by
    rintro ⟨-, r, rfl, hid⟩
    exact hne hid
  rw [stands_concat, and_iff_right hrem, or_iff_left hadd]

/-- A registration leaves standing what stands. -/
theorem stands_concat_added : Stands (h ++ [.added r]) id n ↔
    Stands h id n ∨ n = h.length ∧ r.id = id := by
  simp [stands_concat]

/-- Nothing stands of a name that was just removed. -/
theorem not_stands_concat_removed : ¬ Stands (h ++ [.removed id]) id n := fun hn =>
  (stands_concat.mp hn).1 rfl

/-- If a registration stands, there is a first one. -/
theorem exists_registeredAt_iff : (∃ n, RegisteredAt h id n) ↔ ∃ n, Stands h id n := by
  classical
  refine ⟨fun ⟨n, hn⟩ => ⟨n, hn.1⟩, fun hex => ?_⟩
  exact ⟨Nat.find hex, Nat.find_spec hex, fun _ => Nat.find_min' hex⟩

theorem registeredAt_concat_of_ne (hne : e.id ≠ id) :
    RegisteredAt (h ++ [e]) id n ↔ RegisteredAt h id n := by
  simp only [RegisteredAt, stands_concat_of_ne hne]

/-- Registering a name again does not move it. -/
theorem RegisteredAt.concat_added (hn : RegisteredAt h id n) (r : Rule) :
    RegisteredAt (h ++ [.added r]) id n := by
  refine ⟨stands_concat_added.mpr (.inl hn.1), fun k hk => ?_⟩
  rcases stands_concat_added.mp hk with hk | ⟨rfl, -⟩
  · exact hn.2 hk
  · exact hn.1.lt_length.le

/-- A name of which no registration stands is registered by the next event. -/
theorem registeredAt_concat_added_self (hnone : ¬ ∃ n, Stands h r.id n) :
    RegisteredAt (h ++ [.added r]) r.id h.length := by
  refine ⟨stands_concat_added.mpr (.inr ⟨rfl, rfl⟩), fun k hk => ?_⟩
  rcases stands_concat_added.mp hk with hk | ⟨rfl, -⟩
  · exact absurd ⟨k, hk⟩ hnone
  · exact le_rfl

/-- A name does not precede itself. -/
theorem Precedes.ne {a b : String} (hab : Precedes h a b) : a ≠ b := by
  obtain ⟨m, n, hm, hn, hlt⟩ := hab
  rintro rfl
  exact hlt.ne (hm.unique hn)

theorem Precedes.concat_added {a b : String} (hab : Precedes h a b) (r : Rule) :
    Precedes (h ++ [.added r]) a b := by
  obtain ⟨m, n, hm, hn, hlt⟩ := hab
  exact ⟨m, n, hm.concat_added r, hn.concat_added r, hlt⟩

theorem Precedes.concat_of_ne {a b : String} (hab : Precedes h a b) (ha : e.id ≠ a)
    (hb : e.id ≠ b) : Precedes (h ++ [e]) a b := by
  obtain ⟨m, n, hm, hn, hlt⟩ := hab
  exact ⟨m, n, (registeredAt_concat_of_ne ha).mpr hm, (registeredAt_concat_of_ne hb).mpr hn, hlt⟩

namespace Catalogue

variable {c : Catalogue}

/-! ### One event -/

/-- Registration keeps the names, and puts a new one at the end. -/
theorem ids_step_added (c : Catalogue) (r : Rule) :
    (c.step (.added r)).ids = if r.id ∈ c.ids then c.ids else c.ids ++ [r.id] := by
  have hput : ∀ entries : List Entry, (put (.ofRule r) entries).map Entry.id =
      if r.id ∈ entries.map Entry.id then entries.map Entry.id
      else entries.map Entry.id ++ [r.id] := by
    intro entries
    induction entries with
    | nil => rfl
    | cons old rest ih =>
        by_cases hold : old.id = r.id
        · have hput : put (.ofRule r) (old :: rest) = .ofRule r :: rest :=
            if_pos (beq_iff_eq.mpr hold)
          rw [hput, List.map_cons, List.map_cons, hold, if_pos (List.mem_cons_self ..)]
          rfl
        · have hput : put (.ofRule r) (old :: rest) = old :: put (.ofRule r) rest :=
            if_neg (mt beq_iff_eq.mp hold)
          rw [hput, List.map_cons, ih, List.map_cons, apply_ite (List.cons old.id)]
          simp [Ne.symm hold]
  exact hput c.entries

/-- Removal drops the name. -/
theorem ids_step_removed (c : Catalogue) (id : String) :
    (c.step (.removed id)).ids = c.ids.filter (· ≠ id) := by
  rw [ids, step, ids, List.filter_map]
  rfl

/-- A registered rule is found under its name. -/
theorem find?_step_added (c : Catalogue) (r : Rule) :
    (c.step (.added r)).find? r.id = some (.ofRule r) :=
  find?_put_self (.ofRule r) c.entries

theorem find?_step_removed (c : Catalogue) (id : String) :
    (c.step (.removed id)).find? id = none := by
  simp [find?, step, List.find?_eq_none]

/-- An event changes nothing under other names. -/
theorem find?_step_of_ne (c : Catalogue) {e : Event} {id : String} (hne : e.id ≠ id) :
    (c.step e).find? id = c.find? id := by
  cases e with
  | added r => exact find?_put_of_ne (.ofRule r) (Ne.symm hne) c.entries
  | removed old =>
      rw [find?, step, find?, List.find?_filter]
      refine congrFun (congrArg _ (funext fun entry => ?_)) _
      by_cases hid : entry.id = id
      · have hold : entry.id ≠ old := fun heq => hne (heq.symm.trans hid)
        simp [hid, hid ▸ hold]
      · simp [hid]

/-! ### Catalogues that reflect a history -/

/-- A catalogue and the history of the events that led to it. -/
structure Reflects (h : List Event) (c : Catalogue) : Prop where
  /-- Under each name stands the entry of the rule registered last. -/
  find?_eq : ∀ id, c.find? id = (lastRule? h id).map .ofRule
  /-- The names are those with a registration that stands. -/
  mem_ids_iff : ∀ id, id ∈ c.ids ↔ ∃ n, Stands h id n
  /-- The names come in the order of their first registrations since their last removals. -/
  ordered : c.ids.Pairwise (Precedes h)

theorem reflects_empty (predicates : PredicateTable) (strict : Bool) :
    Reflects [] (empty predicates strict) where
  find?_eq _ := rfl
  mem_ids_iff id := by simp [ids, empty, Stands]
  ordered := .nil

/-- Registration of one rule. -/
theorem Reflects.step_added (hc : Reflects h c) (r : Rule) :
    Reflects (h ++ [.added r]) (c.step (.added r)) where
  find?_eq id := by
    by_cases hid : r.id = id
    · rw [← hid, find?_step_added, lastRule?_concat_added]
      rfl
    · have hne : (Event.added r).id ≠ id := hid
      rw [find?_step_of_ne c hne, hc.find?_eq, lastRule?_concat_of_ne hne]
  mem_ids_iff id := by
    have hmem : id ∈ (c.step (.added r)).ids ↔ id ∈ c.ids ∨ r.id = id := by
      rw [ids_step_added]
      split
      next hr => exact (or_iff_left_of_imp fun hid => hid ▸ hr).symm
      next => simp [eq_comm]
    simp only [hmem, hc.mem_ids_iff, stands_concat_added, exists_or, exists_eq_left]
  ordered := by
    have hold : c.ids.Pairwise (Precedes (h ++ [.added r])) :=
      hc.ordered.imp fun hab => hab.concat_added r
    rw [ids_step_added]
    by_cases hr : r.id ∈ c.ids
    · rwa [if_pos hr]
    -- The new name comes last, and every other one was registered before this event.
    · rw [if_neg hr, List.pairwise_append]
      refine ⟨hold, List.pairwise_singleton .., fun a ha b hb => ?_⟩
      obtain rfl : b = r.id := List.mem_singleton.mp hb
      obtain ⟨m, hm⟩ := exists_registeredAt_iff.mpr ((hc.mem_ids_iff a).mp ha)
      have hnew := registeredAt_concat_added_self (mt (hc.mem_ids_iff r.id).mpr hr)
      exact ⟨m, h.length, hm.concat_added r, hnew, hm.1.lt_length⟩

/-- Removal of one name. -/
theorem Reflects.step_removed (hc : Reflects h c) (id : String) :
    Reflects (h ++ [.removed id]) (c.step (.removed id)) where
  find?_eq other := by
    by_cases hid : id = other
    · rw [← hid, find?_step_removed, lastRule?_concat_removed]
      rfl
    · have hne : (Event.removed id).id ≠ other := hid
      rw [find?_step_of_ne c hne, hc.find?_eq, lastRule?_concat_of_ne hne]
  mem_ids_iff other := by
    rw [ids_step_removed, List.mem_filter, decide_eq_true_iff]
    by_cases hid : id = other
    · subst hid
      simp [not_stands_concat_removed]
    · have hne : (Event.removed id).id ≠ other := hid
      rw [hc.mem_ids_iff, and_iff_left (Ne.symm hid)]
      exact exists_congr fun n => (stands_concat_of_ne hne).symm
  ordered := by
    rw [ids_step_removed]
    refine (hc.ordered.filter _).imp_of_mem fun {a b} ha hb hab => ?_
    have hne : ∀ {x}, x ∈ c.ids.filter (· ≠ id) → id ≠ x := fun hx =>
      Ne.symm (of_decide_eq_true (List.mem_filter.mp hx).2)
    exact hab.concat_of_ne (hne ha) (hne hb)

/-- **One event keeps the correspondence.** -/
theorem Reflects.step (hc : Reflects h c) (e : Event) : Reflects (h ++ [e]) (c.step e) := by
  cases e with
  | added r => exact hc.step_added r
  | removed id => exact hc.step_removed id

theorem Reflects.replay (hc : Reflects h c) (events : List Event) :
    Reflects (h ++ events) (c.replay events) := by
  induction events generalizing h c with
  | nil => rwa [List.append_nil]
  | cons e events ih =>
      rw [List.append_cons]
      exact ih (hc.step e)

/-- **A catalogue reflects the history of the calls that led to it.** -/
theorem reflects_performAll (predicates : PredicateTable) (strict : Bool)
    (changes : List Change) :
    Reflects (history strict changes) ((empty predicates strict).performAll changes) := by
  rw [performAll_eq_replay]
  exact (reflects_empty predicates strict).replay (history strict changes)

/-- An entry is what is found under its name. -/
theorem find?_of_mem {e : Entry} (hnodup : c.ids.Nodup) (he : e ∈ c.entries) :
    c.find? e.id = some e := by
  have hfind : ∀ entries : List Entry, (entries.map Entry.id).Nodup → e ∈ entries →
      entries.find? (·.id == e.id) = some e := by
    intro entries hnodup he
    induction entries with
    | nil => simp at he
    | cons first rest ih =>
        obtain ⟨hfirst, hrest⟩ := List.nodup_cons.mp hnodup
        rcases List.mem_cons.mp he with rfl | he
        · simp
        · have hne : first.id ≠ e.id := fun heq =>
            hfirst (heq ▸ List.mem_map_of_mem (f := Entry.id) he)
          simpa [hne] using ih hrest he
  exact hfind c.entries hnodup he

/-- The rules of a history are admitted. -/
theorem isAdmitted_of_mem_history {strict : Bool} {changes : List Change}
    (hr : .added r ∈ history strict changes) : r.isAdmitted strict := by
  have hadditions : ∀ rules, .added r ∈ Event.additions strict rules → r.isAdmitted strict := by
    intro rules hmem
    obtain ⟨r', hr', heq⟩ := List.mem_map.mp hmem
    cases heq
    exact List.mem_takeWhile_imp hr'
  obtain ⟨change, -, hmem⟩ := List.mem_flatMap.mp hr
  fun_cases Change.events strict change with
  | case1 r' => exact hadditions _ hmem
  | case2 rules => exact hadditions _ hmem
  | case3 id => simp [Change.events] at hmem
  | case4 id _ => simp_all [Change.events]
  | case5 text rules hrules => exact hadditions rules (by simpa [Change.events, hrules] using hmem)
  | case6 text e he => simp [Change.events, he] at hmem

/-- What is found under one name does not depend on what stands under others. -/
theorem lookup_congr {c' : Catalogue} {id : Term}
    (hfind : ∀ name, id = .atom name → c'.find? name = c.find? name) :
    c'.lookup id = c.lookup id := by
  cases id with
  | atom name => rw [lookup, lookup, hfind name rfl]
  | _ => rfl

/-- An event changes what is found under its own name only. -/
theorem lookup_step_of_ne (c : Catalogue) {e : Event} {id : Term} (hid : id ≠ .atom e.id) :
    (c.step e).lookup id = c.lookup id :=
  lookup_congr fun _ hname => find?_step_of_ne c fun heq =>
    hid (hname.trans (congrArg Term.atom heq.symm))

/-- A rule that is registered is found, and nothing else changes. -/
theorem lookup_of_register {c' : Catalogue} (hreg : c.register r = .ok c') :
    c'.lookup (.atom r.id) = .ok (.ofRule r) ∧
      ∀ id, id ≠ .atom r.id → c'.lookup id = c.lookup id := by
  rw [register_eq] at hreg
  split at hreg
  next =>
    cases hreg
    exact ⟨by rw [lookup, find?_step_added], fun id hid => c.lookup_step_of_ne hid⟩
  next => exact absurd hreg (by simp)

/-- A rule that is removed is not found any more, and nothing else changes. -/
theorem lookup_of_unregister {c' : Catalogue} {id : Term} (hun : c.unregister id = .ok c') :
    c'.lookup id = .error (.ruleNotFound id) ∧
      ∀ other, other ≠ id → c'.lookup other = c.lookup other := by
  by_cases hname : ∃ name, id = .atom name
  · obtain ⟨name, rfl⟩ := hname
    rw [unregister_atom] at hun
    split at hun
    next =>
      cases hun
      exact ⟨by rw [lookup, find?_step_removed], fun other hne => c.lookup_step_of_ne hne⟩
    next => exact absurd hun (by simp)
  · obtain ⟨e, he⟩ := c.exists_error_of_unregister (not_exists.mp hname)
    exact absurd (he.symm.trans hun) (by simp)

/-- What is found comes from a registration in the history. -/
theorem Reflects.exists_rule (hc : Reflects h c) {entry : Entry}
    (hentry : c.find? id = some entry) : ∃ r, .added r ∈ h ∧ r.id = id ∧ entry = .ofRule r := by
  obtain ⟨r, hr, rfl⟩ := Option.map_eq_some_iff.mp ((hc.find?_eq id).symm.trans hentry)
  exact ⟨r, (mem_of_lastRule? hr).1, (mem_of_lastRule? hr).2, rfl⟩

theorem Reflects.nodup_ids (hc : Reflects h c) : c.ids.Nodup := hc.ordered.imp Precedes.ne

/-- **What holds of every catalogue after any calls**, those that fail included. Under each name
stands the entry of the rule of that name registered last, unless it was removed since, and no
entry is hidden behind another one. The names are those of which a registration stands, without
repetition, in the order of their first registrations since their last removals. In a strict
catalogue no rule has unreachable variables. A further registration or removal that succeeds
changes what is found under its own name only, and one that is refused changes nothing. -/
theorem performAll_invariant (predicates : PredicateTable) (strict : Bool)
    (changes : List Change) :
    let c := (empty predicates strict).performAll changes
    let h := history strict changes
    (∀ id e, c.find? id = some e → e.rule.id = id ∧ e = .ofRule e.rule) ∧
      (∀ id, c.find? id = (lastRule? h id).map .ofRule) ∧
      (∀ e ∈ c.entries, c.find? e.id = some e) ∧
      c.ids.Nodup ∧
      (∀ id, id ∈ c.ids ↔ ∃ n, RegisteredAt h id n) ∧
      c.ids.Pairwise (Precedes h) ∧
      (strict → ∀ e ∈ c.entries, e.rule.unreachable = []) ∧
      (∀ r c', c.register r = .ok c' → c'.lookup (.atom r.id) = .ok (.ofRule r) ∧
        ∀ id, id ≠ .atom r.id → c'.lookup id = c.lookup id) ∧
      (∀ r, strict → r.unreachable ≠ [] → c.perform (.register r) =
        (c, .error (.malformed (.unreachable r.id r.unreachable)))) ∧
      (∀ id c', c.unregister id = .ok c' → c'.lookup id = .error (.ruleNotFound id) ∧
        ∀ other, other ≠ id → c'.lookup other = c.lookup other) ∧
      ∀ id, c.lookup id = .error (.ruleNotFound id) →
        c.perform (.unregister id) = (c, .error (.ruleNotFound id)) := by
  intro c h
  have hc : Reflects h c := reflects_performAll predicates strict changes
  have hstrict : c.strict = strict := by
    rw [show c = (empty predicates strict).replay _ from performAll_eq_replay _ changes,
      strict_replay]
    rfl
  refine ⟨?_, hc.find?_eq, fun e => find?_of_mem hc.nodup_ids, hc.nodup_ids, ?_, hc.ordered, ?_,
    fun r c' => lookup_of_register, ?_, fun id c' => lookup_of_unregister, ?_⟩
  · intro id e he
    obtain ⟨r, -, rfl, rfl⟩ := hc.exists_rule he
    exact ⟨rfl, rfl⟩
  · exact fun id => (hc.mem_ids_iff id).trans exists_registeredAt_iff.symm
  · intro hs e he
    obtain ⟨r, hr, -, rfl⟩ := hc.exists_rule (find?_of_mem hc.nodup_ids he)
    have hreach : r.unreachable = [] := by
      simpa [Rule.isAdmitted, hs] using isAdmitted_of_mem_history hr
    exact hreach
  · intro r hs hloose
    have hno : ¬ r.isAdmitted c.strict := by simp [Rule.isAdmitted, hstrict, hs, hloose]
    rw [perform, register_eq, if_neg hno]
  · intro id hid
    rw [perform, unregister, hid]
    rfl

/-- A text with a rule that every catalogue admits, and then one with an unreachable variable. -/
def looseText : String :=
  "\x7b\"roths\": [\x7b\"id\": \"a\", \"given\": [\"A\"], \"conclusion\": [\"A\"]\x7d, " ++
    "\x7b\"id\": \"b\", \"given\": [\"A\"], \"conclusion\": [\"B\"]\x7d]\x7d"

theorem rulesOfText_looseText : rulesOfText looseText =
    .ok [.plain "a" [.atom "A"] [.atom "A"], .plain "b" [.atom "A"] [.atom "B"]] := by
  have h : (rulesOfText looseText).toOption.any fun rules =>
      rules.length == 2 && rules.head?.any (·.isPlain "a" [.atom "A"] [.atom "A"]) &&
        rules.tail.head?.any (·.isPlain "b" [.atom "A"] [.atom "B"]) := by
    decide +kernel
  rcases hread : rulesOfText looseText with e | _ | ⟨r, _ | ⟨s, _ | ⟨t, rules⟩⟩⟩
  all_goals simp [hread, Except.toOption, Rule.isPlain_iff, Term.isExpr] at h
  rw [h.1, h.2]

/-- Rules `a` and `b` are registered in a strict catalogue, a third one is refused, and `a` is
removed. Then the text is loaded, of which the first rule is another `a` and the second one is
refused. -/
def movedChanges : List Change :=
  [.register (.plain "a" [.atom "P"] [.atom "P"]), .register (.plain "b" [.atom "P"] [.atom "P"]),
    .register (.plain "c" [.atom "P"] [.atom "Q"]), .unregister (.atom "a"), .load looseText]

/-- After these changes `b` precedes `a`, which is the rule of the text. -/
theorem performAll_invariant_moved :
    let a : Rule := .plain "a" [.atom "A"] [.atom "A"]
    let c := (empty .empty true).performAll movedChanges
    rulesOfText looseText = .ok [a, .plain "b" [.atom "A"] [.atom "B"]] ∧
      c.ids = ["b", "a"] ∧ Precedes (history true movedChanges) "b" "a" ∧
      c.find? "a" = some (.ofRule a) ∧ ∀ e ∈ c.entries, e.rule.unreachable = [] := by
  intro a c
  have hids : c.ids = ["b", "a"] := by decide +kernel
  obtain ⟨-, hfind, -, -, -, hordered, hreach, -⟩ := performAll_invariant .empty true movedChanges
  refine ⟨rulesOfText_looseText, hids, ?_, (hfind "a").trans ?_, hreach rfl⟩
  · have hpair : ["b", "a"].Pairwise (Precedes (history true movedChanges)) := hids ▸ hordered
    exact List.rel_of_pairwise_cons hpair (by simp)
  · have hlast : lastRule? (history true movedChanges) "a" = some a := by
      simp only [history, movedChanges, List.flatMap_cons, Change.events,
        rulesOfText_looseText]
      rfl
    rw [hlast]
    rfl

/-- Registering a name again keeps its place. -/
example : ((empty .empty false).performAll [.register (.plain "a" [] [.atom "P"]),
    .register (.plain "b" [] [.atom "P"]), .unregister (.atom "c"),
    .register (.plain "a" [] [.atom "Q"])]).ids = ["a", "b"] := by
  decide

end Catalogue

end Deduction
