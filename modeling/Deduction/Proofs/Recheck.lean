import Deduction.Application
import Deduction.Proofs.Compile
import Deduction.Proofs.Writing

/-!
# Every answer checks

A call with wildcards is answered by values for them, and the same call with the values in place
of the wildcards is a check. The two run the relation of the rule on different arguments, with
different variables, and evaluate side conditions at different moments. We show that a check of
an answer always succeeds. The values are the images of the unknowns under the solution, with
placeholders for what stays open. So the arguments of the check are instances of those of the
call under a map that respects the solution, and `Relation.WellScoped.run_instance` applies.

## Main definitions

* `Catalogue.Holds`: catalogues that come about by registering and removing rules of a kind.
* `Call.fillWildcards`: the arguments of a call with values in place of its wildcards.

## Main results

* `Catalogue.Holds.eq_ofRule`: what a catalogue holds is derived from its rules.
* `Catalogue.entryFor_eq_ok_iff`: a call is for the entry that it fits, if it can be written.
* `Call.openArgs_spec`, `Call.openArgs_fillWildcards`: the arguments of a call and of its check.
* `Catalogue.check_fillWildcards`: every answer checks.
-/

namespace Deduction

/-! ### Catalogues -/

namespace Catalogue

/-- The catalogue comes about by registering rules of a kind, by removing rules, and by changes
of its predicates and of its strictness. -/
inductive Holds (P : Rule → Prop) : Catalogue → Prop
  | empty (predicates : PredicateTable) (strict : Bool) : Holds P (.empty predicates strict)
  | register {c c' : Catalogue} {r : Rule} :
      Holds P c → P r → c.register r = .ok c' → Holds P c'
  | unregister {c c' : Catalogue} {id : Term} :
      Holds P c → c.unregister id = .ok c' → Holds P c'
  | configure {c : Catalogue} (predicates : PredicateTable) (strict : Bool) :
      Holds P c → Holds P ⟨c.entries, predicates, strict⟩

/-- What `put` leaves in a list was there before or is new. -/
theorem mem_put {e e' : Entry} {entries : List Entry} (h : e' ∈ put e entries) :
    e' = e ∨ e' ∈ entries := by
  induction entries with
  | nil => simpa [put] using h
  | cons old rest ih =>
      rw [put] at h
      split at h
      · rcases List.mem_cons.mp h with rfl | h
        · exact .inl rfl
        · exact .inr (List.mem_cons_of_mem _ h)
      · rcases List.mem_cons.mp h with rfl | h
        · exact .inr List.mem_cons_self
        · exact (ih h).imp_right (List.mem_cons_of_mem _)

/-- The entries after a registration. -/
theorem entries_of_register {c c' : Catalogue} {r : Rule} (h : c.register r = .ok c') :
    c'.entries = put (.ofRule r) c.entries := by
  obtain ⟨-, -, h⟩ := bind_eq_ok_iff.mp h
  rw [← Except.ok.inj h]

/-- Removing a rule adds no entry. -/
theorem mem_of_mem_unregister {c c' : Catalogue} {id : Term} (h : c.unregister id = .ok c')
    {e : Entry} (he : e ∈ c'.entries) : e ∈ c.entries := by
  obtain ⟨old, -, h⟩ := bind_eq_ok_iff.mp h
  rw [← Except.ok.inj h] at he
  exact (List.mem_filter.mp he).1

/-- **What a catalogue holds is derived from its rules.** Induction on how the catalogue came
about. -/
theorem Holds.eq_ofRule {P : Rule → Prop} {c : Catalogue} (h : c.Holds P) :
    ∀ e ∈ c.entries, P e.rule ∧ e = .ofRule e.rule := by
  induction h with
  | empty predicates strict => simp [Catalogue.empty]
  | register _ hr hreg ih =>
      intro e he
      rw [entries_of_register hreg] at he
      rcases mem_put he with rfl | he
      · exact ⟨hr, rfl⟩
      · exact ih e he
  | unregister _ hreg ih => exact fun e he => ih e (mem_of_mem_unregister hreg he)
  | configure _ _ _ ih => exact ih

/-- Rules of a kind are rules of every wider kind. -/
theorem Holds.mono {P Q : Rule → Prop} {c : Catalogue} (h : c.Holds P) (hPQ : ∀ r, P r → Q r) :
    c.Holds Q := by
  induction h with
  | empty predicates strict => exact .empty predicates strict
  | register _ hr hreg ih => exact .register ih (hPQ _ hr) hreg
  | unregister _ hreg ih => exact .unregister ih hreg
  | configure predicates strict _ ih => exact .configure predicates strict ih

/-- Registering rules one by one adds rules of the list only. -/
theorem Holds.registerAll {P : Rule → Prop} {c : Catalogue} (h : c.Holds P) {rules : List Rule}
    (hrules : ∀ r ∈ rules, P r) : (c.registerAll rules).1.Holds P := by
  induction rules generalizing c with
  | nil => exact h
  | cons r rules ih =>
      rw [List.forall_mem_cons] at hrules
      rw [Catalogue.registerAll]
      split
      · rename_i c' hreg
        exact ih (h.register hrules.1 hreg) hrules.2
      · exact h

/-- The catalogue of a list of rules holds rules of the list only. -/
theorem holds_of_ofRules {rules : List Rule} {predicates : PredicateTable} {strict : Bool}
    {c : Catalogue} (h : ofRules rules predicates strict = .ok c) : c.Holds (· ∈ rules) := by
  have hall := (Holds.empty (P := (· ∈ rules)) predicates strict).registerAll fun r hr => hr
  rw [ofRules] at h
  split at h
  · rename_i c' hreg
    rw [← Except.ok.inj h]
    rwa [hreg] at hall
  · cases h

/-- What is looked up is an entry of the catalogue. -/
theorem mem_entries_of_lookup {c : Catalogue} {id : Term} {e : Entry}
    (h : c.lookup id = .ok e) : e ∈ c.entries := by
  unfold lookup at h
  split at h
  · split at h
    · rename_i hfind
      rw [← Except.ok.inj h]
      exact List.mem_of_find?_eq_some hfind
    · cases h
  · split at h
    · cases h
    · cases h

/-- What is looked up has the name that was asked for. -/
theorem eq_atom_of_lookup {c : Catalogue} {id : Term} {e : Entry} (h : c.lookup id = .ok e) :
    id = .atom e.rule.id := by
  unfold lookup at h
  split at h
  · split at h
    · rename_i name _ _ hfind
      have hname : e.id = name := by simpa [Except.ok.inj h] using List.find?_some hfind
      rw [← hname, Entry.id]
    · cases h
  · split at h
    · cases h
    · cases h

/-- The entry that a call fits is the one of its rule. -/
theorem lookup_of_entryFitting {c : Catalogue} {call : Call} {e : Entry}
    (h : c.entryFitting call = .ok e) : c.lookup call.rule = .ok e := by
  obtain ⟨e', hlookup, h⟩ := bind_eq_ok_iff.mp h
  suffices he : e' = e by
    rw [← he]
    exact hlookup
  cases hd : call.direction with
  | none =>
      simp only [hd] at h
      split at h
      · exact Except.ok.inj h
      · cases h
  | some direction =>
      simp only [hd] at h
      split at h
      · cases h
      · split at h
        · exact Except.ok.inj h
        · cases h

/-- A call is for the entry that it fits, if the call can be written. -/
theorem entryFor_eq_ok_iff {c : Catalogue} {call : Call} {e : Entry} :
    c.entryFor call = .ok e ↔ c.entryFitting call = .ok e ∧ call.isWritable := by
  rw [entryFor, bind_eq_ok_iff]
  by_cases hwritable : call.isWritable
  · simp [hwritable, pure, Except.pure]
  · simp [hwritable, throw, throwThe, MonadExceptOf.throw]

/-- Otherwise it fails with what keeps it from fitting, or from being written. -/
theorem entryFor_eq_error_iff {c : Catalogue} {call : Call} {cause : Error} :
    c.entryFor call = .error cause ↔ c.entryFitting call = .error cause ∨
      (∃ e, c.entryFitting call = .ok e) ∧ call.isWritable = false ∧ cause = .unwritable := by
  rw [entryFor, bind_eq_error_iff]
  cases hwritable : call.isWritable with
  | true => simp [pure, Except.pure]
  | false => simp [throw, throwThe, MonadExceptOf.throw, eq_comm]

/-- The entry that a call is for is the one of its rule. -/
theorem lookup_of_entryFor {c : Catalogue} {call : Call} {e : Entry}
    (h : c.entryFor call = .ok e) : c.lookup call.rule = .ok e :=
  lookup_of_entryFitting (entryFor_eq_ok_iff.mp h).1

/-- The entry that a call is for is one of the catalogue. -/
theorem mem_entries_of_entryFor {c : Catalogue} {call : Call} {e : Entry}
    (h : c.entryFor call = .ok e) : e ∈ c.entries :=
  mem_entries_of_lookup (lookup_of_entryFor h)

/-- With other arguments that can be written, as many as before, a call is for the same entry. -/
theorem entryFor_of_areWritable {c : Catalogue} {call : Call} {e : Entry} {args : List Term}
    (h : c.entryFor call = .ok e) (hlength : args.length = call.args.length)
    (hwritable : Term.areWritable args) : c.entryFor { call with args := args } = .ok e := by
  refine entryFor_eq_ok_iff.mpr ⟨?_, hwritable⟩
  simpa only [entryFitting, hlength] using (entryFor_eq_ok_iff.mp h).1

end Catalogue

/-! ### Arguments -/

namespace Call

/-- The arguments of a call with the values in place of the wildcards, from left to right. -/
def fillWildcards : (args values : List Term) → List Term
  | [], _ => []
  | .wildcard :: args, value :: values => value :: fillWildcards args values
  | arg :: args, values => arg :: fillWildcards args values

/-- Filling in keeps the number of arguments. -/
@[simp] theorem length_fillWildcards (args values : List Term) :
    (fillWildcards args values).length = args.length := by
  fun_induction fillWildcards args values with
  | case1 => rfl
  | case2 _ _ _ ih => simp [ih]
  | case3 _ _ _ _ ih => simp [ih]

/-- Opening arguments of which the first is a wildcard. -/
theorem openArgs_wildcard_eq_ok_iff {serial : Int} {n : Nat} {args out : List Term}
    {unknowns : List Var} :
    openArgs serial n (.wildcard :: args) = .ok (unknowns, out) ↔
      ∃ vs ts, openArgs serial (n + 1) args = .ok (vs, ts) ∧
        unknowns = unknown serial n :: vs ∧ out = .var (unknown serial n) :: ts := by
  rw [openArgs, bind_eq_ok_iff]
  constructor
  · rintro ⟨⟨vs, ts⟩, hrest, h⟩
    obtain ⟨rfl, rfl⟩ := Prod.mk.inj (Except.ok.inj h)
    exact ⟨vs, ts, hrest, rfl, rfl⟩
  · rintro ⟨vs, ts, hrest, rfl, rfl⟩
    exact ⟨(vs, ts), hrest, rfl⟩

/-- Opening arguments of which the first is no wildcard. -/
theorem openArgs_cons_eq_ok_iff {serial : Int} {n : Nat} {arg : Term} {args out : List Term}
    {unknowns : List Var} (harg : arg ≠ .wildcard) :
    openArgs serial n (arg :: args) = .ok (unknowns, out) ↔
      ∃ t ts, arg.normalize = .ok t ∧ openArgs serial n args = .ok (unknowns, ts) ∧
        out = t :: ts := by
  rw [openArgs.eq_3 _ _ _ _ harg]
  simp only [bind_eq_ok_iff]
  constructor
  · rintro ⟨t, ht, ⟨vs, ts⟩, hrest, h⟩
    obtain ⟨rfl, rfl⟩ := Prod.mk.inj (Except.ok.inj h)
    exact ⟨t, ts, ht, hrest, rfl⟩
  · rintro ⟨t, ts, ht, hrest, rfl⟩
    exact ⟨t, ht, (unknowns, ts), hrest, rfl⟩

/-- Arguments without wildcards are opened by normalising them. -/
theorem normalizeAll_of_openArgs {serial : Int} {n : Nat} {args out : List Term}
    (h : openArgs serial n args = .ok ([], out)) : Term.normalizeAll args = .ok out := by
  induction args generalizing n out with
  | nil =>
      obtain ⟨-, rfl⟩ := Prod.mk.inj (Except.ok.inj h)
      rfl
  | cons arg args ih =>
      by_cases harg : arg = .wildcard
      · subst harg
        obtain ⟨vs, ts, -, hnil, -⟩ := openArgs_wildcard_eq_ok_iff.mp h
        cases hnil
      · obtain ⟨u, us, hnorm, hrest, rfl⟩ := (openArgs_cons_eq_ok_iff harg).mp h
        exact Term.normalizeAll_cons_eq_ok_iff.mpr ⟨u, us, hnorm, ih hrest, rfl⟩

/-- Arguments that stand for expressions without variables can be written. -/
theorem areWritable_of_openArgs {serial : Int} {n : Nat} {args out : List Term}
    (h : openArgs serial n args = .ok ([], out)) (hout : ∀ t ∈ out, t.isExpr ∧ t.isGround) :
    Term.areWritable args := by
  rw [Term.areWritable_of_normalizeAll (normalizeAll_of_openArgs h), Term.areWritable_iff]
  exact fun t ht => Term.isWritable_of_isGround (hout t ht).1 (hout t ht).2

/-- **What opening arguments without variables gives**: one unknown for each wildcard, numbered
from the first serial on, and expressions that hold no other variables. -/
theorem openArgs_spec {serial : Int} {n : Nat} {args out : List Term} {unknowns : List Var}
    (hfree : ∀ a ∈ args, a.isVarFree) (h : openArgs serial n args = .ok (unknowns, out)) :
    unknowns.length = args.countP isWildcard ∧
      (∀ v ∈ unknowns, v.serial < serial + n + unknowns.length) ∧
      ∀ t ∈ out, t.isExpr ∧ ∀ v ∈ t.vars, v ∈ unknowns := by
  induction args generalizing n unknowns out with
  | nil =>
      obtain ⟨rfl, rfl⟩ := Prod.mk.inj (Except.ok.inj h)
      simp
  | cons arg args ih =>
      rw [List.forall_mem_cons] at hfree
      by_cases harg : arg = .wildcard
      · subst harg
        obtain ⟨vs, ts, hrest, rfl, rfl⟩ := openArgs_wildcard_eq_ok_iff.mp h
        obtain ⟨hcount, hserial, hout⟩ := ih hfree.2 hrest
        refine ⟨by rw [List.length_cons, hcount, List.countP_cons_of_pos rfl], ?_, ?_⟩
        · intro v hv
          rw [List.length_cons]
          rcases List.mem_cons.mp hv with rfl | hv
          · simp only [unknown]
            omega
          · have := hserial v hv
            omega
        · intro t ht
          rcases List.mem_cons.mp ht with rfl | ht
          · exact ⟨rfl, fun v hv => by simp [Term.mem_vars_var.mp hv]⟩
          · exact ⟨(hout t ht).1, fun v hv => List.mem_cons_of_mem _ ((hout t ht).2 v hv)⟩
      · obtain ⟨t, ts, hnorm, hrest, rfl⟩ := (openArgs_cons_eq_ok_iff harg).mp h
        obtain ⟨hcount, hserial, hout⟩ := ih hfree.2 hrest
        obtain ⟨hexpr, hground⟩ := Term.isExpr_of_normalize hnorm
        have hnot : isWildcard arg = false := by cases arg <;> simp_all [isWildcard]
        refine ⟨by simp [hcount, hnot], hserial, ?_⟩
        rw [List.forall_mem_cons]
        exact ⟨⟨hexpr, fun v hv => absurd hv (Term.isGround_iff.mp (hground hfree.1) v)⟩, hout⟩

/-- **Opening the arguments of a check.** With values of the unknowns in place of the wildcards
nothing is left to solve for, and the opened arguments are the instances of those before. -/
theorem openArgs_fillWildcards {serial serial' : Int} {n m : Nat} {args out : List Term}
    {unknowns : List Var} (hfree : ∀ a ∈ args, a.isVarFree)
    (h : openArgs serial n args = .ok (unknowns, out)) {θ : Var → Term}
    (hθ : ∀ v, (θ v).isExpr) :
    openArgs serial' m (fillWildcards args (unknowns.map θ)) =
      .ok ([], out.map (Term.bind θ)) := by
  induction args generalizing n unknowns out with
  | nil =>
      obtain ⟨rfl, rfl⟩ := Prod.mk.inj (Except.ok.inj h)
      rfl
  | cons arg args ih =>
      rw [List.forall_mem_cons] at hfree
      by_cases harg : arg = .wildcard
      · subst harg
        obtain ⟨vs, ts, hrest, rfl, rfl⟩ := openArgs_wildcard_eq_ok_iff.mp h
        have hvalue : θ (unknown serial n) ≠ .wildcard := by
          intro heq
          have := hθ (unknown serial n)
          simp [heq, Term.isExpr] at this
        rw [List.map_cons, fillWildcards, openArgs_cons_eq_ok_iff hvalue]
        exact ⟨_, _, Term.normalize_of_isExpr (hθ _), ih hfree.2 hrest, rfl⟩
      · obtain ⟨t, ts, hnorm, hrest, rfl⟩ := (openArgs_cons_eq_ok_iff harg).mp h
        have hground := (Term.isExpr_of_normalize hnorm).2 hfree.1
        have hfill : fillWildcards (arg :: args) (unknowns.map θ) =
            arg :: fillWildcards args (unknowns.map θ) := by
          cases arg <;> first | rfl | exact absurd rfl harg
        rw [hfill, openArgs_cons_eq_ok_iff harg]
        refine ⟨t, _, hnorm, ih hfree.2 hrest, ?_⟩
        rw [List.map_cons, Term.bind_of_isGround hground]

/-- Relation order is the same for arguments and their instances. -/
theorem map_relationOrder (direction : Option Direction) (f : Term → Term) (args : List Term) :
    (relationOrder direction args).map f = relationOrder direction (args.map f) := by
  cases direction with
  | none => rfl
  | some direction =>
      cases direction with
      | forward => rfl
      | backward => simp [relationOrder, List.map_take]

/-- Relation order adds no argument. -/
theorem mem_of_mem_relationOrder {direction : Option Direction} {args : List Term} {t : Term}
    (h : t ∈ relationOrder direction args) : t ∈ args := by
  cases direction with
  | none => exact h
  | some direction =>
      cases direction with
      | forward => exact h
      | backward =>
          rcases List.mem_append.mp h with h | h
          · exact List.mem_of_mem_drop h
          · exact List.mem_of_mem_take h

end Call

/-! ### Answers -/

namespace Term

/-- A placeholder is an expression. -/
theorem isExpr_placeholder (n : Nat) : (placeholder n).isExpr := by
  simp [placeholder, isExpr]

/-- A term with placeholders for all its variables is ground. -/
theorem isGround_bind_placeholder (rank : Var → Nat) (t : Term) :
    (t.bind fun v => placeholder (rank v)).isGround := by
  rw [isGround_iff]
  intro w hw
  obtain ⟨v, -, hv⟩ := mem_vars_bind.mp hw
  simp [placeholder, vars] at hv

end Term

/-- A map that respects bindings still does when followed by another one. -/
theorem Bindings.RespectedBy.bind {σ : Bindings} {θ : Var → Term} (h : σ.RespectedBy θ)
    (φ : Var → Term) : σ.RespectedBy fun v => (θ v).bind φ := by
  intro v t ht
  calc (θ v).bind φ = (t.bind θ).bind φ := by rw [h v t ht]
    _ = t.bind fun w => (θ w).bind φ := Term.bind_bind _ _ t

@[simp] theorem Answer.toList_ofValues (ts : List Term) : (Answer.ofValues ts).toList = ts := by
  match ts with
  | [] => rfl
  | [_] => rfl
  | _ :: _ :: _ => rfl

/-- The values of unknowns under a solution, with placeholders for what stays open, are those of
one map. -/
theorem exists_map_eq_reifyAll {σ : Bindings} (hσ : σ.Acyclic) (he : σ.AreExprs)
    (unknowns : List Var) :
    ∃ θ : Var → Term, σ.RespectedBy θ ∧ (∀ v, (θ v).isExpr ∧ (θ v).isGround) ∧
      Term.reifyAll (unknowns.map fun v => σ.apply (.var v)) = unknowns.map θ := by
  generalize hts : unknowns.map (fun v => σ.apply (.var v)) = ts
  refine ⟨fun v => (σ.image v).bind fun w => Term.placeholder ((firsts (Term.varsIn ts)).idxOf w),
    hσ.respectedBy_image.bind _, fun v => ⟨?_, Term.isGround_bind_placeholder _ _⟩, ?_⟩
  · exact Term.isExpr_bind (hσ.isExpr_image he v) fun w _ => Term.isExpr_placeholder _
  · rw [Term.reifyAll, Term.bindAll_eq_map, ← hts, List.map_map]
    rfl

namespace Catalogue

/-- The search of a call with so many unknowns. -/
def searchFor (c : Catalogue) (call : Call) (serial : Int) (unknowns : Nat) : Search :=
  ⟨c.predicates, call.limit.getD Search.defaultLimit, true, serial + unknowns⟩

/-- When the run of a call gives an outcome. -/
theorem attempt_eq_ok_iff {c : Catalogue} {call : Call} {serial : Int} {unknowns : List Var}
    {outcome : Outcome} :
    c.attempt call serial = .ok (unknowns, outcome) ↔
      ∃ e args, c.entryFor call = .ok e ∧ Call.openArgs serial 0 call.args = .ok (unknowns, args) ∧
        e.relation.run (c.searchFor call serial unknowns.length)
          (Call.relationOrder call.direction args) = .ok outcome := by
  rw [attempt, bind_eq_ok_iff]
  refine exists_congr fun e => ?_
  cases hopen : Call.openArgs serial 0 call.args with
  | error cause => simp [throw, throwThe, MonadExceptOf.throw]
  | ok opened =>
      obtain ⟨vs, ts⟩ := opened
      simp only [Except.ok.injEq, Prod.mk.injEq, searchFor]
      cases hrun : e.relation.run ⟨c.predicates, call.limit.getD Search.defaultLimit, true,
          serial + vs.length⟩ (Call.relationOrder call.direction ts) with
      | error cause =>
          simp only [throw, throwThe, MonadExceptOf.throw, reduceCtorEq, and_false, false_iff,
            not_exists, not_and]
          rintro args - ⟨rfl, rfl⟩
          simp [hrun]
      | ok result =>
          constructor
          · rintro ⟨he, h⟩
            obtain ⟨rfl, rfl⟩ := Prod.mk.inj (Except.ok.inj h)
            exact ⟨ts, he, ⟨rfl, rfl⟩, hrun⟩
          · rintro ⟨args, he, ⟨rfl, rfl⟩, h⟩
            rw [hrun] at h
            obtain rfl := Except.ok.inj h
            exact ⟨he, rfl⟩

/-- A call is answered when its run ends well, with the values of its unknowns. -/
theorem apply_eq_ok_iff {c : Catalogue} {call : Call} {serial : Int} {answer : Answer} :
    c.apply call serial = .ok answer ↔
      ∃ unknowns σ, c.attempt call serial = .ok (unknowns, .solved σ) ∧
        answer = .ofValues (Term.reifyAll (unknowns.map fun v => σ.apply (.var v))) := by
  rw [apply]
  constructor
  · intro h
    cases hattempt : c.attempt call serial with
    | error cause => simp [hattempt] at h
    | ok result =>
        obtain ⟨unknowns, outcome⟩ := result
        rw [hattempt] at h
        cases outcome with
        | solved σ => exact ⟨unknowns, σ, rfl, (Except.ok.inj h).symm⟩
        | refuted => cases h
        | suspended waiting => cases h
  · rintro ⟨unknowns, σ, hattempt, rfl⟩
    rw [hattempt]

/-- **Every answer checks.** Take a catalogue of accepted rules without logic variables and a
call without them, in any direction and with any limit. If the call is answered, the answer has
one value for each wildcard, and with the values in place of the wildcards, in order, the call
passes as a check, whatever serial the variables of the check start from. -/
theorem check_fillWildcards (c : Catalogue) (hc : c.Holds fun r => r.Accepted ∧ r.IsVarFree)
    (call : Call) (hfree : ∀ a ∈ call.args, a.isVarFree) (serial : Int) (answer : Answer)
    (h : c.apply call serial = .ok answer) :
    answer.toList.length = call.args.countP Call.isWildcard ∧
      ∀ serial', c.check { call with args := Call.fillWildcards call.args answer.toList }
        serial' = .ok true := by
  obtain ⟨unknowns, σ, hattempt, rfl⟩ := apply_eq_ok_iff.mp h
  obtain ⟨e, args, hentry, hopen, hrun⟩ := attempt_eq_ok_iff.mp hattempt
  obtain ⟨⟨hr, hv⟩, he⟩ := hc.eq_ofRule e (mem_entries_of_entryFor hentry)
  have hrel : e.relation.WellScoped := by
    rw [he]
    exact hr.wellScoped hv
  obtain ⟨hcount, hserial, hout⟩ := Call.openArgs_spec hfree hopen
  have hargs : ∀ a ∈ Call.relationOrder call.direction args, a.isExpr := fun a ha =>
    (hout a (Call.mem_of_mem_relationOrder ha)).1
  -- The unknowns come before the slots, so no argument holds the variable of a slot.
  have hapart : e.relation.Apart (serial + unknowns.length)
      (Call.relationOrder call.direction args) := by
    intro a ha v hva hslot
    have hlt := hserial v ((hout a (Call.mem_of_mem_relationOrder ha)).2 v hva)
    have hle := le_serial_of_mem_slotVars hslot
    omega
  have hlen := Relation.length_of_run hrun
  obtain ⟨⟨-, hσ⟩, -⟩ := (hrel.run_eq_solved_iff rfl hargs hlen).mp hrun
  obtain ⟨hacyclic, hexprs, -⟩ := hrel.solution_spec hargs hlen hσ
  obtain ⟨θ, hθ, hvalues, hreify⟩ := exists_map_eq_reifyAll hacyclic hexprs unknowns
  rw [Answer.toList_ofValues, hreify]
  refine ⟨by rw [List.length_map, hcount], fun serial' => ?_⟩
  have hopen' : Call.openArgs serial' 0 (Call.fillWildcards call.args (unknowns.map θ)) =
      .ok ([], args.map (Term.bind θ)) :=
    Call.openArgs_fillWildcards hfree hopen fun v => (hvalues v).1
  have hinst : ∀ a ∈ args, (a.bind θ).isExpr ∧ (a.bind θ).isGround := by
    intro a ha
    refine ⟨Term.isExpr_bind (hout a ha).1 fun v _ => (hvalues v).1, ?_⟩
    rw [Term.isGround_iff]
    intro w hw
    obtain ⟨v, -, hwv⟩ := Term.mem_vars_bind.mp hw
    exact Term.isGround_iff.mp (hvalues v).2 w hwv
  obtain ⟨τ, hτ⟩ := @Relation.WellScoped.run_instance _ _ hrel
    (c.searchFor call serial unknowns.length) (c.searchFor call serial' 0) rfl rfl rfl rfl
    hargs hapart σ hrun θ hθ fun a ha => hinst a (Call.mem_of_mem_relationOrder ha)
  rw [Call.map_relationOrder] at hτ
  have hwritable := Call.areWritable_of_openArgs hopen' (List.forall_mem_map.mpr hinst)
  have hattempt' : c.attempt { call with args := Call.fillWildcards call.args (unknowns.map θ) }
      serial' = .ok ([], .solved τ) :=
    attempt_eq_ok_iff.mpr
      ⟨e, _, entryFor_of_areWritable hentry (by simp) hwritable, hopen', hτ⟩
  rw [check, apply_eq_ok_iff.mpr ⟨_, τ, hattempt', rfl⟩]
  rfl

/-- The catalogue whose only rule leads from `A` to `(or A B)`. -/
def weakening : Catalogue :=
  ⟨[.ofRule (.plain "or-i1" [.atom "A"] [.ofName "or" [.atom "A", .atom "B"]])], .empty, false⟩

/-- The backward call of that rule with the given `P`. -/
def weakeningTo (goal : Term) : Call :=
  ⟨.atom "or-i1", [goal, .atom "P"], some .backward, none⟩

/-- With its conclusion unknown the call has the answer `(or P _0)`, in which the second part is
open. The answer checks, and does not with its parts exchanged. -/
theorem check_fillWildcards_or :
    weakening.apply (weakeningTo .wildcard) 1 =
        .ok (.value (.ofName "or" [.atom "P", .atom "_0"])) ∧
      (∀ serial', weakening.check (weakeningTo (.ofName "or" [.atom "P", .atom "_0"])) serial' =
        .ok true) ∧
      weakening.check (weakeningTo (.ofName "or" [.atom "_0", .atom "P"])) 1 = .ok false := by
  have hholds : weakening.Holds fun r => r.Accepted ∧ r.IsVarFree :=
    .register (.empty .empty false)
      ⟨Rule.accepted_of_isExpr (by decide) (by decide), by decide⟩ rfl
  have happly : weakening.apply (weakeningTo .wildcard) 1 =
      .ok (.value (.ofName "or" [.atom "P", .atom "_0"])) := rfl
  exact ⟨happly, (check_fillWildcards weakening hholds _ (by decide) 1 _ happly).2, rfl⟩

end Catalogue

end Deduction
