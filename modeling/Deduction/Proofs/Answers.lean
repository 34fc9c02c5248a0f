import Deduction.Proofs.Recheck

/-!
# What answers are made of

A call is answered from a solution of the equations of its rule. Two things follow about the
solution, whatever the rule is. With the answer in place of the wildcards, the arguments are an
instance of the templates of the rule. And the solution makes up no atoms: values of names that
leave the arguments as they are leave the solution as it is too, because the templates hold
nothing but pattern variables, reserved constants and operators.

## Main definitions

* `Catalogue.Solution`: the solution from which a call is answered.

## Main results

* `Relation.WellScoped.fill_image`: values that fix the arguments fix the solution.
* `Relation.WellScoped.exists_arg_of_mem_patternNames`: every atom of a solution is one of the
  arguments.
* `Catalogue.exists_instance_of_apply`: an answer completes an instance of the rule.
-/

namespace Deduction

/-! ### Solutions make up no atoms -/

namespace Relation

/-- Values that fit a relation still do when names in them are filled in. -/
theorem Fits.fill {rel : Relation} {β : String → Term} {values : List Term}
    (h : rel.Fits β values) (α : String → Term) :
    rel.Fits (fun x => (β x).fill α) (values.map (Term.fill α)) := by
  refine ⟨by rw [← h.1, List.map_map]; rfl, fun p hp => ?_⟩
  calc (β p.1).fill α = (p.2.fill β).fill α := by rw [h.2 p hp]
    _ = p.2.fill fun x => (β x).fill α := Term.fill_fill α β p.2

section

variable {rel : Relation} {serial : Int} {args : List Term} {σ : Bindings}

/-- **Values that fix the arguments fix the solution.** The solution with names filled in
respects the solution, and sends the variables that it leaves open to themselves. -/
theorem WellScoped.fill_image (hrel : rel.WellScoped) (hargs : ∀ a ∈ args, a.isExpr)
    (hlen : args.length = rel.arity)
    (h : Bindings.empty.unifyAll (rel.equations serial args) = some σ) {α : String → Term}
    (hfixed : ∀ a ∈ args, ∀ x ∈ a.patternNames, α x = .atom x) (v : Var) :
    (σ.image v).fill α = σ.image v := by
  obtain ⟨hacyclic, -, hrespect⟩ := hrel.solution_spec hargs hlen h
  -- The solution fits the relation, and filled in it still does, with the same arguments.
  have hfits := ((hrespect σ.image).mp hacyclic.respectedBy_image).fill α
  have hargs' : (args.map (Term.bind σ.image)).map (Term.fill α) =
      args.map (Term.bind fun w => (σ.image w).fill α) := by
    rw [List.map_map]
    exact List.map_congr_left fun a ha => Term.fill_bind (hfixed a ha) σ.image
  rw [hargs', ← hrespect fun w => (σ.image w).fill α] at hfits
  have hopen : ∀ w ∈ (σ.image v).vars, (σ.image w).fill α = .var w := by
    intro w hw
    rw [Bindings.image_of_unbound (hacyclic.unbound_of_mem_vars_apply hw)]
    rfl
  calc (σ.image v).fill α = (σ.image v).bind fun w => (σ.image w).fill α :=
        (hacyclic.bind_apply hfits (.var v)).symm
    _ = (σ.image v).bind .var := Term.bind_congr hopen
    _ = σ.image v := Term.bind_var _

/-- **Every atom of a solution is one of the arguments.** Otherwise a reserved constant could be
put in its place. -/
theorem WellScoped.exists_arg_of_mem_patternNames (hrel : rel.WellScoped)
    (hargs : ∀ a ∈ args, a.isExpr) (hlen : args.length = rel.arity)
    (h : Bindings.empty.unifyAll (rel.equations serial args) = some σ) {v : Var} {x : String}
    (hx : x ∈ (σ.image v).patternNames) : ∃ a ∈ args, x ∈ a.patternNames := by
  by_contra hnone
  simp only [not_exists, not_and] at hnone
  let α (y : String) : Term := if y = x then .atom "truth" else .atom y
  have hfixed : ∀ a ∈ args, ∀ y ∈ a.patternNames, α y = .atom y := by
    intro a ha y hy
    refine if_neg ?_
    rintro rfl
    exact hnone a ha hy
  rw [← hrel.fill_image hargs hlen h hfixed v] at hx
  obtain ⟨y, -, hxy⟩ := Term.mem_patternNames_fill.mp hx
  by_cases hy : y = x
  · simp [α, hy, Term.patternNames, Term.isKeyword, Term.keywords] at hxy
  · have hxy : Term.isKeyword y = false ∧ x = y := by simpa [α, hy, Term.patternNames] using hxy
    exact hy hxy.2.symm

end

end Relation

/-! ### Arguments of a call -/

namespace Call

/-- An opened argument is an unknown or the expression that an argument stands for. -/
theorem mem_of_openArgs {serial : Int} {n : Nat} {args out : List Term} {unknowns : List Var}
    (h : openArgs serial n args = .ok (unknowns, out)) {t : Term} (ht : t ∈ out) :
    (∃ v ∈ unknowns, t = .var v) ∨ ∃ a ∈ args, a.normalize = .ok t := by
  induction args generalizing n unknowns out with
  | nil =>
      obtain ⟨rfl, rfl⟩ := Prod.mk.inj (Except.ok.inj h)
      simp at ht
  | cons arg args ih =>
      by_cases harg : arg = .wildcard
      · subst harg
        obtain ⟨vs, ts, hrest, rfl, rfl⟩ := openArgs_wildcard_eq_ok_iff.mp h
        rcases List.mem_cons.mp ht with rfl | ht
        · exact .inl ⟨_, List.mem_cons_self, rfl⟩
        · rcases ih hrest ht with ⟨v, hv, rfl⟩ | ⟨a, ha, hnorm⟩
          · exact .inl ⟨v, List.mem_cons_of_mem _ hv, rfl⟩
          · exact .inr ⟨a, List.mem_cons_of_mem _ ha, hnorm⟩
      · obtain ⟨u, us, hnorm, hrest, rfl⟩ := (openArgs_cons_eq_ok_iff harg).mp h
        rcases List.mem_cons.mp ht with rfl | ht
        · exact .inr ⟨arg, List.mem_cons_self, hnorm⟩
        · refine (ih hrest ht).imp_right ?_
          rintro ⟨a, ha, hnorm⟩
          exact ⟨a, List.mem_cons_of_mem _ ha, hnorm⟩

end Call

/-! ### Answers -/

namespace Catalogue

/-- The solution `σ` from which a call is answered: it solves the equations of the entry `e` of
the call with the opened arguments. -/
structure Solution (c : Catalogue) (call : Call) (serial : Int) (unknowns : List Var)
    (σ : Bindings) (e : Entry) (args : List Term) : Prop where
  entryFor : c.entryFor call = .ok e
  eq_ofRule : e = .ofRule e.rule
  wellScoped : e.relation.WellScoped
  openArgs : Call.openArgs serial 0 call.args = .ok (unknowns, args)
  isExpr : ∀ a ∈ Call.relationOrder call.direction args, a.isExpr
  length : (Call.relationOrder call.direction args).length = e.relation.arity
  unifyAll : Bindings.empty.unifyAll (e.relation.equations (serial + unknowns.length)
    (Call.relationOrder call.direction args)) = some σ

section

variable {c : Catalogue} {call : Call} {serial : Int} {unknowns : List Var} {σ : Bindings}
  {e : Entry} {args : List Term}

/-- A call that ends well has a solution. -/
theorem exists_solution (hc : c.Holds fun r => r.Accepted ∧ r.IsVarFree)
    (hfree : ∀ a ∈ call.args, a.isVarFree)
    (h : c.attempt call serial = .ok (unknowns, .solved σ)) :
    ∃ e args, c.Solution call serial unknowns σ e args := by
  obtain ⟨e, args, hentry, hopen, hrun⟩ := attempt_eq_ok_iff.mp h
  obtain ⟨⟨hr, hv⟩, he⟩ := hc.eq_ofRule e (mem_entries_of_entryFor hentry)
  have hrel : e.relation.WellScoped := by
    rw [he]
    exact hr.wellScoped hv
  have hargs : ∀ a ∈ Call.relationOrder call.direction args, a.isExpr := fun a ha =>
    ((Call.openArgs_spec hfree hopen).2.2 a (Call.mem_of_mem_relationOrder ha)).1
  have hlen := Relation.length_of_run hrun
  exact ⟨e, args, hentry, he, hrel, hopen, hargs, hlen,
    ((hrel.run_eq_solved_iff rfl hargs hlen).mp hrun).1.2⟩

namespace Solution

/-- A solution is acyclic, binds expressions, and is respected by the maps that fit. -/
theorem spec (h : c.Solution call serial unknowns σ e args) :
    σ.Acyclic ∧ σ.AreExprs ∧ ∀ ψ, σ.RespectedBy ψ ↔
      e.relation.Fits (fun x => ψ (slotOf (serial + unknowns.length) e.relation.slots x))
        ((Call.relationOrder call.direction args).map (Term.bind ψ)) :=
  h.wellScoped.solution_spec h.isExpr h.length h.unifyAll

/-- A map that respects the solution makes the arguments an instance of the templates. -/
theorem exists_fill (h : c.Solution call serial unknowns σ e args) {θ : Var → Term}
    (hθ : σ.RespectedBy θ) :
    ∃ α, Call.relationOrder call.direction (args.map (Term.bind θ)) =
      (e.rule.inputs ++ e.rule.conclusion).map (Term.fill α) := by
  have hfits := (h.spec.2.2 θ).mp hθ
  rw [Call.map_relationOrder] at hfits
  exact ⟨_, Rule.eq_map_fill_of_fits (h.eq_ofRule ▸ hfits)⟩

/-- Every atom of the solution stands in one of the arguments of the call. -/
theorem exists_arg_of_mem_patternNames (h : c.Solution call serial unknowns σ e args) {v : Var}
    {x : String} (hx : x ∈ (σ.image v).patternNames) :
    ∃ a ∈ call.args, ∃ t, a.normalize = .ok t ∧ x ∈ t.patternNames := by
  obtain ⟨t, ht, hxt⟩ :=
    h.wellScoped.exists_arg_of_mem_patternNames h.isExpr h.length h.unifyAll hx
  rcases Call.mem_of_openArgs h.openArgs (Call.mem_of_mem_relationOrder ht) with
    ⟨v, -, rfl⟩ | ⟨a, ha, hnorm⟩
  · simp [Term.patternNames] at hxt
  · exact ⟨a, ha, t, hnorm, hxt⟩

end Solution

/-- **An answer completes an instance of the rule.** With the answer in place of the wildcards,
the arguments of the call stand for expressions that are in relation order an instance of the
templates of the rule. -/
theorem exists_instance_of_apply (hc : c.Holds fun r => r.Accepted ∧ r.IsVarFree)
    (hfree : ∀ a ∈ call.args, a.isVarFree) {answer : Answer}
    (h : c.apply call serial = .ok answer) :
    ∃ e exprs α, c.entryFor call = .ok e ∧
      Term.normalizeAll (Call.fillWildcards call.args answer.toList) = .ok exprs ∧
      Call.relationOrder call.direction exprs =
        (e.rule.inputs ++ e.rule.conclusion).map (Term.fill α) := by
  obtain ⟨unknowns, σ, hattempt, rfl⟩ := apply_eq_ok_iff.mp h
  obtain ⟨e, args, hsol⟩ := exists_solution hc hfree hattempt
  obtain ⟨hacyclic, hexprs, -⟩ := hsol.spec
  obtain ⟨θ, hθ, hvalues, hreify⟩ := exists_map_eq_reifyAll hacyclic hexprs unknowns
  obtain ⟨α, hα⟩ := hsol.exists_fill hθ
  refine ⟨e, args.map (Term.bind θ), α, hsol.entryFor, ?_, hα⟩
  rw [Answer.toList_ofValues, hreify]
  exact Call.normalizeAll_of_openArgs
    (@Call.openArgs_fillWildcards serial serial 0 0 _ _ _ hfree hsol.openArgs θ
      fun v => (hvalues v).1)

end

end Catalogue

end Deduction
