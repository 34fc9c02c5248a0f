import Deduction.Proofs.Compile

/-!
# Relations accept the instances of their rules

An argument list is an instance of a rule under a map of its variables if the pattern variables
of the rule have values for which every template becomes the argument in its place. The relation
of a hygienic rule without side conditions has a solution for exactly the argument lists that
can be made instances, and every map that makes them one is the solution followed by a single
further map.

## Main definitions

* `Rule.IsInstance`: the arguments are an instance of the rule under a map.

## Main results

* `Relation.WellScoped.first_cases`: how a run without checks ends.
* `Rule.Accepted.isInstance_image`: a solution of the equations makes the arguments an instance.
* `Rule.Hygienic.exists_fits_of_isInstance`: an instance comes from values that fit the relation.
* `Rule.first_most_general`: solutions of the relation are most general instances of the rule.
-/

namespace Deduction

/-- How a run without checks ends, unless the steps run out: with the solution of the equations
if they have one, and without a solution otherwise. -/
theorem Relation.WellScoped.first_cases {rel : Relation} (hrel : rel.WellScoped)
    (hchecks : rel.checks = []) {search : Search} (hoc : search.occursCheck = true)
    {args : List Term} (hargs : ∀ a ∈ args, a.isExpr) (hlen : args.length = rel.arity)
    (hlimit : rel.run search args ≠ .error (.searchLimit rel.id search.limit)) :
    rel.first search args =
      .ok (Bindings.empty.unifyAll (rel.equations search.serial args)) := by
  have hp : PairsOfExprs (rel.equations search.serial args) := hrel.pairsOfExprs hargs
  have hrun : rel.run search args =
      Relation.solve rel.id search (rel.equations search.serial args) 0 .empty [] := by
    rw [hrel.run_eq search hlen, hchecks]
    rfl
  have hcases := @Relation.solve_nil_cases rel.id search hoc _ 0 _ Bindings.acyclic_empty
    Bindings.areExprs_empty hp
  rw [← hrun] at hcases
  rcases hcases with h | ⟨τ, hτ, h⟩ | ⟨hnone, h⟩
  · exact absurd h hlimit
  · rw [Relation.first, h, hτ]
    rfl
  · rw [Relation.first, h, hnone]
    rfl

namespace Rule

/-- The arguments are an instance of the rule under the map: for some expressions as values of
the pattern variables every template becomes the argument in its place. -/
def IsInstance (r : Rule) (args : List Term) (τ : Var → Term) : Prop :=
  ∃ α : String → Term, (∀ x, (α x).isExpr) ∧
    List.Forall₂ (fun template arg =>
      Term.instantiate (fun x => some (α x)) template = .ok (arg.bind τ))
      (r.inputs ++ r.conclusion) args

/-- Being an instance, with all templates filled in at once. -/
theorem Accepted.isInstance_iff {r : Rule} (hr : r.Accepted) {args : List Term}
    {τ : Var → Term} :
    r.IsInstance args τ ↔ ∃ α : String → Term, (∀ x, (α x).isExpr) ∧
      (r.inputs ++ r.conclusion).map (Term.fill α) = args.map (Term.bind τ) := by
  have hfill : ∀ α : String → Term, ∀ t ∈ r.inputs ++ r.conclusion,
      Term.instantiate (fun x => some (α x)) t = .ok (t.fill α) := fun α t ht =>
    Term.instantiate_eq_fill (hr.isExpr t (List.mem_append_left _ ht)) fun _ _ => rfl
  refine exists_congr fun α => and_congr_right fun _ => ?_
  rw [← List.forall₂_eq_eq_eq, List.forall₂_map_left_iff, List.forall₂_map_right_iff]
  generalize r.inputs ++ r.conclusion = ts at hfill
  constructor
  · intro h
    induction h with
    | nil => exact .nil
    | cons hhead _ ih =>
        rw [hfill α _ (by simp), Except.ok.injEq] at hhead
        exact .cons hhead (ih fun β t ht => hfill β t (by simp [ht]))
  · intro h
    induction h with
    | nil => exact .nil
    | cons hhead _ ih =>
        refine .cons ?_ (ih fun β t ht => hfill β t (by simp [ht]))
        rw [hfill α _ (by simp), hhead]

/-- A solution of the equations of a run has expressions as values and makes the arguments an
instance of the rule. -/
theorem Accepted.isInstance_image {r : Rule} (hr : r.Accepted) (hv : r.IsVarFree) {serial : Int}
    {args : List Term} (hargs : ∀ a ∈ args, a.isExpr) (hlen : args.length = r.compile.arity)
    {σ : Bindings} (h : Bindings.empty.unifyAll (r.compile.equations serial args) = some σ) :
    (∀ v, (σ.image v).isExpr) ∧ r.IsInstance args σ.image := by
  obtain ⟨hacyclic, hexprs, hrespect⟩ := (hr.wellScoped hv).solution_spec hargs hlen h
  have hfits := (hrespect σ.image).mp hacyclic.respectedBy_image
  have himage := hacyclic.isExpr_image hexprs
  exact ⟨himage, hr.isInstance_iff.mpr
    ⟨_, fun x => himage _, (eq_map_fill_of_fits hfits).symm⟩⟩

/-- Of a hygienic rule, an instance comes from values that fit the relation. -/
theorem Hygienic.exists_fits_of_isInstance {r : Rule} (hhygienic : r.Hygienic) (hr : r.Accepted)
    {args : List Term} {τ : Var → Term} (h : r.IsInstance args τ) :
    ∃ β : String → Term, (∀ x, (β x).isExpr) ∧
      r.compile.Fits β (args.map (Term.bind τ)) := by
  obtain ⟨α, hα, heq⟩ := hr.isInstance_iff.mp h
  refine ⟨r.assign α, hr.isExpr_assign hα, ?_⟩
  rw [← heq]
  exact hhygienic.fits_assign α

/-- **Solutions of the relation are most general instances of the rule.** Take a hygienic rule
without side conditions and arguments that hold no variable of the run, and let the steps
suffice. Then the relation returns a solution exactly when some map makes the arguments an
instance of the rule. The solution is such a map itself, and every such map is, on the variables
of the arguments, the solution followed by one further map. -/
theorem first_most_general (r : Rule) (hr : r.Accepted) (hv : r.IsVarFree)
    (hprereq : r.prereq = none) (hhygienic : r.Hygienic) (search : Search)
    (hoc : search.occursCheck = true) (args : List Term) (hlen : args.length = r.arity)
    (hargs : ∀ a ∈ args, a.isExpr) (hapart : r.compile.Apart search.serial args)
    (hlimit : r.compile.run search args ≠ .error (.searchLimit r.id search.limit)) :
    ∃ result, r.compile.first search args = .ok result ∧
      (result.isSome ↔ ∃ τ : Var → Term, (∀ v, (τ v).isExpr) ∧ r.IsInstance args τ) ∧
      ∀ sub, result = some sub →
        ((∀ v, (sub.image v).isExpr) ∧ r.IsInstance args sub.image) ∧
        ∀ τ : Var → Term, (∀ v, (τ v).isExpr) → r.IsInstance args τ →
          ∃ ρ : Var → Term, (∀ v, (ρ v).isExpr) ∧
            ∀ q ∈ Term.varsIn args, τ q = (sub.apply (.var q)).bind ρ := by
  have hrel := hr.wellScoped hv
  have hlen' : args.length = r.compile.arity := by rw [hlen, arity_compile]
  have hchecks : r.compile.checks = [] := by rw [checks_compile, checks, hprereq]; rfl
  refine ⟨_, hrel.first_cases hchecks hoc hargs hlen' hlimit, ⟨fun hsome => ?_, ?_⟩, ?_⟩
  · obtain ⟨sub, hsub⟩ := Option.isSome_iff_exists.mp hsome
    exact ⟨sub.image, hr.isInstance_image hv hargs hlen' hsub⟩
  · rintro ⟨τ, hτ, hinst⟩
    obtain ⟨β, -, hfits⟩ := hhygienic.exists_fits_of_isInstance hr hinst
    rw [← hrel.fits_extend_iff hapart] at hfits
    exact Option.isSome_iff_exists.mpr (hrel.exists_solution hargs hlen' hfits)
  · intro sub hsub
    refine ⟨hr.isInstance_image hv hargs hlen' hsub, fun τ hτ hinst => ?_⟩
    obtain ⟨hacyclic, -, hrespect⟩ := hrel.solution_spec hargs hlen' hsub
    obtain ⟨β, hβ, hfits⟩ := hhygienic.exists_fits_of_isInstance hr hinst
    -- The further map is the given one, extended to the slots: it respects the solution.
    rw [← hrel.fits_extend_iff hapart, ← hrespect] at hfits
    refine ⟨r.compile.extend search.serial β τ, fun v => ?_, fun q hq => ?_⟩
    · rw [Relation.extend]
      split
      · exact hβ _
      · exact hτ v
    · rw [Term.varsIn_eq_flatMap] at hq
      obtain ⟨a, ha, hqa⟩ := List.mem_flatMap.mp hq
      rw [hacyclic.bind_apply hfits, Term.bind, Relation.extend, if_neg (hapart a ha q hqa)]

/-- The rule that infers `B` from `A` and `(imp A B)`, asked for the `B` of `P` and
`(imp P (and Q R))`: there is a solution, and every other one comes from it. -/
theorem first_most_general_imp :
    ∃ sub, (plain "imp-e" [.atom "A", .app (.atom "imp") [.atom "A", .atom "B"]]
        [.atom "B"]).compile.first ⟨.empty, Search.defaultLimit, true, 1⟩
        [.atom "P", .app (.atom "imp") [.atom "P", .app (.atom "and") [.atom "Q", .atom "R"]],
          .var ⟨"?0", 0⟩] = .ok (some sub) ∧
      (plain "imp-e" [.atom "A", .app (.atom "imp") [.atom "A", .atom "B"]]
        [.atom "B"]).IsInstance [.atom "P", .app (.atom "imp") [.atom "P",
          .app (.atom "and") [.atom "Q", .atom "R"]], .var ⟨"?0", 0⟩] sub.image ∧
      ∀ τ : Var → Term, (∀ v, (τ v).isExpr) →
        (plain "imp-e" [.atom "A", .app (.atom "imp") [.atom "A", .atom "B"]]
          [.atom "B"]).IsInstance [.atom "P", .app (.atom "imp") [.atom "P",
            .app (.atom "and") [.atom "Q", .atom "R"]], .var ⟨"?0", 0⟩] τ →
        ∃ ρ : Var → Term, τ ⟨"?0", 0⟩ = (sub.apply (.var ⟨"?0", 0⟩)).bind ρ := by
  obtain ⟨result, hresult, -, hgeneral⟩ := first_most_general
    (plain "imp-e" [.atom "A", .app (.atom "imp") [.atom "A", .atom "B"]] [.atom "B"])
    ⟨.atom "imp-e", .list [.atom "A", .app (.atom "imp") [.atom "A", .atom "B"]], .list [],
      .list [.atom "B"], none, rfl⟩
    (by unfold IsVarFree; decide) rfl (by decide) ⟨.empty, Search.defaultLimit, true, 1⟩ rfl
    [.atom "P", .app (.atom "imp") [.atom "P", .app (.atom "and") [.atom "Q", .atom "R"]],
      .var ⟨"?0", 0⟩] rfl (by decide) (by unfold Relation.Apart; decide)
    (fun h => absurd (congrArg Except.toBool h) (by decide))
  cases result with
  | none => exact absurd (congrArg (fun x => x.toOption.join.isSome) hresult) (by decide)
  | some sub =>
      obtain ⟨⟨-, hinst⟩, hall⟩ := hgeneral sub rfl
      refine ⟨sub, hresult, hinst, fun τ hτ h => ?_⟩
      obtain ⟨ρ, -, hρ⟩ := hall τ hτ h
      exact ⟨ρ, hρ _ (by decide)⟩

end Rule

end Deduction
