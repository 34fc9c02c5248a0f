import Deduction.Proofs.Solver

/-!
# Runs of a relation

A run gives every slot of a relation a variable and solves the equations of parameters with
arguments and of slots with templates. The names of the slots are all that matters about these
variables: a map solves the equations exactly when the values that it gives the names *fit* the
relation (`Relation.Fits`), a condition in which no variable occurs. So solutions can be carried
from one run of a relation to another, whatever serials the variables have.

## Main definitions

* `slotOf`: the variable of a name.
* `Relation.Scoped`: the goals mention slots only, and their templates are expressions;
  `Relation.WellScoped`: these hold no logic variables.
* `Relation.equations`: the equations of a run.
* `Relation.Fits`: values for the names that satisfy the goals.

## Main results

* `Relation.solves_equations_iff`: solving the equations is fitting the relation.
* `Relation.run_eq_solved_iff`: when a run ends well.
* `Relation.run_instance`: if a run ends well, so does every run on an instance of its arguments
  under a map that respects the solution.
-/

namespace Deduction

open Term

/-! ### Slot variables -/

/-- The variable of a name among the slots; of two slots with one name the later one counts. -/
def slotOf (serial : Int) (names : List String) (x : String) : Var :=
  ((slotVars serial names).reverse.find? (·.name == x)).getD ⟨x, serial⟩

/-- The variable of a name has that name. -/
@[simp] theorem name_slotOf (serial : Int) (names : List String) (x : String) :
    (slotOf serial names x).name = x := by
  rw [slotOf]
  cases h : (slotVars serial names).reverse.find? (·.name == x) with
  | none => rfl
  | some v => simpa using List.find?_some h

/-- Slot variables carry the names of the slots, in order. -/
theorem map_name_slotVars (serial : Int) (names : List String) :
    (slotVars serial names).map Var.name = names := by
  induction names generalizing serial with
  | nil => rfl
  | cons x names ih => simp [slotVars, ih]

/-- The serials of slot variables start at the given one. -/
theorem le_serial_of_mem_slotVars {serial : Int} {names : List String} {v : Var}
    (h : v ∈ slotVars serial names) : serial ≤ v.serial := by
  induction names generalizing serial with
  | nil => simp [slotVars] at h
  | cons x names ih =>
      rcases List.mem_cons.mp h with rfl | h
      · exact le_refl _
      · have := ih h
        omega

/-- A slot has a variable. -/
theorem find?_slotVars {serial : Int} {names : List String} {x : String} (hx : x ∈ names) :
    (slotVars serial names).reverse.find? (·.name == x) = some (slotOf serial names x) := by
  cases h : (slotVars serial names).reverse.find? (·.name == x) with
  | none =>
      rw [← map_name_slotVars serial names] at hx
      obtain ⟨v, hv, rfl⟩ := List.mem_map.mp hx
      simpa using List.find?_eq_none.mp h v (by simpa using hv)
  | some v => rw [slotOf, h, Option.getD_some]

/-- The table of a run has the variable of every slot. -/
theorem slotVar?_eq_some {serial : Int} {names : List String} {x : String} (hx : x ∈ names) :
    slotVar? (slotVars serial names) x = some (.var (slotOf serial names x)) := by
  rw [slotVar?, find?_slotVars hx, Option.map_some]

/-- The variable of a slot is one of the slot variables. -/
theorem slotOf_mem {serial : Int} {names : List String} {x : String} (hx : x ∈ names) :
    slotOf serial names x ∈ slotVars serial names := by
  have h := List.mem_of_find?_eq_some (@find?_slotVars serial names x hx)
  simpa using h

namespace Relation

/-! ### The equations of a run -/

/-- The goals mention slots only, and their templates are expressions. -/
structure Scoped (rel : Relation) : Prop where
  slot_mem : ∀ p ∈ rel.equalities, p.1 ∈ rel.slots
  isExpr : ∀ t ∈ rel.equalities.map Prod.snd ++ rel.checks, t.isExpr
  names_mem : ∀ t ∈ rel.equalities.map Prod.snd ++ rel.checks, ∀ x ∈ t.patternNames,
    x ∈ rel.slots

/-- Moreover, the templates of the goals hold no logic variables. -/
structure WellScoped (rel : Relation) : Prop extends Scoped rel where
  isGround : ∀ t ∈ rel.equalities.map Prod.snd ++ rel.checks, t.isGround

/-- A name as the variable of its slot. -/
def slotOfRun (rel : Relation) (serial : Int) (x : String) : Term :=
  .var (slotOf serial rel.slots x)

/-- The equations of a run: the parameters with the arguments, then the slots of the goals with
their templates. -/
def equations (rel : Relation) (serial : Int) (args : List Term) : List (Term × Term) :=
  (rel.params.map (rel.slotOfRun serial)).zip args ++
    rel.equalities.map fun p => (rel.slotOfRun serial p.1, p.2.fill (rel.slotOfRun serial))

/-- Values for the names that give the parameters these values and satisfy the goals. -/
def Fits (rel : Relation) (α : String → Term) (values : List Term) : Prop :=
  rel.params.map α = values ∧ ∀ p ∈ rel.equalities, α p.1 = p.2.fill α

section

variable {rel : Relation} {serial : Int} {args : List Term}

theorem length_equations (hlen : args.length = rel.arity) :
    (rel.equations serial args).length = rel.arity + rel.equalities.length := by
  simp [equations, hlen, arity]

/-- The equations of a run on expressions are pairs of expressions. -/
theorem Scoped.pairsOfExprs (hrel : rel.Scoped) (hargs : ∀ a ∈ args, a.isExpr) :
    PairsOfExprs (rel.equations serial args) := by
  intro p hp
  rcases List.mem_append.mp hp with hp | hp
  · obtain ⟨hx, ha⟩ := List.of_mem_zip hp
    obtain ⟨x, -, hx⟩ := List.mem_map.mp hx
    exact ⟨by rw [← hx]; rfl, hargs _ ha⟩
  · obtain ⟨q, hq, rfl⟩ := List.mem_map.mp hp
    refine ⟨rfl, isExpr_fill (hrel.isExpr q.2 ?_) fun x => rfl⟩
    exact List.mem_append_left _ (List.mem_map_of_mem hq)

/-- **Solving the equations is fitting the relation.** -/
theorem WellScoped.solves_equations_iff (hrel : rel.WellScoped) (hlen : args.length = rel.arity)
    (ψ : Var → Term) :
    Solves ψ (rel.equations serial args) ↔
      rel.Fits (fun x => ψ (slotOf serial rel.slots x)) (args.map (Term.bind ψ)) := by
  rw [equations, solves_append, Fits]
  refine and_congr ?_ ?_
  · rw [solves_zip_iff (by simpa [arity] using hlen.symm)]
    simp [slotOfRun, Term.bind, Function.comp_def]
  · simp only [Solves, List.forall_mem_map]
    refine forall₂_congr fun p hp => ?_
    have hground := hrel.isGround p.2 (List.mem_append_left _ (List.mem_map_of_mem hp))
    rw [bind_fill ψ _ hground]
    rfl

/-- Fitting depends on the values of the slots only. -/
theorem WellScoped.fits_congr (hrel : rel.WellScoped) {α β : String → Term}
    (h : ∀ x ∈ rel.slots, α x = β x) (values : List Term) :
    rel.Fits α values ↔ rel.Fits β values := by
  refine and_congr ?_ (forall₂_congr fun p hp => ?_)
  · rw [List.map_congr_left fun x hx => h x (List.mem_append_left _ hx)]
  · have hnames := hrel.names_mem p.2 (List.mem_append_left _ (List.mem_map_of_mem hp))
    rw [h p.1 (hrel.slot_mem p hp), fill_congr fun x hx => h x (hnames x hx)]

/-! ### What a run does -/

/-- The templates of a run are filled in with the slot variables. -/
theorem Scoped.instantiate_eq (hrel : rel.Scoped) {t : Term}
    (ht : t ∈ rel.equalities.map Prod.snd ++ rel.checks) :
    instantiate (slotVar? (slotVars serial rel.slots)) t =
      .ok (t.fill (rel.slotOfRun serial)) :=
  instantiate_eq_fill (hrel.isExpr t ht) fun x hx =>
    slotVar?_eq_some (hrel.names_mem t ht x hx)

/-- The equations of the goals. -/
theorem Scoped.goalEquations_eq (hrel : rel.Scoped) {goals : List (String × Term)}
    (hgoals : ∀ p ∈ goals, p ∈ rel.equalities) :
    goalEquations (slotVar? (slotVars serial rel.slots)) goals =
      .ok (goals.map fun p =>
        (rel.slotOfRun serial p.1, p.2.fill (rel.slotOfRun serial))) := by
  induction goals with
  | nil => rfl
  | cons p goals ih =>
      have hp := hgoals p (by simp)
      have ht : instantiate (slotVar? (slotVars serial rel.slots)) p.2 =
          .ok (p.2.fill (rel.slotOfRun serial)) :=
        hrel.instantiate_eq (List.mem_append_left _ (List.mem_map_of_mem hp))
      rw [goalEquations, ht, ih fun q hq => hgoals q (by simp [hq]), slotTerm,
        slotVar?_eq_some (hrel.slot_mem p hp)]
      rfl

/-- The checks of a run. -/
theorem Scoped.instantiateAll_checks (hrel : rel.Scoped) :
    instantiateAll (slotVar? (slotVars serial rel.slots)) rel.checks =
      .ok (rel.checks.map (fill (rel.slotOfRun serial))) :=
  instantiateAll_eq_map fun _ ht => hrel.instantiate_eq (List.mem_append_right _ ht)

/-- The checks of a run are expressions. -/
theorem Scoped.isExpr_checks (hrel : rel.Scoped) :
    ∀ c ∈ rel.checks.map (fill (rel.slotOfRun serial)), c.isExpr :=
  List.forall_mem_map.mpr fun c hc =>
    isExpr_fill (hrel.isExpr c (List.mem_append_right _ hc)) fun _ => rfl

/-- The equations of the parameters. -/
theorem argEquations_eq (rel : Relation) (serial : Int) (args : List Term) :
    argEquations (slotVar? (slotVars serial rel.slots)) rel.params args =
      (rel.params.map (rel.slotOfRun serial)).zip args := by
  rw [argEquations, List.map_congr_left fun x hx => ?_]
  have hslot : x ∈ rel.slots := List.mem_append_left _ hx
  rw [slotTerm, slotVar?_eq_some hslot, Option.getD_some, slotOfRun]

/-- A run on the right number of arguments fires the checks that are ready from the start and
solves its equations. -/
theorem Scoped.run_eq (hrel : rel.Scoped) (search : Search)
    (hlen : args.length = rel.arity) :
    rel.run search args =
      fireReady search.predicates .empty
        (rel.checks.map (fill (rel.slotOfRun search.serial))) >>= fun fired =>
          match fired with
          | none => .ok .refuted
          | some waiting =>
            solve rel.id search (rel.equations search.serial args) 0 .empty waiting := by
  rw [run, if_pos hlen]
  simp only [hrel.instantiateAll_checks, hrel.goalEquations_eq fun p hp => hp, argEquations_eq]
  rfl

/-- A run that does not fail with an error had the right number of arguments. -/
theorem length_of_run {search : Search} {outcome : Outcome}
    (h : rel.run search args = .ok outcome) : args.length = rel.arity := by
  by_contra hlen
  rw [run, if_neg hlen] at h
  simp at h

/-- **When a run ends well.** The steps suffice for all equations, the equations have that
solution, and all checks pass under it. -/
theorem Scoped.run_eq_solved_iff (hrel : rel.Scoped) {search : Search}
    (hoc : search.occursCheck = true) (hargs : ∀ a ∈ args, a.isExpr)
    (hlen : args.length = rel.arity) {τ : Bindings} :
    rel.run search args = .ok (.solved τ) ↔
      (search.Affords 0 (rel.arity + rel.equalities.length) ∧
        Bindings.empty.unifyAll (rel.equations search.serial args) = some τ) ∧
      ∀ c ∈ rel.checks, Passes search.predicates τ (c.fill (rel.slotOfRun search.serial)) := by
  have hp : PairsOfExprs (rel.equations search.serial args) := hrel.pairsOfExprs hargs
  rw [hrel.run_eq search hlen, ← length_equations hlen, ← List.forall_mem_map]
  refine fire_then_eq_solved_iff Bindings.acyclic_empty ?_ (fun waiting hw => ?_) _
  · rintro ⟨-, hτ⟩
    obtain ⟨hτa, -, -⟩ :=
      Bindings.unifyAll_spec Bindings.acyclic_empty Bindings.areExprs_empty hp hτ
    exact ⟨hτa, fun θ _ => Bindings.respectedBy_empty θ⟩
  · rw [solve_eq_solved_iff hoc Bindings.acyclic_empty Bindings.areExprs_empty hp hw, and_assoc]

/-- The solution of a run: acyclic, with expressions as values, and respected exactly by the
maps whose values for the slots fit the relation. -/
theorem WellScoped.solution_spec (hrel : rel.WellScoped) (hargs : ∀ a ∈ args, a.isExpr)
    (hlen : args.length = rel.arity) {σ : Bindings}
    (h : Bindings.empty.unifyAll (rel.equations serial args) = some σ) :
    σ.Acyclic ∧ σ.AreExprs ∧ ∀ ψ, σ.RespectedBy ψ ↔
      rel.Fits (fun x => ψ (slotOf serial rel.slots x)) (args.map (Term.bind ψ)) := by
  obtain ⟨hσ, he, hiff⟩ := Bindings.unifyAll_spec Bindings.acyclic_empty
    Bindings.areExprs_empty (hrel.pairsOfExprs hargs) h
  refine ⟨hσ, he, fun ψ => ?_⟩
  rw [hiff, hrel.solves_equations_iff hlen]
  exact and_iff_right (Bindings.respectedBy_empty ψ)

/-- There is a solution whenever some values fit the relation. -/
theorem WellScoped.exists_solution (hrel : rel.WellScoped) (hargs : ∀ a ∈ args, a.isExpr)
    (hlen : args.length = rel.arity) {ψ : Var → Term}
    (h : rel.Fits (fun x => ψ (slotOf serial rel.slots x)) (args.map (Term.bind ψ))) :
    ∃ σ, Bindings.empty.unifyAll (rel.equations serial args) = some σ :=
  Bindings.exists_unifyAll Bindings.acyclic_empty Bindings.areExprs_empty
    (hrel.pairsOfExprs hargs) (Bindings.respectedBy_empty ψ)
    ((hrel.solves_equations_iff hlen ψ).mpr h)

/-! ### From one run to another -/

/-- Values for the names on the slot variables, and a map on all other variables. -/
def extend (rel : Relation) (serial : Int) (β : String → Term) (θ : Var → Term) (v : Var) :
    Term :=
  if v ∈ slotVars serial rel.slots then β v.name else θ v

/-- No argument holds a variable of a slot. -/
def Apart (rel : Relation) (serial : Int) (args : List Term) : Prop :=
  ∀ a ∈ args, ∀ v ∈ a.vars, v ∉ slotVars serial rel.slots

theorem extend_slotOf {β : String → Term} {θ : Var → Term} {x : String} (hx : x ∈ rel.slots) :
    rel.extend serial β θ (slotOf serial rel.slots x) = β x := by
  rw [extend, if_pos (slotOf_mem hx), name_slotOf]

/-- Arguments without slot variables do not see the values of the names. -/
theorem Apart.map_bind_extend (h : rel.Apart serial args) (β : String → Term)
    (θ : Var → Term) :
    args.map (Term.bind (rel.extend serial β θ)) = args.map (Term.bind θ) :=
  List.map_congr_left fun a ha => bind_congr fun v hv => if_neg (h a ha v hv)

/-- Values that fit the relation with instances of the arguments give a map that solves the
equations of the run. -/
theorem WellScoped.fits_extend_iff (hrel : rel.WellScoped) (hapart : rel.Apart serial args)
    (β : String → Term) (θ : Var → Term) :
    rel.Fits (fun x => rel.extend serial β θ (slotOf serial rel.slots x))
        (args.map (Term.bind (rel.extend serial β θ))) ↔
      rel.Fits β (args.map (Term.bind θ)) := by
  rw [hapart.map_bind_extend]
  exact hrel.fits_congr (fun x hx => extend_slotOf hx) _

/-- A filled-in template under bindings, by the values that the bindings give the names. -/
theorem WellScoped.apply_fill (hrel : rel.WellScoped) (σ : Bindings) {t : Term}
    (ht : t ∈ rel.equalities.map Prod.snd ++ rel.checks) :
    σ.apply (t.fill (rel.slotOfRun serial)) =
      t.fill fun x => σ.image (slotOf serial rel.slots x) := by
  rw [Bindings.apply_eq_bind, bind_fill _ _ (hrel.isGround t ht)]
  rfl

/-- **Runs on instances.** If a run ends well, so does every run on the instances of its
arguments under a map that respects the solution, provided that the instances have no variables
left. The two runs may number their variables differently. -/
theorem WellScoped.run_instance (hrel : rel.WellScoped) {search search' : Search}
    (hoc : search.occursCheck = true) (hoc' : search'.occursCheck = true)
    (hpredicates : search'.predicates = search.predicates)
    (hlimit : search'.limit = search.limit) (hargs : ∀ a ∈ args, a.isExpr)
    (hapart : rel.Apart search.serial args) {σ : Bindings}
    (hrun : rel.run search args = .ok (.solved σ)) {θ : Var → Term} (hθ : σ.RespectedBy θ)
    (hinst : ∀ a ∈ args, (a.bind θ).isExpr ∧ (a.bind θ).isGround) :
    ∃ τ, rel.run search' (args.map (Term.bind θ)) = .ok (.solved τ) := by
  have hlen := length_of_run hrun
  have hlen' : (args.map (Term.bind θ)).length = rel.arity := by simpa using hlen
  have hargs' : ∀ a ∈ args.map (Term.bind θ), a.isExpr :=
    List.forall_mem_map.mpr fun a ha => (hinst a ha).1
  have hfixed : ∀ ψ : Var → Term,
      (args.map (Term.bind θ)).map (Term.bind ψ) = args.map (Term.bind θ) := by
    intro ψ
    rw [List.map_map]
    exact List.map_congr_left fun a ha => bind_of_isGround (hinst a ha).2 ψ
  obtain ⟨⟨hafford, hσ⟩, hpass⟩ := (hrel.run_eq_solved_iff hoc hargs hlen).mp hrun
  obtain ⟨hacyclic, -, hrespect⟩ := hrel.solution_spec hargs hlen hσ
  -- The values of `θ` for the slots of the first run solve the second one.
  have hfits := (hrespect θ).mp hθ
  have hapart' : rel.Apart search'.serial (args.map (Term.bind θ)) := by
    intro b hb v hv
    obtain ⟨a, ha, rfl⟩ := List.mem_map.mp hb
    exact absurd hv (isGround_iff.mp (hinst a ha).2 v)
  rw [← hfixed .var, ← hrel.fits_extend_iff hapart'] at hfits
  obtain ⟨τ, hτ⟩ := hrel.exists_solution hargs' hlen' hfits
  refine ⟨τ, (hrel.run_eq_solved_iff hoc' hargs' hlen').mpr ⟨⟨?_, hτ⟩, fun c hc => ?_⟩⟩
  · simpa [Search.Affords, hlimit] using hafford
  -- Back again: the values of the second solution respect the first one, under which the check
  -- is ground already.
  · obtain ⟨hacyclic', -, hrespect'⟩ := hrel.solution_spec hargs' hlen' hτ
    have hback := (hrespect' τ.image).mp hacyclic'.respectedBy_image
    rw [hfixed, ← hrel.fits_extend_iff hapart, ← hrespect] at hback
    have hmem : c ∈ rel.equalities.map Prod.snd ++ rel.checks := List.mem_append_right _ hc
    have heq : τ.apply (c.fill (rel.slotOfRun search'.serial)) =
        σ.apply (c.fill (rel.slotOfRun search.serial)) := by
      rw [← bind_of_isGround (hpass c hc).1, hacyclic.bind_apply hback,
        bind_fill _ _ (hrel.isGround c hmem), hrel.apply_fill τ hmem]
      refine fill_congr fun x hx => ?_
      rw [slotOfRun, Term.bind, extend_slotOf (hrel.names_mem c hmem x hx)]
    rw [Passes, heq, hpredicates]
    exact hpass c hc

end

end Relation

end Deduction
