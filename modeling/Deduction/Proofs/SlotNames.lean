import Deduction.Proofs.Compile

/-!
# Names of slots

The names that compilation makes up are a stem, a hash and a position: the operator of a
compound input, `group`, or a reserved constant, with the position among the inputs; and `q`
with the position among the conclusions. The digits after the last hash give the position back,
so inputs never clash with inputs, nor conclusions with conclusions. What is left are two ways
to clash: an input whose operator is `q`, in the position of a conclusion, and a pattern
variable that is spelled like a generated name. We show that a rule is hygienic exactly when
neither happens, and that then two slots share a variable only if they stand for one pattern
variable.

## Main definitions

* `Rule.slotName`: a generated name, from its stem and position.
* `Rule.aliasStem`: the stem of an input template.

## Main results

* `Rule.slotName_inj`: stem and position can be read off a generated name.
* `Rule.hygienic_iff_no_clash`: when a rule is hygienic, and what this means for its runs.
* `Rule.operator_q_clashes`: a rule with the operator `q` whose two slots share a variable.
-/

namespace Deduction

namespace Rule

/-! ### Generated names -/

/-- The generated name with that stem and position. -/
def slotName (stem : String) (n : Nat) : String := stem ++ "#" ++ toString n

/-- The stem of the name generated for an input template. -/
def aliasStem : Term → String
  | .app op _ => op.plain
  | .group _ => "group"
  | t => t.plain

theorem aliasFor_eq_slotName (n : Nat) (t : Term) : aliasFor n t = slotName (aliasStem t) n := by
  cases t <;> rfl

theorem outputParam_eq_slotName (n : Nat) : outputParam n = slotName "q" n := rfl

/-- A text is cut at its last hash in one way only. -/
theorem append_hash_inj {l₁ l₂ d₁ d₂ : List Char} (h₁ : '#' ∉ d₁) (h₂ : '#' ∉ d₂)
    (h : l₁ ++ '#' :: d₁ = l₂ ++ '#' :: d₂) : l₁ = l₂ ∧ d₁ = d₂ := by
  rcases List.append_eq_append_iff.mp h with ⟨l, rfl, hl⟩ | ⟨l, rfl, hl⟩
  · cases l with
    | nil => simpa using hl
    | cons c l =>
        -- The second hash would stand among the digits after the first one.
        obtain ⟨-, rfl⟩ := List.cons.inj hl
        exact absurd (by simp) h₁
  · cases l with
    | nil => simpa using hl.symm
    | cons c l =>
        obtain ⟨-, rfl⟩ := List.cons.inj hl
        exact absurd (by simp) h₂

/-- The decimal form of a number has no hash. -/
theorem hash_not_mem_toDigits (n : Nat) : '#' ∉ Nat.toDigits 10 n := by
  intro h
  have hdigit := Nat.isDigit_of_mem_toDigits (by decide) (by decide) h
  exact absurd hdigit (by decide)

/-- **Stem and position can be read off a generated name.** -/
theorem slotName_inj {a b : String} {n m : Nat} :
    slotName a n = slotName b m ↔ a = b ∧ n = m := by
  refine ⟨fun h => ?_, fun ⟨ha, hn⟩ => by rw [ha, hn]⟩
  have hlist : a.toList ++ '#' :: Nat.toDigits 10 n = b.toList ++ '#' :: Nat.toDigits 10 m := by
    have := congrArg String.toList h
    simpa [slotName, String.toList_append, Nat.toString_eq_repr, Nat.toList_repr] using this
  obtain ⟨hstem, hdigits⟩ :=
    append_hash_inj (hash_not_mem_toDigits n) (hash_not_mem_toDigits m) hlist
  refine ⟨String.toList_inj.mp hstem, ?_⟩
  simpa using congrArg (fun digits => Nat.ofDigitChars 10 digits 0) hdigits

/-! ### Distinctness -/

/-- The names generated for inputs. -/
theorem mem_names_inputEqualities {n : Nat} {ts : List Term} {x : String} :
    x ∈ (inputEqualities n ts).map Prod.fst ↔
      ∃ k t, ts[k]? = some t ∧ ¬ t.isPatternVariable ∧ x = slotName (aliasStem t) (n + k) := by
  simp only [List.mem_map, Prod.exists, exists_and_right, exists_eq_right, mem_inputEqualities,
    aliasFor_eq_slotName]
  exact exists_comm

/-- The names generated for conclusions. -/
theorem mem_names_outputEqualities {n : Nat} {ts : List Term} {x : String} :
    x ∈ (outputEqualities n ts).map Prod.fst ↔
      ∃ k, k < ts.length ∧ x = slotName "q" (n + k) := by
  simp only [List.mem_map, Prod.exists, exists_and_right, exists_eq_right,
    mem_outputEqualities, outputParam_eq_slotName]
  constructor
  · rintro ⟨t, k, hk, rfl⟩
    exact ⟨k, (List.getElem?_eq_some_iff.mp hk).1, rfl⟩
  · rintro ⟨k, hk, rfl⟩
    exact ⟨ts[k], k, List.getElem?_eq_getElem hk, rfl⟩

/-- Inputs never clash with inputs. -/
theorem nodup_names_inputEqualities (n : Nat) (ts : List Term) :
    ((inputEqualities n ts).map Prod.fst).Nodup := by
  induction ts generalizing n with
  | nil => exact List.nodup_nil
  | cons t ts ih =>
      by_cases ht : t.isPatternVariable
      · rw [inputEqualities, if_pos ht]
        exact ih (n + 1)
      · rw [inputEqualities, if_neg ht, List.map_cons, List.nodup_cons]
        refine ⟨fun h => ?_, ih (n + 1)⟩
        obtain ⟨k, u, -, -, heq⟩ := mem_names_inputEqualities.mp h
        have := (slotName_inj.mp ((aliasFor_eq_slotName n t).symm.trans heq)).2
        omega

/-- Conclusions never clash with conclusions. -/
theorem nodup_names_outputEqualities (n : Nat) (ts : List Term) :
    ((outputEqualities n ts).map Prod.fst).Nodup := by
  induction ts generalizing n with
  | nil => exact List.nodup_nil
  | cons t ts ih =>
      rw [outputEqualities, List.map_cons, List.nodup_cons]
      refine ⟨fun h => ?_, ih (n + 1)⟩
      obtain ⟨k, -, heq⟩ := mem_names_outputEqualities.mp h
      have := (slotName_inj.mp ((outputParam_eq_slotName n).symm.trans heq)).2
      omega

/-- The generated names of a rule, those of its inputs first. -/
theorem generatedNames_eq (r : Rule) :
    r.generatedNames = (inputEqualities 1 r.inputs).map Prod.fst ++
      (outputEqualities 1 r.conclusion).map Prod.fst := by
  rw [generatedNames, equalities_compile, List.map_append]

/-- Of the expressions only a compound with that operator has the stem `q`. -/
theorem aliasStem_eq_q_iff {t : Term} (ht : t.isExpr) (hp : ¬ t.isPatternVariable) :
    aliasStem t = "q" ↔ ∃ args, t = .app (.atom "q") args := by
  cases t with
  | atom s =>
      -- An atom that is no pattern variable is one of the four reserved constants.
      have hs : Term.isKeyword s := by simpa [Term.isPatternVariable] using hp
      have hne : s ≠ "q" := by
        rintro rfl
        exact absurd hs (by decide)
      simpa [aliasStem, Term.plain] using hne
  | app op args =>
      obtain ⟨⟨name, rfl, -⟩, -, -⟩ := Term.isExpr_app_iff.mp ht
      simp [aliasStem, Term.plain]
  | group items => simp [aliasStem]
  | var v =>
      have hne : ("Var(" ++ v.render ++ ")").toList ≠ "q".toList := by simp
      simpa [aliasStem, Term.plain, Term.literal] using fun h => hne (congrArg String.toList h)
  | hollow | wildcard | list | datum => simp [Term.isExpr] at ht

/-- An input and a conclusion get one name exactly when an input with the operator `q` stands in
the position of a conclusion. -/
theorem nodup_generatedNames_iff {r : Rule} (hr : r.Accepted) :
    r.generatedNames.Nodup ↔
      ∀ k args, r.inputs[k]? = some (.app (.atom "q") args) → r.conclusion.length ≤ k := by
  rw [generatedNames_eq, List.nodup_append]
  constructor
  · rintro ⟨-, -, hdisjoint⟩ k args hk
    by_contra hlt
    refine hdisjoint _ (mem_names_inputEqualities.mpr ⟨k, _, hk, by simp [Term.isPatternVariable],
      rfl⟩) _ (mem_names_outputEqualities.mpr ⟨k, by omega, rfl⟩) rfl
  · intro h
    refine ⟨nodup_names_inputEqualities 1 _, nodup_names_outputEqualities 1 _, ?_⟩
    rintro x hx y hy rfl
    obtain ⟨k, t, hk, hp, rfl⟩ := mem_names_inputEqualities.mp hx
    obtain ⟨m, hm, heq⟩ := mem_names_outputEqualities.mp hy
    obtain ⟨hstem, hpos⟩ := slotName_inj.mp heq
    have ht : t.isExpr := hr.isExpr t
      (List.mem_append_left _ (List.mem_append_left _ (List.mem_of_getElem? hk)))
    obtain ⟨args, rfl⟩ := (aliasStem_eq_q_iff ht hp).mp hstem
    have := h k args hk
    omega

/-! ### Slots and their variables -/

/-- Two slots share a variable of a run only if both stand for one pattern variable, and the
slot of a template that is no pattern variable shares its variable with none. -/
structure SlotsApart (r : Rule) : Prop where
  params : ∀ (serial : Int) (i j : Nat) (x y : String), r.compile.params[i]? = some x →
    r.compile.params[j]? = some y →
    slotOf serial r.compile.slots x = slotOf serial r.compile.slots y →
    i = j ∨ ∃ z, r.inputs[i]? = some (.atom z) ∧ r.inputs[j]? = some (.atom z)
  names : ∀ (serial : Int) (i : Nat) (x y : String), r.compile.params[i]? = some x →
    y ∈ Term.patternNamesIn r.templatesOf →
    slotOf serial r.compile.slots x = slotOf serial r.compile.slots y →
    r.inputs[i]? = some (.atom y)

/-- Slots have one variable exactly when they have one name. -/
theorem slotOf_inj {serial : Int} {names : List String} {x y : String} :
    slotOf serial names x = slotOf serial names y ↔ x = y := by
  refine ⟨fun h => ?_, fun h => by rw [h]⟩
  rw [← name_slotOf serial names x, h, name_slotOf]

/-- The parameter of an input that is no pattern variable. -/
theorem getElem?_params_of_input {r : Rule} {k : Nat} {t : Term} (hk : r.inputs[k]? = some t)
    (hp : ¬ t.isPatternVariable) :
    r.compile.params[k]? = some (slotName (aliasStem t) (1 + k)) := by
  have hlt := (List.getElem?_eq_some_iff.mp hk).1
  rw [compile, List.getElem?_append_left (by simpa using hlt), getElem?_inputParams, hk,
    Option.map_some, paramOf_of_not_isPatternVariable hp, aliasFor_eq_slotName]

/-- The parameter of a conclusion. -/
theorem getElem?_params_of_output {r : Rule} {k : Nat} (hk : k < r.conclusion.length) :
    r.compile.params[r.inputs.length + k]? = some (slotName "q" (1 + k)) := by
  rw [compile, List.getElem?_append_right (by simp), length_inputParams, Nat.add_sub_cancel_left,
    getElem?_outputParams, List.getElem?_eq_getElem hk, Option.map_some,
    outputParam_eq_slotName]

/-- A parameter is a pattern variable, or the generated name of an input or of a conclusion. -/
theorem getElem?_params_cases {r : Rule} {i : Nat} {x : String}
    (h : r.compile.params[i]? = some x) :
    (r.inputs[i]? = some (.atom x) ∧ x ∈ Term.patternNamesIn r.templatesOf) ∨
      (∃ t, r.inputs[i]? = some t ∧ ¬ t.isPatternVariable ∧
        x = slotName (aliasStem t) (1 + i)) ∨
      ∃ k, k < r.conclusion.length ∧ i = r.inputs.length + k ∧ x = slotName "q" (1 + k) := by
  rcases Nat.lt_or_ge i r.inputs.length with hi | hi
  · have hget := List.getElem?_eq_getElem hi
    by_cases hp : r.inputs[i].isPatternVariable
    · left
      rw [compile, List.getElem?_append_left (by simpa using hi), getElem?_inputParams, hget,
        Option.map_some] at h
      generalize r.inputs[i] = t at hget hp h
      cases t with
      | atom s =>
          have hs : ¬ Term.isKeyword s := by simpa [Term.isPatternVariable] using hp
          rw [paramOf, if_neg hs, Option.some.injEq] at h
          subst h
          have hmem : Term.atom s ∈ r.templatesOf :=
            List.mem_append_left _ (List.mem_append_left _ (List.mem_of_getElem? hget))
          exact ⟨hget, mem_patternNamesIn hmem (by simp [Term.patternNames, hs])⟩
      | _ => simp [Term.isPatternVariable] at hp
    · rw [getElem?_params_of_input hget hp, Option.some.injEq] at h
      exact .inr (.inl ⟨_, hget, hp, h.symm⟩)
  · obtain ⟨k, rfl⟩ := Nat.exists_eq_add_of_le hi
    have hk : k < r.conclusion.length := by
      have := (List.getElem?_eq_some_iff.mp h).1
      simp only [compile, List.length_append, length_inputParams, length_outputParams] at this
      omega
    rw [getElem?_params_of_output hk, Option.some.injEq] at h
    exact .inr (.inr ⟨k, hk, rfl, h.symm⟩)

/-- The generated names by position. -/
theorem mem_generatedNames {r : Rule} {x : String} :
    x ∈ r.generatedNames ↔
      (∃ k t, r.inputs[k]? = some t ∧ ¬ t.isPatternVariable ∧
        x = slotName (aliasStem t) (1 + k)) ∨
      ∃ k, k < r.conclusion.length ∧ x = slotName "q" (1 + k) := by
  rw [generatedNames_eq, List.mem_append, mem_names_inputEqualities, mem_names_outputEqualities]

/-- The slots of a hygienic rule are apart. -/
theorem Hygienic.slotsApart {r : Rule} (hr : r.Hygienic) : r.SlotsApart := by
  obtain ⟨hnodup, hfresh⟩ := hr
  rw [generatedNames_eq, List.nodup_append] at hnodup
  obtain ⟨-, -, hdisjoint⟩ := hnodup
  constructor
  · intro serial i j x y hx hy hslot
    obtain rfl := slotOf_inj.mp hslot
    rcases getElem?_params_cases hx with ⟨hi, hname⟩ | ⟨t, hi, hp, ht⟩ | ⟨k, hk, hi, ht⟩
    · rcases getElem?_params_cases hy with ⟨hj, -⟩ | ⟨u, hj, hq, hu⟩ | ⟨m, hm, -, hu⟩
      · exact .inr ⟨x, hi, hj⟩
      · exact absurd hname (hfresh x (mem_generatedNames.mpr (.inl ⟨j, u, hj, hq, hu⟩)))
      · exact absurd hname (hfresh x (mem_generatedNames.mpr (.inr ⟨m, hm, hu⟩)))
    · have hin := mem_names_inputEqualities.mpr ⟨i, t, hi, hp, ht⟩
      rcases getElem?_params_cases hy with ⟨-, hname⟩ | ⟨u, -, -, hu⟩ | ⟨m, hm, -, hu⟩
      · exact absurd hname (hfresh x (mem_generatedNames.mpr (.inl ⟨i, t, hi, hp, ht⟩)))
      · have := (slotName_inj.mp (ht.symm.trans hu)).2
        omega
      · exact absurd rfl (hdisjoint x hin x (mem_names_outputEqualities.mpr ⟨m, hm, hu⟩))
    · have hout := mem_names_outputEqualities.mpr ⟨k, hk, ht⟩
      rcases getElem?_params_cases hy with ⟨-, hname⟩ | ⟨u, hj, hq, hu⟩ | ⟨m, -, hj, hu⟩
      · exact absurd hname (hfresh x (mem_generatedNames.mpr (.inr ⟨k, hk, ht⟩)))
      · exact absurd rfl
          (hdisjoint x (mem_names_inputEqualities.mpr ⟨j, u, hj, hq, hu⟩) x hout)
      · have := (slotName_inj.mp (ht.symm.trans hu)).2
        omega
  · intro serial i x y hx hy hslot
    obtain rfl := slotOf_inj.mp hslot
    rcases getElem?_params_cases hx with ⟨hi, -⟩ | ⟨t, hi, hp, ht⟩ | ⟨k, hk, -, ht⟩
    · exact hi
    · exact absurd hy (hfresh x (mem_generatedNames.mpr (.inl ⟨i, t, hi, hp, ht⟩)))
    · exact absurd hy (hfresh x (mem_generatedNames.mpr (.inr ⟨k, hk, ht⟩)))

/-- A generated name is longer than its stem. -/
theorem slotName_ne_stem (stem : String) (n : Nat) : slotName stem n ≠ stem := by
  intro h
  have hlen := congrArg String.length h
  simp only [slotName, String.length_append, show "#".length = 1 from rfl] at hlen
  omega

/-- A rule whose slots are apart is hygienic. -/
theorem SlotsApart.hygienic {r : Rule} (hr : r.SlotsApart) : r.Hygienic := by
  constructor
  · rw [generatedNames_eq, List.nodup_append]
    refine ⟨nodup_names_inputEqualities 1 _, nodup_names_outputEqualities 1 _, ?_⟩
    rintro x hx y hy rfl
    obtain ⟨k, t, hk, hp, rfl⟩ := mem_names_inputEqualities.mp hx
    obtain ⟨m, hm, heq⟩ := mem_names_outputEqualities.mp hy
    have hparam := getElem?_params_of_output hm
    rw [← heq] at hparam
    rcases hr.params 0 _ _ _ _ (getElem?_params_of_input hk hp) hparam rfl with h | ⟨z, -, hz⟩
    · have := (List.getElem?_eq_some_iff.mp hk).1
      omega
    · simp at hz
  · intro x hx hname
    rcases mem_generatedNames.mp hx with ⟨k, t, hk, hp, rfl⟩ | ⟨k, hk, rfl⟩
    · have hatom := hr.names 0 k _ _ (getElem?_params_of_input hk hp) hname rfl
      rw [hk, Option.some.injEq] at hatom
      refine slotName_ne_stem (aliasStem t) (1 + k) ?_
      calc slotName (aliasStem t) (1 + k)
          = aliasStem (.atom (slotName (aliasStem t) (1 + k))) := rfl
        _ = aliasStem t := by rw [← hatom]
    · have hatom := hr.names 0 _ _ _ (getElem?_params_of_output hk) hname rfl
      simp at hatom

/-- **When slot names are hygienic.** An accepted rule is hygienic exactly when its slots are
apart in every run, and exactly when neither kind of clash occurs: no input with the operator
`q` stands in the position of a conclusion, and no pattern variable is spelled like the name
generated for a conclusion or for an input. -/
theorem hygienic_iff_no_clash (r : Rule) (hr : r.Accepted) :
    (r.Hygienic ↔ r.SlotsApart) ∧
    (r.Hygienic ↔
      (∀ k args, r.inputs[k]? = some (.app (.atom "q") args) → r.conclusion.length ≤ k) ∧
      ∀ x ∈ Term.patternNamesIn r.templatesOf,
        (∀ k < r.conclusion.length, x ≠ slotName "q" (1 + k)) ∧
        ∀ k t, r.inputs[k]? = some t → ¬ t.isPatternVariable →
          x ≠ slotName (aliasStem t) (1 + k)) := by
  refine ⟨⟨Hygienic.slotsApart, SlotsApart.hygienic⟩, ?_⟩
  rw [Hygienic, nodup_generatedNames_iff hr]
  refine and_congr_right fun _ => ?_
  constructor
  · intro h x hx
    refine ⟨fun k hk heq => ?_, fun k t hk hp heq => ?_⟩
    · exact h x (mem_generatedNames.mpr (.inr ⟨k, hk, heq⟩)) hx
    · exact h x (mem_generatedNames.mpr (.inl ⟨k, t, hk, hp, heq⟩)) hx
  · intro h x hx hname
    obtain ⟨hout, hin⟩ := h x hname
    rcases mem_generatedNames.mp hx with ⟨k, t, hk, hp, heq⟩ | ⟨k, hk, heq⟩
    · exact hin k t hk hp heq
    · exact hout k hk heq

/-- The operator `q` does no harm after the last position of a conclusion. -/
theorem hygienic_iff_no_clash_second_input :
    (plain "r" [.atom "B", .app (.atom "q") [.atom "A"]] [.atom "A"]).Hygienic ∧
      (plain "r" [.atom "B", .app (.atom "q") [.atom "A"]] [.atom "A"]).SlotsApart := by
  have haccepted : (plain "r" [.atom "B", .app (.atom "q") [.atom "A"]] [.atom "A"]).Accepted :=
    ⟨.atom "r", .list [.atom "B", .app (.atom "q") [.atom "A"]], .list [], .list [.atom "A"],
      none, rfl⟩
  have hhygienic : (plain "r" [.atom "B", .app (.atom "q") [.atom "A"]] [.atom "A"]).Hygienic := by
    decide
  exact ⟨hhygienic, (hygienic_iff_no_clash _ haccepted).1.mp hhygienic⟩

/-- **The operator `q` clashes with the first conclusion.** The rule from `(q A)` to `A` is
accepted, its two slots have one name, and so its instance from `(q P)` to `P` is refused. -/
theorem operator_q_clashes :
    (plain "r" [.app (.atom "q") [.atom "A"]] [.atom "A"]).Accepted ∧
      (plain "r" [.app (.atom "q") [.atom "A"]] [.atom "A"]).generatedNames = ["q#1", "q#1"] ∧
      ¬ (plain "r" [.app (.atom "q") [.atom "A"]] [.atom "A"]).Hygienic ∧
      (plain "r" [.app (.atom "q") [.atom "A"]] [.atom "A"]).compile.first
        ⟨.empty, Search.defaultLimit, true, 0⟩
        [.app (.atom "q") [.atom "P"], .atom "P"] = .ok none := by
  refine ⟨⟨.atom "r", .list [.app (.atom "q") [.atom "A"]], .list [], .list [.atom "A"], none,
    rfl⟩, by decide, by decide, by rfl⟩

end Rule

end Deduction
