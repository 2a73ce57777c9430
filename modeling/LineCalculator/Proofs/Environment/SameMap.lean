import LineCalculator.Proofs.Expr.Mentions
import Mathlib.Data.List.Nodup

/-!
# Environments with the same bindings

Two environments hold the same map when they bind the same names to the same
values, in whatever order the names were first recorded. Steps and evaluation
keep them so. When names are distinct this is to say that the bindings of one
are those of the other one, rearranged.
-/

namespace LineCalculator

namespace Environment

/-- Both environments bind the same names, each to the same value. -/
def SameMap (left right : Environment) : Prop :=
  ∀ name, left.get? name = right.get? name

variable {environment left right : Environment}

namespace SameMap

theorem agreeOn (same : SameMap left right) (names : List String) :
    AgreeOn names left right :=
  fun name _ => same name

theorem mem_names_iff (same : SameMap left right) (name : String) :
    name ∈ left.names ↔ name ∈ right.names :=
  (same.agreeOn [name]).mem_names_iff (List.mem_singleton_self name)

theorem lookup_eq (same : SameMap left right) (name : String) :
    left.lookup name = right.lookup name :=
  (same.agreeOn [name]).lookup_eq (List.mem_singleton_self name)

/-- Steps keep environments the same map. -/
theorem applySteps
    (same : SameMap left right)
    (steps : List StagedStep) :
    SameMap (left.applySteps steps) (right.applySteps steps) := by
  intro name
  have agree := same.agreeOn (name :: steps.map StagedStep.name)
  refine agree.applySteps ?_ name List.mem_cons_self
  intro staged member
  exact List.mem_cons_of_mem name (List.mem_map_of_mem member)

/-- A tree has the same value in both environments, and they hold the same map
after its evaluation. -/
theorem eval (same : SameMap left right) (tree : Expr) :
    (tree.eval left).1 = (tree.eval right).1 ∧
      SameMap (tree.eval left).2 (tree.eval right).2 := by
  have mentions := tree.mentionsOnly_mentioned
  refine ⟨(mentions.eval_agree (same.agreeOn _)).1, fun name => ?_⟩
  have wider := mentions.mono (List.subset_cons_self name _)
  exact (wider.eval_agree (same.agreeOn _)).2 name List.mem_cons_self

end SameMap

/-- When names are distinct, the value of a name is the one that stands in its
binding. -/
theorem Distinct.get?_eq_some_iff
    (distinct : environment.Distinct)
    {name : String}
    {value : Float} :
    environment.get? name = some value ↔
      ⟨name, value⟩ ∈ environment.bindings := by
  obtain ⟨bindings⟩ := environment
  simp only [Distinct, names] at distinct
  simp only [get?]
  induction bindings with
  | nil => simp
  | cons binding rest restHypothesis =>
      obtain ⟨fresh, restDistinct⟩ := List.nodup_cons.mp distinct
      by_cases here : binding.name = name
      · have notLater : (⟨name, value⟩ : Binding) ∉ rest := fun member =>
          fresh (here ▸ List.mem_map_of_mem member)
        obtain ⟨_, other⟩ := binding
        subst here
        simp [notLater, eq_comm]
      · have notHere : (⟨name, value⟩ : Binding) ≠ binding := by
          rintro rfl
          exact here rfl
        simpa [here, notHere] using restHypothesis restDistinct

/-- Bindings of distinct names are distinct. -/
theorem Distinct.nodup_bindings (distinct : environment.Distinct) :
    environment.bindings.Nodup :=
  List.Nodup.of_map Binding.name distinct

/-- Bindings in another order are the same map. -/
theorem sameMap_of_perm
    (distinct : left.Distinct)
    (rearranged : left.bindings.Perm right.bindings) :
    SameMap left right := by
  have distinct' : right.Distinct :=
    (rearranged.map Binding.name).nodup_iff.mp distinct
  intro name
  apply Option.ext
  intro value
  rw [distinct.get?_eq_some_iff, distinct'.get?_eq_some_iff,
    rearranged.mem_iff]

/-- The same map has the same bindings, in whatever order. -/
theorem SameMap.perm
    (same : SameMap left right)
    (distinct : left.Distinct)
    (distinct' : right.Distinct) :
    left.bindings.Perm right.bindings := by
  refine (List.perm_ext_iff_of_nodup distinct.nodup_bindings
    distinct'.nodup_bindings).mpr ?_
  rintro ⟨name, value⟩
  rw [← distinct.get?_eq_some_iff, same name, distinct'.get?_eq_some_iff]

end Environment

end LineCalculator
