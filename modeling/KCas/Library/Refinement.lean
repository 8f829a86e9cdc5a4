import KCas.Library.Run

/-! Refinement mappings between labelled systems. A state of the finer system stands
for a state of the coarser one; each of its steps stands for one step there or for
none, and so each of its runs stands for a run. -/
namespace Labelled

variable {σ α ε σ' α' ε' : Type}

/-- How a finer system is seen as a coarser one, in states with an invariant that the
finer one keeps. -/
structure Refinement (fine : System σ α ε) (coarse : System σ' α' ε') where
  holds : σ → Prop
  state : σ → σ'
  /-- The step that a step stands for, if it is one. -/
  label : α → ε → Option (α' × ε')
  kept : ∀ s actor event s', holds s → fine s actor = some (event, s') → holds s'
  hidden : ∀ s actor event s', holds s → fine s actor = some (event, s') →
    label actor event = none → state s' = state s
  visible : ∀ s actor event s' actor' event', holds s → fine s actor = some (event, s') →
    label actor event = some (actor', event') →
    coarse (state s) actor' = some (event', state s')

namespace Refinement

variable {fine : System σ α ε} {coarse : System σ' α' ε'} (r : Refinement fine coarse)
  {start finish : σ} {trace : List (Transition σ α ε)} {x : Transition σ α ε}

/-- What a transition stands for. -/
def seen (x : Transition σ α ε) : Option (Transition σ' α' ε') :=
  (r.label x.actor x.event).map fun (actor, event) =>
    ⟨r.state x.before, actor, event, r.state x.after⟩

/-- A run of the finer system is a run of the coarser one. -/
theorem run (initially : r.holds start) {start' : σ'} (begins : r.state start = start')
    (ran : Run fine start trace finish) :
    Run coarse start' (trace.filterMap r.seen) (r.state finish) := by
  subst begins
  have both : r.holds finish ∧
      Run coarse (r.state start) (trace.filterMap r.seen) (r.state finish) := by
    induction ran with
    | refl => exact ⟨initially, .refl⟩
    | @snoc trace before actor event after earlier stepped ih =>
      obtain ⟨held, reached⟩ := ih
      refine ⟨r.kept _ _ _ _ held stepped, ?_⟩
      rw [List.filterMap_append]
      cases label : r.label actor event with
      | none =>
        rw [r.hidden _ _ _ _ held stepped label]
        simpa [seen, label] using reached
      | some step =>
        obtain ⟨actor', event'⟩ := step
        simpa [seen, label] using reached.snoc (r.visible _ _ _ _ _ _ held stepped label)
  exact both.2

end Refinement

end Labelled
