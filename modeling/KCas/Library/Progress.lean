import Mathlib.Data.Prod.Lex
import KCas.Library.Run

/-! Progress of one actor of a system that moves alone: a measure that every one
of its steps lowers leads it to a goal. Progress of all actors together: a measure
that everybody's steps lower bounds their number. -/
namespace Labelled

variable {σ α ε μ : Type} {step : System σ α ε} {start finish : σ} {actor : α}
  {trace : List (Transition σ α ε)}

/-- From every state of a run an actor that goes on alone comes to a step that is
a goal, if each of its steps is one or lowers a measure. -/
theorem exists_run_until {less : μ → μ → Prop} (wellFounded : WellFounded less) (measure : σ → μ)
    (holds : List (Transition σ α ε) → σ → Prop) {goal : Transition σ α ε → Prop}
    (advance : ∀ trace before, holds trace before →
      ∃ event after, step before actor = some (event, after) ∧
        (goal ⟨before, actor, event, after⟩ ∨
          (holds (trace ++ [⟨before, actor, event, after⟩]) after ∧
            less (measure after) (measure before))))
    (held : holds trace start) : ∃ alone finish, Run step start alone finish ∧
      (∀ x ∈ alone, x.actor = actor) ∧ ∃ x ∈ alone, goal x := by
  generalize level : measure start = value
  induction value using wellFounded.induction generalizing start trace with
  | _ value ih =>
    obtain ⟨event, after, stepped, reached | ⟨held', lower⟩⟩ := advance trace start held
    · exact ⟨_, after, .single stepped, by simp, _, List.mem_singleton.mpr rfl, reached⟩
    · obtain ⟨alone, finish, run, own, x, member, reached⟩ := ih _ (level ▸ lower) held' rfl
      refine ⟨_, finish, (Run.single stepped).append run, ?_, x, ?_, reached⟩
      · simpa using own
      · exact List.mem_append_right _ member

/-- The same for a schedule of actors that is given in advance: the state and the
position in the schedule are measured together. -/
theorem exists_run_along {less : μ → μ → Prop} (wellFounded : WellFounded less) (actors : ℕ → α)
    (measure : ℕ → σ → μ) (holds : σ → Prop) {goal : Transition σ α ε → Prop}
    (advance : ∀ i before, holds before →
      ∃ event after, step before (actors i) = some (event, after) ∧
        (goal ⟨before, actors i, event, after⟩ ∨
          (holds after ∧ less (measure (i + 1) after) (measure i before))))
    (i : ℕ) (held : holds start) : ∃ count finish, ∃ (front : List (Transition σ α ε))
      (x : Transition σ α ε), Run step start (front ++ [x]) finish ∧
        (front ++ [x]).map (·.actor) = (List.range' i count).map actors ∧ goal x ∧
        ∀ y ∈ front, ¬ goal y := by
  generalize level : measure i start = value
  induction value using wellFounded.induction generalizing start i with
  | _ value ih =>
    obtain ⟨event, after, stepped, onward⟩ := advance i start held
    by_cases reached : goal ⟨start, actors i, event, after⟩
    · exact ⟨1, after, [], _, .single stepped, rfl, reached, by simp⟩
    · obtain ⟨held', lower⟩ := onward.resolve_left reached
      obtain ⟨count, finish, front, x, run, own, ended, calm⟩ :=
        ih _ (level ▸ lower) (i + 1) held' rfl
      refine ⟨count + 1, finish, _ :: front, x, (Run.single stepped).append run, ?_, ended, ?_⟩
      · rw [List.range'_succ, List.cons_append, List.map_cons, List.map_cons, own]
      · simpa [reached] using calm

/-- A run has no more steps of a kind than a measure allows that each of them lowers and
that no step raises. -/
theorem Run.countP_le_of_lowers (measure : σ → ℕ) {counted : Transition σ α ε → Bool}
    (run : Run step start trace finish)
    (lowers : ∀ x ∈ trace, counted x = true → measure x.after < measure x.before)
    (keeps : ∀ x ∈ trace, counted x = false → measure x.after ≤ measure x.before) :
    trace.countP counted + measure finish ≤ measure start := by
  induction run with
  | refl => simp
  | @snoc trace middle actor event finish earlier stepped ih =>
    have last : (⟨middle, actor, event, finish⟩ : Transition σ α ε) ∈
        trace ++ [⟨middle, actor, event, finish⟩] := by simp
    have before := ih (fun x member => lowers x (List.mem_append_left _ member))
      fun x member => keeps x (List.mem_append_left _ member)
    rw [List.countP_append, List.countP_singleton]
    split
    · rename_i taken
      have lower : measure finish < measure middle := lowers _ last taken
      omega
    · rename_i other
      have kept : measure finish ≤ measure middle := keeps _ last (by simpa using other)
      omega

/-- The same for all steps of a run, whoever takes them. -/
theorem Run.length_le_of_lowers (measure : σ → ℕ) (run : Run step start trace finish)
    (lowers : ∀ x ∈ trace, measure x.after < measure x.before) :
    trace.length + measure finish ≤ measure start := by
  have all : trace.countP (fun _ => true) + measure finish ≤ measure start :=
    run.countP_le_of_lowers measure (fun x member _ => lowers x member) (by simp)
  rwa [List.countP_true] at all

/-! ### Lexicographic measures -/

/-- A later component decides where the earlier ones do not grow. -/
theorem lex_of_le {less : μ → μ → Prop} {a a' : ℕ} {b b' : μ} (le : a ≤ a') (lower : less b b') :
    Prod.Lex (· < ·) less (a, b) (a', b') := by
  rcases Nat.lt_or_eq_of_le le with lt | rfl
  · exact .left _ _ lt
  · exact .right _ lower

/-- Where the later component is bounded, a lexicographic step lowers one number. -/
theorem weighed_lt {less : μ → μ → Prop} (weight : μ → ℕ) {bound a a' : ℕ} {b b' : μ}
    (lower : Prod.Lex (· < ·) less (a, b) (a', b')) (mono : less b b' → weight b < weight b')
    (bounded : weight b < bound) : a * bound + weight b < a' * bound + weight b' := by
  cases lower with
  | right _ later => exact Nat.add_lt_add_left (mono later) _
  | left _ _ earlier =>
    calc a * bound + weight b < a * bound + bound := Nat.add_lt_add_left bounded _
      _ = (a + 1) * bound := (Nat.succ_mul a bound).symm
      _ ≤ a' * bound := Nat.mul_le_mul_right bound earlier
      _ ≤ a' * bound + weight b' := Nat.le_add_right _ _

theorem lex_wellFounded {less : μ → μ → Prop} (wellFounded : WellFounded less) :
    WellFounded (Prod.Lex (· < · : ℕ → ℕ → Prop) less) :=
  WellFounded.prod_lex Nat.lt_wfRel.wf wellFounded

end Labelled
