import Mathlib.Data.List.Basic

/-! Finite runs of a labelled transition system whose actors choose the next
step, and the two ways to reason about them: an invariant that each step keeps,
and the decomposition of a run at one of its transitions. -/
namespace Labelled

/-- A system: the step an actor takes from a state, if it can take one. -/
abbrev System (σ α ε : Type) := σ → α → Option (ε × σ)

/-- One step of a run, with the states around it. -/
structure Transition (σ α ε : Type) where
  before : σ
  actor : α
  event : ε
  after : σ

variable {σ α ε : Type}

/-- The finite runs from `start`: the transitions in the order they happened,
and the state they lead to. -/
inductive Run (step : System σ α ε) (start : σ) : List (Transition σ α ε) → σ → Prop where
  | refl : Run step start [] start
  | snoc {trace middle actor event finish} : Run step start trace middle →
      step middle actor = some (event, finish) →
      Run step start (trace ++ [⟨middle, actor, event, finish⟩]) finish

variable {step : System σ α ε} {start middle finish : σ}
  {trace front back : List (Transition σ α ε)} {x : Transition σ α ε}

namespace Run

/-- A property of the trace and the state that holds at the start and that
every step of an admitted run keeps, holds at the end of every admitted run. -/
theorem invariant (admitted : Transition σ α ε → Prop)
    (holds : List (Transition σ α ε) → σ → Prop) (initially : holds [] start)
    (kept : ∀ trace before actor event after, Run step start trace before →
      step before actor = some (event, after) → admitted ⟨before, actor, event, after⟩ →
      holds trace before → holds (trace ++ [⟨before, actor, event, after⟩]) after)
    (run : Run step start trace finish) (all : ∀ x ∈ trace, admitted x) : holds trace finish := by
  induction run with
  | refl => exact initially
  | snoc earlier stepped ih =>
    exact kept _ _ _ _ _ earlier stepped (all _ (by simp))
      (ih fun x member => all x (List.mem_append_left _ member))

/-- The invariant rule for a property of the state alone, over all runs. -/
theorem state_invariant {holds : σ → Prop} (initially : holds start)
    (kept : ∀ before actor event after, step before actor = some (event, after) →
      holds before → holds after)
    (run : Run step start trace finish) : holds finish :=
  @invariant _ _ _ step start finish trace (fun _ => True) (fun _ state => holds state) initially
    (fun _ _ _ _ _ _ stepped _ held => kept _ _ _ _ stepped held) run (fun _ _ => trivial)

theorem append (first : Run step start front middle) (second : Run step middle back finish) :
    Run step start (front ++ back) finish := by
  induction second with
  | refl => simpa using first
  | snoc _ stepped ih =>
    rw [← List.append_assoc]
    exact .snoc ih stepped

theorem single {actor : α} {event : ε} (stepped : step start actor = some (event, finish)) :
    Run step start [⟨start, actor, event, finish⟩] finish := by
  simpa using Run.snoc .refl stepped

/-- A run that passes through a transition reaches its state, takes it, and
goes on from there. -/
theorem split (run : Run step start (front ++ x :: back) finish) :
    Run step start front x.before ∧ step x.before x.actor = some (x.event, x.after) ∧
      Run step x.after back finish := by
  generalize shape : front ++ x :: back = whole at run
  induction run generalizing back with
  | refl => simp at shape
  | @snoc trace before actor event after earlier stepped ih =>
    rcases List.eq_nil_or_concat back with rfl | ⟨rest, last, rfl⟩
    · obtain ⟨rfl, lastSame⟩ := List.append_inj' shape rfl
      obtain rfl : x = ⟨before, actor, event, after⟩ := by simpa using lastSame
      exact ⟨earlier, stepped, .refl⟩
    · have cut : (front ++ x :: rest) ++ [last] = trace ++ [⟨before, actor, event, after⟩] := by
        simpa using shape
      obtain ⟨same, lastSame⟩ := List.append_inj' cut rfl
      obtain ⟨reached, taken, onward⟩ := ih same
      obtain rfl : last = ⟨before, actor, event, after⟩ := by simpa using lastSame
      exact ⟨reached, taken, by simpa using onward.snoc stepped⟩

theorem eq_of_nil (run : Run step start [] finish) : finish = start := by
  generalize shape : ([] : List (Transition σ α ε)) = trace at run
  cases run with
  | refl => rfl
  | snoc => simp at shape

/-- A run can be cut anywhere. -/
theorem cut (run : Run step start (front ++ back) finish) :
    ∃ middle, Run step start front middle ∧ Run step middle back finish := by
  cases back with
  | nil => exact ⟨finish, by simpa using run, .refl⟩
  | cons x back =>
    obtain ⟨reached, taken, onward⟩ := run.split
    exact ⟨x.before, reached, (Run.single taken).append onward⟩

/-- A run begins where its first step does. -/
theorem head (run : Run step start (x :: back) finish) : x.before = start := by
  have cut : Run step start ([] ++ x :: back) finish := run
  exact cut.split.1.eq_of_nil

/-- The last step of a run. -/
theorem last (run : Run step start (front ++ [x]) finish) :
    Run step start front x.before ∧ step x.before x.actor = some (x.event, x.after) ∧
      finish = x.after := by
  obtain ⟨reached, taken, rest⟩ := run.split
  exact ⟨reached, taken, rest.eq_of_nil⟩

theorem finish_unique {other : σ} (run : Run step start trace finish)
    (again : Run step start trace other) : finish = other := by
  rcases List.eq_nil_or_concat trace with rfl | ⟨front, x, rfl⟩
  · exact run.eq_of_nil.trans again.eq_of_nil.symm
  · rw [List.concat_eq_append] at run again
    exact run.last.2.2.trans again.last.2.2.symm

/-- Of two runs of one actor the longer one begins like the other. -/
theorem begin_alike {actor : α} {other : List (Transition σ α ε)} {ended : σ}
    (run : Run step start trace finish) (own : ∀ x ∈ trace, x.actor = actor)
    (again : Run step start other ended) (alike : ∀ x ∈ other, x.actor = actor) :
    trace <+: other ∨ other <+: trace := by
  induction run with
  | refl => exact .inl ⟨other, rfl⟩
  | @snoc trace middle mover event finish earlier stepped ih =>
    rcases ih fun x member => own x (List.mem_append_left _ member) with ⟨rest, rfl⟩ | shorter
    · cases rest with
      | nil => exact .inr (by simp)
      | cons y rest =>
        obtain ⟨reached, taken, -⟩ := again.split
        obtain rfl : mover = actor := own ⟨middle, mover, event, finish⟩ (by simp)
        rw [← earlier.finish_unique reached, alike y (by simp), stepped] at taken
        obtain ⟨same, after⟩ := (Prod.mk.injEq ..).mp (Option.some.inj taken)
        have next : y = ⟨middle, mover, event, finish⟩ := by
          rw [earlier.finish_unique reached, same, after, ← alike y (by simp)]
        exact .inl ⟨rest, by simp [next]⟩
    · exact .inr (shorter.trans (List.prefix_append _ _))

/-- Every transition of a run is a step from a state that the run reached. -/
theorem of_mem (run : Run step start trace finish) (member : x ∈ trace) :
    ∃ front, Run step start front x.before ∧ step x.before x.actor = some (x.event, x.after) ∧
      ∀ y ∈ front, y ∈ trace := by
  obtain ⟨front, back, rfl⟩ := List.append_of_mem member
  obtain ⟨reached, taken, _⟩ := run.split
  exact ⟨front, reached, taken, fun y inFront => List.mem_append_left _ inFront⟩

end Run

/-- The transitions a schedule of actors takes, if each can take its step. -/
def replay (step : System σ α ε) (state : σ) :
    List α → Option (List (Transition σ α ε) × σ)
  | [] => some ([], state)
  | actor :: rest =>
    match step state actor with
    | none => none
    | some (event, after) =>
      match replay step after rest with
      | none => none
      | some (trace, finish) => some (⟨state, actor, event, after⟩ :: trace, finish)

/-- A schedule that can be replayed is a run. -/
theorem run_of_replay {schedule : List α}
    (replayed : replay step start schedule = some (trace, finish)) :
    Run step start trace finish := by
  induction schedule generalizing start trace with
  | nil =>
    simp only [replay, Option.some.injEq, Prod.mk.injEq] at replayed
    obtain ⟨rfl, rfl⟩ := replayed
    exact .refl
  | cons actor rest ih =>
    simp only [replay] at replayed
    split at replayed
    · cases replayed
    · rename_i event after stepped
      split at replayed
      · cases replayed
      · rename_i later finish' restReplayed
        simp only [Option.some.injEq, Prod.mk.injEq] at replayed
        obtain ⟨rfl, rfl⟩ := replayed
        simpa using (Run.single stepped).append (ih restReplayed)

/-- A replay that ends in a checked state is a run that does. -/
theorem exists_run_of_replay (step : System σ α ε) (start : σ) (schedule : List α)
    (check : List (Transition σ α ε) → σ → Prop) [∀ trace finish, Decidable (check trace finish)]
    (passed : (replay step start schedule).any (fun ended => check ended.1 ended.2) = true) :
    ∃ trace finish, Run step start trace finish ∧ check trace finish := by
  obtain ⟨⟨trace, finish⟩, replayed, checked⟩ := (Option.any_eq_true _ _).mp passed
  exact ⟨trace, finish, run_of_replay replayed, of_decide_eq_true checked⟩

end Labelled
