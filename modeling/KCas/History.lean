import KCas.Automaton
import KCas.Library.Linearizability

/-! The calls of a run as their callers see them: each is entered once, and
returns once at most. -/
namespace KCas

open Labelled Linearizability

variable {P : Params} {load : Workload P.numWords} {cells : ℕ → ℕ} {σ : Config P.numWords}
  {t n : ℕ} {trace : Trace P} {x : Transition (Config P.numWords) Actor Event}
  {result : Except Error Unit}

/-- What the callers see of a step. A call is named by its thread index and its
sequence. -/
def actionOf (P : Params) (x : Transition (Config P.numWords) Actor Event) :
    Option (Action (ℕ × ℕ) (Except Error Unit)) :=
  let call := (x.actor.thread, (x.before.threads x.actor.thread).completed)
  match x.event with
  | .invoked => some (.invoke call)
  | .responded result => some (.respond call result)
  | _ => none

theorem actionOf_invoke : actionOf P x = some (.invoke (t, n)) ↔
    x.actor.thread = t ∧ (x.before.threads t).completed = n ∧ x.event = .invoked := by
  unfold actionOf
  constructor
  · cases x.event <;> simp_all
  · rintro ⟨rfl, rfl, event⟩
    simp [event]

theorem actionOf_respond : actionOf P x = some (.respond (t, n) result) ↔
    Responds P x t n result := by
  unfold actionOf Responds
  constructor
  · cases x.event <;> simp_all
  · rintro ⟨rfl, rfl, event⟩
    simp [event]

/-- The call was entered. -/
def Begun (σ : Config P.numWords) (t n : ℕ) : Prop :=
  n < (σ.threads t).completed ∨ (n = (σ.threads t).completed ∧ (σ.threads t).stack ≠ [])

/-- What the run shows of a thread's calls. -/
structure CallHistory (P : Params) (trace : Trace P) (σ : Config P.numWords) (t : ℕ) : Prop where
  invoked : ∀ n, (∃ x ∈ trace, actionOf P x = some (.invoke (t, n))) ↔ Begun σ t n
  responded : ∀ n < (σ.threads t).completed, ∃ x ∈ trace, ∃ result, Responds P x t n result

/-- What a step does to the calls of thread index `t`. -/
inductive CallStep (P : Params) (x : Transition (Config P.numWords) Actor Event) (t : ℕ) :
    Prop where
  | kept : (∀ n, actionOf P x ≠ some (.invoke (t, n))) →
      (x.after.threads t).completed = (x.before.threads t).completed →
      ((x.after.threads t).stack = [] ↔ (x.before.threads t).stack = []) → CallStep P x t
  | invoked : actionOf P x = some (.invoke (t, (x.before.threads t).completed)) →
      (x.after.threads t).completed = (x.before.threads t).completed →
      (x.before.threads t).stack = [] → (x.after.threads t).stack ≠ [] → CallStep P x t
  | responded {result : Except Error Unit} : Responds P x t (x.before.threads t).completed result →
      (x.after.threads t).completed = (x.before.threads t).completed + 1 →
      (x.before.threads t).stack ≠ [] → (x.after.threads t).stack = [] → CallStep P x t

theorem Reached.callStep (reached : Reached P load cells trace x) (t : ℕ) : CallStep P x t := by
  by_cases own : t = x.actor.thread
  · subst own
    have moves := reached.moves
    generalize shape : x.before.threads x.actor.thread = thread at moves
    generalize shape' : x.after.threads x.actor.thread = thread' at moves
    generalize same : x.event = event at moves
    generalize x.after.shared = s' at moves
    cases moves with
    | invoke more =>
      refine .invoked ?_ ?_ ?_ ?_
      · exact actionOf_invoke.mpr ⟨rfl, rfl, same⟩
      · rw [shape, shape']
      · rw [shape]
      · rw [shape']
        exact List.cons_ne_nil _ _
    | helpReturned harmless =>
      refine .kept ?_ ?_ ?_
      · intro n invoked
        cases (actionOf_invoke.mp invoked).2.2.symm.trans same
      · rw [shape, shape']
      · rw [shape, shape']
        simp
    | respond =>
      refine .responded ⟨rfl, rfl, same⟩ ?_ ?_ ?_
      · rw [shape, shape']
      · rw [shape]
        exact List.cons_ne_nil _ _
      · rw [shape']
    | move moves =>
      refine .kept ?_ ?_ ?_
      · intro n invoked
        have event := (actionOf_invoke.mp invoked).2.2
        subst same
        rw [event] at moves
        cases moves with
        | init moves => cases moves
        | operate moves => cases moves
      · rw [shape, shape']
      · rw [shape, shape']
        simp [moves.frames_ne_nil]
  · have same := reached.others t own
    refine .kept ?_ (by rw [same]) (by rw [same])
    intro n invoked
    exact own (actionOf_invoke.mp invoked).1.symm

theorem CallHistory.step (history : CallHistory P trace x.before t) (step : CallStep P x t) :
    CallHistory P (trace ++ [x]) x.after t := by
  obtain ⟨invoked, responded⟩ := history
  have snoc (n : ℕ) : (∃ y ∈ trace ++ [x], actionOf P y = some (.invoke (t, n))) ↔
      Begun x.before t n ∨ actionOf P x = some (.invoke (t, n)) := by
    simp [or_and_right, exists_or, invoked n]
  have earlier {n : ℕ} (below : n < (x.before.threads t).completed) :
      ∃ y ∈ trace ++ [x], ∃ result, Responds P y t n result := by
    obtain ⟨y, member, held⟩ := responded n below
    exact ⟨y, List.mem_append_left _ member, held⟩
  refine ⟨fun n => (snoc n).trans ?_, fun n below => ?_⟩
  · cases step with
    | kept none completed stack => simp [Begun, none n, completed, stack]
    | invoked action completed before after =>
      simp [Begun, action, completed, before, after, eq_comm]
    | responded responds completed before after =>
      have none : actionOf P x ≠ some (.invoke (t, n)) := by
        intro action
        cases (actionOf_invoke.mp action).2.2.symm.trans responds.2.2
      simp only [Begun, none, completed, before, after, ne_eq, not_false_eq_true, not_true,
        and_true, and_false, or_false]
      omega
  · cases step with
    | kept none completed stack => exact earlier (completed ▸ below)
    | invoked action completed before after => exact earlier (completed ▸ below)
    | @responded result responds completed before after =>
      rcases Nat.lt_succ_iff_lt_or_eq.mp (completed ▸ below) with less | rfl
      · exact earlier less
      · exact ⟨x, by simp, result, responds⟩

theorem callHistory_of_execution (rules : UsageRules P load cells)
    (run : Execution P load cells trace σ) (t : ℕ) : CallHistory P trace σ t := by
  refine execution_always (fun trace σ => CallHistory P trace σ t) rules ⟨?_, ?_⟩
    (fun _ _ reached history => history.step (reached.callStep t)) run
  · simp [Begun, Config.initial]
  · simp [Config.initial]

/-- A call is not begun when it is invoked. -/
theorem not_begun_of_invoke (reached : Reached P load cells trace x)
    (action : actionOf P x = some (.invoke (t, n))) : ¬ Begun x.before t n := by
  obtain ⟨-, rfl, event⟩ := actionOf_invoke.mp action
  cases reached.callStep t with
  | kept none => exact absurd action (none _)
  | invoked action completed before after => simp [Begun, before]
  | responded responds => cases event.symm.trans responds.2.2

/-- A call is invoked by one step of a run. -/
theorem invoke_unique {front back front' back' : Trace P}
    {y : Transition (Config P.numWords) Actor Event} (rules : UsageRules P load cells)
    (run : Execution P load cells (front ++ x :: back) σ)
    (same : front ++ x :: back = front' ++ y :: back')
    (action : actionOf P x = some (.invoke (t, n)))
    (action' : actionOf P y = some (.invoke (t, n))) : front = front' ∧ x = y ∧ back = back' := by
  have first := reached_of_split rules run
  have second : Reached P load cells front' y := reached_of_split rules (same ▸ run)
  rcases List.append_eq_append_iff.mp same with ⟨between, rfl, tail⟩ | ⟨between, rfl, tail⟩
  · cases between with
    | nil => simp_all
    | cons z rest =>
      obtain ⟨rfl, -⟩ := List.cons.inj tail
      exact absurd ((callHistory_of_execution rules second.run t).invoked n |>.mp
        ⟨x, by simp, action⟩) (not_begun_of_invoke second action')
  · cases between with
    | nil => simp_all
    | cons z rest =>
      obtain ⟨rfl, -⟩ := List.cons.inj tail
      exact absurd ((callHistory_of_execution rules first.run t).invoked n |>.mp
        ⟨y, by simp, action'⟩) (not_begun_of_invoke first action)

end KCas
