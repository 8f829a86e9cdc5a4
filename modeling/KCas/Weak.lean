import KCas.Library.Refinement
import KCas.Activation

/-! The weak exchange of `claim`. It may fail although it finds the expected value, and
`'cas_loop` then tries again; a run with such failures is one with strong exchanges that
stops now and then. -/
namespace KCas

open Labelled

variable {P : Params} {load : Workload P.numWords} {cells : ℕ → ℕ} {σ σ' : Config P.numWords}
  {s : Shared} {stack : List (Frame P.numWords)} {outcome : Outcome P.numWords}
  {spurious : Bool} {event : Event} {actor : Actor}

/-- The exchange failed although it found the expected value. -/
def Event.failsWeakly : Event → Bool
  | .exchangeCell .claim _ _ _ expected _ (.error actual) => actual = expected
  | _ => false

/-- An access that fails weakly leaves everything as it is, and the others are those of
strong exchanges. -/
structure WeakStep (P : Params) (s : Shared) (outcome : Outcome P.numWords)
    (stack : List (Frame P.numWords)) (strong : Option (Outcome P.numWords)) : Prop where
  fails : outcome.event.failsWeakly = true → outcome.shared = s ∧ outcome.frames = stack
  takes : outcome.event.failsWeakly = false → strong = some outcome

theorem weakStep_of_operate {role : Role} {op : Operation} {pc : Pc}
    (ran : operate P s spurious role op pc = some outcome) :
    WeakStep P s outcome [.operating role op pc] (operate P s false role op pc) := by
  have plain (same : operate P s spurious role op pc = operate P s false role op pc)
      (strong : outcome.event.failsWeakly = false) :
      WeakStep P s outcome [.operating role op pc] (operate P s false role op pc) :=
    ⟨fun fails => absurd (fails.symm.trans strong) (by simp), fun _ => same ▸ ran⟩
  cases pc with
  | claimExchange w target expected =>
    simp only [operate, Shared.exchangeCellWeak, Shared.exchangeCell, Bool.false_eq_true,
      if_false] at ran ⊢
    by_cases found : s.cells target = expected
    · cases spurious with
      | true =>
        simp only [found, if_true, Option.some.injEq] at ran
        subst ran
        exact ⟨fun _ => ⟨rfl, rfl⟩, by simp [Event.failsWeakly]⟩
      | false =>
        simp only [found, Bool.false_eq_true, if_true, if_false, Option.some.injEq] at ran
        subst ran
        exact ⟨by simp [Event.failsWeakly], fun _ => by simp [found]⟩
    · simp only [found, if_false, ite_self, Option.some.injEq] at ran
      subst ran
      exact ⟨by simp [Event.failsWeakly, found], fun _ => by simp [found]⟩
  | claimVerify | setVerify =>
    refine plain rfl ?_
    simp only [operate, Option.some.injEq] at ran
    subst ran
    split
    · split <;> rfl
    · rfl
  | prepare =>
    refine plain rfl ?_
    simp only [operate, Option.some.injEq] at ran
    subst ran
    split
    · rfl
    · split <;> rfl
  | setExchange | revertExchange =>
    refine plain rfl ?_
    simp only [operate, Option.some.injEq] at ran
    subst ran
    rfl
  | claimHelp | finished | returned | panicked => cases ran
  | _ =>
    refine plain rfl ?_
    simp only [operate, Option.some.injEq] at ran
    subst ran
    split <;> rfl

/-- The stores of `initialize_operation` and the load of `help_thread` are no weak
exchanges. -/
theorem weakStep_of_frameStep {frame : Frame P.numWords}
    (ran : frameStep P s spurious frame = some outcome) :
    WeakStep P s outcome [frame] (frameStep P s false frame) := by
  have plain (same : frameStep P s spurious frame = frameStep P s false frame)
      (strong : outcome.event.failsWeakly = false) :
      WeakStep P s outcome [frame] (frameStep P s false frame) :=
    ⟨fun fails => absurd (fails.symm.trans strong) (by simp), fun _ => same ▸ ran⟩
  cases frame with
  | initializing threadId threadIndex words pc =>
    refine plain rfl ?_
    simp only [frameStep, Option.some.injEq] at ran
    subst ran
    cases pc with
    | storeStage => rfl
    | _ =>
      simp only [initializeOperation]
      split <;> rfl
  | helpThread marker =>
    refine plain rfl ?_
    simp only [frameStep, Option.some.injEq] at ran
    subst ran
    simp only [helpThread]
    split
    · rfl
    · split <;> rfl
  | operating role op pc => exact weakStep_of_operate ran

theorem weakStep_of_stackStep (ran : stackStep P s spurious stack = some outcome) :
    WeakStep P s outcome stack (stackStep P s false stack) := by
  unfold stackStep at ran ⊢
  split at ran
  · cases ran
  · cases ran
    exact ⟨by simp [Event.failsWeakly], fun _ => rfl⟩
  · cases ran
    exact ⟨by simp [Event.failsWeakly], fun _ => rfl⟩
  · obtain ⟨inner, accessed, rfl⟩ := Option.map_eq_some_iff.mp ran
    have weak := weakStep_of_frameStep accessed
    refine ⟨fun fails => ?_, fun takes => ?_⟩
    · obtain ⟨same, frames⟩ := weak.fails fails
      exact ⟨same, by simp [frames]⟩
    · simp only [weak.takes takes, Option.map_some]

/-- The step that a step with a weak exchange is, if that did not fail for no reason. -/
def strongly (actor : Actor) (event : Event) : Option (Actor × Event) :=
  if event.failsWeakly then none else some (⟨actor.thread, false⟩, event)

/-- A step with a weak exchange. -/
theorem weakStep (stepped : step P load σ actor = some (event, σ')) :
    (event.failsWeakly = true → σ' = σ) ∧ (event.failsWeakly = false →
      step P load σ ⟨actor.thread, false⟩ = some (event, σ')) := by
  by_cases within : actor.thread < P.numThreads
  · simp only [step, within, if_true] at stepped ⊢
    generalize thread : σ.threads actor.thread = own at stepped ⊢
    obtain ⟨completed, stack⟩ := own
    cases stack with
    | nil =>
      simp only at stepped ⊢
      split at stepped
      · rename_i more
        cases stepped
        exact ⟨by simp [Event.failsWeakly], fun _ => by simp [more]⟩
      · cases stepped
    | cons frame rest =>
      simp only at stepped ⊢
      split at stepped
      · cases stepped
      · rename_i outcome ran
        have weak := weakStep_of_stackStep ran
        cases stepped
        refine ⟨fun fails => ?_, fun takes => by simp only [weak.takes takes]⟩
        obtain ⟨same, frames⟩ := weak.fails fails
        simp only [same, frames, List.isEmpty_cons, Bool.false_eq_true, if_false, ← thread,
          Function.update_eq_self]
  · simp [step, within] at stepped

/-- The system with weak exchanges runs the one with strong exchanges. -/
def strongRefinement (P : Params) (load : Workload P.numWords) :
    Refinement (step P load) (step P load) where
  holds := fun _ => True
  state := id
  label := strongly
  kept := fun _ _ _ _ _ _ => trivial
  hidden := by
    intro σ actor event σ' _ stepped hidden
    refine (weakStep stepped).1 ?_
    simpa [strongly] using hidden
  visible := by
    intro σ actor event σ' actor' event' _ stepped visible
    simp only [strongly, Option.ite_none_left_eq_some, Option.some.injEq, Prod.mk.injEq] at visible
    obtain ⟨takes, rfl, rfl⟩ := visible
    exact (weakStep stepped).2 (by simpa using takes)

/-- Who took a step, and what it showed. -/
def shown {numWords : ℕ} (x : Transition (Config numWords) Actor Event) : ℕ × Event :=
  (x.actor.thread, x.event)

/-- Every run comes to the same configuration with strong exchanges, with the same steps
but the exchanges that failed for no reason: none of these makes a state or a history
possible that would not be so without them. -/
theorem strong_run_of_execution {trace : Trace P} (run : Execution P load cells trace σ) :
    ∃ strong, Execution P load cells strong σ ∧ (∀ x ∈ strong, x.actor.spurious = false) ∧
      strong.map shown = (trace.filter fun x => !x.event.failsWeakly).map shown := by
  refine ⟨trace.filterMap (strongRefinement P load).seen,
    (strongRefinement P load).run trivial rfl run, ?_, ?_⟩
  · intro y member
    obtain ⟨x, -, seen⟩ := List.mem_filterMap.mp member
    obtain ⟨⟨actor, event⟩, label, rfl⟩ := Option.map_eq_some_iff.mp seen
    have label : strongly x.actor x.event = some (actor, event) := label
    simp only [strongly, Option.ite_none_left_eq_some, Option.some.injEq, Prod.mk.injEq] at label
    rw [← label.2.1]
  · clear run
    induction trace with
    | nil => rfl
    | cons x rest ih =>
      have label : (strongRefinement P load).label x.actor x.event = strongly x.actor x.event := rfl
      cases fails : x.event.failsWeakly with
      | true => simpa [Refinement.seen, label, strongly, fails] using ih
      | false => simpa [Refinement.seen, label, strongly, fails, shown] using ih

/-- The first claim exchange fails once for no reason. -/
theorem strong_run_of_execution_contended : ∃ (trace strong : Trace twoThreads)
    (σ : Config twoThreads.numWords), Execution twoThreads contended (fun _ => 0) trace σ ∧
      trace.length = 13 ∧ σ.shared.cells 8 = twoThreads.marker 0 0 ∧
      Execution twoThreads contended (fun _ => 0) strong σ ∧
      ∀ x ∈ strong, x.actor.spurious = false := by
  obtain ⟨trace, σ, run, length, claimed⟩ := exists_run_of_replay (step twoThreads contended)
    (Config.initial twoThreads.numWords fun _ => 0)
    (turns [(0, 11)] ++ [⟨0, true⟩] ++ turns [(0, 1)])
    (fun trace σ => trace.length = 13 ∧ σ.shared.cells 8 = twoThreads.marker 0 0)
    (by decide +kernel)
  obtain ⟨strong, ran, none, -⟩ := strong_run_of_execution run
  exact ⟨trace, strong, σ, run, length, claimed, ran, none⟩

end KCas
