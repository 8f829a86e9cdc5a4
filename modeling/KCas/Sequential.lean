import KCas.Alone

/-! Calls that do not overlap. Each of them runs alone from a state in which no
call is in progress and no cell holds a marker, and acts as one atomic step. -/
namespace KCas

open Labelled Linearizability

variable {P : Params} {load : Workload P.numWords} {cells : ℕ → ℕ} {σ σ₀ : Config P.numWords}
  {t n w : ℕ} {trace : Trace P} {x : Transition (Config P.numWords) Actor Event}
  {result : Except Error Unit} {words : KCasWords P.numWords} {s s' : Shared}
  {frame : Frame P.numWords}

/-- A call begins only when no other call is in progress. -/
def BeginsAlone (P : Params) (x : Transition (Config P.numWords) Actor Event) : Prop :=
  x.event = .invoked → Idle P x.before

instance (x : Transition (Config P.numWords) Actor Event) : Decidable (BeginsAlone P x) :=
  inferInstanceAs (Decidable (_ → _))

/-- What a call does to the shared memory from its entry to its return. -/
structure ActsAtomically (P : Params) (words : KCasWords P.numWords) (t n : ℕ) (s s' : Shared)
    (result : Except Error Unit) : Prop where
  succeeds : (∀ w < P.numWords, s.cells (words.target w) = words.expected w) →
    result = .ok () ∧ ∀ w < P.numWords, s'.cells (words.target w) = words.desired w
  fails : (∃ w < P.numWords, s.cells (words.target w) ≠ words.expected w) →
    result = .error .valueWasNotExpectedValue ∧ s'.cells = s.cells
  others : ∀ address, (∀ w < P.numWords, words.target w ≠ address) →
    s'.cells address = s.cells address
  row : OnlyRow t s s'
  word : s'.state.stageAndSequenceNumbers t = P.stageWord .inactive (n + 1)

/-! ### One call -/

theorem actsAtomically_of_returned (rules : UsageRules P load cells) (ok : ConfigOk P load σ₀)
    (idle : Idle P σ₀) (within : t < P.numThreads)
    (counted : (σ₀.threads t).completed < load.count t)
    (legal : ∀ address, P.Legal (σ₀.shared.cells address))
    (returned : Returned P load σ₀ σ t result) :
    ActsAtomically P (load.call t (σ₀.threads t).completed) t (σ₀.threads t).completed σ₀.shared
      σ.shared result := by
  have held := ok.callStacks t within
  rw [idle t within] at held
  obtain ⟨-, sequence⟩ := held
  obtain ⟨outcome, row, word, -⟩ := returned
  rw [sequence] at outcome word
  generalize (σ₀.threads t).completed = n at *
  have distinct := rules.distinct t within n counted
  have real (w : ℕ) (_ : w < P.numWords) :
      σ₀.shared.cells ((load.call t n).target w) ≠ P.marker t n := fun marked =>
    rules.marker_not_legal within counted (marked ▸ legal _)
  have next : P.stageWord .inactive (nextSequence P.usizeBits P.numThreads n) =
      P.stageWord .inactive (n + 1) :=
    Option.some.inj ((prepareForNextOperation_nextSequence P n).symm.trans
      (prepareForNextOperation_eq P (rules.stage_lt within counted)))
  exact ⟨outcome.matching real distinct, outcome.mismatch real distinct,
    fun _ => outcome.other real distinct, row, word.trans next⟩

/-- The cells hold real values after the call, too. -/
theorem ActsAtomically.legal (acts : ActsAtomically P words t n s s' result)
    (before : ∀ address, P.Legal (s.cells address))
    (desired : ∀ w < P.numWords, P.Legal (words.desired w)) (address : ℕ) :
    P.Legal (s'.cells address) := by
  by_cases matching : ∀ w < P.numWords, s.cells (words.target w) = words.expected w
  · by_cases other : ∀ w < P.numWords, words.target w ≠ address
    · rw [acts.others address other]
      exact before address
    · obtain ⟨w, inRange, rfl⟩ : ∃ w < P.numWords, words.target w = address := by
        simpa using other
      rw [(acts.succeeds matching).2 w inRange]
      exact desired w inRange
  · rw [(acts.fails (by simpa using matching)).2]
    exact before address

/-! ### Runs -/

/-- A thread without a call enters one. -/
theorem Reached.invoked_of_idle (reached : Reached P load cells trace x)
    (idle : (x.before.threads x.actor.thread).stack = []) : x.event = .invoked ∧
      (x.before.threads x.actor.thread).completed < load.count x.actor.thread := by
  have moves := reached.moves
  generalize shape : x.before.threads x.actor.thread = thread at moves idle ⊢
  generalize x.after.threads x.actor.thread = thread' at moves
  generalize x.event = event at moves ⊢
  generalize x.after.shared = after at moves
  cases moves with
  | invoke more => exact ⟨rfl, more⟩
  | _ => cases idle

/-- Where calls that do not overlap are after a run: between two calls, or inside
one that was entered by a step of the run. -/
inductive Phase (P : Params) (load : Workload P.numWords) (trace : Trace P)
    (σ : Config P.numWords) : Prop where
  | quiet : Idle P σ → (∀ address, P.Legal (σ.shared.cells address)) → Phase P load trace σ
  | busy {t : ℕ} {frame : Frame P.numWords} {front back : Trace P}
      {x : Transition (Config P.numWords) Actor Event} : trace = front ++ x :: back →
      t < P.numThreads → (x.before.threads t).completed < load.count t →
      actionOf P x = some (.invoke (t, (x.before.threads t).completed)) → Idle P x.before →
      ConfigOk P load x.before → (∀ address, P.Legal (x.before.shared.cells address)) →
      InCall P load x.before σ t frame → Phase P load trace σ

/-- Inside a call only its thread moves. -/
theorem InCall.own (inside : InCall P load σ₀ x.before t frame) (idle : Idle P σ₀)
    (within : t < P.numThreads) (reached : Reached P load cells trace x)
    (apart : BeginsAlone P x) : x.actor.thread = t := by
  by_contra other
  have free : (x.before.threads x.actor.thread).stack = [] := by
    rw [inside.threads, Function.update_of_ne other]
    exact idle _ reached.within
  have none := apart (reached.invoked_of_idle free).1 t within
  simp [inside.threads] at none

theorem phase_step (rules : UsageRules P load cells) (reached : Reached P load cells trace x)
    (apart : BeginsAlone P x) (phase : Phase P load trace x.before) :
    Phase P load (trace ++ [x]) x.after := by
  cases phase with
  | quiet idle legal =>
    have free := idle _ reached.within
    obtain ⟨event, more⟩ := reached.invoked_of_idle free
    obtain ⟨σ', frame, entered, inside, -⟩ := enters reached.within free more x.actor.spurious
    obtain ⟨-, rfl⟩ := Prod.mk.inj (Option.some.inj (reached.taken.symm.trans entered))
    exact .busy rfl reached.within more (actionOf_invoke.mpr ⟨rfl, rfl, event⟩) idle
      reached.before legal inside
  | @busy t frame front back x₀ shape within more action idle ok legal inside =>
    obtain rfl : x.actor.thread = t := inside.own idle within reached apart
    have shape' : trace ++ [x] = front ++ x₀ :: (back ++ [x]) := by simp [shape]
    obtain ⟨event, σ', moved, outcome⟩ :=
      inside.step within (LegalTargets.stopsAtReal fun w _ => legal _) x.actor.spurious
    obtain ⟨same, rfl⟩ := Prod.mk.inj (Option.some.inj (reached.taken.symm.trans moved))
    rcases outcome with ⟨-, -, frame', inside', -⟩ | ⟨result, -, returned⟩
    · exact .busy shape' within more action idle ok legal inside'
    · have acts := actsAtomically_of_returned rules ok idle within more legal returned
      refine .quiet (fun u inRange => ?_)
        (acts.legal legal (rules.desired_legal _ within _ more))
      by_cases own : u = x.actor.thread
      · simp [returned.threads, own]
      · rw [returned.threads, Function.update_of_ne own]
        exact idle u inRange

theorem phase_of_execution (rules : UsageRules P load cells) (run : Execution P load cells trace σ)
    (apart : ∀ x ∈ trace, BeginsAlone P x) : Phase P load trace σ :=
  execution_invariant (BeginsAlone P) (Phase P load) rules
    (.quiet (fun _ _ => rfl) rules.cells_legal)
    (fun _ _ reached admitted phase => phase_step rules reached admitted phase) run apart

/-- Calls that do not overlap act atomically, one after another, and every call
that was entered returns, whichever exchanges fail without a reason, as long as
these are finitely many. -/
theorem sequential_calls (rules : UsageRules P load cells) (run : Execution P load cells trace σ)
    (apart : ∀ x ∈ trace, BeginsAlone P x) :
    (∀ (front mid back : Trace P) (x y : Transition (Config P.numWords) Actor Event) t n result,
      trace = front ++ x :: mid ++ y :: back → actionOf P x = some (.invoke (t, n)) →
      Responds P y t n result →
        ActsAtomically P (load.call t n) t n x.before.shared y.after.shared result) ∧
    ∀ t < P.numThreads, (σ.threads t).stack ≠ [] → ∀ (spurious : ℕ → Bool) (last : ℕ),
      (∀ i, last ≤ i → spurious i = false) → ∃ count σ', ∃ (front : Trace P)
        (y : Transition (Config P.numWords) Actor Event),
        Run (step P load) σ (front ++ [y]) σ' ∧
          (front ++ [y]).map (·.actor) = (List.range count).map (fun i => ⟨t, spurious i⟩) ∧
          ∃ result, Responds P y t (σ.threads t).completed result := by
  constructor
  · rintro front mid back x y t n result rfl action responds
    obtain ⟨rfl, rfl, event⟩ := responds
    have reached : Reached P load cells (front ++ x :: mid) y := reached_of_split rules run
    have admitted := apart y (by simp)
    have phase := phase_of_execution rules reached.run fun z member =>
      apart z (List.mem_append_left _ member)
    cases phase with
    | quiet idle legal =>
      cases event.symm.trans (reached.invoked_of_idle (idle _ reached.within)).1
    | @busy t frame front' back' x' shape within more action' idle ok legal inside =>
      obtain rfl : y.actor.thread = t := inside.own idle within reached admitted
      have count : (y.before.threads y.actor.thread).completed =
          (x'.before.threads y.actor.thread).completed := by
        simp [inside.threads]
      rw [count] at action ⊢
      obtain ⟨-, rfl, -⟩ := invoke_unique rules reached.run shape action action'
      obtain ⟨event', σ', moved, outcome⟩ :=
        inside.step within (LegalTargets.stopsAtReal fun w _ => legal _) y.actor.spurious
      obtain ⟨rfl, rfl⟩ := Prod.mk.inj (Option.some.inj (reached.taken.symm.trans moved))
      rcases outcome with ⟨-, quiet, -⟩ | ⟨result', event', returned⟩
      · exact absurd event (quiet result)
      · obtain rfl : result = result' := Event.responded.inj (event.symm.trans event')
        exact actsAtomically_of_returned rules ok idle within more legal returned
  · intro t within busy spurious last finitely
    cases phase_of_execution rules run apart with
    | quiet idle legal => exact absurd (idle t within) busy
    | @busy u frame front' back' x' shape within' more action idle ok legal inside =>
      have own : t = u := by
        by_contra other
        rw [inside.threads, Function.update_of_ne other] at busy
        exact busy (idle t within)
      subst own
      obtain ⟨count, σ', front, y, onward, actors, responds, -⟩ :=
        inside.returns within (LegalTargets.stopsAtReal fun w _ => legal _) finitely 0
      refine ⟨count, σ', front, y, onward, List.range_eq_range' ▸ actors, ?_⟩
      simpa [inside.threads] using responds

/-- The contended calls, one after the other: the second one fails. -/
theorem sequential_calls_contended : ∃ (trace : Trace twoThreads) (σ : Config twoThreads.numWords),
    Execution twoThreads contended (fun _ => 0) trace σ ∧ (σ.threads 0).completed = 1 ∧
      (σ.threads 1).completed = 1 ∧
      ∀ (front mid back : Trace twoThreads)
        (x y : Transition (Config twoThreads.numWords) Actor Event) t n result,
        trace = front ++ x :: mid ++ y :: back → actionOf twoThreads x = some (.invoke (t, n)) →
        Responds twoThreads y t n result →
          ActsAtomically twoThreads (contended.call t n) t n x.before.shared y.after.shared
            result := by
  obtain ⟨trace, σ, run, apart, first, second⟩ := exists_execution twoThreads contended
    (fun _ => 0) [(0, 24), (1, 19)]
    (fun trace σ => (∀ x ∈ trace, BeginsAlone twoThreads x) ∧ (σ.threads 0).completed = 1 ∧
      (σ.threads 1).completed = 1)
    (by decide +kernel)
  exact ⟨trace, σ, run, first, second, (sequential_calls contended_rules run apart).1⟩

end KCas
