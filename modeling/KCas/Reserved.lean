import KCas.Positions
import KCas.Repeated

/-! Values in the reserved space. `claim` looks at a value only when its exchange
has failed and the value is not its own marker, and it takes a value for a marker
whenever the top bits are a thread id. Then it asks the row of that thread; a
row at another sequence sends it back to its exchange, which finds the same
value again. -/
namespace KCas

open Labelled

variable {P : Params} {load : Workload P.numWords} {σ₀ σ : Config P.numWords} {s₀ s : Shared}
  {t f value : ℕ} {words : KCasWords P.numWords} {spurious : Bool}
  {stack : List (Frame P.numWords)} {result : Except Error Unit}

/-- No operation is in progress: no thread is inside a call, and every row says so. -/
structure Quiescent (P : Params) (σ : Config P.numWords) : Prop where
  idle : Idle P σ
  inactive : ∀ u < P.numThreads, extractStageFromStageAndSequence P.usizeBits
    (σ.shared.state.stageAndSequenceNumbers u) = .ok .inactive

/-- The next call of the thread, run alone from `σ₀`, terminates and does not
return `Ok`. -/
structure Rejected (P : Params) (load : Workload P.numWords) (σ₀ : Config P.numWords) (t : ℕ) :
    Prop where
  terminates : Terminates P load σ₀ t
  notOk : ∀ trace σ, ¬ CallAlone P load σ₀ t (.ok ()) trace σ

/-- A value at which `claim` of thread index `t` stops ends the call: if it reads as
a marker, then as one of another thread, for the sequence that this thread's row has. -/
def Rejects (P : Params) (s : Shared) (t value : ℕ) : Prop :=
  isValueAKcasMarker P.usizeBits P.numThreads value = true →
    extractThreadFromThreadAndSequence P.usizeBits P.numThreads value ≠
      convertThreadIndexToThreadId t ∧
    s.sequenceOf P (extractThreadFromThreadAndSequence P.usizeBits P.numThreads value - 1) =
      extractSequenceFromThreadAndSequence P.usizeBits P.numThreads value

instance (P : Params) (s : Shared) (t value : ℕ) : Decidable (Rejects P s t value) :=
  inferInstanceAs (Decidable (_ → _))

/-- Some target stops the call, and the first one that does holds a value that ends it. -/
def FirstStopRejects (P : Params) (load : Workload P.numWords) (σ₀ : Config P.numWords) (t : ℕ) :
    Prop :=
  ∃ f < P.numWords,
    Stops (load.call t (σ₀.threads t).completed) (P.marker t (σ₀.shared.sequenceOf P t))
      σ₀.shared.cells f ∧
    (∀ i < f, ¬ Stops (load.call t (σ₀.threads t).completed)
      (P.marker t (σ₀.shared.sequenceOf P t)) σ₀.shared.cells i) ∧
    Rejects P σ₀.shared t
      (σ₀.shared.cells ((load.call t (σ₀.threads t).completed).target f))

instance (P : Params) (load : Workload P.numWords) (σ₀ : Config P.numWords) (t : ℕ) :
    Decidable (FirstStopRejects P load σ₀ t) :=
  inferInstanceAs (Decidable (∃ f < P.numWords, _))

/-! ### Calls that stop at a reserved value -/

/-- `claim` stops at word `f`, and the value there is not a real one. -/
structure Blocks (P : Params) (t : ℕ) (words : KCasWords P.numWords) (s₀ : Shared) (f : ℕ) :
    Prop where
  inRange : f < P.numWords
  passed : ∀ i < f, Passes words (P.marker t (s₀.sequenceOf P t)) s₀.cells i
  stops : ¬ Passes words (P.marker t (s₀.sequenceOf P t)) s₀.cells f
  unreal : ¬ P.Legal (s₀.cells (words.target f))

/-- How `help_thread` comes back from the value. -/
def HelpFails (P : Params) (s₀ : Shared) (t value : ℕ) : Except HelpError Unit → Prop
  | .error (.fatal _) => Rejects P s₀ t value
  | .error (.sequenceChangedWhileHelping ..) => ¬ Rejects P s₀ t value
  | _ => False

/-- The call stacks of a call that stops at a reserved value at word `f`. -/
inductive BlockedAt (P : Params) (t : ℕ) (words : KCasWords P.numWords) (s₀ s : Shared) (f : ℕ) :
    List (Frame P.numWords) → Prop where
  | claims {frame} : AloneOk P t words s₀ s frame → frame.Claims →
      BlockedAt P t words s₀ s f [frame]
  | helping : ClaimingAt P t words (s₀.sequenceOf P t) s₀.cells s f →
      isValueAKcasMarker P.usizeBits P.numThreads (s₀.cells (words.target f)) = true →
      BlockedAt P t words s₀ s f [.helpThread (s₀.cells (words.target f)),
        .operating .originator (P.operation t (s₀.sequenceOf P t))
          (.claimHelp f (words.target f) (words.expected f))]
  | helped {helper result} : ClaimingAt P t words (s₀.sequenceOf P t) s₀.cells s f →
      HelpFails P s₀ t (s₀.cells (words.target f)) result →
      BlockedAt P t words s₀ s f [.operating .helper helper (.returned result),
        .operating .originator (P.operation t (s₀.sequenceOf P t))
          (.claimHelp f (words.target f) (words.expected f))]
  | failed {error} : Rejects P s₀ t (s₀.cells (words.target f)) →
      BlockedAt P t words s₀ s f [.operating .originator (P.operation t (s₀.sequenceOf P t))
        (.finished (.error (.fatal error)))]

/-- A bound for the accesses up to the return, if the value ends the call. -/
def stackToGo {numWords : ℕ} : List (Frame numWords) → ℕ
  | [] => 0
  | [frame] => 3 * frame.toGo
  | .helpThread _ :: _ => 2
  | _ :: _ => 1

/-- One access of a call that stops at a reserved value. -/
structure Proceeds (P : Params) (t : ℕ) (words : KCasWords P.numWords) (s₀ : Shared) (f : ℕ)
    (spurious : Bool) (stack : List (Frame P.numWords)) (outcome : Outcome P.numWords) : Prop where
  frames : outcome.frames ≠ []
  blocked : BlockedAt P t words s₀ outcome.shared f outcome.frames
  row : OnlyRow t s₀ outcome.shared
  inside : ∀ result, outcome.event ≠ .responded result
  closer : stackToGo outcome.frames < stackToGo stack ∨
    (spurious = true ∧ outcome.frames = stack) ∨ ¬ Rejects P s₀ t (s₀.cells (words.target f))

/-! ### Help with the value -/

section

variable (op : Operation) {word : ℕ} {stage : Stage}

theorem helpThreadAt_of_other
    (loaded : extractStageFromStageAndSequence P.usizeBits word = .ok stage)
    (other : extractSequenceFromStageAndSequence P.usizeBits word ≠ op.sequence) :
    helpThreadAt P op word = .returned (.error (.sequenceChangedWhileHelping
      (convertThreadIndexToThreadId op.threadIndex) op.sequence
      (extractSequenceFromStageAndSequence P.usizeBits word))) := by
  simp only [helpThreadAt, loaded, ne_eq, other, not_false_eq_true, ↓reduceIte]

theorem helpThreadAt_of_inactive
    (loaded : extractStageFromStageAndSequence P.usizeBits word = .ok .inactive)
    (same : extractSequenceFromStageAndSequence P.usizeBits word = op.sequence) :
    helpThreadAt P op word = .returned (.error (.fatal (.illegalHelpeeStage .inactive))) := by
  simp only [helpThreadAt, loaded, same, ne_eq, not_true_eq_false, ↓reduceIte]

end

/-- `help_thread` never helps anybody with the value. -/
theorem helpFails_of_marker
    (inactive : ∀ u < P.numThreads, extractStageFromStageAndSequence P.usizeBits
      (s₀.state.stageAndSequenceNumbers u) = .ok .inactive)
    (only : OnlyRow t s₀ s) (working : Working P t words (s₀.sequenceOf P t) s .claiming)
    (marked : isValueAKcasMarker P.usizeBits P.numThreads value = true)
    (other : value ≠ P.marker t (s₀.sequenceOf P t)) :
    ∃ helper result, helpThread P s value = ⟨.silent, s, [.operating .helper helper
      (.returned result)]⟩ ∧ HelpFails P s₀ t value result := by
  obtain ⟨u, within, n, rfl, threadId, sequence, run⟩ := helpThread_of_marker (s := s) marked
  by_cases own : u = t
  · -- the row is the caller's own, and it has published the call
    subst own
    have fits := sequenceOf_fits P s₀ u
    have changed : s₀.sequenceOf P u ≠ n := by
      rintro rfl
      exact other rfl
    rw [working.1, helpThreadAt_of_other _ (Params.extractStage_stageWord fits)
      (by rwa [Params.extractSequence_stageWord fits])] at run
    exact ⟨_, _, run, fun rejects => (rejects marked).1 threadId⟩
  · rw [only.stages u own] at run
    by_cases same : s₀.sequenceOf P u = n
    · rw [helpThreadAt_of_inactive (P.operation u n) (inactive u within) same] at run
      refine ⟨_, _, run, fun _ => ⟨?_, ?_⟩⟩
      · rw [threadId, convertThreadIndexToThreadId]
        omega
      · rw [threadId, Nat.add_sub_cancel, sequence, same]
    · rw [helpThreadAt_of_other (P.operation u n) (inactive u within) same] at run
      refine ⟨_, _, run, fun rejects => ?_⟩
      have sequences := (rejects marked).2
      rw [threadId, Nat.add_sub_cancel, sequence] at sequences
      exact same sequences

/-! ### One access -/

theorem readingOf_ne_real (unreal : ¬ P.Legal value) :
    readingOf P.usizeBits P.numThreads value ≠ .real := by
  have reading : readingOf P.usizeBits P.numThreads value =
      if extractThreadFromThreadAndSequence P.usizeBits P.numThreads value ≤ P.numThreads then
        .marker
      else .illegal := if_neg unreal
  rw [reading]
  split <;> simp

theorem toGo_finished {numWords : ℕ} {role : Role} {op : Operation} :
    (Frame.operating role op (.finished result) : Frame numWords).toGo = 0 := by
  rw [toGo_operating, Pc.remaining]

theorem toGo_claimVerify_pos {numWords w target expected actual : ℕ} {role : Role}
    {op : Operation} : 0 < (Frame.operating role op (.claimVerify w target expected actual) :
      Frame numWords).toGo := by
  rw [toGo_operating]
  simp only [Pc.remaining, Stage.remaining]
  omega

section

variable (within : t < P.numThreads) (blocks : Blocks P t words s₀ f) (only : OnlyRow t s₀ s)

theorem proceeds_of_advances {frame frame' : Frame P.numWords} {outcome : Outcome P.numWords}
    (advances : Advances P t words s₀ spurious frame frame' outcome) (claims : frame'.Claims) :
    Proceeds P t words s₀ f spurious [frame] outcome := by
  obtain ⟨same, ok, row, inside, closer⟩ := advances
  refine ⟨by simp [same], same ▸ .claims ok claims, row, inside.2, ?_⟩
  rw [same]
  rcases closer with closer | ⟨failed, rfl⟩
  · exact .inl (Nat.mul_lt_mul_of_pos_left closer (by decide))
  · exact .inr (.inl ⟨failed, rfl⟩)

include within blocks only

/-- The test of the top bits, at the value that blocks the call. -/
theorem proceeds_of_claimVerify {w target expected actual : ℕ}
    (ok : AloneAt P t words (s₀.sequenceOf P t) s₀.cells s
      (.claimVerify w target expected actual)) :
    ∃ outcome, stackStep P s spurious [.operating .originator (P.operation t (s₀.sequenceOf P t))
        (.claimVerify w target expected actual)] = some outcome ∧
      Proceeds P t words s₀ f spurious [.operating .originator
        (P.operation t (s₀.sequenceOf P t)) (.claimVerify w target expected actual)] outcome := by
  have content := content_of_claimVerify ok
  obtain ⟨inRange, claiming, rfl, rfl, -, stops⟩ := ok
  obtain rfl : w = f := failing_unique claiming.2.1 stops blocks.passed blocks.stops
  obtain rfl := content
  have ran : operate P s spurious .originator (P.operation t (s₀.sequenceOf P t))
      (.claimVerify w (words.target w) (words.expected w) (s₀.cells (words.target w))) =
      some ⟨.silent, s, claimClassify P .originator (P.operation t (s₀.sequenceOf P t)) w
        (words.target w) (words.expected w) (s₀.cells (words.target w))⟩ := by
    simp only [operate, Params.operation_threadIndex, Params.operation_sequence, within, ↓reduceIte,
      claiming.1.verified (sequenceOf_fits P s₀ t)]
  have stepped := stackStep_of_operate (by simp) ran
  rw [claimClassify_eq] at stepped
  refine ⟨_, stepped, ?_⟩
  have more : 0 < (Frame.operating .originator (P.operation t (s₀.sequenceOf P t))
      (.claimVerify w (words.target w) (words.expected w) (s₀.cells (words.target w))) :
        Frame P.numWords).toGo := toGo_claimVerify_pos
  cases reading : readingOf P.usizeBits P.numThreads (s₀.cells (words.target w)) with
  | real => exact absurd reading (readingOf_ne_real blocks.unreal)
  | marker =>
    have marked := (readingOf_eq_marker P.markerSequenceBits_lt).mp reading
    refine ⟨by simp, .helping claiming marked, only, by simp, .inl ?_⟩
    simp only [List.cons_append, stackToGo]
    omega
  | illegal =>
    have rejects : Rejects P s₀ t (s₀.cells (words.target w)) := by
      intro marked
      cases reading.symm.trans ((readingOf_eq_marker P.markerSequenceBits_lt).mpr marked)
    refine ⟨by simp, .failed rejects, only, by simp, .inl ?_⟩
    simp only [afterClaim, claimAndTransition, List.append_nil, stackToGo, toGo_finished]
    omega

/-- An access before `claim` has stopped. -/
theorem proceeds_of_claims {frame : Frame P.numWords} (ok : AloneOk P t words s₀ s frame)
    (claims : frame.Claims) : ∃ outcome, stackStep P s spurious [frame] = some outcome ∧
      Proceeds P t words s₀ f spurious [frame] outcome := by
  cases frame with
  | helpThread => exact claims.elim
  | initializing threadId threadIndex words' pc =>
    obtain ⟨rfl, rfl, rfl, -⟩ := id ok
    obtain ⟨frame', advances, claims'⟩ := advances_of_initializeOperation within only ok spurious
    exact ⟨_, rfl, proceeds_of_advances advances.append_nil claims'⟩
  | operating role op pc =>
    obtain ⟨rfl, rfl, position⟩ := ok
    have proceeds (on : ClaimsOn P t words s₀ s spurious pc)
        (going : ∀ result, pc ≠ .finished result) :
        ∃ outcome, stackStep P s spurious
            [.operating .originator (P.operation t (s₀.sequenceOf P t)) pc] = some outcome ∧
          Proceeds P t words s₀ f spurious
            [.operating .originator (P.operation t (s₀.sequenceOf P t)) pc] outcome := by
      obtain ⟨outcome, pc', ran, advances, claims'⟩ := on
      exact ⟨_, stackStep_of_operate going ran, proceeds_of_advances advances.append_nil claims'⟩
    cases pc with
    | claimLoadTarget => exact proceeds (claimsOn_of_claimLoadTarget within only position) (by simp)
    | claimLoadExpected =>
      exact proceeds (claimsOn_of_claimLoadExpected within only position) (by simp)
    | claimExchange => exact proceeds (claimsOn_of_claimExchange only position) (by simp)
    | claimVerify => exact proceeds_of_claimVerify within blocks only position
    | changeStage current desired next =>
      -- a claim of all words passes the word that stops it
      obtain ⟨rfl, ⟨-, -, claiming⟩ | ⟨w, -, rfl, -⟩⟩ := position
      · exact absurd (claiming.2.1 f blocks.inRange) blocks.stops
      · exact claims.elim
    | _ => exact claims.elim

/-- One access of a call that stops at a reserved value: it goes on, or returns
because the value ends it. -/
theorem proceeds_of_blockedAt
    (inactive : ∀ u < P.numThreads, extractStageFromStageAndSequence P.usizeBits
      (s₀.state.stageAndSequenceNumbers u) = .ok .inactive)
    (blocked : BlockedAt P t words s₀ s f stack) :
    ∃ outcome, stackStep P s spurious stack = some outcome ∧
      (Proceeds P t words s₀ f spurious stack outcome ∨
        ∃ error, outcome = ⟨.responded (.error (.fatal error)), s, []⟩ ∧
          Rejects P s₀ t (s₀.cells (words.target f))) := by
  cases blocked with
  | claims ok claims =>
    obtain ⟨outcome, stepped, proceeds⟩ := proceeds_of_claims within blocks only ok claims
    exact ⟨outcome, stepped, .inl proceeds⟩
  | failed rejects => exact ⟨_, rfl, .inr ⟨_, rfl, rejects⟩⟩
  | helping claiming marked =>
    have other : s₀.cells (words.target f) ≠ P.marker t (s₀.sequenceOf P t) := fun mine =>
      blocks.stops (.inr ((content_of_stops blocks.stops).trans mine))
    obtain ⟨helper, result, loaded, fails⟩ :=
      helpFails_of_marker inactive only claiming.1 marked other
    refine ⟨⟨.silent, s, [_, _]⟩, by simp only [stackStep, frameStep, loaded, Option.map_some]; rfl,
      .inl ?_⟩
    exact ⟨by simp, .helped claiming fails, only, by simp, .inl (by simp [stackToGo])⟩
  | @helped helper result claiming fails =>
    refine ⟨_, rfl, .inl ?_⟩
    cases result with
    | ok => exact fails.elim
    | error error =>
      cases error with
      | helpeeStageIsAlreadyTerminal => exact fails.elim
      | sequenceChangedWhileHelping =>
        exact ⟨by simp, .claims ⟨rfl, rfl, blocks.inRange, claiming, rfl, rfl⟩ trivial, only,
          by simp, .inr (.inr fails)⟩
      | fatal error =>
        refine ⟨by simp, .failed fails, only, by simp, .inl ?_⟩
        simp [stackToGo, afterHelp, afterClaim, claimAndTransition, toGo_finished]

end

/-! ### Runs -/

theorem BlockedAt.exists_cons (blocked : BlockedAt P t words s₀ s f stack) :
    ∃ frame rest, stack = frame :: rest := by
  cases blocked <;> exact ⟨_, _, rfl⟩

/-- Since `σ₀` only thread index `t` has moved, inside a call that a reserved value
at word `f` blocks. -/
structure InBlocked (P : Params) (load : Workload P.numWords) (σ₀ σ : Config P.numWords) (t f : ℕ)
    (stack : List (Frame P.numWords)) : Prop where
  blocked : BlockedAt P t (load.call t (σ₀.threads t).completed) σ₀.shared σ.shared f stack
  row : OnlyRow t σ₀.shared σ.shared
  threads : σ.threads = Function.update σ₀.threads t ⟨(σ₀.threads t).completed, stack⟩

section

variable (quiescent : Quiescent P σ₀) (within : t < P.numThreads)
  (more : (σ₀.threads t).completed < load.count t)

include quiescent within more in
theorem entersBlocked (f : ℕ) (spurious : Bool) :
    ∃ σ, step P load σ₀ ⟨t, spurious⟩ = some (.invoked, σ) ∧
      ∃ stack, InBlocked P load σ₀ σ t f stack := by
  obtain ⟨σ, frame, entered, inside, claims⟩ :=
    enters within (quiescent.idle t within) more spurious
  exact ⟨σ, entered, [frame], .claims inside.ok claims, inside.row, inside.threads⟩

section

variable (blocks : Blocks P t (load.call t (σ₀.threads t).completed) σ₀.shared f)

include quiescent within blocks

/-- A thread inside a blocked call moves on, or returns because the value ends it. -/
theorem InBlocked.step (inside : InBlocked P load σ₀ σ t f stack) (spurious : Bool) :
    ∃ event σ', KCas.step P load σ ⟨t, spurious⟩ = some (event, σ') ∧
      (((∀ result, event ≠ .responded result) ∧ ∃ stack', InBlocked P load σ₀ σ' t f stack' ∧
        (stackToGo stack' < stackToGo stack ∨ (spurious = true ∧ stack' = stack) ∨
          ¬ Rejects P σ₀.shared t
            (σ₀.shared.cells ((load.call t (σ₀.threads t).completed).target f)))) ∨
      ∃ error, event = .responded (.error (.fatal error)) ∧
        Rejects P σ₀.shared t
          (σ₀.shared.cells ((load.call t (σ₀.threads t).completed).target f)) ∧
        (σ₀.threads t).completed < (σ'.threads t).completed) := by
  obtain ⟨blocked, row, threads⟩ := inside
  have thread : σ.threads t = ⟨(σ₀.threads t).completed, stack⟩ := by
    rw [threads, Function.update_self]
  obtain ⟨frame, rest, rfl⟩ := blocked.exists_cons
  obtain ⟨outcome, ran, outcome'⟩ :=
    proceeds_of_blockedAt within blocks row quiescent.inactive blocked
  refine ⟨_, _, step_of_stackStep within thread ran, ?_⟩
  rcases outcome' with proceeds | ⟨error, rfl, rejects⟩
  · refine .inl ⟨proceeds.inside, _, ⟨proceeds.blocked, proceeds.row, ?_⟩, proceeds.closer⟩
    simp [threads, proceeds.frames]
  · exact .inr ⟨error, rfl, rejects, by simp⟩

include more

/-- A blocked call returns, if ever, because the value ends it. -/
theorem describes_blocked : Describes P load σ₀ t
    (fun σ => ∃ stack, InBlocked P load σ₀ σ t f stack)
    fun result _ => result ≠ .ok () ∧ Rejects P σ₀.shared t
      (σ₀.shared.cells ((load.call t (σ₀.threads t).completed).target f)) where
  enters := entersBlocked quiescent within more f
  moves := by
    rintro σ ⟨stack, inside⟩ spurious
    obtain ⟨event, σ', moved, ⟨quiet, stack', inside', -⟩ | ⟨error, responded, rejects, gone⟩⟩ :=
      inside.step quiescent within blocks spurious
    · exact ⟨event, σ', moved, .inl ⟨quiet, stack', inside'⟩⟩
    · exact ⟨event, σ', moved, .inr ⟨_, responded, ⟨by simp, rejects⟩, gone⟩⟩

theorem terminates_of_rejects (rejects : Rejects P σ₀.shared t
    (σ₀.shared.cells ((load.call t (σ₀.threads t).completed).target f))) :
    Terminates P load σ₀ t := by
  refine terminates_of_returns (entersBlocked quiescent within more f)
    fun spurious last finitely σ held => ?_
  refine returnsAlong_of_measure (fun σ => stackToGo (σ.threads t).stack)
    (fun σ (inside : ∃ stack, InBlocked P load σ₀ σ t f stack) spurious => ?_) finitely held 1
  obtain ⟨stack, inside⟩ := inside
  obtain ⟨event, σ', moved, ⟨quiet, stack', inside', closer⟩ | ⟨error, responded, -, -⟩⟩ :=
    inside.step quiescent within blocks spurious
  · refine ⟨event, σ', moved, .inr ⟨⟨stack', inside'⟩, ?_⟩⟩
    simp only [inside.threads, inside'.threads, Function.update_self]
    rcases closer with closer | ⟨failed, rfl⟩ | spins
    · exact .inl closer
    · exact .inr ⟨failed, rfl⟩
    · exact absurd rejects spins
  · refine ⟨event, σ', moved, .inl ⟨_, rfl, ?_, responded⟩⟩
    simp [inside.threads]

end

/-- Whether there is a first word that stops the call, and what its target holds. -/
theorem stopsAtReal_or_blocks (P : Params) (t : ℕ) (words : KCasWords P.numWords) (s₀ : Shared) :
    StopsAtReal P t words s₀ ∨ ∃ f, Blocks P t words s₀ f := by
  by_cases real : StopsAtReal P t words s₀
  · exact .inl real
  · simp only [StopsAtReal, not_forall] at real
    obtain ⟨f, inRange, passed, stops, unreal⟩ := real
    exact .inr ⟨f, inRange, passed, stops, unreal⟩

theorem rejects_of_legal (legal : P.Legal value) : Rejects P s t value := by
  intro marked
  rw [Params.isValueAKcasMarker_of_legal legal] at marked
  cases marked

/-- The first word that stops the call, in terms of the loop of `claim`. -/
theorem firstStopRejects_iff : FirstStopRejects P load σ₀ t ↔ ∃ f < P.numWords,
    (∀ i < f, Passes (load.call t (σ₀.threads t).completed)
      (P.marker t (σ₀.shared.sequenceOf P t)) σ₀.shared.cells i) ∧
    ¬ Passes (load.call t (σ₀.threads t).completed)
      (P.marker t (σ₀.shared.sequenceOf P t)) σ₀.shared.cells f ∧
    Rejects P σ₀.shared t
      (σ₀.shared.cells ((load.call t (σ₀.threads t).completed).target f)) := by
  simp only [FirstStopRejects, stops_iff, not_not]
  constructor
  · rintro ⟨f, inRange, stops, passed, rejects⟩
    exact ⟨f, inRange, passed, stops, rejects⟩
  · rintro ⟨f, inRange, passed, stops, rejects⟩
    exact ⟨f, inRange, stops, passed, rejects⟩

include quiescent within more

/-- A call that runs alone terminates without `Ok` if and only if some target stops
it, and the first one that does holds a value that ends the call. -/
theorem rejected_iff : Rejected P load σ₀ t ↔ FirstStopRejects P load σ₀ t := by
  have idle := quiescent.idle t within
  rw [firstStopRejects_iff]
  rcases stopsAtReal_or_blocks P t (load.call t (σ₀.threads t).completed) σ₀.shared with
    real | ⟨f, blocks⟩
  · have describes := describes_inCall within idle more real
    have terminates := terminates_of_stopsAtReal within idle more real
    constructor
    · rintro ⟨-, notOk⟩
      obtain ⟨result, trace, σ, call⟩ := terminates.exists_callAlone
      have outcome := (describes.of_callAlone call).outcome
      generalize σ.shared.cells = cells at outcome
      cases outcome with
      | succeeds passed => exact absurd call (notOk trace σ)
      | @fails f below passed stops =>
        exact ⟨f, below, passed, stops, rejects_of_legal (real f below passed stops)⟩
    · rintro ⟨f, inRange, passed, stops, rejects⟩
      refine ⟨terminates, fun trace σ call => ?_⟩
      have outcome := (describes.of_callAlone call).outcome
      generalize σ.shared.cells = cells at outcome
      cases outcome with
      | succeeds passed' => exact stops (passed' f inRange)
  · have describes := describes_blocked quiescent within more blocks
    constructor
    · rintro ⟨terminates, -⟩
      obtain ⟨result, trace, σ, call⟩ := terminates.exists_callAlone
      exact ⟨f, blocks.inRange, blocks.passed, blocks.stops, (describes.of_callAlone call).2⟩
    · rintro ⟨k, inRange, passed, stops, rejects⟩
      obtain rfl := failing_unique passed stops blocks.passed blocks.stops
      refine ⟨terminates_of_rejects quiescent within more blocks rejects, fun trace σ call => ?_⟩
      exact (describes.of_callAlone call).1 rfl

end

theorem quiescent_initial (cells : ℕ → ℕ) : Quiescent P (Config.initial P.numWords cells) where
  idle _ _ := rfl
  inactive _ _ := extractStage_zero

/-- The words of `test_when_a_value_violates_thread_id_space_kcas_fails`. -/
def violated : Workload fourThreads.numWords := .ofCalls
  [[twoWords (onCell 0 0 1) (onCell 1 0 1)]]

/-- The targets there: the second one, at address 16, holds `illegalValue`. -/
def violatedTargets (illegalValue : ℕ) : ℕ → ℕ :=
  fun address => if address = 16 then illegalValue else 0

/-- The value of the test ends the call, its top bits are no thread id. At a marker
of the second thread for a sequence that it has not reached the call goes on for ever. -/
theorem rejected_violated :
    Rejected fourThreads violated (Config.initial 2 (violatedTargets (5 <<< 61))) 0 ∧
      ¬ Rejected fourThreads violated (Config.initial 2 (violatedTargets (2 <<< 61 ||| 1))) 0 :=
  ⟨(rejected_iff (quiescent_initial (P := fourThreads) _) (by decide) (by decide)).mpr
      (by decide +kernel),
    fun rejected => absurd
      ((rejected_iff (quiescent_initial (P := fourThreads) _) (by decide) (by decide)).mp rejected)
      (by decide +kernel)⟩

/-- The value is the marker that the call itself uses. The call takes the word for
claimed, returns `Ok`, and overwrites it. -/
theorem not_reserved_rejected : ¬ ∀ (P : Params) (load : Workload P.numWords)
    (σ₀ : Config P.numWords) (t : ℕ), Quiescent P σ₀ → t < P.numThreads →
    (σ₀.threads t).completed < load.count t →
    (∀ i < P.numWords, ∀ j < P.numWords, (load.call t (σ₀.threads t).completed).target i =
      (load.call t (σ₀.threads t).completed).target j → i = j) →
    (∃ w < P.numWords,
      ¬ P.Legal (σ₀.shared.cells ((load.call t (σ₀.threads t).completed).target w))) →
    Rejected P load σ₀ t := by
  intro claim
  obtain ⟨trace, σ, run, alone, ended⟩ := exists_execution fourThreads violated
    (violatedTargets (1 <<< 61)) [(0, 24)]
    (fun trace _ => (∀ x ∈ trace, x.actor.thread = 0) ∧
      ∃ y ∈ trace.getLast?, Responds fourThreads y 0 0 (.ok ()))
    (by decide +kernel)
  obtain ⟨y, last, responds⟩ := ended
  obtain ⟨front, rfl⟩ := List.getLast?_eq_some_iff.mp last
  have rejected := claim fourThreads violated (Config.initial 2 (violatedTargets (1 <<< 61))) 0
    (quiescent_initial (P := fourThreads) _) (by decide) (by decide) (by decide)
    ⟨1, by decide, by decide +kernel⟩
  exact rejected.notOk _ σ ⟨run, alone, front, y, rfl, responds⟩

end KCas
