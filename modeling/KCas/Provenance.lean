import KCas.Activation
import KCas.Known

/-! Where the content of the cells comes from, in every run: whatever they hold at first,
whatever the calls are made with and however often, also when sequences run over. Every
cell that is exchanged is a target of a call that was made, every value that is written
was given to one or is a marker, and nothing panics. -/
namespace KCas

open Labelled

variable {P : Params} {load : Workload P.numWords} {cells : ℕ → ℕ} {σ σ' : Config P.numWords}
  {s s' : Shared} {t u n w k : ℕ} {role : Role} {op : Operation} {pc : Pc}
  {spurious : Bool} {outcome : Outcome P.numWords} {frame : Frame P.numWords}
  {stack stack' : List (Frame P.numWords)} {event : Event} {trace front back : Trace P}
  {given given' : Given}

/-! ### Rows -/

/-- Every word of a row is as it was, or has been given. -/
def Fills (given : Given) (s s' : Shared) : Prop :=
  ∀ t w, (s'.state.targetAddresses t w = s.state.targetAddresses t w ∨
      given.target (s'.state.targetAddresses t w)) ∧
    (s'.state.expectedValues t w = s.state.expectedValues t w ∨
      given.value (s'.state.expectedValues t w)) ∧
    (s'.state.desiredValues t w = s.state.desiredValues t w ∨
      given.value (s'.state.desiredValues t w))

theorem Fills.mono (grows : given.Le given') (fills : Fills given s s') : Fills given' s s' := by
  intro t w
  obtain ⟨target, expected, desired⟩ := fills t w
  exact ⟨target.imp_right (grows.target _), expected.imp_right (grows.value _),
    desired.imp_right (grows.value _)⟩

section Kept

variable (grows : given.Le given') (fills : Fills given' s s')

include grows fills

theorem target_kept (known : given.target (s.state.targetAddresses t w)) :
    given'.target (s'.state.targetAddresses t w) := by
  rcases (fills t w).1 with same | new
  · rw [same]
    exact grows.target _ known
  · exact new

theorem expected_kept (known : given.value (s.state.expectedValues t w)) :
    given'.value (s'.state.expectedValues t w) := by
  rcases (fills t w).2.1 with same | new
  · rw [same]
    exact grows.value _ known
  · exact new

theorem desired_kept (known : given.value (s.state.desiredValues t w)) :
    given'.value (s'.state.desiredValues t w) := by
  rcases (fills t w).2.2 with same | new
  · rw [same]
    exact grows.value _ known
  · exact new

theorem RowFilled.kept (filled : RowFilled given s t k) : RowFilled given' s' t k := by
  intro w inRange
  obtain ⟨target, expected, desired⟩ := filled w inRange
  exact ⟨target_kept grows fills target, expected_kept grows fills expected,
    desired_kept grows fills desired⟩

end Kept

/-- The row of a call in progress has been filled and published, as long as it is not
Inactive. -/
structure RowKnown (P : Params) (given : Given) (s : Shared) (t : ℕ) : Prop where
  packed : WellPacked P s t
  filled : s.stageOf P t ≠ .inactive → RowFilled given s t P.numWords
  published : s.stageOf P t ≠ .inactive → given.published t (s.sequenceOf P t)

theorem RowKnown.kept (grows : given.Le given') (fills : Fills given' s s')
    (keeps : KeepsRow P s s' t) (row : RowKnown P given s t) : RowKnown P given' s' t := by
  refine ⟨keeps.packed row.packed, fun active => ?_, fun active => ?_⟩
  · exact (row.filled (mt keeps.inactive.mpr active)).kept grows fills
  · rw [keeps.sequence]
    exact grows.published _ _ (row.published (mt keeps.inactive.mpr active))

/-- The row whose stage word was stored. -/
theorem rowKnown_of_word (stage : Stage) (fits : n < 2 ^ P.stageSequenceBits)
    (word : s.state.stageAndSequenceNumbers t = P.stageWord stage n)
    (filled : stage ≠ .inactive → RowFilled given s t P.numWords)
    (published : stage ≠ .inactive → given.published t n) : RowKnown P given s t := by
  obtain ⟨stages, sequences⟩ := row_of_word word fits
  refine ⟨wellPacked_of_word word fits, ?_, ?_⟩
  · rwa [stages]
  · rwa [stages, sequences]

/-! ### Activations -/

/-- The words of a call have been given. -/
def WordsGiven (given : Given) (words : KCasWords P.numWords) : Prop :=
  ∀ w < P.numWords, given.target (words.target w) ∧ given.value (words.expected w) ∧
    given.value (words.desired w)

theorem WordsGiven.mono {words : KCasWords P.numWords} (grows : given.Le given')
    (filled : WordsGiven given words) : WordsGiven given' words := by
  intro w inRange
  obtain ⟨target, expected, desired⟩ := filled w inRange
  exact ⟨grows.target _ target, grows.value _ expected, grows.value _ desired⟩

/-- How far `initialize_operation` has filled its row. -/
def InitPc.Filled (P : Params) (given : Given) (s : Shared) (t : ℕ) : InitPc → Prop
  | .storeTarget w => RowFilled given s t w
  | .storeExpected w => RowFilled given s t w ∧ given.target (s.state.targetAddresses t w)
  | .storeDesired w => RowFilled given s t w ∧ given.target (s.state.targetAddresses t w) ∧
    given.value (s.state.expectedValues t w)
  | .loadStage => RowFilled given s t P.numWords
  | .storeStage n => RowFilled given s t P.numWords ∧ n = s.sequenceOf P t

/-- Without words there is one exchange, on a row that nobody else looks at. -/
def Pc.Wordless (stage : Stage) : Pc → Prop
  | .changeStage current _ _ => stage = current
  | .panicked => False
  | _ => True

/-- What an activation of thread index `t` knows of where its words come from. -/
def Frame.Known (P : Params) (given : Given) (s : Shared) (t : ℕ) : Frame P.numWords → Prop
  | .initializing _ _ words pc => WordsGiven given words ∧ pc.Filled P given s t
  | .helpThread _ => True
  | .operating role op pc => pc.Known given ∧ (pc.Going → Serves P given s t role op) ∧
    (P.numWords = 0 → pc.Wordless (s.stageOf P t))

theorem Serves.kept (grows : given.Le given') (fills : Fills given' s s')
    (sequence : role = .originator → s'.sequenceOf P t = s.sequenceOf P t)
    (serves : Serves P given s t role op) : Serves P given' s' t role op := by
  refine ⟨serves.filled.kept grows fills, grows.published _ _ serves.published, serves.fits, ?_⟩
  intro own
  obtain ⟨index, same⟩ := serves.own own
  exact ⟨index, (sequence own).trans same⟩

/-- An activation that does not move itself. -/
theorem Frame.Known.kept (grows : given.Le given') (fills : Fills given' s s')
    (keeps : KeepsRow P s s' t) (stage : P.numWords = 0 → s'.stageOf P t = s.stageOf P t)
    (known : frame.Known P given s t) : frame.Known P given' s' t := by
  cases frame with
  | helpThread => trivial
  | operating role op pc =>
    obtain ⟨known, serves, wordless⟩ := known
    refine ⟨known.mono grows, fun going => ?_, fun none => ?_⟩
    · exact (serves going).kept grows fills fun _ => keeps.sequence
    · rw [stage none]
      exact wordless none
  | initializing threadId threadIndex words pc =>
    obtain ⟨words, filled⟩ := known
    refine ⟨words.mono grows, ?_⟩
    cases pc with
    | storeTarget w => exact RowFilled.kept grows fills filled
    | storeExpected w =>
      exact ⟨filled.1.kept grows fills, target_kept grows fills filled.2⟩
    | storeDesired w =>
      exact ⟨filled.1.kept grows fills, target_kept grows fills filled.2.1,
        expected_kept grows fills filled.2.2⟩
    | loadStage => exact RowFilled.kept grows fills filled
    | storeStage n => exact ⟨filled.1.kept grows fills, filled.2.trans keeps.sequence.symm⟩

/-! ### Steps of a call -/

/-- The words that a call stores are its own. -/
theorem CallEffect.fills (effect : CallEffect P t s stack event s' stack')
    (known : ∀ frame ∈ stack, frame.Known P given s t) : Fills given s s' := by
  intro u w
  cases effect with
  | @init words pc event s' frames moves =>
    have words := (known _ List.mem_cons_self).1
    cases moves with
    | loadStage | storeStage => exact ⟨.inl rfl, .inl rfl, .inl rfl⟩
    | @storeTarget i inRange =>
      refine ⟨?_, .inl rfl, .inl rfl⟩
      by_cases row : u = t <;> by_cases column : w = i <;>
        simp [Shared.storeTarget, row, column, (words i inRange).1]
    | @storeExpected i inRange =>
      refine ⟨.inl rfl, ?_, .inl rfl⟩
      by_cases row : u = t <;> by_cases column : w = i <;>
        simp [Shared.storeExpected, row, column, (words i inRange).2.1]
    | @storeDesired i inRange =>
      refine ⟨.inl rfl, .inl rfl, ?_⟩
      by_cases row : u = t <;> by_cases column : w = i <;>
        simp [Shared.storeDesired, row, column, (words i inRange).2.2]
  | operate going effect => cases effect <;> exact ⟨.inl rfl, .inl rfl, .inl rfl⟩
  | _ => exact ⟨.inl rfl, .inl rfl, .inl rfl⟩

/-- Without a plain store a row is kept. -/
theorem CallEffect.keepsRow (effect : CallEffect P t s stack event s' stack')
    (known : ∀ frame ∈ stack, frame.Known P given s t) (packed : WellPacked P s u)
    (none : ∀ word, event ≠ .storeStage u word) : KeepsRow P s s' u := by
  cases effect with
  | init moves =>
    cases moves with
    | storeStage =>
      have other : u ≠ t := by
        rintro rfl
        exact none _ rfl
      exact keepsRow_of_word (by simp [Shared.storeStage, other])
    | _ => exact keepsRow_of_word rfl
  | @operate role op pc _ _ frames rest going effect =>
    have serves := (known _ List.mem_cons_self).2.1 going
    cases effect with
    | exchanged next word =>
      have sequence := (row_of_word word serves.fits).2
      exact keepsRow_of_exchange packed (Nat.le_of_eq sequence.symm) next word
    | prepared own =>
      have other : u ≠ op.threadIndex := by
        rintro rfl
        exact none _ rfl
      exact keepsRow_of_word (by simp [Shared.storeStage, other])
    | _ => exact keepsRow_of_word rfl
  | _ => exact keepsRow_of_word rfl

theorem CallEffect.rowKnown (effect : CallEffect P t s stack event s' stack')
    (known : ∀ frame ∈ stack, frame.Known P given s t) (row : RowKnown P given s u)
    (grows : given.Le given')
    (published : ∀ n, event = .storeStage u (P.stageWord .claiming n) → given'.published u n) :
    RowKnown P given' s' u := by
  have fills := (effect.fills known).mono grows
  by_cases stored : ∃ word, event = .storeStage u word
  · obtain ⟨word, rfl⟩ := stored
    generalize same : Event.storeStage u word = event at effect
    cases effect with
    | @init words pc _ _ frames moves =>
      have filled := (known _ List.mem_cons_self).2
      cases moves with
      | @storeStage n =>
        obtain ⟨rfl, rfl⟩ := (Event.storeStage.injEq ..).mp same
        obtain ⟨filled, rfl⟩ := filled
        refine rowKnown_of_word .claiming row.packed.2 (by simp [Shared.storeStage]) ?_ ?_
        · exact fun _ => filled.kept grows fills
        · exact fun _ => published _ rfl
      | _ => cases same
    | @operate role op pc _ _ frames rest going effect =>
      have serves := (known _ List.mem_cons_self).2.1 going
      cases effect with
      | @prepared result own notFatal =>
        obtain ⟨rfl, rfl⟩ := (Event.storeStage.injEq ..).mp same
        rcases stageWord_nextSequence serves.fits with ⟨fits, next⟩ | rolled
        · rw [next] at fills ⊢
          exact rowKnown_of_word .inactive fits (by simp [Shared.storeStage]) (by simp) (by simp)
        · -- the sequence bits are used up: the row seems to be Claiming again
          rw [rolled] at fills published ⊢
          refine rowKnown_of_word .claiming (Nat.two_pow_pos _) (by simp [Shared.storeStage]) ?_ ?_
          · exact fun _ => serves.filled.kept grows fills
          · exact fun _ => published 0 rfl
      | moved position cellwise =>
        subst same
        exact cellwise.elim
      | _ => cases same
    | _ => cases same
  · exact row.kept grows fills (effect.keepsRow known row.packed fun word same =>
      stored ⟨word, same⟩)

theorem operate_of_stackStep {rest : List (Frame P.numWords)} (going : pc.Going)
    (ran : stackStep P s spurious (.operating role op pc :: rest) = some outcome) :
    ∃ inner, operate P s spurious role op pc = some inner ∧
      outcome = { inner with frames := inner.frames ++ rest } := by
  cases pc with
  | finished | returned | panicked => exact going.elim
  | _ =>
    simp only [stackStep, frameStep] at ran
    obtain ⟨inner, accessed, rfl⟩ := Option.map_eq_some_iff.mp ran
    exact ⟨inner, accessed, rfl⟩

/-- The running operation is at one of its positions. -/
theorem position_of_stackFits {rest : List (Frame P.numWords)} (within : t < P.numThreads)
    (fits : StackFits P t (.operating role op pc :: rest)) (going : pc.Going) :
    op.threadIndex < P.numThreads ∧ op = P.operation op.threadIndex op.sequence ∧
      pc.Fits P.numWords role ∧ (role = .helper → 0 < P.numWords) := by
  cases rest with
  | nil =>
    obtain ⟨rfl, same, position | ⟨result, rfl⟩⟩ := fits
    · have index : op.threadIndex = t := by
        rw [same]
        rfl
      refine ⟨index ▸ within, ?_, position, by simp⟩
      rw [index]
      exact same
    · exact going.elim
  | cons caller rest =>
    obtain ⟨⟨rfl, words, inRange, same, position⟩, -⟩ := fits
    exact ⟨inRange, same, position, fun _ => words⟩

/-- A row that nobody else looks at: the call of no words takes it to its end. -/
theorem ends_of_wordless (none : P.numWords = 0) (originator : role = .originator)
    (within : op.threadIndex < P.numThreads) (position : pc.Fits P.numWords role)
    (going : pc.Going) (packed : WellPacked P s op.threadIndex)
    (sequence : s.sequenceOf P op.threadIndex = op.sequence)
    (wordless : pc.Wordless (s.stageOf P op.threadIndex))
    (ran : operate P s spurious role op pc = some outcome) :
    ∃ result, outcome.frames = [.operating role op (.prepare result)] ∨
      outcome.frames = [.operating role op (.finished result)] := by
  subst originator
  cases pc with
  | finished | returned | panicked => exact going.elim
  | prepare result =>
    simp only [operate, prepareForNextOperation_nextSequence, within, ↓reduceIte,
      Option.some.injEq] at ran
    subst ran
    exact ⟨result, .inr rfl⟩
  | changeStage current desired next =>
    have stage : s.stageOf P op.threadIndex = current := wordless
    have word := packed.1
    rw [stage, sequence] at word
    cases position with
    | set =>
      simp only [operate, within, ↓reduceIte, Shared.exchangeStage, word, Params.stageWord,
        Option.some.injEq] at ran
      subst ran
      refine ⟨.ok (), .inl ?_⟩
      simp [afterStageChanged, setFrom, none, afterSetOk]
    | revert inRange => omega
    | successful helper => cases helper
    | reverted helper => cases helper
  | revertLoadTarget | revertLoadExpected | revertExchange =>
    have inRange := position.1
    omega
  | _ =>
    have inRange : _ < P.numWords := position
    omega

/-- Without words nobody exchanges the stage word of another row. -/
theorem CallEffect.stage_of_wordless (effect : CallEffect P t s stack event s' stack')
    (within : t < P.numThreads) (fits : StackFits P t stack)
    (known : ∀ frame ∈ stack, frame.Known P given s t) (none : P.numWords = 0) (other : u ≠ t) :
    s'.stageOf P u = s.stageOf P u := by
  refine Shared.stageOf_congr ?_
  cases effect with
  | init moves =>
    cases moves with
    | storeStage => simp [Shared.storeStage, other]
    | _ => rfl
  | @operate role op pc _ _ frames rest going effect =>
    obtain ⟨-, -, -, words⟩ := position_of_stackFits within fits going
    have index : op.threadIndex = t := by
      cases role with
      | originator => exact (((known _ List.mem_cons_self).2.1 going).own rfl).1
      | helper => exact absurd (words rfl) (by omega)
    cases effect with
    | exchanged | prepared => simp [Shared.storeStage, index, other]
    | _ => rfl
  | _ => rfl

theorem wordless_claimFrom (none : P.numWords = 0) :
    (claimFrom P .originator op w).Wordless .claiming := by
  unfold claimFrom
  rw [if_neg (by omega)]
  rfl

/-- Where a step of a call leaves its activations and the cells. -/
structure KnownStep (P : Params) (given given' : Given) (s : Shared) (t : ℕ) (event : Event)
    (s' : Shared) (stack' : List (Frame P.numWords)) : Prop where
  frames : ∀ frame ∈ stack', frame.Known P given' s' t
  cells : ∀ address, s'.cells address = s.cells address ∨ (given.target address ∧
    (given.value (s'.cells address) ∨ ∃ u < P.numThreads, ∃ n, given.published u n ∧
      s'.cells address = P.marker u n))
  exchanges : ∀ pass op w target expected new result,
    event = .exchangeCell pass op w target expected new result → given.target target ∧
      (given.value new ∨ ∃ u < P.numThreads, ∃ n, given.published u n ∧ new = P.marker u n)
  responses : ∀ result, event = .responded result → ReportableResult result

theorem knownStep_of_quiet (cells : s'.cells = s.cells)
    (exchanges : ∀ pass op w target expected new result,
      event ≠ .exchangeCell pass op w target expected new result)
    (responses : ∀ result, event ≠ .responded result)
    (frames : ∀ frame ∈ stack', frame.Known P given' s' t) :
    KnownStep P given given' s t event s' stack' := by
  refine ⟨frames, fun address => .inl (congrFun cells address), ?_, ?_⟩
  · intro pass op w target expected new result same
    exact (exchanges _ _ _ _ _ _ _ same).elim
  · intro result same
    exact (responses _ same).elim

section OneStep

variable (within : t < P.numThreads) (fits : StackFits P t stack)
  (rows : ∀ u < P.numThreads, RowKnown P given s u)
  (known : ∀ frame ∈ stack, frame.Known P given s t) (grows : given.Le given')

include within rows known grows

theorem knownStep_of_init {words : KCasWords P.numWords} {pc : InitPc}
    (shape : stack = [.initializing (t + 1) t words pc])
    (published : ∀ u n, event = .storeStage u (P.stageWord .claiming n) → given'.published u n)
    (moves : InitMoves P s t words pc event s' stack') :
    KnownStep P given given' s t event s' stack' := by
  subst shape
  have effect : CallEffect P t s _ event s' stack' := .init moves
  have fills := (effect.fills known).mono grows
  obtain ⟨named, filled⟩ := known _ List.mem_cons_self
  cases moves with
  | @storeTarget w inRange =>
    refine knownStep_of_quiet rfl (by simp) (by simp) ?_
    simp only [List.mem_singleton, forall_eq]
    refine ⟨named.mono grows, RowFilled.kept grows fills filled, ?_⟩
    simp [Shared.storeTarget, grows.target _ (named w inRange).1]
  | @storeExpected w inRange =>
    refine knownStep_of_quiet rfl (by simp) (by simp) ?_
    simp only [List.mem_singleton, forall_eq]
    refine ⟨named.mono grows, filled.1.kept grows fills, target_kept grows fills filled.2, ?_⟩
    simp [Shared.storeExpected, grows.value _ (named w inRange).2.1]
  | @storeDesired w inRange =>
    have more : RowFilled given' (s.storeDesired t w (words.desired w)) t (w + 1) := by
      intro i below
      rcases Nat.lt_succ_iff_lt_or_eq.mp below with less | rfl
      · exact filled.1.kept grows fills i less
      · refine ⟨target_kept grows fills filled.2.1, expected_kept grows fills filled.2.2, ?_⟩
        simp [Shared.storeDesired, grows.value _ (named i inRange).2.2]
    refine knownStep_of_quiet rfl (by simp) (by simp) ?_
    simp only [List.mem_singleton, forall_eq]
    refine ⟨named.mono grows, ?_⟩
    split
    · exact more
    · exact fun i below => more i (by omega)
  | loadStage =>
    refine knownStep_of_quiet rfl (by simp) (by simp) ?_
    simp only [List.mem_singleton, forall_eq]
    exact ⟨named.mono grows, RowFilled.kept grows fills filled, rfl⟩
  | @storeStage n =>
    obtain ⟨filled, rfl⟩ := filled
    have bound := (rows t within).packed.2
    refine knownStep_of_quiet rfl (by simp) (by simp) ?_
    simp only [List.mem_singleton, forall_eq]
    refine ⟨known_claimFrom, fun _ => ⟨?_, published t _ rfl, bound, fun _ => ⟨rfl, ?_⟩⟩, ?_⟩
    · exact filled.kept grows fills
    · exact Shared.sequenceOf_storeStage_self bound
    · intro none
      rw [Shared.stageOf_storeStage_self bound]
      exact wordless_claimFrom none

include fits

theorem knownStep_of_operate (nonNull : ∀ address, given.target address → address ≠ 0)
    {rest frames : List (Frame P.numWords)} (shape : stack = .operating role op pc :: rest)
    (going : pc.Going) (effect : OperationEffect P s role op pc event s' frames)
    (ran : operate P s spurious role op pc = some ⟨event, s', frames⟩) :
    KnownStep P given given' s t event s' (frames ++ rest) := by
  subst shape
  have call : CallEffect P t s _ event s' (frames ++ rest) := .operate going effect
  have fills := (call.fills known).mono grows
  obtain ⟨inRange, marker, position, words⟩ := position_of_stackFits within fits going
  obtain ⟨pcKnown, serves, wordless⟩ := known _ List.mem_cons_self
  have serves := serves going
  have packed := (rows _ inRange).packed
  have access := knownAccess_of_operate nonNull inRange position packed serves pcKnown ran
  have value {new : ℕ} (here : given.value new ∨ new = op.threadAndSequence) :
      given.value new ∨ ∃ u < P.numThreads, ∃ n, given.published u n ∧ new = P.marker u n := by
    refine here.imp_right fun same => ⟨_, inRange, _, serves.published, ?_⟩
    rw [same, marker]
    rfl
  refine ⟨fun frame member => ?_, fun address => ?_, ?_, ?_⟩
  · rcases List.mem_append.mp member with member | below
    · rcases access.frames frame member with ⟨marker, rfl⟩ | ⟨pc', rfl, known'⟩
      · trivial
      · refine ⟨known'.mono grows, fun going' => ?_, fun none => ?_⟩
        · refine serves.kept grows fills fun own => ?_
          refine (call.keepsRow known (rows t within).packed fun word same => ?_).sequence
          subst same
          cases effect with
          | moved position cellwise => exact cellwise.elim
          | prepared =>
            obtain ⟨-, -, rfl⟩ := (Frame.operating.injEq ..).mp (List.mem_singleton.mp member)
            exact going'
        · have own : role = .originator := by
            cases role with
            | originator => rfl
            | helper => exact absurd (words rfl) (by omega)
          have same := serves.sequence own
          have stage := wordless none
          rw [← (serves.own own).1] at stage
          obtain ⟨result, ends | ends⟩ := ends_of_wordless none own inRange position going
            packed same stage ran
          all_goals
            simp only at ends
            rw [ends] at member
            obtain ⟨-, -, rfl⟩ := (Frame.operating.injEq ..).mp (List.mem_singleton.mp member)
            trivial
    · cases rest with
      | nil => cases below
      | cons caller rest =>
        obtain ⟨⟨rfl, some, -⟩, -⟩ := fits
        refine (known frame (List.mem_cons_of_mem _ below)).kept grows fills ?_ (by omega)
        refine call.keepsRow known (rows t within).packed fun word same => ?_
        subst same
        cases effect with
        | moved position cellwise => exact cellwise.elim
        | prepared own => cases own
  · exact (access.cells address).imp_right fun ⟨here, content⟩ => ⟨here, value content⟩
  · intro pass op' w target expected new result same
    obtain ⟨here, content⟩ := access.exchanges _ _ _ _ _ _ _ same
    exact ⟨here, value content⟩
  · rintro result rfl
    cases effect with
    | moved position cellwise => exact cellwise.elim

theorem knownStep_of_stackStep (nonNull : ∀ address, given.target address → address ≠ 0)
    (published : ∀ u n, outcome.event = .storeStage u (P.stageWord .claiming n) →
      given'.published u n)
    (ran : stackStep P s spurious stack = some outcome) :
    KnownStep P given given' s t outcome.event outcome.shared outcome.frames := by
  have effect := effect_of_stackStep within fits ran
  obtain ⟨event, s', stack'⟩ := outcome
  simp only at effect published ⊢
  have same : Fills given' s s := fun _ _ => ⟨.inl rfl, .inl rfl, .inl rfl⟩
  have still {frame : Frame P.numWords} (member : frame ∈ stack) :
      frame.Known P given' s t :=
    (known frame member).kept grows same (keepsRow_of_word rfl) fun _ => rfl
  cases effect with
  | init moves => exact knownStep_of_init within rows known grows rfl published moves
  | @help u n rest inRange =>
    refine knownStep_of_quiet rfl (by simp) (by simp) ?_
    refine List.forall_mem_cons.mpr ⟨?_, fun frame below => still (List.mem_cons_of_mem _ below)⟩
    have row := rows u inRange
    refine ⟨known_helpThreadAt row.packed, fun going => ?_, fun none => ?_⟩
    · obtain ⟨sequence, active⟩ := current_of_going_helpThreadAt going
      refine ⟨(row.filled active).kept grows same, ?_, ?_, by simp⟩
      · exact grows.published _ _ (sequence ▸ row.published active)
      · exact sequence ▸ row.packed.2
    · cases rest with
      | nil => exact fits.elim
      | cons caller rest =>
        have some := fits.1.1
        omega
  | @operate role op pc _ _ frames rest going effect =>
    obtain ⟨inner, accessed, result⟩ := operate_of_stackStep going ran
    obtain ⟨rfl, rfl, joined⟩ := (Outcome.mk.injEq ..).mp result
    obtain rfl := List.append_cancel_right joined
    exact knownStep_of_operate within fits rows known grows nonNull rfl going effect accessed
  | @helpReturned helped op role w target expected result rest =>
    refine knownStep_of_quiet rfl (by simp) (by simp) ?_
    obtain ⟨returned, -⟩ := known _ List.mem_cons_self
    obtain ⟨waiting, serves, -⟩ := still (List.mem_cons_of_mem _ List.mem_cons_self)
    refine List.forall_mem_cons.mpr ⟨⟨?_, fun _ => serves trivial, fun none => ?_⟩, ?_⟩
    · exact known_afterHelp waiting returned
    · have some := fits.1.2.1
      omega
    · exact fun frame below => still (List.mem_cons_of_mem _ (List.mem_cons_of_mem _ below))
  | respond =>
    refine ⟨by simp, fun address => .inl rfl, by simp, ?_⟩
    rintro result ⟨⟩
    exact (known _ List.mem_cons_self).1

end OneStep

/-! ### Runs -/

/-- The words of a call that was made. -/
def Called (load : Workload P.numWords) (trace : Trace P) (words : KCasWords P.numWords) : Prop :=
  ∃ x ∈ trace, x.event = .invoked ∧
    words = load.call x.actor.thread (x.before.threads x.actor.thread).completed

/-- What the calls of a run were given, and what its rows have published. -/
def givenBy (load : Workload P.numWords) (trace : Trace P) : Given where
  target := fun address => ∃ words, Called load trace words ∧
    ∃ w < P.numWords, address = words.target w
  value := fun value => ∃ words, Called load trace words ∧
    ∃ w < P.numWords, value = words.expected w ∨ value = words.desired w
  published := fun t n => ∃ x ∈ trace, x.event = .storeStage t (P.stageWord .claiming n)

theorem givenBy_le : (givenBy load front).Le (givenBy load (front ++ back)) := by
  have called {words : KCasWords P.numWords} (made : Called load front words) :
      Called load (front ++ back) words := by
    obtain ⟨x, member, invoked⟩ := made
    exact ⟨x, List.mem_append_left _ member, invoked⟩
  refine ⟨?_, ?_, ?_⟩
  · rintro address ⟨words, made, here⟩
    exact ⟨words, called made, here⟩
  · rintro value ⟨words, made, here⟩
    exact ⟨words, called made, here⟩
  · rintro t n ⟨x, member, stored⟩
    exact ⟨x, List.mem_append_left _ member, stored⟩

theorem givenBy_target_ne_zero (address : ℕ) (known : (givenBy load trace).target address) :
    address ≠ 0 := by
  obtain ⟨words, -, w, inRange, rfl⟩ := known
  exact words.target_ne_zero inRange

/-- Rows, activations and cells of a configuration that was reached by `trace`. -/
structure KnownOk (P : Params) (load : Workload P.numWords) (cells : ℕ → ℕ) (trace : Trace P)
    (σ : Config P.numWords) : Prop where
  fits : ∀ t < P.numThreads, StackFits P t (σ.threads t).stack
  rows : ∀ t < P.numThreads, RowKnown P (givenBy load trace) σ.shared t
  known : ∀ t < P.numThreads, ∀ frame ∈ (σ.threads t).stack,
    frame.Known P (givenBy load trace) σ.shared t
  cells : ∀ address, σ.shared.cells address = cells address ∨
    ((givenBy load trace).target address ∧ ((givenBy load trace).value (σ.shared.cells address) ∨
      ∃ t < P.numThreads, ∃ n, (givenBy load trace).published t n ∧
        σ.shared.cells address = P.marker t n))

theorem knownOk_initial : KnownOk P load cells [] (Config.initial P.numWords cells) := by
  have word (t : ℕ) : (Config.initial P.numWords cells).shared.state.stageAndSequenceNumbers t =
      P.stageWord .inactive 0 :=
    P.stageWord_inactive_zero.symm
  refine ⟨fun t _ => trivial, fun t _ => ?_, ?_, fun address => .inl rfl⟩
  · exact rowKnown_of_word .inactive (Nat.two_pow_pos _) (word t) (by simp) (by simp)
  · intro t _ frame member
    cases member

/-- A step of a thread either enters a call or is one of its stack. -/
inductive ThreadStep (P : Params) (load : Workload P.numWords) (σ : Config P.numWords)
    (actor : Actor) : Event → Config P.numWords → Prop where
  | invoke : (σ.threads actor.thread).stack = [] →
      ThreadStep P load σ actor .invoked { σ with
        threads := Function.update σ.threads actor.thread ⟨(σ.threads actor.thread).completed,
          [.initializing (actor.thread + 1) actor.thread
            (load.call actor.thread (σ.threads actor.thread).completed)
            (if 0 < P.numWords then .storeTarget 0 else .loadStage)]⟩ }
  | move {outcome : Outcome P.numWords} {completed : ℕ} :
      stackStep P σ.shared actor.spurious (σ.threads actor.thread).stack = some outcome →
      ThreadStep P load σ actor outcome.event ⟨outcome.shared,
        Function.update σ.threads actor.thread ⟨completed, outcome.frames⟩⟩

theorem threadStep_of_step {actor : Actor} (stepped : step P load σ actor = some (event, σ')) :
    actor.thread < P.numThreads ∧ ThreadStep P load σ actor event σ' := by
  simp only [step] at stepped
  split at stepped
  · rename_i within
    refine ⟨within, ?_⟩
    cases shape : (σ.threads actor.thread).stack with
    | nil =>
      simp only [shape] at stepped
      split at stepped
      · cases stepped
        exact .invoke shape
      · cases stepped
    | cons frame rest =>
      simp only [shape] at stepped
      split at stepped
      · cases stepped
      · rename_i outcome ran
        cases stepped
        exact .move (shape ▸ ran)
  · cases stepped

/-- What the thread that moves must establish. -/
theorem KnownOk.advance {completed : ℕ} {longer : Trace P} (ok : KnownOk P load cells trace σ)
    (grows : (givenBy load trace).Le (givenBy load longer))
    (fills : Fills (givenBy load longer) σ.shared s') (fits : StackFits P t stack')
    (rows : ∀ u < P.numThreads, RowKnown P (givenBy load longer) s' u)
    (keeps : ∀ u < P.numThreads, u ≠ t → KeepsRow P σ.shared s' u ∧
      (P.numWords = 0 → s'.stageOf P u = σ.shared.stageOf P u))
    (moved : KnownStep P (givenBy load trace) (givenBy load longer) σ.shared t event s' stack') :
    KnownOk P load cells longer ⟨s', Function.update σ.threads t ⟨completed, stack'⟩⟩ := by
  refine ⟨fun u inRange => ?_, rows, fun u inRange frame member => ?_, fun address => ?_⟩
  · by_cases own : u = t
    · subst own
      simpa using fits
    · simpa [own] using ok.fits u inRange
  · by_cases own : u = t
    · subst own
      simp only [Function.update_self] at member
      exact moved.frames frame member
    · simp only [Function.update_of_ne own] at member
      obtain ⟨row, stage⟩ := keeps u inRange own
      exact (ok.known u inRange frame member).kept grows fills row stage
  · have later {value : ℕ} (content : (givenBy load trace).value value ∨ ∃ t < P.numThreads,
        ∃ n, (givenBy load trace).published t n ∧ value = P.marker t n) :
        (givenBy load longer).value value ∨ ∃ t < P.numThreads, ∃ n,
          (givenBy load longer).published t n ∧ value = P.marker t n := by
      refine content.imp (grows.value _) ?_
      rintro ⟨t, inRange, n, published, marker⟩
      exact ⟨t, inRange, n, grows.published _ _ published, marker⟩
    rcases moved.cells address with same | ⟨here, content⟩
    · rw [same]
      exact (ok.cells address).imp_right fun ⟨here, content⟩ =>
        ⟨grows.target _ here, later content⟩
    · exact .inr ⟨grows.target _ here, later content⟩

theorem knownOk_step {actor : Actor} (ok : KnownOk P load cells trace σ)
    (stepped : step P load σ actor = some (event, σ')) :
    ∃ stack', KnownStep P (givenBy load trace) (givenBy load (trace ++ [⟨σ, actor, event, σ'⟩]))
        σ.shared actor.thread event σ'.shared stack' ∧
      KnownOk P load cells (trace ++ [⟨σ, actor, event, σ'⟩]) σ' := by
  obtain ⟨within, taken⟩ := threadStep_of_step stepped
  have grows : (givenBy load trace).Le (givenBy load (trace ++ [⟨σ, actor, event, σ'⟩])) :=
    givenBy_le
  have last : (⟨σ, actor, event, σ'⟩ : Transition (Config P.numWords) Actor Event) ∈
      trace ++ [⟨σ, actor, event, σ'⟩] := by
    simp
  have fits := ok.fits _ within
  have known := ok.known _ within
  cases taken with
  | invoke idle =>
    generalize trace ++ _ = longer at grows last ⊢
    have made : Called load longer
        (load.call actor.thread (σ.threads actor.thread).completed) := ⟨_, last, rfl, rfl⟩
    have same : Fills (givenBy load longer) σ.shared σ.shared :=
      fun _ _ => ⟨.inl rfl, .inl rfl, .inl rfl⟩
    have moved : KnownStep P (givenBy load trace) (givenBy load longer) σ.shared actor.thread
        .invoked σ.shared [.initializing (actor.thread + 1) actor.thread
          (load.call actor.thread (σ.threads actor.thread).completed)
          (if 0 < P.numWords then .storeTarget 0 else .loadStage)] := by
      refine knownStep_of_quiet rfl (by simp) (by simp) ?_
      simp only [List.mem_singleton, forall_eq]
      refine ⟨fun w inRange => ?_, ?_⟩
      · exact ⟨⟨_, made, w, inRange, rfl⟩, ⟨_, made, w, inRange, .inl rfl⟩,
          ⟨_, made, w, inRange, .inr rfl⟩⟩
      · split
        · exact fun w below => absurd below (Nat.not_lt_zero w)
        · exact fun w below => by omega
    refine ⟨_, moved, ok.advance grows same ⟨rfl, rfl, ?_⟩ ?_ ?_ moved⟩
    · split
      · assumption
      · trivial
    · exact fun u inRange => (ok.rows u inRange).kept grows same (keepsRow_of_word rfl)
    · exact fun u _ _ => ⟨keepsRow_of_word rfl, fun _ => rfl⟩
  | @move outcome completed ran =>
    have effect := effect_of_stackStep within fits ran
    generalize trace ++ _ = longer at grows last ⊢
    have published (u n : ℕ) (stored : outcome.event = .storeStage u (P.stageWord .claiming n)) :
        (givenBy load longer).published u n := ⟨_, last, stored⟩
    have fills := (effect.fills known).mono grows
    have moved := knownStep_of_stackStep within fits ok.rows known grows
      givenBy_target_ne_zero published ran
    refine ⟨_, moved, ok.advance grows fills (effect.fits fits) ?_ ?_ moved⟩
    · exact fun u inRange => effect.rowKnown known (ok.rows u inRange) grows (published u)
    · intro u inRange other
      refine ⟨effect.keepsRow known (ok.rows u inRange).packed fun word stored =>
        other ((effect.own fits).2 word stored), fun none => ?_⟩
      exact effect.stage_of_wordless within fits known none other

theorem knownOk_of_execution (run : Execution P load cells trace σ) :
    KnownOk P load cells trace σ :=
  run.invariant (fun _ => True) (KnownOk P load cells) knownOk_initial
    (fun _ _ _ _ _ _ stepped _ ok => (knownOk_step ok stepped).choose_spec.2) (fun _ _ => trivial)

/-- In every run an exchange on a cell is one on a target of a call that was made before,
and writes a value of such a call or the marker of a published operation. So the cells
that no call names keep their content, and no content comes out of nowhere. -/
theorem exchanges_given (run : Execution P load cells trace σ) :
    (∀ front x back, trace = front ++ x :: back → ∀ pass op w target expected new result,
      x.event = .exchangeCell pass op w target expected new result →
        target ≠ 0 ∧ (givenBy load front).target target ∧ ((givenBy load front).value new ∨
          ∃ t < P.numThreads, ∃ n, (givenBy load front).published t n ∧ new = P.marker t n)) ∧
    ∀ address, σ.shared.cells address = cells address ∨ ((givenBy load trace).target address ∧
      ((givenBy load trace).value (σ.shared.cells address) ∨ ∃ t < P.numThreads, ∃ n,
        (givenBy load trace).published t n ∧ σ.shared.cells address = P.marker t n)) := by
  refine ⟨?_, (knownOk_of_execution run).cells⟩
  rintro front x back rfl pass op w target expected new result exchanged
  obtain ⟨reached, stepped, -⟩ := run.split
  obtain ⟨stack', moved, -⟩ := knownOk_step (knownOk_of_execution reached) stepped
  obtain ⟨here, content⟩ := moved.exchanges _ _ _ _ _ _ _ exchanged
  exact ⟨givenBy_target_ne_zero _ here, here, content⟩

/-- The second thread writes what the first one's call was given, and the cells that the
contended calls do not name keep their content. -/
theorem exchanges_given_contended : ∃ (front back : Trace twoThreads)
    (x : Transition (Config twoThreads.numWords) Actor Event) (σ : Config twoThreads.numWords),
    Execution twoThreads contended (fun _ => 0) (front ++ x :: back) σ ∧
      (front ++ x :: back).length = 58 ∧ x.actor.thread = 1 ∧
      x.event = .exchangeCell .set (twoThreads.operation 0 0) 1 16 (twoThreads.marker 0 0) 1
        (.ok (twoThreads.marker 0 0)) ∧
      ((givenBy contended front).target 16 ∧ ((givenBy contended front).value 1 ∨
        ∃ t < 2, ∃ n, (givenBy contended front).published t n ∧ 1 = twoThreads.marker t n)) ∧
      ∀ address, σ.shared.cells address = 0 ∨
        (givenBy contended (front ++ x :: back)).target address := by
  obtain ⟨trace, σ, run, length, x, member, helper, event⟩ := exists_execution twoThreads
    contended (fun _ => 0) contendedTurns
    (fun trace _ => trace.length = 58 ∧ ∃ x ∈ trace, x.actor.thread = 1 ∧
      x.event = .exchangeCell .set (twoThreads.operation 0 0) 1 16 (twoThreads.marker 0 0) 1
        (.ok (twoThreads.marker 0 0))) (by decide +kernel)
  obtain ⟨front, back, rfl⟩ := List.append_of_mem member
  have given := exchanges_given run
  exact ⟨front, back, x, σ, run, length, helper, event,
    (given.1 front x back rfl _ _ _ _ _ _ _ event).2,
    fun address => (given.2 address).imp_right And.left⟩

theorem StackFits.numWords_of_panicked (fits : StackFits P t stack)
    (member : .operating role op .panicked ∈ stack) : P.numWords = 0 := by
  induction stack with
  | nil => cases member
  | cons frame rest ih =>
    rcases List.mem_cons.mp member with rfl | below
    · cases rest with
      | nil =>
        obtain ⟨-, -, position | ⟨result, ⟨⟩⟩⟩ := fits
        exact position
      | cons caller rest => exact fits.1.2.2.2.2
    · cases rest with
      | nil => cases below
      | cons caller rest => exact ih fits.2.2 below

/-- In every run whatever nothing panics: no index is out of range and no subtraction
underflows, with no words at all neither. And a call reports a fatal error only for what
it found in a cell, or for a stage that was not to be expected: no stage number is out
of bounds, no pointer null, and nobody else changes the sequence of a call. -/
theorem reported_errors (run : Execution P load cells trace σ) :
    (∀ x ∈ trace, ∀ error, x.event = .responded (.error (.fatal error)) → error.Reportable) ∧
    ∀ t < P.numThreads, ∀ role op, .operating role op .panicked ∉ (σ.threads t).stack := by
  refine ⟨fun x member error responded => ?_, fun t within role op member => ?_⟩
  · obtain ⟨front, reached, stepped, -⟩ := run.of_mem member
    obtain ⟨stack', moved, -⟩ := knownOk_step (knownOk_of_execution reached) stepped
    exact moved.responses _ responded error rfl
  · have ok := knownOk_of_execution run
    have none := (ok.fits t within).numWords_of_panicked member
    exact (ok.known t within _ member).2.2 none

/-- A call of one word on a cell that holds what looks like the marker of another. -/
def onForeignMarker : Workload twoThreadsOneWord.numWords := .ofCalls
  [[oneWord (onCell 0 0 1)]]

/-- The thread of that marker is not at a call, which is one of the errors. -/
theorem reported_errors_onForeignMarker : ∃ (trace : Trace twoThreadsOneWord)
    (σ : Config twoThreadsOneWord.numWords),
    Execution twoThreadsOneWord onForeignMarker (fun _ => 2 ^ 63) trace σ ∧
      (trace.getLast?.map Transition.event) =
        some (.responded (.error (.fatal (.illegalHelpeeStage .inactive)))) ∧
      (∀ x ∈ trace, ∀ error, x.event = .responded (.error (.fatal error)) → error.Reportable) := by
  obtain ⟨trace, σ, run, last⟩ := exists_execution twoThreadsOneWord onForeignMarker
    (fun _ => 2 ^ 63) [(0, 13)] (fun trace _ => (trace.getLast?.map Transition.event) =
      some (.responded (.error (.fatal (.illegalHelpeeStage .inactive))))) (by decide +kernel)
  exact ⟨trace, σ, run, last, (reported_errors run).1⟩

end KCas
