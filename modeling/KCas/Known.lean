import KCas.Rows

/-! What an operation knows of its pointers and values, whatever the cells hold and
whatever the calls are made with: it has them from a row that its call has filled. So it
exchanges nothing but targets, writes nothing but values of a call and its marker, and
comes to three kinds of fatal errors only. -/
namespace KCas

variable {P : Params} {s s' : Shared} {t n w k : ℕ} {role : Role} {op : Operation} {pc : Pc}
  {spurious : Bool} {outcome : Outcome P.numWords} {event : Event}

/-- Where the addresses, the values and the markers of a run come from: the words of its
calls, and the operations that its rows published. -/
structure Given where
  target : ℕ → Prop
  value : ℕ → Prop
  published : ℕ → ℕ → Prop

/-- More has been given. -/
structure Given.Le (given given' : Given) : Prop where
  target : ∀ address, given.target address → given'.target address
  value : ∀ value, given.value value → given'.value value
  published : ∀ t n, given.published t n → given'.published t n

variable {given given' : Given}

/-! ### Errors -/

/-- The fatal errors that a call can report. -/
def FatalError.Reportable : FatalError → Prop
  | .illegalStageChange .. | .illegalHelpeeStage _ | .topBitsOfValueWereIllegal .. => True
  | _ => False

def ReportableResult (result : Except Error Unit) : Prop :=
  ∀ error, result = .error (.fatal error) → error.Reportable

def ReportableHelp (result : Except HelpError Unit) : Prop :=
  ∀ error, result = .error (.fatal error) → error.Reportable

def RevertNext.Reportable : RevertNext → Prop
  | .prepare result => ReportableResult result
  | .fail error => error.Reportable
  | .changeToReverted => True
  | .helpReturn result => ReportableHelp result

/-- What a verification can find: a helper may come too late, and no stage word is
broken. -/
def StageAndSequenceVerificationError.Reportable (role : Role) :
    StageAndSequenceVerificationError → Prop
  | .stageChanged _ => True
  | .sequenceChanged _ => role = .helper
  | .stageOutOfBounds _ => False

def ClaimError.Reportable (role : Role) : ClaimError → Prop
  | .stageAndSequenceVerificationError _ error => error.Reportable role
  | .targetAddressWasNotValidPointer .. => False
  | .fatalErrorWhileHelping error => error.Reportable
  | .valueWasNotExpectedValue .. | .topBitsOfValueWereIllegal .. => True

/-! ### Positions -/

/-- The pointers that an operation has loaded are targets, its values were given. -/
def Pc.Known (given : Given) : Pc → Prop
  | .claimLoadExpected _ target | .setLoadDesired _ target => given.target target
  | .claimExchange _ target value | .claimVerify _ target value _ | .claimHelp _ target value |
    .setExchange _ target value => given.target target ∧ given.value value
  | .revertLoadTarget _ next => next.Reportable
  | .revertLoadExpected _ target next => given.target target ∧ next.Reportable
  | .revertExchange _ target value next =>
    given.target target ∧ given.value value ∧ next.Reportable
  | .prepare result | .finished result => ReportableResult result
  | .returned result => ReportableHelp result
  | _ => True

theorem Pc.Known.mono (grows : given.Le given') (known : pc.Known given) : pc.Known given' := by
  cases pc with
  | claimLoadExpected | setLoadDesired => exact grows.target _ known
  | claimExchange | claimVerify | claimHelp | setExchange =>
    exact ⟨grows.target _ known.1, grows.value _ known.2⟩
  | revertLoadExpected => exact ⟨grows.target _ known.1, known.2⟩
  | revertExchange => exact ⟨grows.target _ known.1, grows.value _ known.2.1, known.2.2⟩
  | revertLoadTarget | prepare | finished | returned => exact known
  | _ => trivial

theorem known_failWith {error : FatalError} (reportable : error.Reportable) :
    (failWith role error).Known given := by
  cases role <;> rintro error ⟨⟩ <;> exact reportable

theorem known_revertAllWords {next : RevertNext} (reportable : next.Reportable) :
    (revertAllWords P next).Known given := by
  unfold revertAllWords
  split
  · trivial
  · exact reportable

theorem known_afterSetOk : (afterSetOk role).Known given := by
  cases role with
  | originator => rintro error ⟨⟩
  | helper => trivial

theorem known_setFrom : (setFrom P role w).Known given := by
  unfold setFrom
  split
  · trivial
  · exact known_afterSetOk

theorem known_onStage {current actual : Stage} : (onStage P role current actual).Known given := by
  have failed : (failWith role (.illegalStageChange current actual)).Known given :=
    known_failWith trivial
  cases role with
  | originator =>
    cases actual with
    | inactive | claiming => exact failed
    | setting => exact known_setFrom
    | reverting | reverted | successful =>
      refine known_revertAllWords ?_
      rintro error ⟨⟩
  | helper =>
    cases actual with
    | inactive | claiming => exact failed
    | setting => exact known_setFrom
    | reverting => exact known_revertAllWords trivial
    | reverted | successful =>
      refine known_revertAllWords ?_
      rintro error ⟨⟩

theorem known_onVerificationError {current : Stage} {error : StageAndSequenceVerificationError}
    (reportable : error.Reportable role) :
    (onVerificationError P role op current error).Known given := by
  cases error with
  | stageChanged actual =>
    have onward : (onStage P role current actual).Known given := known_onStage
    cases role <;> exact onward
  | sequenceChanged actual =>
    obtain rfl : role = .helper := reportable
    refine known_revertAllWords ?_
    rintro error ⟨⟩
  | stageOutOfBounds number => exact reportable.elim

theorem known_afterClaim {result : Except ClaimError Unit}
    (reportable : ∀ error, result = .error error → error.Reportable role) :
    (afterClaim P role op result).Known given := by
  cases result with
  | ok => cases role <;> trivial
  | error error =>
    have reportable := reportable error rfl
    cases error with
    | stageAndSequenceVerificationError =>
      rw [afterClaim_verificationError]
      exact known_onVerificationError reportable
    | valueWasNotExpectedValue => cases role <;> trivial
    | targetAddressWasNotValidPointer => exact reportable.elim
    | fatalErrorWhileHelping error =>
      have failed : (failWith role error).Known given := known_failWith reportable
      cases role <;> exact failed
    | topBitsOfValueWereIllegal wordNum target value bits =>
      have failed : (failWith role (.topBitsOfValueWereIllegal wordNum target value bits)).Known
          given := known_failWith trivial
      cases role <;> exact failed

theorem known_claimFrom : (claimFrom P role op w).Known given := by
  unfold claimFrom
  split
  · trivial
  · exact known_afterClaim (by simp)

theorem known_revertBelow {next : RevertNext} (reportable : next.Reportable) :
    (revertBelow role next w).Known given := by
  cases w with
  | succ w => exact reportable
  | zero =>
    cases next with
    | fail error =>
      rintro error ⟨⟩
      exact reportable
    | _ => exact reportable

theorem known_afterStageChanged {next : StageNext} :
    (afterStageChanged P role next).Known given := by
  cases next with
  | set => exact known_setFrom
  | revert w =>
    cases role with
    | originator => rintro error ⟨⟩
    | helper => trivial
  | ok => rintro error ⟨⟩

theorem known_afterHelp {target expected : ℕ} {result : Except HelpError Unit}
    (known : (Pc.claimHelp w target expected).Known given) (reportable : ReportableHelp result) :
    (afterHelp P role op w target expected result).Known given := by
  cases result with
  | ok => exact known
  | error error =>
    cases error with
    | fatal error =>
      refine known_afterClaim ?_
      rintro error ⟨⟩
      exact reportable _ rfl
    | _ => exact known

/-! ### Stage words -/

theorem WellPacked.extractStage (packed : WellPacked P s t) :
    extractStageFromStageAndSequence P.usizeBits (s.state.stageAndSequenceNumbers t) =
      .ok (s.stageOf P t) := by
  rw [packed.1]
  exact Params.extractStage_stageWord packed.2

/-- What a verification of a packed row can find. -/
theorem reportable_of_verification {stage : Stage} {error : StageAndSequenceVerificationError}
    (packed : WellPacked P s t) (own : role = .originator → s.sequenceOf P t = n)
    (failed : verifyStageAndSequenceHaveNotChanged P (s.state.stageAndSequenceNumbers t) stage n =
      .error error) : error.Reportable role := by
  simp only [verifyStageAndSequenceHaveNotChanged, packed.extractStage] at failed
  split at failed
  · rename_i changed
    cases failed
    cases role with
    | originator => exact absurd (own rfl) changed
    | helper => rfl
  · split at failed
    · cases failed
      trivial
    · cases failed

theorem known_afterStageNotChanged {current : Stage}
    (packed : WellPacked P s op.threadIndex)
    (own : role = .originator → s.sequenceOf P op.threadIndex = op.sequence) :
    (afterStageNotChanged P role op current
      (s.state.stageAndSequenceNumbers op.threadIndex)).Known given := by
  have onward (actual : Stage) : (onStage P role current actual).Known given := known_onStage
  cases role with
  | originator =>
    have same : extractSequenceFromStageAndSequence P.usizeBits
        (s.state.stageAndSequenceNumbers op.threadIndex) = op.sequence := own rfl
    simp only [afterStageNotChanged, changeStageAndTransition, packed.extractStage, same, ne_eq,
      not_true_eq_false, ↓reduceIte]
    exact onward _
  | helper =>
    simp only [afterStageNotChanged, helpChangeStageAndTransition, packed.extractStage]
    split
    · refine known_revertAllWords ?_
      rintro error ⟨⟩
    · exact onward _

theorem known_helpThreadAt (packed : WellPacked P s op.threadIndex) :
    (helpThreadAt P op (s.state.stageAndSequenceNumbers op.threadIndex)).Known given := by
  simp only [helpThreadAt, packed.extractStage]
  split
  · rintro error ⟨⟩
  · split
    · rintro error ⟨⟩
      trivial
    · exact known_claimFrom
    · exact known_setFrom
    · exact known_revertAllWords trivial
    · rintro error ⟨⟩
    · rintro error ⟨⟩

/-- A sequence that leaves the bits below the stage makes its row Claiming at 0. -/
theorem stageWord_nextSequence (fits : n < 2 ^ P.stageSequenceBits) :
    (n + 1 < 2 ^ P.stageSequenceBits ∧ nextSequence P.usizeBits P.numThreads n = n + 1) ∨
      P.stageWord .inactive (nextSequence P.usizeBits P.numThreads n) =
        P.stageWord .claiming 0 := by
  have wide := P.three_le_usizeBits
  have bits := P.markerSequenceBits_add
  simp only [Params.threadBits] at bits
  have narrower : 2 ^ P.stageSequenceBits < 2 ^ P.usizeBits := by
    refine Nat.pow_lt_pow_right (by omega) ?_
    simp only [Params.stageSequenceBits, stageBitLength] at wide ⊢
    omega
  have next : nextSequence P.usizeBits P.numThreads n = n + 1 :=
    nextSequence_eq (by omega) (by omega)
  rcases Nat.lt_or_eq_of_le (Nat.succ_le_of_lt fits) with less | last
  · exact .inl ⟨less, next⟩
  · right
    have last : n + 1 = 2 ^ P.stageSequenceBits := last
    rw [next, last, Params.stageWord_eq (Nat.two_pow_pos _)]
    simp [Params.stageWord, constructStageAndSequence, shiftLeft, Stage.toUsize]

/-! ### Accesses -/

/-- The first words of the row have been given. -/
def RowFilled (given : Given) (s : Shared) (t k : ℕ) : Prop :=
  ∀ w < k, given.target (s.state.targetAddresses t w) ∧
    given.value (s.state.expectedValues t w) ∧ given.value (s.state.desiredValues t w)

/-- What a going operation relies on: its row has been filled and published, and an
originator's own row has the sequence that it works with. -/
structure Serves (P : Params) (given : Given) (s : Shared) (t : ℕ) (role : Role)
    (op : Operation) : Prop where
  filled : RowFilled given s op.threadIndex P.numWords
  published : given.published op.threadIndex op.sequence
  fits : op.sequence < 2 ^ P.stageSequenceBits
  own : role = .originator → op.threadIndex = t ∧ s.sequenceOf P t = op.sequence

theorem Serves.sequence (serves : Serves P given s t role op) (own : role = .originator) :
    s.sequenceOf P op.threadIndex = op.sequence := by
  obtain ⟨same, sequence⟩ := serves.own own
  rw [same, sequence]

/-- What an access of an operation does: it exchanges a target, writes a given value or
its marker there, and goes on knowing where its words come from. -/
structure KnownAccess (given : Given) (s : Shared) (role : Role) (op : Operation)
    (outcome : Outcome P.numWords) : Prop where
  exchanges : ∀ pass op' w target expected new result,
    outcome.event = .exchangeCell pass op' w target expected new result →
      given.target target ∧ (given.value new ∨ new = op.threadAndSequence)
  cells : ∀ address, outcome.shared.cells address = s.cells address ∨
    (given.target address ∧ (given.value (outcome.shared.cells address) ∨
      outcome.shared.cells address = op.threadAndSequence))
  frames : ∀ frame ∈ outcome.frames, (∃ marker, frame = .helpThread marker) ∨
    ∃ pc : Pc, frame = .operating role op pc ∧ pc.Known given

theorem exchangeCell_writes (s : Shared) (target expected new address : ℕ) :
    (s.exchangeCell target expected new).2.cells address = s.cells address ∨
      (address = target ∧ (s.exchangeCell target expected new).2.cells address = new) := by
  unfold Shared.exchangeCell
  split
  · by_cases same : address = target
    · subst same
      exact .inr ⟨rfl, s.setCell_self⟩
    · exact .inl (s.setCell_of_ne same)
  · exact .inl rfl

theorem exchangeCellWeak_writes (s : Shared) (spurious : Bool) (target expected new address : ℕ) :
    (s.exchangeCellWeak spurious target expected new).2.cells address = s.cells address ∨
      (address = target ∧
        (s.exchangeCellWeak spurious target expected new).2.cells address = new) := by
  unfold Shared.exchangeCellWeak
  split
  · exact .inl rfl
  · exact exchangeCell_writes s target expected new address

/-- The access reads a word of `State` or exchanges a stage word. -/
theorem knownAccess_of_kept {pc' : Pc} (cells : s'.cells = s.cells) (known : pc'.Known given)
    (none : ∀ pass op' w target expected new result,
      event ≠ .exchangeCell pass op' w target expected new result) :
    KnownAccess given s role op (⟨event, s', [.operating role op pc']⟩ : Outcome P.numWords) := by
  refine ⟨?_, fun address => .inl (congrFun cells address), ?_⟩
  · intro pass op' w target expected new result same
    exact (none _ _ _ _ _ _ _ same).elim
  · intro frame member
    exact .inr ⟨pc', List.mem_singleton.mp member, known⟩

/-- The access exchanges a target cell. -/
theorem knownAccess_of_exchange {pass : Pass} {op' : Operation} {target expected new : ℕ}
    {result : Except ℕ ℕ} {pc' : Pc} (here : given.target target)
    (writes : ∀ address, s'.cells address = s.cells address ∨
      (address = target ∧ s'.cells address = new))
    (value : given.value new ∨ new = op.threadAndSequence) (known : pc'.Known given) :
    KnownAccess given s role op (⟨.exchangeCell pass op' w target expected new result, s',
      [.operating role op pc']⟩ : Outcome P.numWords) := by
  refine ⟨?_, fun address => (writes address).imp_right ?_, ?_⟩
  · rintro pass op' w target expected new result ⟨⟩
    exact ⟨here, value⟩
  · rintro ⟨rfl, wrote⟩
    exact ⟨here, wrote ▸ value⟩
  · intro frame member
    exact .inr ⟨pc', List.mem_singleton.mp member, known⟩

/-- `claim` sees what is in its way. -/
theorem knownAccess_of_claimClassify {target expected actual : ℕ}
    (known : given.target target ∧ given.value expected) :
    KnownAccess given s role op
      (⟨.silent, s, claimClassify P role op w target expected actual⟩ : Outcome P.numWords) := by
  rw [claimClassify_eq]
  split
  · refine knownAccess_of_kept rfl (known_afterClaim ?_) (by simp)
    rintro error ⟨⟩
    trivial
  · refine ⟨by simp, fun address => .inl rfl, ?_⟩
    intro frame member
    rcases List.mem_cons.mp member with rfl | member
    · exact .inl ⟨actual, rfl⟩
    · exact .inr ⟨_, List.mem_singleton.mp member, known⟩
  · refine knownAccess_of_kept rfl (known_afterClaim ?_) (by simp)
    rintro error ⟨⟩
    trivial

theorem knownAccess_of_operate (nonNull : ∀ address, given.target address → address ≠ 0)
    (within : op.threadIndex < P.numThreads) (fits : pc.Fits P.numWords role)
    (packed : WellPacked P s op.threadIndex) (serves : Serves P given s t role op)
    (known : pc.Known given) (ran : operate P s spurious role op pc = some outcome) :
    KnownAccess given s role op outcome := by
  have filled := serves.filled
  cases pc with
  | claimLoadTarget w =>
    have inRange : w < P.numWords := fits
    have here := (filled w inRange).1
    simp only [operate, within, inRange, and_self, ↓reduceIte, nonNull _ here,
      Option.some.injEq] at ran
    subst ran
    exact knownAccess_of_kept rfl here (by simp)
  | claimLoadExpected w target =>
    have inRange : w < P.numWords := fits
    simp only [operate, within, inRange, and_self, ↓reduceIte, Option.some.injEq] at ran
    subst ran
    exact knownAccess_of_kept rfl ⟨known, (filled w inRange).2.1⟩ (by simp)
  | claimExchange w target expected =>
    simp only [operate, Option.some.injEq] at ran
    subst ran
    refine knownAccess_of_exchange known.1 (exchangeCellWeak_writes s spurious target expected _)
      (.inr rfl) ?_
    split
    · exact known_claimFrom
    · split
      · exact known
      · split
        · exact known_claimFrom
        · exact known
  | claimVerify w target expected actual =>
    simp only [operate, within, ↓reduceIte, Option.some.injEq] at ran
    subst ran
    split
    · rename_i error failed
      refine knownAccess_of_kept rfl (known_afterClaim ?_) (by simp)
      rintro error ⟨⟩
      exact reportable_of_verification packed serves.sequence failed
    · exact knownAccess_of_claimClassify known
  | changeStage current desired next =>
    simp only [operate, within, ↓reduceIte, Shared.exchangeStage, Option.some.injEq] at ran
    subst ran
    split
    · exact knownAccess_of_kept rfl known_afterStageChanged (by simp)
    · exact knownAccess_of_kept rfl (known_afterStageNotChanged packed serves.sequence) (by simp)
  | setLoadTarget w =>
    have inRange : w < P.numWords := fits
    have here := (filled w inRange).1
    simp only [operate, within, inRange, and_self, ↓reduceIte, nonNull _ here,
      Option.some.injEq] at ran
    subst ran
    exact knownAccess_of_kept rfl here (by simp)
  | setLoadDesired w target =>
    have inRange : w < P.numWords := fits
    simp only [operate, within, inRange, and_self, ↓reduceIte, Option.some.injEq] at ran
    subst ran
    exact knownAccess_of_kept rfl ⟨known, (filled w inRange).2.2⟩ (by simp)
  | setExchange w target desired =>
    simp only [operate, Option.some.injEq] at ran
    subst ran
    refine knownAccess_of_exchange known.1 (exchangeCell_writes s target _ desired)
      (.inl known.2) ?_
    split
    · exact known_setFrom
    · trivial
  | setVerify w =>
    simp only [operate, within, ↓reduceIte, Option.some.injEq] at ran
    subst ran
    split
    · rename_i error failed
      refine knownAccess_of_kept rfl ?_ (by simp)
      rw [afterSet_verificationError]
      exact known_onVerificationError
        (reportable_of_verification packed serves.sequence failed)
    · exact knownAccess_of_kept rfl known_setFrom (by simp)
  | revertLoadTarget w next =>
    obtain ⟨inRange, -⟩ := fits
    have here := (filled w inRange).1
    simp only [operate, within, inRange, and_self, ↓reduceIte, nonNull _ here,
      Option.some.injEq] at ran
    subst ran
    exact knownAccess_of_kept rfl ⟨here, known⟩ (by simp)
  | revertLoadExpected w target next =>
    obtain ⟨inRange, -⟩ := fits
    simp only [operate, within, inRange, and_self, ↓reduceIte, Option.some.injEq] at ran
    subst ran
    exact knownAccess_of_kept rfl ⟨known.1, (filled w inRange).2.1, known.2⟩ (by simp)
  | revertExchange w target expected next =>
    simp only [operate, Option.some.injEq] at ran
    subst ran
    exact knownAccess_of_exchange known.1 (exchangeCell_writes s target _ expected)
      (.inl known.2.1) (known_revertBelow known.2.2)
  | prepare result =>
    simp only [operate, prepareForNextOperation_nextSequence, within, ↓reduceIte,
      Option.some.injEq] at ran
    subst ran
    exact knownAccess_of_kept rfl known (by simp)
  | claimHelp | finished | returned | panicked => cases ran

end KCas
