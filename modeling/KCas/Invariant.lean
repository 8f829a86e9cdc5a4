import KCas.Moves

/-! The invariant of every run under the usage rules: what the shared memory
looks like, and what each activation on each call stack may rely on. The
conditions on an activation speak about the shared memory alone, so another
thread's move can only disturb them through the few ways shared memory evolves. -/
namespace KCas

section

variable (P : Params) (load : Workload P.numWords) (s : Shared)

/-- The row has published call `n` of thread index `t`, now or earlier. -/
def Started (t n : ℕ) : Prop :=
  n < s.sequenceOf P t ∨ (s.sequenceOf P t = n ∧ s.stageOf P t ≠ .inactive)

/-- Word `w` of the call holds the call's marker. -/
def Marked (t n w : ℕ) : Prop := s.cells ((load.call t n).target w) = P.marker t n

/-- While the call is still at Claiming, every word below `w` holds its marker. -/
def ClaimedBelow (t n w : ℕ) : Prop :=
  s.sequenceOf P t = n → s.stageOf P t = .claiming → ∀ i < w, Marked P load s t n i

/-- As long as the row carries the call's sequence, it is at one of `stages`. -/
def Within (t n : ℕ) (stages : List Stage) : Prop :=
  s.sequenceOf P t = n → s.stageOf P t ∈ stages

/-- A pointer loaded for word `w`: never null, and the word's own address while
the row carries the call's sequence. -/
def TargetOk (t n w target : ℕ) : Prop :=
  target ≠ 0 ∧ (s.sequenceOf P t = n → target = (load.call t n).target w)

/-- What a cell can hold: a real value, or the marker of a published call. -/
def ValueOk (value : ℕ) : Prop :=
  P.Legal value ∨
    ∃ t < P.numThreads, ∃ n < load.count t, value = P.marker t n ∧ Started P s t n

/-- A row whose first `count` words are those of the call. -/
def Stored (t : ℕ) (words : KCasWords P.numWords) (count : ℕ) : Prop :=
  ∀ w < count, s.state.targetAddresses t w = words.target w ∧
    s.state.expectedValues t w = words.expected w ∧ s.state.desiredValues t w = words.desired w

/-- A call somebody works for. -/
structure CallOk (t n : ℕ) : Prop where
  within : t < P.numThreads
  counted : n < load.count t
  started : Started P s t n

/-- The result a closure reports after `prepare_for_next_operation`, and the
stages at which it can be on its way to do so. -/
def PreparedOk (t n : ℕ) (successStages : List Stage) (result : Except Error Unit) : Prop :=
  (result = .ok () ∧ Within P s t n successStages) ∨
    (result = .error .valueWasNotExpectedValue ∧ Within P s t n [.reverting, .reverted])

/-- The stages at which each closure of a revert can be pending. -/
def NextOk (role : Role) (t n : ℕ) : RevertNext → Prop
  | .prepare result => role = .originator ∧ PreparedOk P s t n [.successful] result
  | .fail _ => False
  | .changeToReverted => role = .helper ∧ Within P s t n [.reverting, .reverted]
  | .helpReturn result => role = .helper ∧
    ((result = .ok () ∧ Within P s t n [.successful, .reverted]) ∨
      (∃ id original actual, result = .error (.sequenceChangedWhileHelping id original actual)) ∧
        n < s.sequenceOf P t)

/-- What holds at each position of an operation. -/
def PcOk (role : Role) (t n : ℕ) : Pc → Prop
  | .claimLoadTarget w => w < P.numWords ∧ ClaimedBelow P load s t n w
  | .claimLoadExpected w target =>
    w < P.numWords ∧ ClaimedBelow P load s t n w ∧ TargetOk P load s t n w target
  | .claimExchange w target expected | .claimHelp w target expected =>
    w < P.numWords ∧ ClaimedBelow P load s t n w ∧ TargetOk P load s t n w target ∧
      P.Legal expected ∧ (s.sequenceOf P t = n → expected = (load.call t n).expected w)
  | .claimVerify w target expected actual =>
    (w < P.numWords ∧ ClaimedBelow P load s t n w ∧ TargetOk P load s t n w target ∧
      P.Legal expected ∧ (s.sequenceOf P t = n → expected = (load.call t n).expected w)) ∧
      actual ≠ expected ∧ actual ≠ P.marker t n ∧ ValueOk P load s actual
  | .changeStage current desired next =>
    (current = .claiming ∧ desired = .setting ∧ next = .set ∧
      ClaimedBelow P load s t n P.numWords) ∨
    (∃ w < P.numWords, current = .claiming ∧ desired = .reverting ∧ next = .revert w ∧
      ClaimedBelow P load s t n w) ∨
    (role = .helper ∧ current = .setting ∧ desired = .successful ∧ next = .ok ∧
      Within P s t n [.setting, .successful]) ∨
    (role = .helper ∧ current = .reverting ∧ desired = .reverted ∧ next = .ok ∧
      Within P s t n [.reverting, .reverted])
  | .setLoadTarget w | .setVerify w =>
    w < P.numWords ∧ Within P s t n [.setting, .successful]
  | .setLoadDesired w target =>
    w < P.numWords ∧ Within P s t n [.setting, .successful] ∧ TargetOk P load s t n w target
  | .setExchange w target desired =>
    w < P.numWords ∧ Within P s t n [.setting, .successful] ∧ TargetOk P load s t n w target ∧
      P.Legal desired ∧ (s.sequenceOf P t = n → desired = (load.call t n).desired w)
  | .revertLoadTarget w next => w < P.numWords ∧ NextOk P s role t n next
  | .revertLoadExpected w target next =>
    w < P.numWords ∧ NextOk P s role t n next ∧ TargetOk P load s t n w target
  | .revertExchange w target expected next =>
    w < P.numWords ∧ NextOk P s role t n next ∧ TargetOk P load s t n w target ∧
      P.Legal expected ∧ (s.sequenceOf P t = n → expected = (load.call t n).expected w)
  | .prepare result => role = .originator ∧ PreparedOk P s t n [.setting, .successful] result
  | .finished result => role = .originator ∧
    (result = .ok () ∨ result = .error .valueWasNotExpectedValue)
  | .returned result => role = .helper ∧ (∀ error, result ≠ .error (.fatal error)) ∧
    Within P s t n [.successful, .reverted]
  | .panicked => False

/-- What holds at each position of `initialize_operation`. -/
def InitOk (t : ℕ) (words : KCasWords P.numWords) : InitPc → Prop
  | .storeTarget w => w < P.numWords ∧ Stored P s t words w
  | .storeExpected w => w < P.numWords ∧ Stored P s t words w ∧
    s.state.targetAddresses t w = words.target w
  | .storeDesired w => w < P.numWords ∧ Stored P s t words w ∧
    s.state.targetAddresses t w = words.target w ∧ s.state.expectedValues t w = words.expected w
  | .loadStage => Stored P s t words P.numWords
  | .storeStage n => n = s.sequenceOf P t ∧ Stored P s t words P.numWords

/-- The row of an originator: at a stage of its call until the last store, and
ready for the next call after it. Nobody helps a call without words. -/
def RowAt (t n : ℕ) : Pc → Prop
  | .finished _ => s.stageOf P t = .inactive ∧ s.sequenceOf P t = n + 1
  | .changeStage current .. => s.stageOf P t ≠ .inactive ∧ s.sequenceOf P t = n ∧
    (0 < P.numWords ∨ s.stageOf P t = current)
  | _ => s.stageOf P t ≠ .inactive ∧ s.sequenceOf P t = n

/-- The activation at the bottom of the stack of thread index `t`, during its
call number `n`. -/
def OriginatorOk (t n : ℕ) : Frame P.numWords → Prop
  | .initializing threadId threadIndex words pc =>
    threadId = t + 1 ∧ threadIndex = t ∧ words = load.call t n ∧ n < load.count t ∧
      s.stageOf P t = .inactive ∧ s.sequenceOf P t = n ∧ InitOk P s t words pc
  | .helpThread _ => False
  | .operating role op pc =>
    role = .originator ∧ op = P.operation t n ∧ n < load.count t ∧ RowAt P s t n pc ∧
      PcOk P load s .originator t n pc

/-- An activation that helps another call. Only a call with words has markers. -/
def HelperOk : Frame P.numWords → Prop
  | .initializing .. => False
  | .helpThread marker => ∃ t n, marker = P.marker t n ∧ CallOk P load s t n ∧ 0 < P.numWords
  | .operating role op pc => ∃ t n, role = .helper ∧ op = P.operation t n ∧ CallOk P load s t n ∧
    0 < P.numWords ∧ PcOk P load s .helper t n pc

/-- An activation that waits for the `help_thread` it called. -/
def Waiting : Frame P.numWords → Prop
  | .operating _ _ (.claimHelp ..) => True
  | _ => False

/-- A call stack, the running activation first, during call number `n`. -/
def StackOk (t n : ℕ) : List (Frame P.numWords) → Prop
  | [] => s.stageOf P t = .inactive ∧ s.sequenceOf P t = n
  | [frame] => OriginatorOk P load s t n frame
  | frame :: caller :: rest =>
    HelperOk P load s frame ∧ Waiting P caller ∧ StackOk t n (caller :: rest)

/-- The shared memory. -/
structure SharedOk : Prop where
  word : ∀ t < P.numThreads, s.state.stageAndSequenceNumbers t =
    P.stageWord (s.stageOf P t) (s.sequenceOf P t)
  bound : ∀ t < P.numThreads, s.sequenceOf P t ≤ load.count t
  row : ∀ t < P.numThreads, s.stageOf P t ≠ .inactive →
    s.sequenceOf P t < load.count t ∧
      Stored P s t (load.call t (s.sequenceOf P t)) P.numWords
  filled : ∀ t < P.numThreads, ∀ n, Started P s t n → ∀ w < P.numWords,
    s.state.targetAddresses t w ≠ 0
  values : ∀ t < P.numThreads, ∀ w < P.numWords,
    P.Legal (s.state.expectedValues t w) ∧ P.Legal (s.state.desiredValues t w)
  cell : ∀ address, ValueOk P load s (s.cells address)
  /-- While a call is at Claiming, its markers are on a prefix of its words. -/
  claimed : ∀ t < P.numThreads, s.stageOf P t = .claiming → ∀ address,
    s.cells address = P.marker t (s.sequenceOf P t) →
    ∃ w < P.numWords, address = (load.call t (s.sequenceOf P t)).target w ∧
      ∀ i < w, Marked P load s t (s.sequenceOf P t) i

end

/-- The invariant of a configuration. -/
structure ConfigOk (P : Params) (load : Workload P.numWords) (σ : Config P.numWords) : Prop where
  shared : SharedOk P load σ.shared
  callStacks : ∀ t < P.numThreads,
    StackOk P load σ.shared t (σ.threads t).completed (σ.threads t).stack

/-- All that the moves of others can do to what an activation relies on. The
row of `owner` is the one whose owner moves. -/
structure Evolves (P : Params) (load : Workload P.numWords) (owner : ℕ) (s s' : Shared) :
    Prop where
  sequence_le : ∀ t < P.numThreads, s.sequenceOf P t ≤ s'.sequenceOf P t
  retires : ∀ t < P.numThreads, t ≠ owner → s'.sequenceOf P t = s.sequenceOf P t
  forward : ∀ t < P.numThreads, s'.sequenceOf P t = s.sequenceOf P t →
    s'.stageOf P t = s.stageOf P t ∨ (t = owner ∧ s.stageOf P t = .inactive) ∨
      StageEdge (s.stageOf P t) (s'.stageOf P t)
  rows : ∀ t < P.numThreads, t ≠ owner ∨ s.stageOf P t ≠ .inactive →
    s'.state.targetAddresses t = s.state.targetAddresses t ∧
      s'.state.expectedValues t = s.state.expectedValues t ∧
      s'.state.desiredValues t = s.state.desiredValues t
  quiet : 0 < P.numWords ∨
    ∀ t < P.numThreads, t ≠ owner → s'.stageOf P t = s.stageOf P t
  marks : ∀ t < P.numThreads, ∀ n < load.count t, s.sequenceOf P t = n →
    s.stageOf P t = .claiming → s'.sequenceOf P t = n → s'.stageOf P t = .claiming →
    ∀ address, s.cells address = P.marker t n → s'.cells address = P.marker t n

end KCas
