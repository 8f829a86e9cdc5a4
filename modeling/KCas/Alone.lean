import KCas.Loops
import KCas.Progress
import KCas.Rollover

/-! A call that runs alone: nobody else moves from its first access to its return.
Then `claim`, `set` and `revert` are the three loops on the content of the cells,
whatever the cells and the rows hold at the start. -/
namespace KCas

open Labelled

variable {P : Params} {s₀ s : Shared} {t n w : ℕ} {words : KCasWords P.numWords} {pc : Pc}
  {spurious : Bool} {frame : Frame P.numWords}

/-! ### The row of one thread -/

/-- Of `State` only the rows of one thread index differ. -/
structure OnlyRow (t : ℕ) (s s' : Shared) : Prop where
  numThreadsInUse : s'.state.numThreadsInUse = s.state.numThreadsInUse
  slots : s'.state.threadIndexSlots = s.state.threadIndexSlots
  targets : ∀ u, u ≠ t → s'.state.targetAddresses u = s.state.targetAddresses u
  expecteds : ∀ u, u ≠ t → s'.state.expectedValues u = s.state.expectedValues u
  desireds : ∀ u, u ≠ t → s'.state.desiredValues u = s.state.desiredValues u
  stages : ∀ u, u ≠ t →
    s'.state.stageAndSequenceNumbers u = s.state.stageAndSequenceNumbers u

namespace OnlyRow

theorem refl (t : ℕ) (s : Shared) : OnlyRow t s s :=
  ⟨rfl, rfl, fun _ _ => rfl, fun _ _ => rfl, fun _ _ => rfl, fun _ _ => rfl⟩

theorem setCell (only : OnlyRow t s₀ s) (address value : ℕ) :
    OnlyRow t s₀ (s.setCell address value) :=
  ⟨only.numThreadsInUse, only.slots, only.targets, only.expecteds, only.desireds, only.stages⟩

theorem storeStage (only : OnlyRow t s₀ s) (word : ℕ) : OnlyRow t s₀ (s.storeStage t word) := by
  refine { only with stages := fun u other => ?_ }
  simpa [Shared.storeStage, other] using only.stages u other

theorem initMoves {s' : Shared} {pc : InitPc} {event : Event} {frames : List (Frame P.numWords)}
    (only : OnlyRow t s₀ s) (moves : InitMoves P s t words pc event s' frames) :
    OnlyRow t s₀ s' := by
  cases moves with
  | storeTarget inRange =>
    refine { only with targets := fun u other => ?_ }
    simpa [Shared.storeTarget, other] using only.targets u other
  | storeExpected inRange =>
    refine { only with expecteds := fun u other => ?_ }
    simpa [Shared.storeExpected, other] using only.expecteds u other
  | storeDesired inRange =>
    refine { only with desireds := fun u other => ?_ }
    simpa [Shared.storeDesired, other] using only.desireds u other
  | loadStage => exact only
  | storeStage => exact only.storeStage _

end OnlyRow

/-! ### Positions -/

section Positions

variable (P : Params) (t : ℕ) (words : KCasWords P.numWords) (n : ℕ) (c : ℕ → ℕ) (s : Shared)

/-- The call is published, at this stage. -/
def Working (stage : Stage) : Prop :=
  s.state.stageAndSequenceNumbers t = P.stageWord stage n ∧ Stored P s t words P.numWords

/-- `claim` is about to look at word `w`. -/
def ClaimingAt (w : ℕ) : Prop :=
  Working P t words n s .claiming ∧ (∀ i < w, Passes words (P.marker t n) c i) ∧
    s.cells = claimLoop words (P.marker t n) c w

/-- `set` is about to look at word `w`. -/
def SettingAt (w : ℕ) : Prop :=
  Working P t words n s .setting ∧ (∀ i < P.numWords, Passes words (P.marker t n) c i) ∧
    s.cells = setLoop words (P.marker t n) (claimLoop words (P.marker t n) c P.numWords) w

/-- `revert` has the first `count` words still to do. -/
def RevertingAt (count : ℕ) : Prop :=
  Working P t words n s .reverting ∧ ∃ f < P.numWords,
    (∀ i < f, Passes words (P.marker t n) c i) ∧ ¬ Passes words (P.marker t n) c f ∧
      revertLoop words (P.marker t n) s.cells count =
        revertLoop words (P.marker t n) (claimLoop words (P.marker t n) c f) (f + 1)

/-- What holds at each position of a call that runs alone from cells `c` with the
sequence `n`. -/
def AloneAt : Pc → Prop
  | .claimLoadTarget w => w < P.numWords ∧ ClaimingAt P t words n c s w
  | .claimLoadExpected w target =>
    w < P.numWords ∧ ClaimingAt P t words n c s w ∧ target = words.target w
  | .claimExchange w target expected =>
    w < P.numWords ∧ ClaimingAt P t words n c s w ∧ target = words.target w ∧
      expected = words.expected w
  | .claimVerify w target expected actual =>
    w < P.numWords ∧ ClaimingAt P t words n c s w ∧ target = words.target w ∧
      expected = words.expected w ∧ actual = s.cells target ∧
      ¬ Passes words (P.marker t n) c w
  | .changeStage current desired next => current = .claiming ∧
    ((desired = .setting ∧ next = .set ∧ ClaimingAt P t words n c s P.numWords) ∨
      ∃ w < P.numWords, desired = .reverting ∧ next = .revert w ∧ ClaimingAt P t words n c s w ∧
        ¬ Passes words (P.marker t n) c w)
  | .setLoadTarget w => w < P.numWords ∧ SettingAt P t words n c s w
  | .setLoadDesired w target =>
    w < P.numWords ∧ SettingAt P t words n c s w ∧ target = words.target w
  | .setExchange w target desired =>
    w < P.numWords ∧ SettingAt P t words n c s w ∧ target = words.target w ∧
      desired = words.desired w
  | .setVerify w => w < P.numWords ∧ SettingAt P t words n c s (w + 1)
  | .revertLoadTarget w next =>
    w < P.numWords ∧ RevertingAt P t words n c s (w + 1) ∧
      next = .prepare (.error .valueWasNotExpectedValue)
  | .revertLoadExpected w target next =>
    w < P.numWords ∧ RevertingAt P t words n c s (w + 1) ∧
      next = .prepare (.error .valueWasNotExpectedValue) ∧ target = words.target w
  | .revertExchange w target expected next =>
    w < P.numWords ∧ RevertingAt P t words n c s (w + 1) ∧
      next = .prepare (.error .valueWasNotExpectedValue) ∧ target = words.target w ∧
      expected = words.expected w
  | .prepare result => CallOutcome words (P.marker t n) c result s.cells
  | .finished result => CallOutcome words (P.marker t n) c result s.cells ∧
    s.state.stageAndSequenceNumbers t =
      P.stageWord .inactive (nextSequence P.usizeBits P.numThreads n)
  | .claimHelp .. | .returned _ | .panicked => False

end Positions

/-- What holds of the activation of a call that runs alone from `s₀`. -/
def AloneOk (P : Params) (t : ℕ) (words : KCasWords P.numWords) (s₀ s : Shared) :
    Frame P.numWords → Prop
  | .initializing threadId threadIndex words' pc =>
    threadId = t + 1 ∧ threadIndex = t ∧ words' = words ∧ s.cells = s₀.cells ∧
      s.state.stageAndSequenceNumbers = s₀.state.stageAndSequenceNumbers ∧ InitOk P s t words pc
  | .helpThread _ => False
  | .operating role op pc =>
    role = .originator ∧ op = P.operation t (s₀.sequenceOf P t) ∧
      AloneAt P t words (s₀.sequenceOf P t) s₀.cells s pc

/-- Positions up to the exchange that a claim of all words leads to. -/
def Pc.Claims : Pc → Prop
  | .claimLoadTarget _ | .claimLoadExpected .. | .claimExchange .. | .claimVerify .. |
    .changeStage .claiming .setting .set => True
  | _ => False

/-- The activation has not come further than that. -/
def Frame.Claims {numWords : ℕ} : Frame numWords → Prop
  | .initializing .. => True
  | .helpThread _ => False
  | .operating _ _ pc => pc.Claims

/-- A bound for the accesses up to the return. -/
def Frame.toGo {numWords : ℕ} (frame : Frame numWords) : ℕ :=
  frame.unpublished * (14 * numWords + 5) + frame.remaining numWords

/-- One access of a call that runs alone: it comes closer to its return, unless
its weak exchange fails without a reason. -/
structure Advances (P : Params) (t : ℕ) (words : KCasWords P.numWords) (s₀ : Shared)
    (spurious : Bool) (frame frame' : Frame P.numWords) (outcome : Outcome P.numWords) : Prop where
  frames : outcome.frames = [frame']
  ok : AloneOk P t words s₀ outcome.shared frame'
  row : OnlyRow t s₀ outcome.shared
  inside : outcome.event ≠ .invoked ∧ ∀ result, outcome.event ≠ .responded result
  closer : frame'.toGo < frame.toGo ∨ (spurious = true ∧ frame' = frame)

/-! ### Words and values -/

theorem sequenceOf_fits (P : Params) (s : Shared) (t : ℕ) :
    s.sequenceOf P t < 2 ^ P.stageSequenceBits := by
  rw [Shared.sequenceOf, extractSequenceFromStageAndSequence,
    sequenceMaskForStageAndSequence_eq P.three_le_usizeBits, Nat.and_two_pow_sub_one_eq_mod]
  exact Nat.mod_lt _ (Nat.two_pow_pos _)

/-- Nobody else changes the row. -/
theorem Working.verified {stage : Stage} (working : Working P t words n s stage)
    (fits : n < 2 ^ P.stageSequenceBits) :
    verifyStageAndSequenceHaveNotChanged P (s.state.stageAndSequenceNumbers t) stage n =
      .ok () := by
  simp [verifyStageAndSequenceHaveNotChanged, working.1, Params.extractStage_stageWord fits,
    Params.extractSequence_stageWord fits]

theorem Working.storeStage {stage stage' : Stage} (working : Working P t words n s stage) :
    Working P t words n (s.storeStage t (P.stageWord stage' n)) stage' :=
  ⟨by simp [Shared.storeStage], working.2⟩

variable {c : ℕ → ℕ} {op : Operation}

/-- If there is a word that `claim` does not pass, the value it finds there is a
real one. -/
def StopsAtReal (P : Params) (t : ℕ) (words : KCasWords P.numWords) (s₀ : Shared) : Prop :=
  ∀ f < P.numWords, (∀ i < f, Passes words (P.marker t (s₀.sequenceOf P t)) s₀.cells i) →
    ¬ Passes words (P.marker t (s₀.sequenceOf P t)) s₀.cells f →
    P.Legal (s₀.cells (words.target f))

/-- A word that `claim` does not pass holds what it held at the start. -/
theorem content_of_stops {m : ℕ} (stops : ¬ Passes words m c w) :
    claimLoop words m c w (words.target w) = c (words.target w) :=
  claimLoop_of_free fun i below same => stops (passes_iff.mpr (.inr (.inr ⟨i, below, same⟩)))

/-- The value that `claim` is about to look at. -/
theorem content_of_claimVerify {target expected actual : ℕ}
    (ok : AloneAt P t words n c s (.claimVerify w target expected actual)) :
    actual = c (words.target w) := by
  obtain ⟨-, claiming, rfl, -, rfl, stops⟩ := ok
  rw [claiming.2.2, content_of_stops stops]

theorem StopsAtReal.legal (real : StopsAtReal P t words s₀) {target expected actual : ℕ}
    (ok : AloneAt P t words (s₀.sequenceOf P t) s₀.cells s
      (.claimVerify w target expected actual)) : P.Legal actual := by
  rw [content_of_claimVerify ok]
  obtain ⟨inRange, claiming, -, -, -, stops⟩ := ok
  exact real w inRange claiming.2.1 stops

/-! ### How a call goes on -/

theorem aloneAt_claimFrom (claiming : ClaimingAt P t words n c s w) (atMost : w ≤ P.numWords) :
    AloneAt P t words n c s (claimFrom P .originator op w) := by
  unfold claimFrom
  split
  · rename_i more
    exact ⟨more, claiming⟩
  · obtain rfl : w = P.numWords := by omega
    exact ⟨rfl, .inl ⟨rfl, rfl, claiming⟩⟩

theorem claims_claimFrom : (claimFrom P .originator op w).Claims := by
  unfold claimFrom
  split <;> trivial

theorem aloneAt_setFrom (setting : SettingAt P t words n c s w) (atMost : w ≤ P.numWords) :
    AloneAt P t words n c s (setFrom P .originator w) := by
  unfold setFrom
  split
  · rename_i more
    exact ⟨more, setting⟩
  · obtain rfl : w = P.numWords := by omega
    obtain ⟨-, passed, cells⟩ := setting
    change CallOutcome words (P.marker t n) c (.ok ()) s.cells
    rw [cells]
    exact .succeeds passed

theorem aloneAt_revertBelow (reverting : RevertingAt P t words n c s w)
    (atMost : w ≤ P.numWords) : AloneAt P t words n c s
      (revertBelow .originator (.prepare (.error .valueWasNotExpectedValue)) w) := by
  cases w with
  | succ w => exact ⟨atMost, reverting, rfl⟩
  | zero =>
    obtain ⟨-, f, below, passed, stops, cells⟩ := reverting
    change CallOutcome words (P.marker t n) c (.error .valueWasNotExpectedValue) s.cells
    rw [show s.cells = _ from cells]
    exact .fails below passed stops

/-- The cells after the exchange of `claim` at a word that it passes. -/
theorem ClaimingAt.passes {cells : ℕ → ℕ} (claiming : ClaimingAt P t words n c s w)
    (passes : Passes words (P.marker t n) c w)
    (changed : cells = Function.update s.cells (words.target w) (P.marker t n)) :
    ClaimingAt P t words n c { s with cells := cells } (w + 1) := by
  obtain ⟨working, passed, before⟩ := claiming
  refine ⟨working, fun i below => ?_, ?_⟩
  · rcases Nat.lt_succ_iff_lt_or_eq.mp below with earlier | rfl
    · exact passed i earlier
    · exact passes
  · rw [claimLoop, ← before]
    exact changed

/-- The cells after the exchange of `set`. -/
theorem SettingAt.next {cells : ℕ → ℕ} (setting : SettingAt P t words n c s w)
    (changed : cells = unmark (P.marker t n) s.cells (words.target w) (words.desired w)) :
    SettingAt P t words n c { s with cells := cells } (w + 1) := by
  refine ⟨setting.1, setting.2.1, ?_⟩
  rw [setLoop, ← setting.2.2]
  exact changed

/-- The cells after the exchange of `revert`. -/
theorem RevertingAt.next {cells : ℕ → ℕ} (reverting : RevertingAt P t words n c s (w + 1))
    (changed : cells = unmark (P.marker t n) s.cells (words.target w) (words.expected w)) :
    RevertingAt P t words n c { s with cells := cells } w := by
  obtain ⟨working, f, below, passed, stops, before⟩ := reverting
  refine ⟨working, f, below, passed, stops, ?_⟩
  rw [← before, revertLoop, ← changed]

/-! ### One access -/

theorem toGo_operating {numWords : ℕ} {role : Role} :
    (Frame.operating role op pc : Frame numWords).toGo = pc.remaining numWords := by
  simp [Frame.toGo, Frame.unpublished, Frame.remaining]

/-- An access of an operation that leaves it at another position. -/
theorem advances_to {s' : Shared} {event : Event} {pc' : Pc}
    (ok : AloneAt P t words (s₀.sequenceOf P t) s₀.cells s' pc') (row : OnlyRow t s₀ s')
    (inside : event ≠ .invoked ∧ ∀ result, event ≠ .responded result)
    (closer : pc'.remaining P.numWords < pc.remaining P.numWords) :
    Advances P t words s₀ spurious
      (.operating .originator (P.operation t (s₀.sequenceOf P t)) pc)
      (.operating .originator (P.operation t (s₀.sequenceOf P t)) pc')
      ⟨event, s', [.operating .originator (P.operation t (s₀.sequenceOf P t)) pc']⟩ := by
  refine ⟨rfl, ⟨rfl, rfl, ok⟩, row, inside, .inl ?_⟩
  simpa only [toGo_operating] using closer

theorem silent_inside : Event.silent ≠ .invoked ∧ ∀ result, Event.silent ≠ .responded result :=
  ⟨by simp, by simp⟩

/-- `claim` goes on to the next word after its exchange. -/
theorem remaining_claimFrom_succ (inRange : w < P.numWords) (target expected : ℕ) :
    (claimFrom P .originator op (w + 1)).remaining P.numWords <
      (Pc.claimExchange w target expected).remaining P.numWords := by
  apply remaining_claimFrom.trans_lt
  simp only [Pc.remaining]
  omega

/-- The next access of an operation of thread index `t` that runs alone leads it on. -/
def LeadsOn (P : Params) (t : ℕ) (words : KCasWords P.numWords) (s₀ s : Shared) (spurious : Bool)
    (pc : Pc) : Prop :=
  ∃ outcome pc',
    operate P s spurious .originator (P.operation t (s₀.sequenceOf P t)) pc = some outcome ∧
      Advances P t words s₀ spurious
        (.operating .originator (P.operation t (s₀.sequenceOf P t)) pc)
        (.operating .originator (P.operation t (s₀.sequenceOf P t)) pc') outcome

/-- It leads it on inside `claim`, or to the exchange after a claim of all words. -/
def ClaimsOn (P : Params) (t : ℕ) (words : KCasWords P.numWords) (s₀ s : Shared) (spurious : Bool)
    (pc : Pc) : Prop :=
  ∃ outcome pc',
    operate P s spurious .originator (P.operation t (s₀.sequenceOf P t)) pc = some outcome ∧
      Advances P t words s₀ spurious
        (.operating .originator (P.operation t (s₀.sequenceOf P t)) pc)
        (.operating .originator (P.operation t (s₀.sequenceOf P t)) pc') outcome ∧ pc'.Claims

theorem ClaimsOn.leadsOn (claims : ClaimsOn P t words s₀ s spurious pc) :
    LeadsOn P t words s₀ s spurious pc := by
  obtain ⟨outcome, pc', ran, advances, -⟩ := claims
  exact ⟨outcome, pc', ran, advances⟩

theorem claimsOn_of_claimLoadTarget (within : t < P.numThreads) (only : OnlyRow t s₀ s)
    (ok : AloneAt P t words (s₀.sequenceOf P t) s₀.cells s (.claimLoadTarget w)) :
    ClaimsOn P t words s₀ s spurious (.claimLoadTarget w) := by
  unfold ClaimsOn
  obtain ⟨inRange, claiming⟩ := ok
  have row := claiming.1.2 w inRange
  simp only [operate, Params.operation_threadIndex, within, inRange, and_self, ↓reduceIte, row.1,
    words.target_ne_zero inRange]
  refine ⟨_, .claimLoadExpected w (words.target w), rfl,
    advances_to ⟨inRange, claiming, rfl⟩ only silent_inside ?_, trivial⟩
  simp only [Pc.remaining]
  omega

theorem claimsOn_of_claimLoadExpected (within : t < P.numThreads) (only : OnlyRow t s₀ s)
    {target : ℕ}
    (ok : AloneAt P t words (s₀.sequenceOf P t) s₀.cells s (.claimLoadExpected w target)) :
    ClaimsOn P t words s₀ s spurious (.claimLoadExpected w target) := by
  unfold ClaimsOn
  obtain ⟨inRange, claiming, same⟩ := ok
  have row := claiming.1.2 w inRange
  simp only [operate, Params.operation_threadIndex, within, inRange, and_self, ↓reduceIte,
    row.2.1]
  refine ⟨_, .claimExchange w target (words.expected w), rfl,
    advances_to ⟨inRange, claiming, same, rfl⟩ only silent_inside ?_, trivial⟩
  simp only [Pc.remaining]
  omega

/-- The exchange of `claim`: it passes the word, is repeated, or finds another value. -/
theorem claimsOn_of_claimExchange (only : OnlyRow t s₀ s) {target expected : ℕ}
    (ok : AloneAt P t words (s₀.sequenceOf P t) s₀.cells s (.claimExchange w target expected)) :
    ClaimsOn P t words s₀ s spurious (.claimExchange w target expected) := by
  unfold ClaimsOn
  obtain ⟨inRange, claiming, rfl, rfl⟩ := ok
  have onward : (claimFrom P .originator (P.operation t (s₀.sequenceOf P t)) (w + 1)).remaining
        P.numWords <
      (Pc.claimExchange w (words.target w) (words.expected w)).remaining P.numWords :=
    remaining_claimFrom_succ inRange _ _
  have found : s.cells (words.target w) =
      claimLoop words (P.marker t (s₀.sequenceOf P t)) s₀.cells w (words.target w) :=
    congrFun claiming.2.2 _
  simp only [operate, Params.operation_threadAndSequence]
  by_cases matching : s.cells (words.target w) = words.expected w
  · have passes : Passes words (P.marker t (s₀.sequenceOf P t)) s₀.cells w :=
      .inl (found.symm.trans matching)
    cases spurious with
    | true =>
      simp only [Shared.exchangeCellWeak, matching, ↓reduceIte]
      exact ⟨_, .claimExchange w (words.target w) (words.expected w), rfl,
        ⟨rfl, ⟨rfl, rfl, inRange, claiming, rfl, rfl⟩, only, ⟨by simp, by simp⟩, .inr ⟨rfl, rfl⟩⟩,
        trivial⟩
    | false =>
      simp only [Shared.exchangeCellWeak, Shared.exchangeCell, matching, ↓reduceIte,
        Bool.false_eq_true]
      exact ⟨_, _, rfl, advances_to (aloneAt_claimFrom (claiming.passes passes rfl) inRange)
        (only.setCell _ _) ⟨by simp, by simp⟩ onward, claims_claimFrom⟩
  · have failed : s.exchangeCellWeak spurious (words.target w) (words.expected w)
        (P.marker t (s₀.sequenceOf P t)) = (.error (s.cells (words.target w)), s) := by
      cases spurious <;> simp [Shared.exchangeCellWeak, Shared.exchangeCell, matching]
    simp only [failed, matching, ↓reduceIte]
    by_cases mine : s.cells (words.target w) = P.marker t (s₀.sequenceOf P t)
    · simp only [mine, ↓reduceIte]
      have passes : Passes words (P.marker t (s₀.sequenceOf P t)) s₀.cells w :=
        .inr (found.symm.trans mine)
      have unchanged : s.cells = Function.update s.cells (words.target w)
          (P.marker t (s₀.sequenceOf P t)) := by
        rw [← mine, Function.update_eq_self]
      exact ⟨_, _, rfl, advances_to (aloneAt_claimFrom (claiming.passes passes unchanged) inRange)
        only ⟨by simp, by simp⟩ onward, claims_claimFrom⟩
    · simp only [mine, ↓reduceIte]
      have stops : ¬ Passes words (P.marker t (s₀.sequenceOf P t)) s₀.cells w := by
        rintro (held | held)
        · exact matching (found.trans held)
        · exact mine (found.trans held)
      refine ⟨_, .claimVerify w (words.target w) (words.expected w) (s.cells (words.target w)), rfl,
        advances_to ⟨inRange, claiming, rfl, rfl, rfl, stops⟩ only ⟨by simp, by simp⟩ ?_, trivial⟩
      simp only [Pc.remaining]
      omega

/-- The stage exchange after `claim`: nobody else moves the row. -/
theorem leadsOn_of_changeStage (within : t < P.numThreads) (only : OnlyRow t s₀ s)
    {current desired : Stage} {next : StageNext}
    (ok : AloneAt P t words (s₀.sequenceOf P t) s₀.cells s (.changeStage current desired next))
    (spurious : Bool) : LeadsOn P t words s₀ s spurious (.changeStage current desired next) := by
  unfold LeadsOn
  obtain ⟨rfl, ⟨rfl, rfl, claiming⟩ | ⟨w, inRange, rfl, rfl, claiming, stops⟩⟩ := ok
  · have word : s.state.stageAndSequenceNumbers t =
        constructStageAndSequence P.usizeBits .claiming (s₀.sequenceOf P t) := claiming.1.1
    simp only [operate, Params.operation_threadIndex, Params.operation_sequence, within,
      ↓reduceIte, Shared.exchangeStage, word]
    refine ⟨_, _, rfl, advances_to (aloneAt_setFrom ?_ (Nat.zero_le _)) (only.storeStage _)
      ⟨by simp, by simp⟩ ?_⟩
    · exact ⟨claiming.1.storeStage, claiming.2.1, claiming.2.2⟩
    · apply remaining_setFrom.trans_lt
      simp only [Pc.remaining, Stage.remaining]
      omega
  · have word : s.state.stageAndSequenceNumbers t =
        constructStageAndSequence P.usizeBits .claiming (s₀.sequenceOf P t) := claiming.1.1
    simp only [operate, Params.operation_threadIndex, Params.operation_sequence, within,
      ↓reduceIte, Shared.exchangeStage, word]
    refine ⟨_, .revertLoadTarget w (.prepare (.error .valueWasNotExpectedValue)), rfl,
      advances_to ⟨inRange, ?_, rfl⟩ (only.storeStage _) ⟨by simp, by simp⟩ ?_⟩
    · refine ⟨claiming.1.storeStage, w, inRange, claiming.2.1, stops, ?_⟩
      rw [← claiming.2.2]
      rfl
    · simp only [Pc.remaining, RevertNext.remaining, Stage.remaining]
      omega

/-- Every access of an operation that runs alone leads it on. -/
theorem leadsOn_of_operate (within : t < P.numThreads) (real : StopsAtReal P t words s₀)
    (only : OnlyRow t s₀ s) (ok : AloneAt P t words (s₀.sequenceOf P t) s₀.cells s pc)
    (unfinished : ∀ result, pc ≠ .finished result) (spurious : Bool) :
    LeadsOn P t words s₀ s spurious pc := by
  have fits := sequenceOf_fits P s₀ t
  unfold LeadsOn
  cases pc with
  | claimLoadTarget => exact (claimsOn_of_claimLoadTarget within only ok).leadsOn
  | claimLoadExpected => exact (claimsOn_of_claimLoadExpected within only ok).leadsOn
  | claimExchange => exact (claimsOn_of_claimExchange only ok).leadsOn
  | claimVerify w target expected actual =>
    have top := real.legal ok
    simp only [Params.Legal] at top
    obtain ⟨inRange, claiming, rfl, rfl, rfl, stops⟩ := ok
    simp only [operate, Params.operation_threadIndex, Params.operation_sequence, within,
      ↓reduceIte, claiming.1.verified fits, claimClassify, top]
    refine ⟨_, .changeStage .claiming .reverting (.revert w), rfl,
      advances_to ⟨rfl, .inr ⟨w, inRange, rfl, rfl, claiming, stops⟩⟩ only silent_inside ?_⟩
    simp only [Pc.remaining]
    omega
  | changeStage => exact leadsOn_of_changeStage within only ok spurious
  | setLoadTarget w =>
    obtain ⟨inRange, setting⟩ := ok
    have row := setting.1.2 w inRange
    simp only [operate, Params.operation_threadIndex, within, inRange, and_self, ↓reduceIte, row.1,
      words.target_ne_zero inRange]
    refine ⟨_, _, rfl, advances_to ⟨inRange, setting, rfl⟩ only silent_inside ?_⟩
    simp only [Pc.remaining]
    omega
  | setLoadDesired w target =>
    obtain ⟨inRange, setting, same⟩ := ok
    have row := setting.1.2 w inRange
    simp only [operate, Params.operation_threadIndex, within, inRange, and_self, ↓reduceIte,
      row.2.2]
    refine ⟨_, _, rfl, advances_to ⟨inRange, setting, same, rfl⟩ only silent_inside ?_⟩
    simp only [Pc.remaining]
    omega
  | setExchange w target desired =>
    obtain ⟨inRange, setting, rfl, rfl⟩ := ok
    simp only [operate, Params.operation_threadAndSequence, Shared.exchangeCell]
    by_cases mine : s.cells (words.target w) = P.marker t (s₀.sequenceOf P t)
    · simp only [mine, ↓reduceIte]
      refine ⟨_, _, rfl, advances_to (aloneAt_setFrom (setting.next ?_) inRange)
        (only.setCell _ _) ⟨by simp, by simp⟩ ?_⟩
      · rw [unmark, if_pos mine]
      · apply remaining_setFrom.trans_lt
        simp only [Pc.remaining]
        omega
    · simp only [mine, ↓reduceIte]
      have next : SettingAt P t words (s₀.sequenceOf P t) s₀.cells s (w + 1) :=
        setting.next (by rw [unmark, if_neg mine])
      refine ⟨_, _, rfl, advances_to ⟨inRange, next⟩ only ⟨by simp, by simp⟩ ?_⟩
      simp only [Pc.remaining]
      omega
  | setVerify w =>
    obtain ⟨inRange, setting⟩ := ok
    simp only [operate, Params.operation_threadIndex, Params.operation_sequence, within,
      ↓reduceIte, setting.1.verified fits]
    refine ⟨_, _, rfl, advances_to (aloneAt_setFrom setting inRange) only silent_inside ?_⟩
    apply remaining_setFrom.trans_lt
    simp only [Pc.remaining]
    omega
  | revertLoadTarget w next =>
    obtain ⟨inRange, reverting, same⟩ := ok
    have row := reverting.1.2 w inRange
    simp only [operate, Params.operation_threadIndex, within, inRange, and_self, ↓reduceIte, row.1,
      words.target_ne_zero inRange]
    refine ⟨_, _, rfl, advances_to ⟨inRange, reverting, same, rfl⟩ only silent_inside ?_⟩
    simp only [Pc.remaining]
    omega
  | revertLoadExpected w target next =>
    obtain ⟨inRange, reverting, same, address⟩ := ok
    have row := reverting.1.2 w inRange
    simp only [operate, Params.operation_threadIndex, within, inRange, and_self, ↓reduceIte,
      row.2.1]
    refine ⟨_, _, rfl, advances_to ⟨inRange, reverting, same, address, rfl⟩ only silent_inside ?_⟩
    simp only [Pc.remaining]
    omega
  | revertExchange w target expected next =>
    obtain ⟨inRange, reverting, rfl, rfl, rfl⟩ := ok
    have onward : (revertBelow .originator (.prepare (.error .valueWasNotExpectedValue))
        w).remaining P.numWords < (Pc.revertExchange w (words.target w) (words.expected w)
          (.prepare (.error .valueWasNotExpectedValue))).remaining P.numWords := by
      cases w <;> simp only [revertBelow, revertAndTransition, afterRevertOk, Pc.remaining,
        RevertNext.remaining] <;> omega
    simp only [operate, Params.operation_threadAndSequence, Shared.exchangeCell]
    by_cases mine : s.cells (words.target w) = P.marker t (s₀.sequenceOf P t)
    · simp only [mine, ↓reduceIte]
      refine ⟨_, _, rfl, advances_to (aloneAt_revertBelow (reverting.next ?_)
        (Nat.le_of_lt inRange)) (only.setCell _ _) ⟨by simp, by simp⟩ onward⟩
      rw [unmark, if_pos mine]
    · simp only [mine, ↓reduceIte]
      have next : RevertingAt P t words (s₀.sequenceOf P t) s₀.cells s w :=
        reverting.next (by rw [unmark, if_neg mine])
      exact ⟨_, _, rfl, advances_to (aloneAt_revertBelow next (Nat.le_of_lt inRange)) only
        ⟨by simp, by simp⟩ onward⟩
  | prepare result =>
    simp only [operate, Params.operation_threadIndex, Params.operation_sequence,
      prepareForNextOperation_nextSequence, within, ↓reduceIte]
    refine ⟨_, _, rfl, advances_to ⟨ok, ?_⟩ (only.storeStage _) ⟨by simp, by simp⟩ ?_⟩
    · simp [Shared.storeStage, Params.stageWord]
    · simp only [Pc.remaining]
      omega
  | finished result => exact absurd rfl (unfinished result)
  | claimHelp | returned | panicked => exact ok.elim

theorem remaining_of_initMoves {s' : Shared} {pc pc' : InitPc} {event : Event}
    (moves : InitMoves P s t words pc event s' [.initializing (t + 1) t words pc']) :
    pc'.remaining P.numWords < pc.remaining P.numWords := by
  generalize shape : [Frame.initializing (t + 1) t words pc'] = frames at moves
  cases moves with
  | storeDesired inRange =>
    obtain rfl : pc' = _ := by simpa using shape
    split <;> simp only [InitPc.remaining] <;> omega
  | storeStage => simp at shape
  | _ =>
    obtain rfl : pc' = _ := by simpa using shape
    simp only [InitPc.remaining]
    omega

/-- Every access of `initialize_operation` leads the call on, up to `claim`. -/
theorem advances_of_initializeOperation (within : t < P.numThreads) {pc : InitPc}
    (only : OnlyRow t s₀ s)
    (ok : AloneOk P t words s₀ s (.initializing (t + 1) t words pc)) (spurious : Bool) :
    ∃ frame', Advances P t words s₀ spurious (.initializing (t + 1) t words pc) frame'
      (initializeOperation P s (t + 1) t words pc) ∧ frame'.Claims := by
  obtain ⟨-, -, -, cells, words', position⟩ := ok
  have moves : Moves P s (.initializing (t + 1) t words pc) _ _ _ :=
    moves_of_initializeOperation within position.fits
  generalize initializeOperation P s (t + 1) t words pc = outcome at moves ⊢
  obtain ⟨event, s', frames⟩ := outcome
  simp only at moves
  cases moves with
  | init moves =>
    have row := only.initMoves moves
    have inside : event ≠ .invoked ∧ ∀ result, event ≠ .responded result := by
      cases moves <;> simp
    rcases initOk_of_initMoves position moves with ⟨pc', rfl, position', stages⟩ | ⟨n, rfl⟩
    · refine ⟨_, ⟨rfl, ⟨rfl, rfl, rfl, moves.cell.trans cells, stages.trans words', position'⟩, row,
        inside, .inl ?_⟩, trivial⟩
      exact Nat.add_lt_add_left (remaining_of_initMoves moves) _
    · cases moves
      obtain ⟨rfl, stored⟩ := position
      have sequence : s.sequenceOf P t = s₀.sequenceOf P t :=
        Shared.sequenceOf_congr (congrFun words' t)
      rw [sequence] at row ⊢
      refine ⟨_, ⟨rfl, ⟨rfl, rfl, aloneAt_claimFrom ?_ (Nat.zero_le _)⟩, row, ⟨by simp, by simp⟩,
        .inl ?_⟩, claims_claimFrom⟩
      · exact ⟨⟨by simp [Shared.storeStage], stored⟩,
          fun i below => absurd below (Nat.not_lt_zero i), cells⟩
      · rw [toGo_operating]
        apply remaining_claimFrom.trans_lt
        simp only [Frame.toGo, Frame.unpublished, Frame.remaining, InitPc.remaining,
          Stage.remaining]
        omega

theorem Advances.append_nil {frame' : Frame P.numWords} {outcome : Outcome P.numWords}
    (advances : Advances P t words s₀ spurious frame frame' outcome) :
    Advances P t words s₀ spurious frame frame' { outcome with frames := outcome.frames ++ [] } :=
  ⟨by simpa using advances.frames, advances.ok, advances.row, advances.inside, advances.closer⟩

theorem stackStep_of_operate {outcome : Outcome P.numWords}
    (going : ∀ result, pc ≠ .finished result)
    (ran : operate P s spurious .originator op pc = some outcome) :
    stackStep P s spurious [.operating .originator op pc] =
      some { outcome with frames := outcome.frames ++ [] } := by
  cases pc with
  | finished result => exact absurd rfl (going result)
  | _ => simp [stackStep, frameStep, ran]

/-- Every access of a call that runs alone leads it on to its return. -/
theorem advances_of_stackStep (within : t < P.numThreads) (real : StopsAtReal P t words s₀)
    (only : OnlyRow t s₀ s) (ok : AloneOk P t words s₀ s frame)
    (unfinished : ∀ op result, frame ≠ .operating .originator op (.finished result))
    (spurious : Bool) :
    ∃ outcome frame', stackStep P s spurious [frame] = some outcome ∧
      Advances P t words s₀ spurious frame frame' outcome := by
  cases frame with
  | initializing threadId threadIndex words' pc =>
    obtain ⟨rfl, rfl, rfl, -⟩ := id ok
    obtain ⟨frame', advances, -⟩ := advances_of_initializeOperation within only ok spurious
    exact ⟨_, frame', rfl, advances.append_nil⟩
  | helpThread => exact ok.elim
  | operating role op pc =>
    obtain ⟨rfl, rfl, position⟩ := ok
    have going (result : Except Error Unit) : pc ≠ .finished result := by
      rintro rfl
      exact unfinished _ _ rfl
    obtain ⟨outcome, pc', ran, advances⟩ :=
      leadsOn_of_operate within real only position going spurious
    exact ⟨_, _, stackStep_of_operate going ran, advances.append_nil⟩

/-! ### Runs -/

variable {load : Workload P.numWords} {σ₀ σ : Config P.numWords}
  {x y : Transition (Config P.numWords) Actor Event}

/-- Since `σ₀` only thread index `t` has moved, inside the call that it entered
there. -/
structure InCall (P : Params) (load : Workload P.numWords) (σ₀ σ : Config P.numWords) (t : ℕ)
    (frame : Frame P.numWords) : Prop where
  ok : AloneOk P t (load.call t (σ₀.threads t).completed) σ₀.shared σ.shared frame
  row : OnlyRow t σ₀.shared σ.shared
  threads : σ.threads = Function.update σ₀.threads t ⟨(σ₀.threads t).completed, [frame]⟩

/-- What the call that was entered at `σ₀` has done when it returned. -/
structure Returned (P : Params) (load : Workload P.numWords) (σ₀ σ : Config P.numWords) (t : ℕ)
    (result : Except Error Unit) : Prop where
  outcome : CallOutcome (load.call t (σ₀.threads t).completed)
    (P.marker t (σ₀.shared.sequenceOf P t)) σ₀.shared.cells result σ.shared.cells
  row : OnlyRow t σ₀.shared σ.shared
  word : σ.shared.state.stageAndSequenceNumbers t = P.stageWord .inactive
    (nextSequence P.usizeBits P.numThreads (σ₀.shared.sequenceOf P t))
  threads : σ.threads = Function.update σ₀.threads t ⟨(σ₀.threads t).completed + 1, []⟩

/-- The cells that a call can meet hold real values. -/
def LegalTargets (P : Params) (load : Workload P.numWords) (σ₀ : Config P.numWords) (t : ℕ) :
    Prop :=
  ∀ w < P.numWords,
    P.Legal (σ₀.shared.cells ((load.call t (σ₀.threads t).completed).target w))

theorem LegalTargets.stopsAtReal (legal : LegalTargets P load σ₀ t) :
    StopsAtReal P t (load.call t (σ₀.threads t).completed) σ₀.shared :=
  fun f below _ _ => legal f below

/-- A thread without a call enters its next one, if there is one. -/
theorem enters (within : t < P.numThreads) (idle : (σ.threads t).stack = [])
    (more : (σ.threads t).completed < load.count t) (spurious : Bool) :
    ∃ σ' frame, step P load σ ⟨t, spurious⟩ = some (.invoked, σ') ∧
      InCall P load σ σ' t frame ∧ frame.Claims := by
  have stepped : step P load σ ⟨t, spurious⟩ = some (.invoked, { σ with
      threads := Function.update σ.threads t ⟨(σ.threads t).completed,
        [.initializing (t + 1) t (load.call t (σ.threads t).completed)
          (if 0 < P.numWords then .storeTarget 0 else .loadStage)]⟩ }) := by
    simp [step, within, idle, more, kcas, convertThreadIdToThreadIndex,
      convertThreadIndexToThreadId]
  exact ⟨_, .initializing (t + 1) t (load.call t (σ.threads t).completed)
      (if 0 < P.numWords then .storeTarget 0 else .loadStage), stepped,
    ⟨⟨rfl, rfl, rfl, rfl, rfl, initOk_start⟩, .refl t σ.shared, rfl⟩, trivial⟩

theorem step_of_stackStep {stack : List (Frame P.numWords)} {outcome : Outcome P.numWords}
    (within : t < P.numThreads) (thread : σ.threads t = ⟨n, frame :: stack⟩)
    (ran : stackStep P σ.shared spurious (frame :: stack) = some outcome) :
    step P load σ ⟨t, spurious⟩ = some (outcome.event,
      { shared := outcome.shared
        threads := Function.update σ.threads t
          ⟨if outcome.frames.isEmpty then n + 1 else n, outcome.frames⟩ }) := by
  simp [step, within, thread, ran]

/-- A thread inside a call moves on, or returns. -/
theorem InCall.step (inside : InCall P load σ₀ σ t frame) (within : t < P.numThreads)
    (real : StopsAtReal P t (load.call t (σ₀.threads t).completed) σ₀.shared) (spurious : Bool) :
    ∃ event σ', step P load σ ⟨t, spurious⟩ = some (event, σ') ∧
      ((event ≠ .invoked ∧ (∀ result, event ≠ .responded result) ∧
        ∃ frame', InCall P load σ₀ σ' t frame' ∧
          (frame'.toGo < frame.toGo ∨ (spurious = true ∧ frame' = frame))) ∨
      ∃ result, event = .responded result ∧ Returned P load σ₀ σ' t result) := by
  obtain ⟨ok, row, threads⟩ := inside
  have thread : σ.threads t = ⟨(σ₀.threads t).completed, [frame]⟩ := by
    rw [threads, Function.update_self]
  by_cases finished : ∃ op result, frame = .operating .originator op (.finished result)
  · obtain ⟨op, result, rfl⟩ := finished
    obtain ⟨-, -, outcome, word⟩ := ok
    have ran : stackStep P σ.shared spurious [.operating .originator op (.finished result)] =
        some ⟨.responded result, σ.shared, []⟩ := rfl
    refine ⟨_, _, step_of_stackStep within thread ran, .inr ⟨result, rfl, outcome, row, word, ?_⟩⟩
    simp [threads]
  · obtain ⟨outcome, frame', ran, advances⟩ := advances_of_stackStep within real row ok
      (fun op result same => finished ⟨op, result, same⟩) spurious
    refine ⟨_, _, step_of_stackStep within thread ran, .inl ⟨advances.inside.1, advances.inside.2,
      frame', ⟨advances.ok, advances.row, ?_⟩, advances.closer⟩⟩
    simp [threads, advances.frames]

/-- From `σ` the thread, moving alone, comes to the return of its call number `n`. Its
weak exchanges fail without a reason where the schedule says so, from position `i` on. -/
def ReturnsAlong (P : Params) (load : Workload P.numWords) (σ : Config P.numWords) (t n : ℕ)
    (spurious : ℕ → Bool) (i : ℕ) : Prop :=
  ∃ count σ', ∃ (front : Trace P) (y : Transition (Config P.numWords) Actor Event),
    Run (step P load) σ (front ++ [y]) σ' ∧
      (front ++ [y]).map (·.actor) = (List.range' i count).map (fun i => ⟨t, spurious i⟩) ∧
      (∃ result, Responds P y t n result) ∧ ∀ x ∈ front, ¬ ∃ result, Responds P x t n result

/-- A thread whose steps lead it on inside its call, closer to a return unless an
exchange fails without a reason, returns if these are finitely many. -/
theorem returnsAlong_of_measure {inside : Config P.numWords → Prop}
    (measure : Config P.numWords → ℕ)
    (advance : ∀ σ, inside σ → ∀ spurious, ∃ event σ',
      step P load σ ⟨t, spurious⟩ = some (event, σ') ∧
        ((∃ result, Responds P ⟨σ, ⟨t, spurious⟩, event, σ'⟩ t n result) ∨
          (inside σ' ∧ (measure σ' < measure σ ∨ (spurious = true ∧ measure σ' = measure σ)))))
    {spurious : ℕ → Bool} {last : ℕ} (finitely : ∀ i, last ≤ i → spurious i = false)
    (held : inside σ) (i : ℕ) : ReturnsAlong P load σ t n spurious i := by
  refine exists_run_along Nat.lt_wfRel.wf (fun i => (⟨t, spurious i⟩ : Actor))
    (fun i σ => measure σ + (last - i)) inside ?_ i held
  intro i σ held
  obtain ⟨event, σ', stepped, responds | ⟨held', closer⟩⟩ := advance σ held (spurious i)
  · exact ⟨event, σ', stepped, .inl responds⟩
  · refine ⟨event, σ', stepped, .inr ⟨held', ?_⟩⟩
    change measure σ' + (last - (i + 1)) < measure σ + (last - i)
    rcases closer with closer | ⟨failed, same⟩
    · omega
    · -- the exchange failed without a reason, and that can still happen
      have early : i < last := by
        by_contra late
        simp [finitely i (Nat.le_of_not_lt late)] at failed
      omega

/-- The accesses up to the return of the running call. -/
def callToGo (σ : Config P.numWords) (t : ℕ) : ℕ :=
  ((σ.threads t).stack.head?.map Frame.toGo).getD 0

theorem InCall.callToGo_eq (inside : InCall P load σ₀ σ t frame) :
    callToGo σ t = frame.toGo := by
  simp [callToGo, inside.threads]

theorem InCall.advance (inside : InCall P load σ₀ σ t frame) (within : t < P.numThreads)
    (real : StopsAtReal P t (load.call t (σ₀.threads t).completed) σ₀.shared) (spurious : Bool) :
    ∃ event σ', KCas.step P load σ ⟨t, spurious⟩ = some (event, σ') ∧
      ((∃ result, Responds P ⟨σ, ⟨t, spurious⟩, event, σ'⟩ t (σ₀.threads t).completed result) ∨
        ((∃ frame', InCall P load σ₀ σ' t frame') ∧ (callToGo σ' t < callToGo σ t ∨
          (spurious = true ∧ callToGo σ' t = callToGo σ t)))) := by
  obtain ⟨event, σ', stepped, ⟨-, -, frame', inside', closer⟩ | ⟨result, rfl, -⟩⟩ :=
    inside.step within real spurious
  · refine ⟨event, σ', stepped, .inr ⟨⟨frame', inside'⟩, ?_⟩⟩
    rw [inside.callToGo_eq, inside'.callToGo_eq]
    exact closer.imp_right fun failed => ⟨failed.1, congrArg Frame.toGo failed.2⟩
  · refine ⟨_, σ', stepped, .inl ⟨result, rfl, ?_, rfl⟩⟩
    simp [inside.threads]

/-- A call that runs alone returns, whatever exchanges fail without a reason, as
long as these are finitely many. -/
theorem InCall.returns (inside : InCall P load σ₀ σ t frame) (within : t < P.numThreads)
    (real : StopsAtReal P t (load.call t (σ₀.threads t).completed) σ₀.shared)
    {spurious : ℕ → Bool} {last : ℕ} (finitely : ∀ i, last ≤ i → spurious i = false) (i : ℕ) :
    ReturnsAlong P load σ t (σ₀.threads t).completed spurious i := by
  have advance (σ : Config P.numWords) (held : ∃ frame, InCall P load σ₀ σ t frame)
      (spurious : Bool) := held.choose_spec.advance within real spurious
  exact returnsAlong_of_measure (callToGo · t) advance finitely ⟨frame, inside⟩ i

end KCas
