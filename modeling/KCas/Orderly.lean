import KCas.Nesting

/-! Runs in which helpers keep in step with the calls they help. `claim` looks
at the stage only after a failed exchange, so a late one can mark a cell after
its call was decided; and a call may fail at a word although others claimed the
words above it meanwhile. Where neither happens, a marker in a cell always
belongs to a call in progress that is not yet done with it. -/
namespace KCas

open Labelled

variable {P : Params} {load : Workload P.numWords} {cells : ℕ → ℕ} {s s' : Shared}
  {σ : Config P.numWords} {h t n w target expected desired completed address : ℕ} {role : Role}
  {pc : Pc} {event : Event} {frames : List (Frame P.numWords)} {trace : Trace P}
  {x : Transition (Config P.numWords) Actor Event}

/-- The call that a claim exchange succeeds for. -/
def Event.claimedFor : Event → Option Operation
  | .exchangeCell .claim op _ _ _ _ (.ok _) => some op
  | _ => none

/-- The call that moves to Reverting, and the word at which it fails. -/
def Event.failedAt : Event → Option (Operation × ℕ)
  | .exchangeStage _ op .claiming .reverting (.revert w) (.ok _) => some (op, w)
  | _ => none

/-- A claim exchange succeeds only while the row is at Claiming with the
sequence of the call it is made for. -/
def ClaimsInTime (P : Params) (x : Transition (Config P.numWords) Actor Event) : Prop :=
  ∀ op ∈ x.event.claimedFor,
    x.before.shared.state.stageAndSequenceNumbers op.threadIndex = P.stageWord .claiming op.sequence

/-- A call moves to Reverting at a word above which none of its words, as its
row has them, holds its marker. -/
def RevertsFromTop (P : Params) (x : Transition (Config P.numWords) Actor Event) : Prop :=
  ∀ failed ∈ x.event.failedAt, ∀ j < P.numWords, failed.2 < j →
    x.before.shared.cells (x.before.shared.state.targetAddresses failed.1.threadIndex j) ≠
      failed.1.threadAndSequence

/-- A step at which nobody is late. -/
def Orderly (P : Params) (x : Transition (Config P.numWords) Actor Event) : Prop :=
  ClaimsInTime P x ∧ RevertsFromTop P x

instance : Decidable (ClaimsInTime P x) :=
  inferInstanceAs (Decidable (∀ op ∈ x.event.claimedFor, _))

instance : Decidable (RevertsFromTop P x) :=
  inferInstanceAs (Decidable (∀ failed ∈ x.event.failedAt, ∀ j < P.numWords, _ → _))

instance : Decidable (Orderly P x) := inferInstanceAs (Decidable (_ ∧ _))

theorem Orderly.claiming (orderly : Orderly P x) (rules : UsageRules P load cells)
    (shared : SharedOk P load x.before.shared) (within : t < P.numThreads)
    (counted : n < load.count t) {new actual : ℕ}
    (event : x.event = .exchangeCell .claim (P.operation t n) w target expected new (.ok actual)) :
    x.before.shared.stageOf P t = .claiming ∧ x.before.shared.sequenceOf P t = n := by
  have inTime := orderly.1 (P.operation t n) (by simp [Event.claimedFor, event])
  exact (shared.word_eq_iff rules within (Nat.le_of_lt counted)).mp inTime

/-! ### The invariant -/

/-- The markers in the cells. -/
structure MarksOk (P : Params) (load : Workload P.numWords) (s : Shared) : Prop where
  /-- A marker belongs to the call its row carries, and is on a word of it. -/
  current : ∀ t < P.numThreads, ∀ n < load.count t, ∀ address, s.cells address = P.marker t n →
    s.sequenceOf P t = n ∧ s.stageOf P t ≠ .inactive ∧
      ∃ w < P.numWords, address = (load.call t n).target w
  /-- A call that is over has none. -/
  finished : ∀ t < P.numThreads, s.stageOf P t = .successful ∨ s.stageOf P t = .reverted →
    ∀ w < P.numWords, ¬ Marked P load s t (s.sequenceOf P t) w

/-- The words from which an activation has removed the markers, or found them
removed. -/
def Cleared (P : Params) (load : Workload P.numWords) (s : Shared) (t n : ℕ) : Pc → Prop
  | .setLoadTarget w | .setLoadDesired w _ | .setExchange w _ _ =>
    s.sequenceOf P t = n → ∀ i < w, ¬ Marked P load s t n i
  | .setVerify w => s.sequenceOf P t = n → ∀ i < w + 1, ¬ Marked P load s t n i
  | .revertLoadTarget w _ | .revertLoadExpected w _ _ | .revertExchange w _ _ _ =>
    s.sequenceOf P t = n → ∀ i < P.numWords, w < i → ¬ Marked P load s t n i
  | .changeStage current _ _ => current ≠ .claiming → s.sequenceOf P t = n →
    ∀ i < P.numWords, ¬ Marked P load s t n i
  | .prepare _ => s.sequenceOf P t = n → ∀ i < P.numWords, ¬ Marked P load s t n i
  | _ => True

/-- A word without a marker gets none once the call is decided. -/
theorem Reached.stays_unmarked (reached : Reached P load cells trace x)
    (rules : UsageRules P load cells) (orderly : Orderly P x)
    (call : CallOk P load x.before.shared t n)
    (decided : x.before.shared.sequenceOf P t = n → x.before.shared.stageOf P t ≠ .claiming)
    (unmarked : ¬ Marked P load x.before.shared t n w) : ¬ Marked P load x.after.shared t n w := by
  intro marked
  rcases reached.mark_found rules call.within call.counted marked with
    held | ⟨role, i, expected, works, event, -⟩
  · exact unmarked held
  · obtain ⟨claiming, current⟩ :=
      orderly.claiming rules reached.before.shared call.within call.counted event
    exact decided current claiming

theorem Cleared.kept (reached : Reached P load cells trace x) (rules : UsageRules P load cells)
    (orderly : Orderly P x) (call : CallOk P load x.before.shared t n)
    (position : PcOk P load x.before.shared role t n pc)
    (cleared : Cleared P load x.before.shared t n pc) : Cleared P load x.after.shared t n pc := by
  have current {fact : Prop} (held : x.before.shared.sequenceOf P t = n → fact) :
      x.after.shared.sequenceOf P t = n → fact := reached.evolves.whileCurrent call held
  have stays {i : ℕ}
      (decided : x.before.shared.sequenceOf P t = n → x.before.shared.stageOf P t ≠ .claiming)
      (unmarked : ¬ Marked P load x.before.shared t n i) : ¬ Marked P load x.after.shared t n i :=
    reached.stays_unmarked rules orderly call decided unmarked
  cases pc with
  | setLoadTarget =>
    exact current fun same i below =>
      stays (position.2.not_claiming (by simp)) (cleared same i below)
  | setLoadDesired =>
    exact current fun same i below =>
      stays (position.2.1.not_claiming (by simp)) (cleared same i below)
  | setExchange =>
    exact current fun same i below =>
      stays (position.2.1.not_claiming (by simp)) (cleared same i below)
  | setVerify =>
    exact current fun same i below =>
      stays (position.2.not_claiming (by simp)) (cleared same i below)
  | revertLoadTarget =>
    exact current fun same i inRange above =>
      stays position.2.not_claiming (cleared same i inRange above)
  | revertLoadExpected =>
    exact current fun same i inRange above =>
      stays position.2.1.not_claiming (cleared same i inRange above)
  | revertExchange =>
    exact current fun same i inRange above =>
      stays position.2.1.not_claiming (cleared same i inRange above)
  | changeStage stage desired next =>
    intro past
    refine current fun same i inRange => stays ?_ (cleared past same i inRange)
    rcases position with ⟨rfl, -⟩ | ⟨w, -, rfl, -⟩ | ⟨-, -, -, -, among⟩ | ⟨-, -, -, -, among⟩
    · exact absurd rfl past
    · exact absurd rfl past
    · exact among.not_claiming (by simp)
    · exact among.not_claiming (by simp)
  | prepare =>
    refine current fun same i inRange => stays ?_ (cleared same i inRange)
    rcases position.2 with ⟨-, among⟩ | ⟨-, among⟩ <;> exact among.not_claiming (by simp)
  | _ => trivial

theorem cleared_setFrom (atMost : w ≤ P.numWords)
    (below : s.sequenceOf P t = n → ∀ i < w, ¬ Marked P load s t n i) :
    Cleared P load s t n (setFrom P role w) := by
  unfold setFrom
  split
  · exact below
  · obtain rfl : w = P.numWords := by omega
    cases role with
    | originator => exact below
    | helper => exact fun _ => below

theorem cleared_claimFrom {op : Operation} : Cleared P load s t n (claimFrom P role op w) := by
  unfold claimFrom
  split
  · trivial
  · cases role <;> exact fun past => absurd rfl past

theorem cleared_revertAllWords {next : RevertNext} :
    Cleared P load s t n (revertAllWords P next) := by
  unfold revertAllWords
  split
  · trivial
  · exact fun _ i inRange above => absurd above (by omega)

theorem cleared_revertBelow {next : RevertNext} (inRange : w < P.numWords)
    (pending : NextOk P s role t n next)
    (above : s.sequenceOf P t = n → ∀ i < P.numWords, w ≤ i → ¬ Marked P load s t n i) :
    Cleared P load s t n (revertBelow role next w) := by
  cases w with
  | succ w => exact above
  | zero =>
    cases next with
    | fail error => exact pending.elim
    | helpReturn result => trivial
    | changeToReverted => exact fun _ same i inRange => above same i inRange (Nat.zero_le i)
    | prepare result => exact fun same i inRange => above same i inRange (Nat.zero_le i)

theorem cleared_of_goesOn (goes : GoesOn P s role t n pc) : Cleared P load s t n pc := by
  cases goes with
  | set => exact cleared_setFrom (Nat.zero_le _) fun _ i below => absurd below (Nat.not_lt_zero i)
  | revert => exact cleared_revertAllWords

theorem cleared_of_helpEntry (entry : HelpEntry P s t n pc) : Cleared P load s t n pc := by
  cases entry with
  | claiming => exact cleared_claimFrom
  | setting =>
    exact cleared_setFrom (Nat.zero_le _) fun _ i below => absurd below (Nat.not_lt_zero i)
  | reverting => exact cleared_revertAllWords
  | _ => trivial

theorem cleared_afterStageChanged {current desired : Stage} {next : StageNext}
    (position : PcOk P load s role t n (.changeStage current desired next))
    (above : ∀ w, next = .revert w → desired = .reverting →
      ∀ i < P.numWords, w < i → ¬ Marked P load s' t n i) :
    Cleared P load s' t n (afterStageChanged P role next) := by
  rcases position with ⟨-, -, rfl, -⟩ | ⟨w, -, -, rfl, rfl, -⟩ | ⟨-, -, -, rfl, -⟩ |
    ⟨-, -, -, rfl, -⟩
  · exact cleared_setFrom (Nat.zero_le _) fun _ i below => absurd below (Nat.not_lt_zero i)
  · cases role <;> exact fun _ => above w rfl rfl
  · trivial
  · trivial

/-- After an exchange at a word of the call, the word has no marker. -/
theorem unmarked_setCell {value : ℕ} (rules : UsageRules P load cells) (within : t < P.numThreads)
    (counted : n < load.count t) (real : P.Legal value) (own : target = (load.call t n).target w) :
    ¬ Marked P load (s.setCell target value) t n w := by
  intro marked
  rw [Marked, ← own, Shared.setCell_self] at marked
  exact rules.marker_not_legal within counted (marked ▸ real)

theorem cleared_of_moves (reached : Reached P load cells trace x) (rules : UsageRules P load cells)
    (orderly : Orderly P x) (ok : WorkOk P load x.before.shared h completed role t n pc)
    (cleared : Cleared P load x.before.shared t n pc)
    (moves : OperationMoves P x.before.shared role t n pc x.event x.after.shared frames) {pc' : Pc}
    (member : .operating role (P.operation t n) pc' ∈ frames) :
    Cleared P load x.after.shared t n pc' := by
  have call := ok.call
  have position := ok.position
  have kept : Cleared P load x.after.shared t n pc :=
    cleared.kept reached rules orderly call position
  generalize same : x.event = event at moves
  generalize same' : x.after.shared = s' at moves kept ⊢
  cases moves with
  | claimed | claimFoundOwn =>
    obtain rfl := eq_of_mem_operating member
    exact cleared_claimFrom
  | verifiedReal =>
    obtain rfl := eq_of_mem_operating member
    exact fun past => absurd rfl past
  | verifiedMarker =>
    obtain rfl : pc' = _ := by simpa using member
    trivial
  | claimDiverted diverted =>
    obtain rfl := eq_of_mem_operating member
    exact cleared_of_goesOn (goesOn_of_claimDiverted diverted)
  | @stageChanged current desired next sequence stage edge =>
    obtain rfl := eq_of_mem_operating member
    refine cleared_afterStageChanged position ?_
    rintro w rfl rfl i inRange above marked
    obtain rfl : current = .claiming := by cases edge; rfl
    have address := (reached.before.shared.words call inRange sequence).1
    apply orderly.2 (P.operation t n, w) (by simp [Event.failedAt, same]) i inRange above
    rw [Params.operation_threadIndex, address]
    exact marked
  | stageRefused diverted =>
    obtain rfl := eq_of_mem_operating member
    exact cleared_of_goesOn (goesOn_of_stageRefused position diverted)
  | setLoadTarget | setLoadDesired | revertLoadTarget | revertLoadExpected =>
    obtain rfl := eq_of_mem_operating member
    exact kept
  | @setDone w target desired found =>
    obtain rfl := eq_of_mem_operating member
    obtain ⟨inRange, -, address, real, -⟩ := position
    refine cleared_setFrom inRange fun current i below => ?_
    rcases Nat.lt_succ_iff_lt_or_eq.mp below with earlier | rfl
    · exact kept current i earlier
    · exact unmarked_setCell rules call.within call.counted real (address.2 current)
  | @setMissed w target desired missed =>
    obtain rfl := eq_of_mem_operating member
    intro current i below
    rcases Nat.lt_succ_iff_lt_or_eq.mp below with earlier | rfl
    · exact kept current i earlier
    · rw [Marked, ← position.2.2.1.2 current]
      exact missed
  | setVerified current setting =>
    obtain rfl := eq_of_mem_operating member
    exact cleared_setFrom position.1 kept
  | setDiverted diverted =>
    obtain rfl := eq_of_mem_operating member
    exact cleared_of_goesOn (goesOn_of_setDiverted position.2 diverted)
  | @reverted w target expected next found =>
    obtain rfl := eq_of_mem_operating member
    obtain ⟨inRange, pending, address, real, -⟩ := position
    refine cleared_revertBelow inRange pending fun current i inRange' above => ?_
    rcases Nat.lt_or_eq_of_le above with further | rfl
    · exact kept current i inRange' further
    · exact unmarked_setCell rules call.within call.counted real (address.2 current)
  | @revertMissed w target expected next missed =>
    obtain rfl := eq_of_mem_operating member
    obtain ⟨inRange, pending, address, -, -⟩ := position
    refine cleared_revertBelow inRange pending fun current i inRange' above => ?_
    rcases Nat.lt_or_eq_of_le above with further | rfl
    · exact kept current i inRange' further
    · rw [Marked, ← address.2 current]
      exact missed
  | prepared =>
    obtain rfl := eq_of_mem_operating member
    trivial
  | _ =>
    obtain rfl : pc' = _ := by simpa using member
    trivial

def WorkCleared (P : Params) (load : Workload P.numWords) (σ : Config P.numWords) : Prop :=
  ∀ h role t n pc, Works P σ h role t n pc → Cleared P load σ.shared t n pc

theorem workCleared_step (rules : UsageRules P load cells) (reached : Reached P load cells trace x)
    (orderly : Orderly P x) (held : WorkCleared P load x.before) : WorkCleared P load x.after := by
  refine reached.all_work ?_ ?_ ?_ ?_ ?_ held
  · intro h completed role t n pc ok cleared
    exact cleared.kept reached rules orderly ok.call ok.position
  · intro completed role t n pc pc' frames ok cleared moves member
    exact cleared_of_moves reached rules orderly ok cleared moves member
  · intro t n
    exact cleared_claimFrom
  · intro t n pc same entry
    exact cleared_of_helpEntry (same ▸ entry)
  · intro t n w target expected waiting
    trivial

/-! ### Markers -/

/-- An exchange on a cell leaves all rows alone. -/
theorem Reached.row_of_exchangeCell (reached : Reached P load cells trace x)
    (rules : UsageRules P load cells) {pass : Pass} {op : Operation} {new : ℕ}
    {result : Except ℕ ℕ} (event : x.event = .exchangeCell pass op w target expected new result)
    (t : ℕ) : x.after.shared.stageOf P t = x.before.shared.stageOf P t ∧
      x.after.shared.sequenceOf P t = x.before.shared.sequenceOf P t := by
  cases reached.rowStep rules t with
  | kept same => exact ⟨Shared.stageOf_congr same, Shared.sequenceOf_congr same⟩
  | published _ _ stored => cases event.symm.trans stored
  | exchanged _ changed => cases event.symm.trans changed
  | retired _ _ _ stored => cases event.symm.trans stored

theorem SharedOk.callOk (shared : SharedOk P load s) (within : t < P.numThreads)
    (active : s.stageOf P t ≠ .inactive) : CallOk P load s t (s.sequenceOf P t) :=
  ⟨within, (shared.row t within active).1, .inr ⟨rfl, active⟩⟩

theorem marksOk_step (rules : UsageRules P load cells) (reached : Reached P load cells trace x)
    (orderly : Orderly P x) (cleared : WorkCleared P load x.before)
    (marks : MarksOk P load x.before.shared) : MarksOk P load x.after.shared := by
  constructor
  · intro t within n counted address marked
    rcases reached.mark_found rules within counted marked with
      held | ⟨role, w, expected, works, event, -⟩
    · obtain ⟨current, active, w, inRange, own⟩ := marks.current t within n counted address held
      cases reached.rowStep rules t with
      | kept same =>
        rw [Shared.stageOf_congr same, Shared.sequenceOf_congr same]
        exact ⟨current, active, w, inRange, own⟩
      | published _ _ _ inactive => exact absurd inactive active
      | exchanged _ _ edge _ sequence stage' sequence' =>
        rw [stage', sequence', ← sequence]
        exact ⟨current, edge.target_ne_inactive, w, inRange, own⟩
      | retired works _ _ _ _ sequence =>
        -- the owner stores the next sequence only after it cleared all words
        obtain rfl := sequence.symm.trans current
        subst own
        exact absurd held (cleared _ _ _ _ _ works current w inRange)
    · obtain ⟨claiming, current⟩ :=
        orderly.claiming rules reached.before.shared within counted event
      obtain ⟨stage, sequence⟩ := reached.row_of_exchangeCell rules event t
      obtain ⟨inRange, -, own, -⟩ := (works.ok reached.before).position
      rw [stage, sequence]
      exact ⟨current, by simp [claiming], w, inRange, own.2 current⟩
  · intro t within gone w inRange
    have active : x.after.shared.stageOf P t ≠ .inactive := by
      rintro inactive
      simp [inactive] at gone
    cases reached.rowStep rules t with
    | kept same =>
      rw [Shared.stageOf_congr same] at gone active
      rw [Shared.sequenceOf_congr same]
      refine reached.stays_unmarked rules orderly (reached.before.shared.callOk within active) ?_
        (marks.finished t within gone w inRange)
      rintro - claiming
      simp [claiming] at gone
    | published _ _ _ _ _ stage' => simp [stage'] at gone
    | retired _ _ _ _ _ _ stage' => exact absurd stage' active
    | @exchanged n role current desired next works _ edge stage sequence stage' sequence' =>
      have past : current ≠ .claiming := by
        rintro rfl
        rw [stage'] at gone
        cases edge <;> simp at gone
      rw [sequence']
      refine reached.stays_unmarked rules orderly (works.ok reached.before).call ?_
        (cleared _ _ _ _ _ works past sequence w inRange)
      rintro - claiming
      exact past (stage.symm.trans claiming)

theorem marksOk_initial (rules : UsageRules P load cells) :
    MarksOk P load (Config.initial P.numWords cells).shared := by
  constructor
  · intro t within n counted address marked
    exact absurd (marked ▸ rules.cells_legal address) (rules.marker_not_legal within counted)
  · intro t within gone
    simp [stageOf_initial] at gone

/-- The markers of an orderly run. -/
theorem marksOk_of_orderly (rules : UsageRules P load cells) (run : Execution P load cells trace σ)
    (orderly : ∀ x ∈ trace, Orderly P x) :
    WorkCleared P load σ ∧ MarksOk P load σ.shared := by
  refine execution_invariant (Orderly P) (fun _ σ => WorkCleared P load σ ∧ MarksOk P load σ.shared)
    rules ⟨?_, marksOk_initial rules⟩ ?_ run orderly
  · intro h role t n pc works
    cases works.member
  · rintro trace x reached orderly ⟨cleared, marks⟩
    exact ⟨workCleared_step rules reached orderly cleared,
      marksOk_step rules reached orderly cleared marks⟩

/-- What every step after an orderly run keeps holds of every orderly run. -/
theorem orderly_invariant (holds : Trace P → Config P.numWords → Prop)
    (rules : UsageRules P load cells) (initially : holds [] (Config.initial P.numWords cells))
    (kept : ∀ trace x, Reached P load cells trace x → (∀ y ∈ trace, Orderly P y) → Orderly P x →
      holds trace x.before → holds (trace ++ [x]) x.after)
    (run : Execution P load cells trace σ) (orderly : ∀ x ∈ trace, Orderly P x) :
    holds trace σ := by
  refine (execution_invariant (Orderly P)
    (fun trace σ => (∀ x ∈ trace, Orderly P x) ∧ holds trace σ) rules ⟨by simp, initially⟩ ?_ run
    orderly).2
  rintro trace x reached now ⟨earlier, held⟩
  exact ⟨List.forall_mem_append.mpr ⟨earlier, by simpa using now⟩,
    kept trace x reached earlier now held⟩

/-! ### No marker is left behind -/

/-- No call is in progress. -/
def Idle (P : Params) (σ : Config P.numWords) : Prop :=
  ∀ t < P.numThreads, (σ.threads t).stack = []

instance : Decidable (Idle P σ) :=
  inferInstanceAs (Decidable (∀ t < P.numThreads, (σ.threads t).stack = []))

theorem Idle.inactive (idle : Idle P σ) (ok : ConfigOk P load σ) (within : t < P.numThreads) :
    σ.shared.stageOf P t = .inactive := by
  have held := ok.callStacks t within
  rw [idle t within] at held
  exact held.1

/-- Whenever no call is in progress, no cell contains a marker, in every run
whose steps are all orderly. -/
theorem no_marker_left (rules : UsageRules P load cells) (run : Execution P load cells trace σ)
    (orderly : ∀ x ∈ trace, Orderly P x) (idle : Idle P σ) (address : ℕ) :
    isValueAKcasMarker P.usizeBits P.numThreads (σ.shared.cells address) = false := by
  have ok := configOk_of_execution rules run
  have marks := (marksOk_of_orderly rules run orderly).2
  rcases ok.shared.cell address with real | ⟨t, within, n, counted, held, -⟩
  · exact Params.isValueAKcasMarker_of_legal real
  · obtain ⟨-, active, -⟩ := marks.current t within n counted address held
    exact absurd (idle.inactive ok within) active

/-- The contended run is orderly and leaves no marker. -/
theorem no_marker_left_contended : ∃ (trace : Trace twoThreads) (σ : Config twoThreads.numWords),
    Execution twoThreads contended (fun _ => 0) trace σ ∧ trace.length = 58 ∧
      ∀ address, isValueAKcasMarker twoThreads.usizeBits twoThreads.numThreads
        (σ.shared.cells address) = false := by
  obtain ⟨trace, σ, run, length, orderly, idle⟩ := exists_execution twoThreads contended
    (fun _ => 0) contendedTurns
    (fun trace σ => trace.length = 58 ∧ (∀ x ∈ trace, Orderly twoThreads x) ∧ Idle twoThreads σ)
    (by decide +kernel)
  exact ⟨trace, σ, run, length, no_marker_left contended_rules run orderly idle⟩

/-- The second thread helps the first call of the first thread; the third
thread changes a cell of that call back after it. -/
def staleMarker : Workload threeThreads.numWords := .ofCalls
  [[twoWords (onCell 0 0 1) (onCell 1 0 1),
      twoWords (onCell 2 0 1) (onCell 3 0 1)],
    [twoWords (onCell 1 0 5) (onCell 4 0 5)],
    [twoWords (onCell 0 1 0) (onCell 5 0 1),
      twoWords (onCell 0 0 3) (onCell 6 0 3)]]

theorem staleMarker_rules : UsageRules threeThreads staleMarker fun _ => 0 :=
  usageRules_of_checks (by decide +kernel)

/-- The helper stops in front of its exchange on cell 8. The call it helps
returns, the third thread writes 0 back and the first thread makes its next
call. The helper then marks cell 8 for the call that is over, and cleans up in
the cells of the call that followed. -/
def staleMarkerTurns : List (ℕ × ℕ) := [(0, 15), (1, 16), (0, 9), (2, 24), (0, 24), (1, 20)]

theorem not_no_marker_left : ¬ ∀ (P : Params) (load : Workload P.numWords) (cells : ℕ → ℕ),
    UsageRules P load cells → GlobalOrder P load → ∀ trace σ, Execution P load cells trace σ →
      Idle P σ → ∀ address ∈ targetAddresses P load,
        isValueAKcasMarker P.usizeBits P.numThreads (σ.shared.cells address) = false := by
  intro claim
  obtain ⟨trace, σ, run, marked, idle⟩ := exists_execution threeThreads staleMarker (fun _ => 0)
    staleMarkerTurns
    (fun _ σ => σ.shared.cells 8 = threeThreads.marker 0 0 ∧ Idle threeThreads σ)
    (by decide +kernel)
  have clean := claim threeThreads staleMarker (fun _ => 0) staleMarker_rules
    (globalOrder_of_ascending (by decide +kernel)) trace σ run idle 8 (by decide +kernel)
  rw [marked] at clean
  exact absurd clean (by decide +kernel)

end KCas
