import KCas.Orderly

/-! What a failed call leaves behind. The originator that decides the failure
itself reverts from the word it failed at downwards, and anybody's claim exchange
that was under way can still mark a word behind it. Where neither happens, a
failed call has undone all of its claims when it retires. -/
namespace KCas

open Labelled

variable {P : Params} {load : Workload P.numWords} {cells : ℕ → ℕ} {s s' : Shared}
  {σ : Config P.numWords} {h t n w completed : ℕ} {role : Role} {pc : Pc} {event : Event}
  {frames : List (Frame P.numWords)} {trace front back : Trace P}
  {x : Transition (Config P.numWords) Actor Event}

/-- No claim exchange succeeds for a call that is being undone. -/
def NoLateClaim (P : Params) (x : Transition (Config P.numWords) Actor Event) : Prop :=
  ∀ op ∈ x.event.claimedFor, ∀ stage ∈ [Stage.reverting, .reverted],
    x.before.shared.state.stageAndSequenceNumbers op.threadIndex ≠ P.stageWord stage op.sequence

/-- The word at which an originator itself decides that its call fails. -/
def Event.failedAtOwn : Event → Option (Operation × ℕ)
  | .exchangeStage .originator op .claiming .reverting (.revert w) (.ok _) => some (op, w)
  | _ => none

/-- An originator decides to fail at a word above which none of its words, as its
row has them, holds its marker. -/
def FailsFromTop (P : Params) (x : Transition (Config P.numWords) Actor Event) : Prop :=
  ∀ failed ∈ x.event.failedAtOwn, ∀ j < P.numWords, failed.2 < j →
    x.before.shared.cells (x.before.shared.state.targetAddresses failed.1.threadIndex j) ≠
      failed.1.threadAndSequence

/-- A step after which a failing call can still undo all of its claims. -/
def Undoable (P : Params) (x : Transition (Config P.numWords) Actor Event) : Prop :=
  NoLateClaim P x ∧ FailsFromTop P x

instance : Decidable (NoLateClaim P x) :=
  inferInstanceAs (Decidable (∀ op ∈ x.event.claimedFor, ∀ stage ∈ [Stage.reverting, .reverted], _))

instance : Decidable (FailsFromTop P x) :=
  inferInstanceAs (Decidable (∀ failed ∈ x.event.failedAtOwn, ∀ j < P.numWords, _ → _))

instance : Decidable (Undoable P x) := inferInstanceAs (Decidable (_ ∧ _))

/-! ### The originator's revert -/

/-- The closure with which an originator ends a failed call. -/
def failing : RevertNext := .prepare (.error .valueWasNotExpectedValue)

/-- The words from which the originator of a failed call has removed the markers,
or found them removed. -/
def Undone (P : Params) (load : Workload P.numWords) (s : Shared) (t n : ℕ) : Pc → Prop
  | .revertLoadTarget w next | .revertLoadExpected w _ next | .revertExchange w _ _ next =>
    next = failing → s.sequenceOf P t = n → ∀ i < P.numWords, w < i → ¬ Marked P load s t n i
  | .prepare result => result = .error .valueWasNotExpectedValue → s.sequenceOf P t = n →
    ∀ i < P.numWords, ¬ Marked P load s t n i
  | _ => True

/-- A word without a marker gets none while its call is being undone. -/
theorem Reached.stays_undone (reached : Reached P load cells trace x)
    (rules : UsageRules P load cells) (undoable : Undoable P x)
    (call : CallOk P load x.before.shared t n) (current : x.before.shared.sequenceOf P t = n)
    (among : Within P x.before.shared t n [.reverting, .reverted])
    (unmarked : ¬ Marked P load x.before.shared t n w) : ¬ Marked P load x.after.shared t n w := by
  intro marked
  rcases reached.mark_found rules call.within call.counted marked with
    held | ⟨role, i, expected, works, event, -⟩
  · exact unmarked held
  · have word := reached.before.shared.word t call.within
    rw [current] at word
    exact undoable.1 (P.operation t n) (by simp [Event.claimedFor, event]) _ (among current) word

theorem NextOk.reverting {next : RevertNext} (pending : NextOk P s role t n next)
    (fails : next = failing) : Within P s t n [.reverting, .reverted] := by
  subst fails
  rcases pending.2 with ⟨ok, -⟩ | ⟨-, among⟩
  · cases ok
  · exact among

theorem Undone.kept (reached : Reached P load cells trace x) (rules : UsageRules P load cells)
    (undoable : Undoable P x) (call : CallOk P load x.before.shared t n)
    (position : PcOk P load x.before.shared role t n pc)
    (undone : Undone P load x.before.shared t n pc) : Undone P load x.after.shared t n pc := by
  have stays {i : ℕ} (after : x.after.shared.sequenceOf P t = n)
      (among : Within P x.before.shared t n [.reverting, .reverted])
      (unmarked : x.before.shared.sequenceOf P t = n → ¬ Marked P load x.before.shared t n i) :
      ¬ Marked P load x.after.shared t n i := by
    have current := (reached.evolves.current_back call.within call.started after).1
    exact reached.stays_undone rules undoable call current among (unmarked current)
  cases pc with
  | revertLoadTarget =>
    intro fails after i inRange above
    exact stays after (position.2.reverting fails) fun current =>
      undone fails current i inRange above
  | revertLoadExpected =>
    intro fails after i inRange above
    exact stays after (position.2.1.reverting fails) fun current =>
      undone fails current i inRange above
  | revertExchange =>
    intro fails after i inRange above
    exact stays after (position.2.1.reverting fails) fun current =>
      undone fails current i inRange above
  | prepare =>
    rintro rfl after i inRange
    rcases position.2 with ⟨ok, -⟩ | ⟨-, among⟩
    · cases ok
    · exact stays after among fun current => undone rfl current i inRange
  | _ => trivial

theorem undone_setFrom : Undone P load s t n (setFrom P role w) := by
  unfold setFrom
  split
  · trivial
  · cases role with
    | originator => exact fun fails => by cases fails
    | helper => trivial

theorem undone_claimFrom {op : Operation} : Undone P load s t n (claimFrom P role op w) := by
  unfold claimFrom
  split
  · trivial
  · cases role <;> trivial

theorem undone_revertAllWords {next : RevertNext} :
    Undone P load s t n (revertAllWords P next) := by
  unfold revertAllWords
  split
  · trivial
  · exact fun _ _ i inRange above => absurd above (by omega)

theorem undone_revertBelow {next : RevertNext} (pending : NextOk P s role t n next)
    (above : next = failing → s.sequenceOf P t = n →
      ∀ i < P.numWords, w ≤ i → ¬ Marked P load s t n i) :
    Undone P load s t n (revertBelow role next w) := by
  cases w with
  | succ w => exact above
  | zero =>
    cases next with
    | fail error => exact pending.elim
    | helpReturn result => trivial
    | changeToReverted => trivial
    | prepare result =>
      rintro rfl current i inRange
      exact above rfl current i inRange (Nat.zero_le i)

theorem undone_of_goesOn (goes : GoesOn P s role t n pc) : Undone P load s t n pc := by
  cases goes with
  | set => exact undone_setFrom
  | revert => exact undone_revertAllWords

theorem undone_of_helpEntry (entry : HelpEntry P s t n pc) : Undone P load s t n pc := by
  cases entry with
  | claiming => exact undone_claimFrom
  | setting => exact undone_setFrom
  | reverting => exact undone_revertAllWords
  | _ => trivial

/-- The originator that moved its row to Reverting starts where it failed. -/
theorem undone_afterStageChanged {next : StageNext}
    (above : role = .originator → ∀ w, next = .revert w →
      ∀ i < P.numWords, w < i → ¬ Marked P load s t n i) :
    Undone P load s t n (afterStageChanged P role next) := by
  cases next with
  | set => exact undone_setFrom
  | ok => trivial
  | revert w =>
    cases role with
    | originator => exact fun _ _ => above rfl w rfl
    | helper => exact fun fails => by cases fails

theorem undone_of_moves (reached : Reached P load cells trace x) (rules : UsageRules P load cells)
    (undoable : Undoable P x) (ok : WorkOk P load x.before.shared h completed role t n pc)
    (undone : Undone P load x.before.shared t n pc)
    (moves : OperationMoves P x.before.shared role t n pc x.event x.after.shared frames) {pc' : Pc}
    (member : .operating role (P.operation t n) pc' ∈ frames) :
    Undone P load x.after.shared t n pc' := by
  have call := ok.call
  have position := ok.position
  have kept : Undone P load x.after.shared t n pc :=
    undone.kept reached rules undoable call position
  generalize same : x.event = event at moves
  generalize same' : x.after.shared = s' at moves kept ⊢
  cases moves with
  | claimed | claimFoundOwn =>
    obtain rfl := eq_of_mem_operating member
    exact undone_claimFrom
  | claimDiverted diverted =>
    obtain rfl := eq_of_mem_operating member
    exact undone_of_goesOn (goesOn_of_claimDiverted diverted)
  | @stageChanged current desired next sequence stage edge =>
    obtain rfl := eq_of_mem_operating member
    apply undone_afterStageChanged
    rintro rfl w rfl i inRange above marked
    have address := (reached.before.shared.words call inRange sequence).1
    rcases position with ⟨-, -, nextSet, -⟩ | ⟨v, -, rfl, rfl, -, -⟩ | ⟨helper, -⟩ | ⟨helper, -⟩
    · cases nextSet
    · apply undoable.2 (P.operation t n, w) (by simp [Event.failedAtOwn, same]) i inRange above
      rw [Params.operation_threadIndex, address]
      exact marked
    · cases helper
    · cases helper
  | stageRefused diverted =>
    obtain rfl := eq_of_mem_operating member
    exact undone_of_goesOn (goesOn_of_stageRefused position diverted)
  | setDone | setVerified =>
    obtain rfl := eq_of_mem_operating member
    exact undone_setFrom
  | setDiverted diverted =>
    obtain rfl := eq_of_mem_operating member
    exact undone_of_goesOn (goesOn_of_setDiverted position.2 diverted)
  | revertLoadTarget | revertLoadExpected =>
    obtain rfl := eq_of_mem_operating member
    exact kept
  | @reverted w target expected next found =>
    obtain rfl := eq_of_mem_operating member
    obtain ⟨inRange, pending, address, real, -⟩ := position
    refine undone_revertBelow pending fun fails current i inRange' above => ?_
    rcases Nat.lt_or_eq_of_le above with further | rfl
    · exact kept fails current i inRange' further
    · exact unmarked_setCell rules call.within call.counted real (address.2 current)
  | @revertMissed w target expected next missed =>
    obtain rfl := eq_of_mem_operating member
    obtain ⟨inRange, pending, address, -, -⟩ := position
    refine undone_revertBelow pending fun fails current i inRange' above => ?_
    rcases Nat.lt_or_eq_of_le above with further | rfl
    · exact kept fails current i inRange' further
    · rw [Marked, ← address.2 current]
      exact missed
  | _ =>
    obtain rfl : pc' = _ := by simpa using member
    trivial

def WorkUndone (P : Params) (load : Workload P.numWords) (σ : Config P.numWords) : Prop :=
  ∀ h role t n pc, Works P σ h role t n pc → Undone P load σ.shared t n pc

theorem workUndone_of_undoable (rules : UsageRules P load cells)
    (run : Execution P load cells trace σ) (undoable : ∀ x ∈ trace, Undoable P x) :
    WorkUndone P load σ := by
  refine execution_invariant (Undoable P) (fun _ σ => WorkUndone P load σ) rules ?_ ?_ run undoable
  · intro h role t n pc works
    cases works.member
  · intro trace x reached undoable held
    refine reached.all_work ?_ ?_ ?_ ?_ ?_ held
    · intro h completed role t n pc ok undone
      exact undone.kept reached rules undoable ok.call ok.position
    · intro completed role t n pc pc' frames ok undone moves member
      exact undone_of_moves reached rules undoable ok undone moves member
    · intro t n
      exact undone_claimFrom
    · intro t n pc same entry
      exact undone_of_helpEntry (same ▸ entry)
    · intro t n w target expected waiting
      trivial

/-! ### Failed calls -/

/-- The step at which the row of a failed call moves on. -/
def RetiresFailed (P : Params) (x : Transition (Config P.numWords) Actor Event) (t n : ℕ) : Prop :=
  (∃ stage ∈ [Stage.reverting, .reverted],
    x.before.shared.state.stageAndSequenceNumbers t = P.stageWord stage n) ∧
  x.after.shared.state.stageAndSequenceNumbers t = P.stageWord .inactive (n + 1)

instance : Decidable (RetiresFailed P x t n) :=
  inferInstanceAs (Decidable ((∃ stage ∈ [Stage.reverting, .reverted], _) ∧ _))

/-- The originator of a failed call reverted all of its words before. -/
theorem Reached.prepares_failed (reached : Reached P load cells trace x)
    (rules : UsageRules P load cells) (within : t < P.numThreads) (counted : n < load.count t)
    (retires : RetiresFailed P x t n) : x.before.shared.sequenceOf P t = n ∧
      x.after.shared.cells = x.before.shared.cells ∧
      Works P x.before x.actor.thread .originator t n
        (.prepare (.error .valueWasNotExpectedValue)) := by
  obtain ⟨⟨stage, among, word⟩, word'⟩ := retires
  have counted' := Nat.le_of_lt counted
  obtain ⟨at_, current⟩ := (reached.before.shared.word_eq_iff rules within counted').mp word
  obtain ⟨inactive, -⟩ := (reached.after.shared.word_eq_iff rules within counted).mp word'
  cases reached.rowStep rules t with
  | kept same =>
    rw [Shared.stageOf_congr same, at_] at inactive
    subst inactive
    simp at among
  | published _ _ _ _ _ claiming => cases claiming.symm.trans inactive
  | exchanged _ _ edge _ _ desired =>
    exact absurd (desired.symm.trans inactive) edge.target_ne_inactive
  | @retired k result works _ _ stored _ sequence =>
    obtain rfl := sequence.symm.trans current
    refine ⟨current, funext fun address => ?_, ?_⟩
    · cases reached.cellStep address with
      | kept same => exact same
      | claimed _ event => cases stored.symm.trans event
      | set _ event => cases stored.symm.trans event
      | reverted _ event => cases stored.symm.trans event
    · rcases (works.ok reached.before).position.2 with ⟨-, succeeded⟩ | ⟨rfl, -⟩
      · have setting := succeeded current
        rw [at_] at setting
        simp only [List.mem_cons, List.not_mem_nil, or_false] at among setting
        rcases among with rfl | rfl <;> simp at setting
      · exact works

/-- A failed call has undone all of its claims when its row moves on, in every
run whose steps up to there are all undoable. -/
theorem failed_call_undone (rules : UsageRules P load cells)
    (run : Execution P load cells (front ++ x :: back) σ) (undoable : ∀ y ∈ front, Undoable P y)
    (within : t < P.numThreads) (counted : n < load.count t) (retires : RetiresFailed P x t n) :
    ∀ w < P.numWords, ¬ Marked P load x.after.shared t n w := by
  have reached := reached_of_split rules run
  obtain ⟨current, cells, works⟩ := reached.prepares_failed rules within counted retires
  intro w inRange marked
  rw [Marked, cells] at marked
  exact workUndone_of_undoable rules reached.run undoable _ _ _ _ _ works rfl current w inRange
    marked

/-- The second call of the contended run fails after it helped the first one,
and leaves no marker. -/
theorem failed_call_undone_contended : ∃ (front back : Trace twoThreads)
    (x : Transition (Config twoThreads.numWords) Actor Event) (σ : Config twoThreads.numWords),
    Execution twoThreads contended (fun _ => 0) (front ++ x :: back) σ ∧
      RetiresFailed twoThreads x 1 0 ∧
      ∀ w < 2, ¬ Marked twoThreads contended x.after.shared 1 0 w := by
  obtain ⟨trace, σ, run, ⟨x, member, retires⟩, undoable⟩ := exists_execution twoThreads contended
    (fun _ => 0) contendedTurns (fun trace _ => (∃ x ∈ trace, RetiresFailed twoThreads x 1 0) ∧
      ∀ x ∈ trace, Undoable twoThreads x) (by decide +kernel)
  obtain ⟨front, back, rfl⟩ := List.append_of_mem member
  exact ⟨front, back, x, σ, run, retires, failed_call_undone contended_rules run
    (fun y member => undoable y (List.mem_append_left _ member)) (by decide) (by decide) retires⟩

/-- The first call fails at its second word; the second thread helps it at its
first one. -/
def lateClaim : Workload twoThreads.numWords := .ofCalls
  [[twoWords (onCell 0 0 1) (onCell 1 5 6)],
    [twoWords (onCell 0 0 2) (onCell 2 0 2)]]

theorem lateClaim_rules : UsageRules twoThreads lateClaim fun _ => 0 :=
  usageRules_of_checks (by decide +kernel)

/-- The helper stops in front of its exchange on cell 8, until the first thread
has reverted both words and is about to let its row go. -/
def lateClaimTurns : List (ℕ × ℕ) := [(0, 12), (1, 16), (0, 11), (1, 1), (0, 1)]

theorem not_failed_call_undone : ¬ ∀ (P : Params) (load : Workload P.numWords) (cells : ℕ → ℕ),
    UsageRules P load cells → GlobalOrder P load → ∀ (front back : Trace P)
      (x : Transition (Config P.numWords) Actor Event) (σ : Config P.numWords),
      Execution P load cells (front ++ x :: back) σ → ∀ t < P.numThreads, ∀ n < load.count t,
        RetiresFailed P x t n → ∀ w < P.numWords, ¬ Marked P load x.after.shared t n w := by
  intro claim
  obtain ⟨trace, σ, run, x, member, retires, marked⟩ := exists_execution twoThreads lateClaim
    (fun _ => 0) lateClaimTurns
    (fun trace _ => ∃ x ∈ trace, RetiresFailed twoThreads x 0 0 ∧
      x.after.shared.cells 8 = twoThreads.marker 0 0) (by decide +kernel)
  obtain ⟨front, back, rfl⟩ := List.append_of_mem member
  exact claim twoThreads lateClaim (fun _ => 0) lateClaim_rules
    (globalOrder_of_ascending (by decide +kernel)) front back x σ run 0 (by decide) 0 (by decide)
    retires 0 (by decide) marked

end KCas
