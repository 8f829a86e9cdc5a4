import Mathlib.Algebra.BigOperators.Group.Finset.Basic
import Mathlib.Algebra.GroupWithZero.Nat
import Mathlib.Algebra.Order.BigOperators.Group.Finset
import KCas.Library.Progress
import KCas.Orderly

/-! Progress of a thread that moves alone. Each return from `help_thread` finds
the helped call over, so that its marker is not met again; the number of stage
exchanges still to be made, of helped calls already over, of cells not yet waited
at and of accesses up to the next of these events goes down with every step. A
marker that is left behind breaks that: its call is over and is never removed. -/
namespace KCas

open Labelled

variable {P : Params} {load : Workload P.numWords} {cells : ℕ → ℕ} {s s' : Shared}
  {σ : Config P.numWords} {h t n w target expected desired value : ℕ} {role : Role} {pc pc' : Pc}
  {event : Event} {frame : Frame P.numWords} {frames stack rest : List (Frame P.numWords)}
  {trace : Trace P} {x : Transition (Config P.numWords) Actor Event}

/-! ### The measure -/

/-- The stage exchanges that lead from a stage to the end of its call. -/
def Stage.pending : Stage → ℕ
  | .claiming => 2
  | .setting | .reverting => 1
  | _ => 0

/-- The stage exchanges that are still to be made for all calls. -/
def pendingStages (P : Params) (s : Shared) : ℕ :=
  ∑ t ∈ Finset.range P.numThreads, (s.stageOf P t).pending

/-- There is something to be done for a call. -/
def CanBeHelped (P : Params) (s : Shared) (t n : ℕ) : Prop :=
  s.sequenceOf P t = n ∧ 0 < (s.stageOf P t).pending

instance : Decidable (CanBeHelped P s t n) := inferInstanceAs (Decidable (_ ∧ _))

def spentCall (P : Params) (s : Shared) (t n : ℕ) : ℕ :=
  if CanBeHelped P s t n then 0 else 1

/-- The same for the call a marker stands for. -/
def spentMarker (P : Params) (s : Shared) (value : ℕ) : ℕ :=
  if isValueAKcasMarker P.usizeBits P.numThreads value then
    spentCall P s (extractThreadFromThreadAndSequence P.usizeBits P.numThreads value - 1)
      (extractSequenceFromThreadAndSequence P.usizeBits P.numThreads value)
  else 0

/-- Help for a call that is over, underway or about to begin. -/
def Frame.spent (P : Params) (s : Shared) : Frame P.numWords → ℕ
  | .initializing .. => 0
  | .helpThread marker => spentMarker P s marker
  | .operating role op pc =>
    (match role with
    | .originator => 0
    | .helper => spentCall P s op.threadIndex op.sequence) +
    match pc with
    | .claimVerify _ _ _ actual => spentMarker P s actual
    | _ => 0

/-- A bound for the accesses that follow a stage exchange from this stage, if
it is refused. -/
def Stage.remaining (numWords : ℕ) : Stage → ℕ
  | .claiming => 10 * numWords + 4
  | .setting => 6 * numWords + 3
  | .reverting => 3 * numWords + 2
  | _ => 0

/-- A bound for the accesses that follow the downward loop of `revert`. -/
def RevertNext.remaining (numWords : ℕ) : RevertNext → ℕ
  | .changeToReverted => Stage.reverting.remaining numWords
  | _ => 1

/-- A bound for the accesses an activation makes, as long as it changes no
stage and helps nobody. -/
def Pc.remaining (numWords : ℕ) : Pc → ℕ
  | .claimLoadTarget w => Stage.claiming.remaining numWords + 4 * (numWords - w)
  | .claimLoadExpected w _ => Stage.claiming.remaining numWords + (4 * (numWords - w) - 1)
  | .claimExchange w .. => Stage.claiming.remaining numWords + (4 * (numWords - w) - 2)
  | .claimVerify w .. => Stage.claiming.remaining numWords + (4 * (numWords - w) - 3)
  | .claimHelp .. => 0
  | .changeStage current .. => current.remaining numWords
  | .setLoadTarget w => Stage.setting.remaining numWords + 4 * (numWords - w)
  | .setLoadDesired w _ => Stage.setting.remaining numWords + (4 * (numWords - w) - 1)
  | .setExchange w .. => Stage.setting.remaining numWords + (4 * (numWords - w) - 2)
  | .setVerify w => Stage.setting.remaining numWords + (4 * (numWords - w) - 3)
  | .revertLoadTarget w next => next.remaining numWords + (3 * w + 3)
  | .revertLoadExpected w _ next => next.remaining numWords + (3 * w + 2)
  | .revertExchange w _ _ next => next.remaining numWords + (3 * w + 1)
  | .prepare _ => 1
  | .finished _ | .returned _ | .panicked => 0

def InitPc.remaining (numWords : ℕ) : InitPc → ℕ
  | .storeTarget w => 3 * (numWords - w) + 2
  | .storeExpected w => 3 * (numWords - w) + 1
  | .storeDesired w => 3 * (numWords - w)
  | .loadStage => 2
  | .storeStage _ => 1

def Frame.remaining (numWords : ℕ) : Frame numWords → ℕ
  | .initializing _ _ _ pc => pc.remaining numWords
  | .helpThread _ => 14 * numWords + 5
  | .operating _ _ pc => pc.remaining numWords

/-- A call that is not published yet will go through all stages. -/
def Frame.unpublished {numWords : ℕ} : Frame numWords → ℕ
  | .initializing .. => 3
  | _ => 0

/-- What a thread that moves alone uses up. -/
def potential (P : Params) (load : Workload P.numWords) (s : Shared)
    (stack : List (Frame P.numWords)) : ℕ × ℕ × ℕ × ℕ :=
  (pendingStages P s + (stack.map Frame.unpublished).sum, (stack.map (Frame.spent P s)).sum,
    (targetAddresses P load).card - nesting stack,
    (stack.head?.map (Frame.remaining P.numWords)).getD 0)

/-- One of its components goes down, and none before it goes up. -/
def Lower : ℕ × ℕ × ℕ × ℕ → ℕ × ℕ × ℕ × ℕ → Prop :=
  Prod.Lex (· < ·) (Prod.Lex (· < ·) (Prod.Lex (· < ·) (· < ·)))

theorem lower_wellFounded : WellFounded Lower :=
  lex_wellFounded (lex_wellFounded (lex_wellFounded Nat.lt_wfRel.wf))

/-! ### Accesses -/

theorem remaining_setFrom :
    (setFrom P role w).remaining P.numWords ≤
      Stage.setting.remaining P.numWords + 4 * (P.numWords - w) := by
  unfold setFrom
  split
  · exact Nat.le_refl _
  · cases role <;> simp only [afterSetOk, Pc.remaining, Stage.remaining] <;> omega

theorem remaining_claimFrom {op : Operation} :
    (claimFrom P role op w).remaining P.numWords ≤
      Stage.claiming.remaining P.numWords + 4 * (P.numWords - w) := by
  unfold claimFrom
  split
  · exact Nat.le_refl _
  · cases role <;> simp [afterClaim, claimAndTransition, helpClaimAndTransition, Pc.remaining]

theorem remaining_revertAllWords {next : RevertNext} (words : 0 < P.numWords) :
    (revertAllWords P next).remaining P.numWords ≤
      next.remaining P.numWords + 3 * P.numWords := by
  rw [revertAllWords, if_neg (by omega)]
  simp only [Pc.remaining]
  omega

theorem remaining_revertBelow {next : RevertNext} (pending : NextOk P s role t n next) :
    (revertBelow role next w).remaining P.numWords ≤ next.remaining P.numWords + 3 * w := by
  cases w with
  | succ w =>
    simp only [revertBelow, Pc.remaining]
    omega
  | zero =>
    cases next with
    | fail error => exact pending.elim
    | _ =>
      simp [revertBelow, revertAndTransition, afterRevertOk, Pc.remaining, RevertNext.remaining]

/-- A bound for the accesses of a function that goes on at this stage. -/
def Stage.onward (numWords : ℕ) : Stage → ℕ
  | .setting => Stage.setting.remaining numWords + 4 * numWords
  | .reverting => Stage.reverting.remaining numWords + 3 * numWords
  | _ => 1 + 3 * numWords

theorem remaining_onStage {wanted actual : Stage} (words : 0 < P.numWords)
    (active : actual ≠ .inactive) (decided : actual ≠ .claiming) :
    (onStage P role wanted actual).remaining P.numWords ≤ actual.onward P.numWords := by
  have revert (next : RevertNext) : (revertAllWords P next).remaining P.numWords ≤
      next.remaining P.numWords + 3 * P.numWords := remaining_revertAllWords words
  cases role <;> cases actual <;>
    first
    | exact absurd rfl active
    | exact absurd rfl decided
    | exact remaining_setFrom
    | exact revert _
    | exact (revert _).trans (by
        simp only [RevertNext.remaining, Stage.onward, Stage.remaining]; omega)

/-- Where an operation is diverted to, less is left than at the exchange that it
did not come to. -/
theorem remaining_of_diverted {wanted : Stage} (words : 0 < P.numWords)
    (later : s.sequenceOf P t = n → s.stageOf P t ≠ wanted →
      (s.stageOf P t).onward P.numWords < wanted.remaining P.numWords ∧ s.stageOf P t ≠ .claiming)
    (retired : 1 + 3 * P.numWords < wanted.remaining P.numWords)
    (diverted : Diverted P s role t n wanted pc) :
    pc.remaining P.numWords < wanted.remaining P.numWords := by
  cases diverted with
  | retired helper gone => exact (remaining_revertAllWords words).trans_lt retired
  | @stage actual current stage moved active =>
    subst stage
    obtain ⟨less, decided⟩ := later current moved
    exact (remaining_onStage words active decided).trans_lt less

theorem onward_of_claiming {stage : Stage} (numWords : ℕ) :
    stage.onward numWords < Stage.claiming.remaining numWords := by
  cases stage <;> simp only [Stage.onward, Stage.remaining] <;> omega

theorem onward_of_setting {stage : Stage} (numWords : ℕ) (moved : stage ≠ .setting)
    (among : stage ∈ [.setting, .successful]) :
    stage.onward numWords < Stage.setting.remaining numWords ∧ stage ≠ .claiming := by
  have successful : stage = .successful := by simpa [moved] using among
  subst successful
  simp only [Stage.onward, Stage.remaining, ne_eq, reduceCtorEq, not_false_eq_true, and_true]
  omega

theorem onward_of_reverting {stage : Stage} (numWords : ℕ) (moved : stage ≠ .reverting)
    (among : stage ∈ [.reverting, .reverted]) :
    stage.onward numWords < Stage.reverting.remaining numWords ∧ stage ≠ .claiming := by
  have reverted : stage = .reverted := by simpa [moved] using among
  subst reverted
  simp only [Stage.onward, Stage.remaining, ne_eq, reduceCtorEq, not_false_eq_true, and_true]
  omega

theorem remaining_of_claimDiverted (words : 0 < P.numWords)
    (diverted : Diverted P s role t n .claiming pc) :
    pc.remaining P.numWords < Stage.claiming.remaining P.numWords :=
  remaining_of_diverted words (fun _ moved => ⟨onward_of_claiming P.numWords, moved⟩)
    (by simp only [Stage.remaining]; omega) diverted

theorem remaining_of_setDiverted (words : 0 < P.numWords)
    (stage : Within P s t n [.setting, .successful])
    (diverted : Diverted P s role t n .setting pc) :
    pc.remaining P.numWords < Stage.setting.remaining P.numWords :=
  remaining_of_diverted words
    (fun current moved => onward_of_setting P.numWords moved (stage current))
    (by simp only [Stage.remaining]; omega) diverted

theorem remaining_of_refused {current : Stage} {next : StageNext} {stage : Stage}
    (words : 0 < P.numWords) (position : PcOk P load s role t n (.changeStage current stage next))
    (diverted : Diverted P s role t n current pc) :
    pc.remaining P.numWords < current.remaining P.numWords := by
  rcases position with ⟨rfl, -⟩ | ⟨w, -, rfl, -⟩ | ⟨-, rfl, -, -, among⟩ | ⟨-, rfl, -, -, among⟩
  · exact remaining_of_claimDiverted words diverted
  · exact remaining_of_claimDiverted words diverted
  · exact remaining_of_setDiverted words among diverted
  · exact remaining_of_diverted words
      (fun current moved => onward_of_reverting P.numWords moved (among current))
      (by simp only [Stage.remaining]; omega) diverted

theorem WorkOk.words_of_refused {completed : ℕ} {current stage : Stage} {next : StageNext}
    (ok : WorkOk P load s h completed role t n (.changeStage current stage next))
    (diverted : Diverted P s role t n current pc) : 0 < P.numWords := by
  cases role with
  | helper => exact ok.words rfl
  | originator => exact KCas.words_of_refused (.inr (ok.own rfl).2.2) diverted

/-- The weak exchange of `claim` did not fail without a reason. -/
def Firm (event : Event) : Prop :=
  ∀ op w target expected new,
    event ≠ .exchangeCell .claim op w target expected new (.error expected)

/-- An operation that neither changes a stage nor calls `help_thread` gets
closer to doing so, or to its end. -/
theorem remaining_of_moves {completed : ℕ} (ok : WorkOk P load s h completed role t n pc)
    (moves : OperationMoves P s role t n pc event s' [.operating role (P.operation t n) pc'])
    (firm : Firm event)
    (unchanged : ∀ current desired next word, event ≠
      .exchangeStage role (P.operation t n) current desired next (.ok word)) :
    pc'.remaining P.numWords < pc.remaining P.numWords := by
  have position := ok.position
  cases moves with
  | claimSpurious found => exact absurd rfl (firm _ _ _ _ _)
  | stageChanged => exact absurd rfl (unchanged _ _ _ _)
  | claimLoadTarget | claimLoadExpected | claimFoundOther | setLoadTarget | setLoadDesired |
    setMissed =>
    have inRange := position.1
    simp only [Pc.remaining]
    omega
  | @claimed w | @claimFoundOwn w =>
    have inRange := position.1
    have bound : (claimFrom P role (P.operation t n) (w + 1)).remaining P.numWords ≤ _ :=
      remaining_claimFrom
    simp only [Pc.remaining] at bound ⊢
    omega
  | verifiedReal =>
    have inRange := position.1.1
    simp only [Pc.remaining]
    omega
  | claimDiverted diverted =>
    have inRange := position.1.1
    exact (remaining_of_claimDiverted (by omega) diverted).trans_le (Nat.le_add_right _ _)
  | stageRefused diverted =>
    exact remaining_of_refused (ok.words_of_refused diverted) position diverted
  | @setDone w | @setVerified w =>
    have inRange := position.1
    have bound : (setFrom P role (w + 1)).remaining P.numWords ≤ _ := remaining_setFrom
    simp only [Pc.remaining] at bound ⊢
    omega
  | setDiverted diverted =>
    have inRange := position.1
    exact (remaining_of_setDiverted (by omega) position.2 diverted).trans_le (Nat.le_add_right _ _)
  | revertLoadTarget | revertLoadExpected =>
    simp only [Pc.remaining]
    omega
  | reverted | revertMissed =>
    exact Nat.lt_succ_of_le (remaining_revertBelow position.2.1)
  | prepared =>
    simp [Pc.remaining]

theorem remaining_of_helpEntry (words : 0 < P.numWords) (entry : HelpEntry P s t n pc) :
    pc.remaining P.numWords < 14 * P.numWords + 5 := by
  cases entry with
  | retired => exact Nat.succ_pos _
  | terminal => exact Nat.succ_pos _
  | claiming =>
    refine remaining_claimFrom.trans_lt ?_
    simp only [Stage.remaining]
    omega
  | setting =>
    refine remaining_setFrom.trans_lt ?_
    simp only [Stage.remaining]
    omega
  | reverting =>
    refine (remaining_revertAllWords words).trans_lt ?_
    simp only [RevertNext.remaining, Stage.remaining]
    omega

/-! ### Stages and calls that are over -/

/-- The rows are at the same stages and sequences. -/
def SameRows (P : Params) (s s' : Shared) : Prop :=
  ∀ t, s'.stageOf P t = s.stageOf P t ∧ s'.sequenceOf P t = s.sequenceOf P t

theorem SameRows.pendingStages (same : SameRows P s s') : pendingStages P s' = pendingStages P s :=
  Finset.sum_congr rfl fun t _ => by rw [(same t).1]

theorem SameRows.spentCall (same : SameRows P s s') : spentCall P s' t n = spentCall P s t n :=
  if_congr (by rw [CanBeHelped, CanBeHelped, (same t).1, (same t).2]) rfl rfl

theorem SameRows.spentMarker (same : SameRows P s s') :
    spentMarker P s' value = spentMarker P s value := by
  simp only [KCas.spentMarker, same.spentCall]

theorem SameRows.spent (same : SameRows P s s') : Frame.spent P s' = Frame.spent P s := by
  funext frame
  cases frame with
  | initializing => rfl
  | helpThread marker => exact same.spentMarker
  | operating role op pc =>
    cases role <;> cases pc <;> simp only [Frame.spent, same.spentCall, same.spentMarker]

theorem StageEdge.pending_lt {a b : Stage} (edge : StageEdge a b) : b.pending < a.pending := by
  cases edge <;> decide

/-- A store of a stage word with a lower stage. -/
theorem pendingStages_storeStage (s : Shared) (stage : Stage) (within : t < P.numThreads)
    (fits : n < 2 ^ P.stageSequenceBits) :
    pendingStages P (s.storeStage t (P.stageWord stage n)) + (s.stageOf P t).pending =
      pendingStages P s + stage.pending := by
  have member : t ∈ Finset.range P.numThreads := Finset.mem_range.mpr within
  have others : ∑ u ∈ (Finset.range P.numThreads).erase t,
        ((s.storeStage t (P.stageWord stage n)).stageOf P u).pending =
      ∑ u ∈ (Finset.range P.numThreads).erase t, (s.stageOf P u).pending :=
    Finset.sum_congr rfl fun u other => by
      rw [Shared.stageOf_storeStage_ne (Finset.ne_of_mem_erase other)]
  unfold pendingStages
  rw [← Finset.add_sum_erase _ _ member,
    ← Finset.add_sum_erase _ (fun u => (s.stageOf P u).pending) member, others,
    Shared.stageOf_storeStage_self fits]
  omega

theorem spentMarker_marker (within : t < P.numThreads) (fits : n < 2 ^ P.markerSequenceBits) :
    spentMarker P s (P.marker t n) = spentCall P s t n := by
  simp [spentMarker, Params.isValueAKcasMarker_marker within fits,
    Params.extractThread_marker within fits, Params.extractSequence_marker within fits]

theorem spentMarker_legal (real : P.Legal value) : spentMarker P s value = 0 := by
  simp [spentMarker, Params.isValueAKcasMarker_of_legal real]

/-- The call whose marker is in a cell can be helped. -/
theorem MarksOk.spentMarker_cell (marks : MarksOk P load s) (shared : SharedOk P load s)
    (rules : UsageRules P load cells) (address : ℕ) : spentMarker P s (s.cells address) = 0 := by
  rcases shared.cell address with real | ⟨t, within, n, counted, held, -⟩
  · exact spentMarker_legal real
  · obtain ⟨current, active, w, inRange, rfl⟩ := marks.current t within n counted address held
    rw [held, spentMarker_marker within (rules.marker_lt within counted), spentCall, if_pos]
    refine ⟨current, ?_⟩
    have open_ : ¬ (s.stageOf P t = .successful ∨ s.stageOf P t = .reverted) := fun gone =>
      marks.finished t within gone w inRange (current ▸ held)
    generalize s.stageOf P t = stage at active open_
    cases stage <;> simp_all [Stage.pending]

/-- A helper that returns leaves its call over. -/
theorem spentCall_of_returned {result : Except HelpError Unit}
    (position : PcOk P load s role t n (.returned result)) : spentCall P s t n = 1 := by
  rw [spentCall, if_neg]
  rintro ⟨current, more⟩
  have gone := position.2.2 current
  simp only [List.mem_cons, List.not_mem_nil, or_false] at gone
  rcases gone with stage | stage <;> simp [stage, Stage.pending] at more

/-- An operation meets only markers of calls that can be helped. -/
theorem spent_of_moves {completed : ℕ} (marks : MarksOk P load s) (shared : SharedOk P load s)
    (rules : UsageRules P load cells) (ok : WorkOk P load s h completed role t n pc)
    (moves : OperationMoves P s role t n pc event s' [.operating role (P.operation t n) pc']) :
    Frame.spent P s (.operating role (P.operation t n) pc') ≤
      Frame.spent P s (.operating role (P.operation t n) pc) := by
  refine Nat.add_le_add_left (Nat.le_trans (Nat.le_of_eq ?_) (Nat.zero_le _)) _
  rcases moves.calm_or ok.position with ⟨later, same, calm⟩ |
    ⟨w, target, expected, -, -, -, -, same⟩ | ⟨w, target, expected, actual, -, -, -, -, -, same⟩
  · obtain rfl : pc' = later := by simpa using same
    cases pc' with
    | claimVerify => exact calm.elim
    | _ => rfl
  · obtain rfl : pc' = _ := by simpa using same
    exact marks.spentMarker_cell shared rules target
  · simp at same

/-! ### How deep help is nested -/

/-- The activations of a stack wait at different cells. -/
theorem nesting_le_card {before : ℕ → ℕ → Prop} {completed : ℕ} (strict : IsStrictOrder ℕ before)
    (held : StackOk P load s t completed stack) (nested : Nested P load before s stack) :
    nesting stack ≤ (targetAddresses P load).card := by
  rw [nesting_eq held, waitingAt]
  cases stack with
  | nil => exact Nat.zero_le _
  | cons frame rest =>
    obtain ⟨sorted, targets⟩ := waitingAt_sorted strict.trans held nested
    have distinct : (rest.filterMap Frame.waitsAt).Nodup := by
      refine sorted.imp fun {later earlier} step => ?_
      rintro rfl
      exact strict.irrefl _ step
    have few : (rest.filterMap Frame.waitsAt).toFinset ⊆ targetAddresses P load :=
      fun address member => targets address (List.mem_toFinset.mp member)
    simpa [List.toFinset_card_of_nodup distinct] using Finset.card_le_card few

theorem nesting_bounded (rules : UsageRules P load cells) (ordered : GlobalOrder P load)
    (run : Execution P load cells trace σ) (within : t < P.numThreads) :
    nesting (σ.threads t).stack ≤ (targetAddresses P load).card := by
  obtain ⟨before, strict, listed⟩ := ordered
  exact nesting_le_card strict ((configOk_of_execution rules run).callStacks t within)
    (nested_of_execution rules listed run t within)

/-! ### One step -/

theorem nesting_cons : nesting (frame :: rest) = nesting [frame] + nesting rest := by
  simp only [nesting, ← List.countP_append, List.singleton_append]

/-- An access that leaves all rows at their stages, and the activation closer
to its end. -/
theorem lower_of_access {frame' : Frame P.numWords} (rows : SameRows P s s')
    (unpublished : frame'.unpublished = frame.unpublished)
    (spent : frame'.spent P s ≤ frame.spent P s) (depth : nesting [frame'] = nesting [frame])
    (position : frame'.remaining P.numWords < frame.remaining P.numWords) :
    Lower (potential P load s' (frame' :: rest)) (potential P load s (frame :: rest)) := by
  have deep : nesting (frame' :: rest) = nesting (frame :: rest) := by
    rw [nesting_cons, depth, ← nesting_cons]
  rw [potential, potential, rows.pendingStages, rows.spent, deep]
  refine lex_of_le ?_ (lex_of_le ?_ (lex_of_le (Nat.le_refl _) position))
  · simp only [List.map_cons, List.sum_cons, unpublished]
    exact Nat.le_refl _
  · exact Nat.add_le_add_right spent _

/-- A stage exchange. -/
theorem lower_of_stageChanged {current desired : Stage} {op : Operation} (within : t < P.numThreads)
    (fits : n < 2 ^ P.stageSequenceBits) (stage : s.stageOf P t = current)
    (edge : StageEdge current desired) :
    Lower
      (potential P load (s.storeStage t (P.stageWord desired n)) (.operating role op pc' :: rest))
      (potential P load s (.operating role op pc :: rest)) := by
  have total := pendingStages_storeStage s desired within fits
  have less := edge.pending_lt
  rw [stage] at total
  refine .left _ _ ?_
  simp only [List.map_cons, List.sum_cons, Frame.unpublished]
  omega

/-- `claim` calls `help_thread` for a marker it met. -/
theorem lower_of_help {actual : ℕ} {op : Operation}
    (bounded : nesting (.helpThread actual ::
      .operating role op (.claimHelp w target expected) :: rest) ≤ (targetAddresses P load).card) :
    Lower (potential P load s
        (.helpThread actual :: .operating role op (.claimHelp w target expected) :: rest))
      (potential P load s
        (.operating role op (.claimVerify w target expected actual) :: rest)) := by
  refine lex_of_le ?_ (lex_of_le ?_ (.left _ _ ?_))
  · simp only [List.map_cons, List.sum_cons, Frame.unpublished]
    omega
  · simp only [List.map_cons, List.sum_cons, Frame.spent]
    omega
  · have deeper : nesting (.helpThread actual ::
          .operating role op (.claimHelp w target expected) :: rest) =
        nesting (.operating role op (.claimVerify w target expected actual) :: rest) + 1 := by
      cases role <;> simp [nesting]
    omega

/-- `help_thread` returns to the `claim` that called it. -/
theorem lower_of_helpReturned {op : Operation} {result : Except HelpError Unit}
    (gone : spentCall P s t n = 1) :
    Lower (potential P load s (.operating role op (.claimExchange w target expected) :: rest))
      (potential P load s (.operating .helper (P.operation t n) (.returned result) ::
        .operating role op (.claimHelp w target expected) :: rest)) := by
  refine lex_of_le ?_ (.left _ _ ?_)
  · simp only [List.map_cons, List.sum_cons, Frame.unpublished]
    omega
  · simp only [List.map_cons, List.sum_cons, Frame.spent, Params.operation_threadIndex,
      Params.operation_sequence, gone]
    omega

theorem lower_of_initMoves {words : KCasWords P.numWords} {pc : InitPc} {u : ℕ}
    (within : t < P.numThreads) (fits : n < 2 ^ P.stageSequenceBits)
    (inactive : s.stageOf P t = .inactive) (sequence : s.sequenceOf P t = n)
    (position : InitOk P s t words pc) (moves : InitMoves P s t words pc event s' frames) :
    Lower (potential P load s' (frames ++ []))
      (potential P load s [.initializing u t words pc]) := by
  cases moves with
  | storeTarget inRange =>
    refine lower_of_access (fun _ => ⟨rfl, rfl⟩) rfl (Nat.le_refl _) rfl ?_
    simp only [Frame.remaining, InitPc.remaining]
    omega
  | storeExpected inRange =>
    refine lower_of_access (fun _ => ⟨rfl, rfl⟩) rfl (Nat.le_refl _) rfl ?_
    simp only [Frame.remaining, InitPc.remaining]
    omega
  | storeDesired inRange =>
    refine lower_of_access (fun _ => ⟨rfl, rfl⟩) rfl (Nat.le_refl _) rfl ?_
    simp only [Frame.remaining]
    split <;> simp only [InitPc.remaining] <;> omega
  | loadStage =>
    refine lower_of_access (fun _ => ⟨rfl, rfl⟩) rfl (Nat.le_refl _) rfl ?_
    simp only [Frame.remaining, InitPc.remaining]
    omega
  | storeStage =>
    obtain ⟨rfl, -⟩ := position
    subst sequence
    have total := pendingStages_storeStage s .claiming within fits
    rw [inactive] at total
    refine .left _ _ ?_
    simp only [List.append_nil, List.map_cons, List.map_nil, List.sum_cons, List.sum_nil,
      Frame.unpublished]
    simp only [Stage.pending] at total
    omega

theorem lower_of_operationMoves {completed : ℕ} (shared : SharedOk P load s)
    (rules : UsageRules P load cells) (marks : MarksOk P load s)
    (ok : WorkOk P load s h completed role t n pc)
    (moves : OperationMoves P s role t n pc event s' frames) (firm : Firm event)
    (alone : role = .originator → rest = [])
    (bounded : nesting (frames ++ rest) ≤ (targetAddresses P load).card) :
    Lower (potential P load s' (frames ++ rest))
      (potential P load s (.operating role (P.operation t n) pc :: rest)) := by
  have fits : n + 1 < 2 ^ P.stageSequenceBits := rules.stage_lt ok.call.within ok.call.counted
  have access := moves
  cases moves with
  | stageChanged sequence stage edge =>
    exact lower_of_stageChanged ok.call.within (Nat.lt_of_succ_lt fits) stage edge
  | verifiedMarker => exact lower_of_help bounded
  | prepared =>
    obtain rfl := ok.position.1
    obtain rfl := alone rfl
    have total := pendingStages_storeStage s .inactive ok.call.within fits
    refine lex_of_le ?_ (lex_of_le (Nat.le_refl 0) (lex_of_le (Nat.le_refl _) Nat.zero_lt_one))
    simp only [Stage.pending] at total
    exact Nat.add_le_add_right (by omega) _
  | _ =>
    refine lower_of_access (fun _ => ⟨rfl, rfl⟩) rfl (spent_of_moves marks shared rules ok access)
      (by cases role <;> rfl) (remaining_of_moves ok access firm ?_)
    simp

/-- A thread that moves alone returns, or uses something up. -/
theorem lower_of_step (reached : Reached P load cells trace x) (rules : UsageRules P load cells)
    (marks : MarksOk P load x.before.shared) (firm : Firm x.event)
    (busy : (x.before.threads x.actor.thread).stack ≠ [])
    (bounded : nesting (x.after.threads x.actor.thread).stack ≤ (targetAddresses P load).card) :
    (∃ result, Responds P x x.actor.thread (x.before.threads x.actor.thread).completed result) ∨
      Lower (potential P load x.after.shared (x.after.threads x.actor.thread).stack)
        (potential P load x.before.shared (x.before.threads x.actor.thread).stack) := by
  have moves := reached.moves
  have shared := reached.before.shared
  have held := reached.before.callStacks _ reached.within
  generalize shape : x.before.threads x.actor.thread = thread at moves held busy ⊢
  generalize x.after.threads x.actor.thread = thread' at moves bounded ⊢
  generalize same : x.event = event at moves firm
  generalize x.before.shared = s at moves held shared marks ⊢
  generalize x.after.shared = s' at moves ⊢
  cases moves with
  | invoke => exact absurd rfl busy
  | @respond completed op result => exact .inl ⟨result, rfl, by rw [shape], same⟩
  | helpReturned harmless =>
    obtain ⟨⟨t, n, -, rfl, call, -, position⟩, -⟩ := held
    exact .inr (lower_of_helpReturned (spentCall_of_returned position))
  | @move completed frame rest _ _ frames moves =>
    right
    cases moves with
    | @init u words pc _ _ _ moves =>
      cases rest with
      | cons caller rest => exact held.1.elim
      | nil =>
        obtain ⟨-, rfl, -, counted, inactive, sequence, position⟩ := held
        exact lower_of_initMoves reached.within
          (rules.stage_lt reached.within (Nat.le_of_lt counted)) inactive sequence position moves
    | @help t n pc within fits entry =>
      have calm := (turn_of_helpEntry entry).calm
      refine lower_of_access (fun _ => ⟨rfl, rfl⟩) rfl ?_ rfl ?_
      · refine Nat.le_of_eq ?_
        simp only [Frame.spent, spentMarker_marker within fits]
        cases pc with
        | claimVerify => exact calm.elim
        | _ => rfl
      · cases rest with
        | nil => exact held.elim
        | cons caller rest =>
          obtain ⟨⟨u, k, -, -, words⟩, -⟩ := held
          exact remaining_of_helpEntry words entry
    | @operate role t n pc _ _ _ moves =>
      obtain ⟨u, k, same, ok⟩ := workOk_of_mem reached.within held List.mem_cons_self
      obtain ⟨rfl, rfl, -⟩ := (Operation.mk.injEq ..).mp same
      refine lower_of_operationMoves shared rules marks ok moves firm ?_ bounded
      rintro rfl
      cases rest with
      | nil => rfl
      | cons caller rest =>
        obtain ⟨⟨v, m, helper, -⟩, -⟩ := held
        cases helper

/-! ### A thread that moves alone -/

/-- A weak exchange that does not fail without a reason finds another value
when it fails. -/
theorem Reached.firm (reached : Reached P load cells trace x) (steady : x.actor.spurious = false) :
    Firm x.event := by
  intro op w target expected new event
  have moves := reached.moves
  have taken := reached.taken
  rw [event] at moves taken
  generalize shape : x.before.threads x.actor.thread = thread at moves
  generalize x.after.threads x.actor.thread = thread' at moves
  generalize x.after.shared = s' at moves
  cases moves with
  | move moves =>
    cases moves with
    | init moves => cases moves
    | operate moves =>
      cases moves with
      | claimFoundOther other => exact absurd rfl other
      | claimFoundOwn found other => exact absurd rfl other
      | claimSpurious found =>
        simp [step, reached.within, shape, stackStep, frameStep, operate, Shared.exchangeCellWeak,
          Shared.exchangeCell, steady, found] at taken

/-- The running activation is not one that waits for `help_thread`. -/
def Awake (P : Params) (σ : Config P.numWords) : Prop :=
  ∀ t < P.numThreads, ∀ frame ∈ (σ.threads t).stack.head?, ¬ Waiting P frame

theorem not_waiting_of_calm {op : Operation} (calm : pc.Calm) :
    ¬ Waiting P (.operating role op pc) := by
  cases pc with
  | claimHelp => exact calm.elim
  | _ => exact not_false

theorem awake_of_execution (rules : UsageRules P load cells)
    (run : Execution P load cells trace σ) : Awake P σ := by
  refine execution_always (fun _ σ => Awake P σ) rules (fun t _ frame head => by cases head) ?_ run
  intro trace x reached awake t within
  by_cases own : t = x.actor.thread
  · subst own
    have held := reached.before.callStacks _ within
    have moves := reached.moves
    generalize x.before.threads x.actor.thread = thread at moves held
    generalize x.after.threads x.actor.thread = thread' at moves ⊢
    generalize x.event = event at moves
    generalize x.after.shared = s' at moves
    cases moves with
    | invoke => simp [Waiting]
    | respond => simp
    | helpReturned => simp [Waiting]
    | move moves =>
      cases moves with
      | init moves =>
        cases moves with
        | storeStage => simpa using not_waiting_of_calm turn_claimFrom.calm
        | _ => simp [Waiting]
      | help _ _ entry => simpa using not_waiting_of_calm (turn_of_helpEntry entry).calm
      | operate moves =>
        obtain ⟨u, k, same, ok⟩ := workOk_of_mem within held List.mem_cons_self
        obtain ⟨rfl, rfl, -⟩ := (Operation.mk.injEq ..).mp same
        rcases moves.calm_or ok.position with ⟨pc', rfl, calm⟩ |
          ⟨w, target, expected, -, -, -, -, rfl⟩ | ⟨w, target, expected, actual, -, -, -, -, -, rfl⟩
        · simpa using not_waiting_of_calm calm
        · simp [Waiting]
        · simp [Waiting]
  · rw [reached.others t own]
    exact awake t within

/-- A call in progress is never stuck. -/
theorem stackStep_isSome {completed : ℕ} (held : StackOk P load s t completed (frame :: rest))
    (awake : ¬ Waiting P frame) (spurious : Bool) :
    (stackStep P s spurious (frame :: rest)).isSome = true := by
  cases frame with
  | initializing => simp [stackStep, frameStep]
  | helpThread => simp [stackStep, frameStep]
  | operating role op pc =>
    cases rest with
    | nil =>
      obtain ⟨rfl, -, -, -, position⟩ := held
      cases pc with
      | claimHelp => exact absurd trivial awake
      | returned => cases position.1
      | panicked => exact position.elim
      | finished => rfl
      | _ => simp [stackStep, frameStep, operate]
    | cons caller rest =>
      obtain ⟨⟨u, k, rfl, -, -, -, position⟩, waiting, -⟩ := held
      cases pc with
      | claimHelp => exact absurd trivial awake
      | finished => cases position.1
      | panicked => exact position.elim
      | returned =>
        cases caller with
        | operating role' op' pc' =>
          cases pc' with
          | claimHelp => rfl
          | _ => exact waiting.elim
        | _ => exact waiting.elim
      | _ => simp [stackStep, frameStep, operate]

theorem exists_step (ok : ConfigOk P load σ) (awake : Awake P σ) (within : t < P.numThreads)
    (busy : (σ.threads t).stack ≠ []) (spurious : Bool) :
    ∃ event σ', step P load σ ⟨t, spurious⟩ = some (event, σ') := by
  have held := ok.callStacks t within
  have awake := awake t within
  unfold step
  simp only [within, if_true]
  generalize (σ.threads t).stack = stack at held awake busy
  cases stack with
  | nil => exact absurd rfl busy
  | cons frame rest =>
    obtain ⟨outcome, ran⟩ := Option.isSome_iff_exists.mp
      (stackStep_isSome held (awake frame rfl) spurious)
    simp [ran]

/-! ### Returning alone -/

/-- What a thread that moves alone keeps until it returns. -/
structure Alone (P : Params) (load : Workload P.numWords) (cells : ℕ → ℕ) (t completed : ℕ)
    (trace : Trace P) (σ : Config P.numWords) : Prop where
  run : Execution P load cells trace σ
  orderly : ∀ x ∈ trace, Orderly P x
  completed : (σ.threads t).completed = completed
  busy : (σ.threads t).stack ≠ []

theorem exists_response_or_late (rules : UsageRules P load cells) (ordered : GlobalOrder P load)
    (run : Execution P load cells trace σ) (orderly : ∀ x ∈ trace, Orderly P x)
    (within : t < P.numThreads) (busy : (σ.threads t).stack ≠ []) :
    ∃ alone σ', Run (step P load) σ alone σ' ∧ (∀ x ∈ alone, x.actor = ⟨t, false⟩) ∧
      ∃ x ∈ alone, (∃ result, Responds P x t (σ.threads t).completed result) ∨ ¬ Orderly P x := by
  refine exists_run_until lower_wellFounded
    (fun σ => potential P load σ.shared (σ.threads t).stack)
    (Alone P load cells t (σ.threads t).completed) ?_ ⟨run, orderly, rfl, busy⟩
  rintro trace before ⟨run, orderly, completed, busy⟩
  obtain ⟨event, after, stepped⟩ := exists_step (configOk_of_execution rules run)
    (awake_of_execution rules run) within busy false
  refine ⟨event, after, stepped, ?_⟩
  have reached : Reached P load cells trace ⟨before, ⟨t, false⟩, event, after⟩ :=
    reached_of_step rules run stepped
  have onward : Execution P load cells (trace ++ [⟨before, ⟨t, false⟩, event, after⟩]) after :=
    run.snoc stepped
  by_cases inTime : Orderly P ⟨before, ⟨t, false⟩, event, after⟩
  · rcases lower_of_step reached rules (marksOk_of_orderly rules run orderly).2
      (reached.firm rfl) busy (nesting_bounded rules ordered onward within) with responds | lower
    · exact .inl (.inl (completed ▸ responds))
    · have orderly' : ∀ x ∈ trace ++ [⟨before, ⟨t, false⟩, event, after⟩], Orderly P x := by
        simpa [or_imp, forall_and] using ⟨orderly, inTime⟩
      cases reached.callStep t with
      | kept none same stack =>
        exact .inr
          ⟨⟨onward, orderly', same.trans completed, fun ended => busy (stack.mp ended)⟩, lower⟩
      | invoked action same idle => exact absurd idle busy
      | responded responds => exact .inl (.inl ⟨_, completed ▸ responds⟩)
  · exact .inl (.inr inTime)

/-- The steps of thread index `t` alone, without spurious failures, lead to the
return of its call in progress. -/
def ReturnsAlone (P : Params) (load : Workload P.numWords) (σ : Config P.numWords) (t : ℕ) : Prop :=
  ∃ alone σ', Run (step P load) σ alone σ' ∧ (∀ x ∈ alone, x.actor = ⟨t, false⟩) ∧
    ∃ x ∈ alone, ∃ result, Responds P x t (σ.threads t).completed result

/-- They lead to a step that is not orderly, and not to the return before. -/
def LateAlone (P : Params) (load : Workload P.numWords) (σ : Config P.numWords) (t : ℕ) : Prop :=
  ∃ alone σ', Run (step P load) σ alone σ' ∧ (∀ x ∈ alone, x.actor = ⟨t, false⟩) ∧
    (∀ x ∈ alone, ∀ result, ¬ Responds P x t (σ.threads t).completed result) ∧
    ∃ x ∈ alone, ¬ Orderly P x

/-- In every orderly run every thread with a call in progress returns after
finitely many steps of its own, as long as these are orderly too. -/
theorem returns_alone (rules : UsageRules P load cells) (ordered : GlobalOrder P load)
    (run : Execution P load cells trace σ) (orderly : ∀ x ∈ trace, Orderly P x) :
    ∀ t < P.numThreads, (σ.threads t).stack ≠ [] →
      ReturnsAlone P load σ t ∨ LateAlone P load σ t := by
  intro t within busy
  obtain ⟨alone, σ', onward, own, x, member, goal⟩ :=
    exists_response_or_late rules ordered run orderly within busy
  by_cases returns : ∃ y ∈ alone, ∃ result, Responds P y t (σ.threads t).completed result
  · exact .inl ⟨alone, σ', onward, own, returns⟩
  · refine .inr ⟨alone, σ', onward, own, ?_, x, member, goal.resolve_left ?_⟩
    · intro y inAlone result responds
      exact returns ⟨y, inAlone, result, responds⟩
    · exact fun responds => returns ⟨x, member, responds⟩

/-- A thread that has no calls left after orderly steps alone was not late. -/
theorem not_lateAlone {alone : Trace P} {σ' : Config P.numWords}
    (onward : Run (step P load) σ alone σ') (own : ∀ x ∈ alone, x.actor = ⟨t, false⟩)
    (orderly : ∀ x ∈ alone, Orderly P x) (stuck : step P load σ' ⟨t, false⟩ = none) :
    ¬ LateAlone P load σ t := by
  rintro ⟨other, σ'', run, alike, -, x, member, late⟩
  refine late (orderly x ?_)
  rcases run.begin_alike alike onward own with shorter | ⟨rest, rfl⟩
  · exact shorter.subset member
  · cases rest with
    | nil => simpa using member
    | cons y rest =>
      obtain ⟨reached, taken, -⟩ := run.split
      rw [alike y (by simp), ← onward.finish_unique reached, stuck] at taken
      cases taken

/-- In the contended run the second thread goes on alone from inside the first one's
call, and returns. -/
theorem returns_alone_contended : ∃ (trace : Trace twoThreads) (σ : Config twoThreads.numWords),
    Execution twoThreads contended (fun _ => 0) trace σ ∧ nesting (σ.threads 1).stack = 1 ∧
      ReturnsAlone twoThreads contended σ 1 := by
  obtain ⟨trace, σ, run, orderly, deep, helping, goesOn⟩ := exists_execution twoThreads contended
    (fun _ => 0) [(0, 18), (1, 16)]
    (fun trace σ => (∀ x ∈ trace, Orderly twoThreads x) ∧ (σ.threads 1).stack.length = 2 ∧
      nesting (σ.threads 1).stack = 1 ∧
      (replay (step twoThreads contended) σ (turns [(1, 14)])).any (fun ended =>
        (∀ x ∈ ended.1, x.actor = ⟨1, false⟩ ∧ Orderly twoThreads x) ∧
          (step twoThreads contended ended.2 ⟨1, false⟩).isNone = true) = true)
    (by decide +kernel)
  obtain ⟨alone, σ', onward, steps, stuck⟩ := exists_run_of_replay _ _ _
    (fun alone σ' => (∀ x ∈ alone, x.actor = ⟨1, false⟩ ∧ Orderly twoThreads x) ∧
      (step twoThreads contended σ' ⟨1, false⟩).isNone = true) goesOn
  have busy : (σ.threads 1).stack ≠ [] := fun idle => by simp [idle] at deep
  have onTime : ¬ LateAlone twoThreads contended σ 1 :=
    not_lateAlone onward (fun x member => (steps x member).1) (fun x member => (steps x member).2)
      (Option.isNone_iff_eq_none.mp stuck)
  exact ⟨trace, σ, run, helping, (returns_alone contended_rules
    (globalOrder_of_ascending (by decide +kernel)) run orderly 1 (by decide) busy).resolve_right
    onTime⟩

/-! ### A marker that stays -/

/-- The activation of `claim` runs around its loop at a cell that holds `marker`. -/
inductive Spins {numWords : ℕ} (op : Operation) (marker w target expected : ℕ) :
    List (Frame numWords) → Prop where
  | exchange {rest : List (Frame numWords)} : Spins op marker w target expected
      (.operating .originator op (.claimExchange w target expected) :: rest)
  | verify {rest : List (Frame numWords)} : Spins op marker w target expected
      (.operating .originator op (.claimVerify w target expected marker) :: rest)
  | help {rest : List (Frame numWords)} : Spins op marker w target expected
      (.helpThread marker :: .operating .originator op (.claimHelp w target expected) :: rest)
  | returned {helped : Operation} {result : Except HelpError Unit} {rest : List (Frame numWords)} :
    Spins op marker w target expected
      (.operating .helper helped (.returned result) ::
        .operating .originator op (.claimHelp w target expected) :: rest)

/-- A call at Claiming, and in its way the marker of a call that is over. -/
structure Obstructed (P : Params) (s : Shared) (t n u k target : ℕ) : Prop where
  marked : s.cells target = P.marker u k
  foreign : P.marker u k ≠ P.marker t n
  helpee : u < P.numThreads
  fits : k < 2 ^ P.markerSequenceBits
  gone : k < s.sequenceOf P u
  sequence : s.sequenceOf P t = n
  claiming : s.stageOf P t = .claiming

/-- A thread in that loop stays in it as long as it moves alone. -/
theorem spins_step (reached : Reached P load cells trace x) {u k : ℕ} (real : P.Legal expected)
    (blocked : Obstructed P x.before.shared t n u k target)
    (spins : Spins (P.operation t n) (P.marker u k) w target expected
      (x.before.threads x.actor.thread).stack) :
    (∀ result, x.event ≠ .responded result) ∧ x.after.shared = x.before.shared ∧
      Spins (P.operation t n) (P.marker u k) w target expected
        (x.after.threads x.actor.thread).stack := by
  have unreal : ¬ P.Legal (P.marker u k) := Params.marker_not_legal blocked.helpee blocked.fits
  have unexpected : x.before.shared.cells target ≠ expected := by
    rw [blocked.marked]
    rintro rfl
    exact unreal real
  have inTime {pc : Pc} : ¬ Diverted P x.before.shared .originator t n .claiming pc := by
    intro diverted
    cases diverted with
    | stage sequence stage moved => exact moved (stage ▸ blocked.claiming)
    | retired helper => cases helper
  have moves := reached.moves
  generalize x.before.threads x.actor.thread = thread at moves spins
  generalize x.after.threads x.actor.thread = thread' at moves ⊢
  generalize x.event = event at moves ⊢
  generalize x.after.shared = s' at moves ⊢
  generalize own : P.operation t n = op at spins ⊢
  generalize spot : P.marker u k = marker at spins ⊢
  cases moves with
  | invoke => cases spins
  | respond => cases spins
  | helpReturned =>
    cases spins
    exact ⟨by simp, rfl, .exchange⟩
  | move moves =>
    cases moves with
    | init => cases spins
    | @help v m pc within fits entry =>
      generalize same : P.marker v m = marker' at spins
      cases spins with
      | help =>
        obtain ⟨rfl, rfl⟩ := Params.marker_inj within fits blocked.helpee blocked.fits
          (same.trans spot.symm)
        cases entry with
        | retired gone => exact ⟨by simp, rfl, .returned⟩
        | terminal sequence => exact absurd sequence (Nat.ne_of_gt blocked.gone)
        | claiming sequence => exact absurd sequence (Nat.ne_of_gt blocked.gone)
        | setting sequence => exact absurd sequence (Nat.ne_of_gt blocked.gone)
        | reverting sequence => exact absurd sequence (Nat.ne_of_gt blocked.gone)
    | @operate role v m pc _ _ _ moves =>
      generalize same : P.operation v m = op' at spins
      cases spins with
      | exchange =>
        obtain ⟨rfl, rfl, -⟩ := (Operation.mk.injEq ..).mp (same.trans own.symm)
        cases moves with
        | claimed found => exact absurd found unexpected
        | claimSpurious found => exact absurd found unexpected
        | claimFoundOwn found => exact absurd (blocked.marked.symm.trans found) blocked.foreign
        | claimFoundOther =>
          rw [blocked.marked, spot, same]
          exact ⟨by simp, rfl, .verify⟩
      | verify =>
        obtain ⟨rfl, rfl, -⟩ := (Operation.mk.injEq ..).mp (same.trans own.symm)
        cases moves with
        | verifiedReal _ _ legal => exact absurd (spot ▸ legal) unreal
        | claimDiverted diverted => exact absurd diverted inTime
        | verifiedMarker =>
          rw [same]
          exact ⟨by simp, rfl, .help⟩
      | returned => cases moves

/-- The run of a thread in that loop. -/
theorem spins_run (rules : UsageRules P load cells) (run : Execution P load cells trace σ)
    {u k : ℕ} (real : P.Legal expected) (blocked : Obstructed P σ.shared t n u k target)
    (spins : Spins (P.operation t n) (P.marker u k) w target expected (σ.threads t).stack)
    {alone : Trace P} {σ' : Config P.numWords} (onward : Run (step P load) σ alone σ')
    (own : ∀ x ∈ alone, x.actor = ⟨t, false⟩) :
    Execution P load cells (trace ++ alone) σ' ∧ Obstructed P σ'.shared t n u k target ∧
      Spins (P.operation t n) (P.marker u k) w target expected (σ'.threads t).stack := by
  refine onward.invariant (fun x => x.actor = ⟨t, false⟩)
    (fun alone σ' => Execution P load cells (trace ++ alone) σ' ∧
      Obstructed P σ'.shared t n u k target ∧
      Spins (P.operation t n) (P.marker u k) w target expected (σ'.threads t).stack)
    ⟨by simpa using run, blocked, spins⟩ ?_ own
  rintro alone before actor event after - stepped rfl ⟨run, blocked, spins⟩
  have reached := reached_of_step (x := ⟨before, ⟨t, false⟩, event, after⟩) rules run stepped
  obtain ⟨-, kept, spins⟩ := spins_step reached real blocked spins
  refine ⟨?_, kept ▸ blocked, spins⟩
  rw [← List.append_assoc]
  exact run.snoc stepped

/-- A call whose way is obstructed does not return while its thread moves alone. -/
theorem not_returnsAlone (rules : UsageRules P load cells) (run : Execution P load cells trace σ)
    {u k : ℕ} (real : P.Legal expected) (blocked : Obstructed P σ.shared t n u k target)
    (spins : Spins (P.operation t n) (P.marker u k) w target expected (σ.threads t).stack) :
    ¬ ReturnsAlone P load σ t := by
  rintro ⟨alone, σ', onward, own, x, member, result, responds⟩
  obtain ⟨front, back, rfl⟩ := List.append_of_mem member
  obtain ⟨before, taken, -⟩ := onward.split
  obtain ⟨run, blocked, spins⟩ := spins_run rules run real blocked spins before fun y inFront =>
    own y (List.mem_append_left _ inFront)
  have thread : x.actor.thread = t := responds.1
  rw [← thread] at spins
  exact (spins_step (reached_of_step rules run taken) real (thread ▸ blocked) spins).1 result
    responds.2.2

/-- The run that leaves the marker of the first call, and the third thread's
next call, which comes to it. -/
def obstructedTurns : List (ℕ × ℕ) := staleMarkerTurns ++ [(2, 11)]

/-- The call `op` alone, at the claim exchange on cell 8. -/
def claimsCell8 {numWords : ℕ} (op : Operation) : List (Frame numWords) → Bool
  | [.operating .originator running (.claimExchange 0 8 0)] => decide (running = op)
  | _ => false

theorem eq_of_claimsCell8 {numWords : ℕ} {op : Operation} {stack : List (Frame numWords)}
    (claims : claimsCell8 op stack = true) :
    stack = [.operating .originator op (.claimExchange 0 8 0)] := by
  unfold claimsCell8 at claims
  split at claims
  case h_1 running => rw [of_decide_eq_true claims]
  case h_2 => cases claims

theorem not_returns_alone : ¬ ∀ (P : Params) (load : Workload P.numWords) (cells : ℕ → ℕ),
    UsageRules P load cells → GlobalOrder P load → ∀ trace σ, Execution P load cells trace σ →
      ∀ t < P.numThreads, (σ.threads t).stack ≠ [] → ReturnsAlone P load σ t := by
  intro claim
  obtain ⟨trace, σ, run, marked, gone, sequence, claiming, position⟩ :=
    exists_execution threeThreads staleMarker (fun _ => 0) obstructedTurns
      (fun _ σ => σ.shared.cells 8 = threeThreads.marker 0 0 ∧
        0 < σ.shared.sequenceOf threeThreads 0 ∧ σ.shared.sequenceOf threeThreads 2 = 1 ∧
        σ.shared.stageOf threeThreads 2 = .claiming ∧
        claimsCell8 (threeThreads.operation 2 1) (σ.threads 2).stack = true)
      (by decide +kernel)
  have stack := eq_of_claimsCell8 position
  have returns := claim threeThreads staleMarker (fun _ => 0) staleMarker_rules
    (globalOrder_of_ascending (by decide +kernel)) trace σ run 2 (by decide) (by simp [stack])
  refine not_returnsAlone (w := 0) staleMarker_rules run threeThreads.legal_zero
    ⟨marked, by decide +kernel, by decide, by decide +kernel, gone, sequence, claiming⟩ ?_ returns
  rw [stack]
  exact .exchange

end KCas
