import KCas.Library.Progress
import KCas.Moments
import KCas.Progress
import KCas.Weak

/-! Calls that share no cell. As long as no two calls in progress have a target in
common nobody meets a foreign marker: no call is helped, no step is late, whatever the
order of the addresses, and each call returns after a number of its own steps that
depends on the number of words alone. -/
namespace KCas

open Labelled Linearizability

variable {P : Params} {load : Workload P.numWords} {cells : ℕ → ℕ} {s s' : Shared}
  {σ σ' : Config P.numWords} {h t u n w : ℕ} {role : Role} {pc pc' : Pc} {event : Event}
  {stack : List (Frame P.numWords)} {frames : List (Frame P.numWords)} {trace steps : Trace P}
  {x : Transition (Config P.numWords) Actor Event}

/-- The calls that two threads have in progress share a cell. -/
def Conflict (P : Params) (load : Workload P.numWords) (σ : Config P.numWords) (t u : ℕ) : Prop :=
  t ≠ u ∧ (σ.threads t).stack ≠ [] ∧ (σ.threads u).stack ≠ [] ∧
    ∃ i < P.numWords, ∃ j < P.numWords, (load.call t (σ.threads t).completed).target i =
      (load.call u (σ.threads u).completed).target j

def ConflictFree (P : Params) (load : Workload P.numWords) (σ : Config P.numWords) : Prop :=
  ∀ t < P.numThreads, ∀ u < P.numThreads, ¬ Conflict P load σ t u

instance : Decidable (Conflict P load σ t u) := inferInstanceAs (Decidable (_ ∧ _ ∧ _ ∧ _))

instance : Decidable (ConflictFree P load σ) :=
  inferInstanceAs (Decidable (∀ t < P.numThreads, ∀ u < P.numThreads, _))

/-! ### A call that nobody helps -/

/-- What an originator knows at its position when nobody else works for its call. -/
def Undisturbed (P : Params) (load : Workload P.numWords) (s : Shared) (t n : ℕ) : Pc → Prop
  | .claimLoadTarget _ | .claimLoadExpected .. | .claimExchange .. => s.stageOf P t = .claiming
  | .claimVerify w _ _ actual =>
    s.stageOf P t = .claiming ∧ P.Legal actual ∧ ¬ Marked P load s t n w
  | .changeStage current _ next => s.stageOf P t = .claiming ∧ current = .claiming ∧
    ∀ w, next = .revert w → ¬ Marked P load s t n w
  | .setLoadTarget w | .setLoadDesired w _ | .setExchange w .. =>
    s.stageOf P t = .setting ∧ ∀ i < P.numWords, w ≤ i → Marked P load s t n i
  | .claimHelp .. | .setVerify _ => False
  | _ => True

/-- The call stack of a thread that helps nobody and is not helped. -/
def Unhelped (P : Params) (load : Workload P.numWords) (s : Shared) (t : ℕ) :
    List (Frame P.numWords) → Prop
  | [] | [.initializing ..] => True
  | [.operating _ op pc] => Undisturbed P load s t op.sequence pc
  | _ => False

/-- A call whose words are free or its own meets no foreign marker. -/
def Free (P : Params) (load : Workload P.numWords) (s : Shared) (t n : ℕ) : Prop :=
  ∀ w < P.numWords, P.Legal (s.cells ((load.call t n).target w)) ∨ Marked P load s t n w

theorem undisturbed_claimFrom {op : Operation} (claiming : s.stageOf P t = .claiming) :
    Undisturbed P load s t n (claimFrom P .originator op w) := by
  unfold claimFrom
  split
  · exact claiming
  · exact ⟨claiming, rfl, by simp⟩

theorem undisturbed_setFrom (setting : s.stageOf P t = .setting)
    (marked : ∀ i < P.numWords, w ≤ i → Marked P load s t n i) :
    Undisturbed P load s t n (setFrom P .originator w) := by
  unfold setFrom
  split
  · exact ⟨setting, marked⟩
  · trivial

theorem undisturbed_revertBelow {next : RevertNext} (pending : NextOk P s .originator t n next) :
    Undisturbed P load s' t n (revertBelow .originator next w) := by
  cases w with
  | succ w => trivial
  | zero =>
    cases next with
    | prepare => trivial
    | fail => exact pending.elim
    | changeToReverted => cases pending.1
    | helpReturn => cases pending.1

theorem Diverted.stage_ne {wanted : Stage} (diverted : Diverted P s .originator t n wanted pc) :
    s.stageOf P t ≠ wanted := by
  cases diverted with
  | stage _ stage other => exact stage ▸ other
  | retired helper => cases helper

/-- An originator that is alone with its call goes on so. -/
theorem undisturbed_of_moves {completed : ℕ} (rules : UsageRules P load cells)
    (ok : WorkOk P load s h completed .originator t n pc) (free : Free P load s t n)
    (held : Undisturbed P load s t n pc)
    (moves : OperationMoves P s .originator t n pc event s' frames) :
    ∃ pc', frames = [.operating .originator (P.operation t n) pc'] ∧
      Undisturbed P load s' t n pc' := by
  have position := ok.position
  have current := ok.current moves rfl
  have call := ok.call
  cases moves with
  | claimLoadTarget | claimLoadExpected | claimSpurious | setLoadTarget | setLoadDesired =>
    exact ⟨_, rfl, held⟩
  | claimed | claimFoundOwn => exact ⟨_, rfl, undisturbed_claimFrom held⟩
  | @claimFoundOther w target expected unexpected foreign =>
    obtain rfl := position.2.2.1.2 current
    have real := (free w position.1).resolve_right foreign
    exact ⟨_, rfl, held, real, foreign⟩
  | verifiedReal =>
    refine ⟨_, rfl, held.1, rfl, ?_⟩
    rintro w ⟨⟩
    exact held.2.2
  | verifiedMarker _ _ _ unreal => exact absurd held.2.1 unreal
  | claimDiverted diverted => exact absurd held.1 diverted.stage_ne
  | @stageChanged stage desired next _ _ edge =>
    have fits := rules.stage_lt call.within (Nat.le_of_lt call.counted)
    refine ⟨_, rfl, ?_⟩
    rcases position with ⟨rfl, rfl, rfl, below⟩ | ⟨w, -, rfl, rfl, rfl, -⟩ | ⟨helper, -⟩ |
      ⟨helper, -⟩
    · refine undisturbed_setFrom (Shared.stageOf_storeStage_self fits) fun i inRange _ => ?_
      exact below current held.1 i inRange
    · trivial
    · cases helper
    · cases helper
  | stageRefused diverted => exact absurd (held.2.1 ▸ held.1) diverted.stage_ne
  | @setDone w target desired found =>
    obtain rfl := position.2.2.1.2 current
    refine ⟨_, rfl, undisturbed_setFrom held.1 fun i inRange later => ?_⟩
    have other : (load.call t n).target i ≠ (load.call t n).target w := by
      intro same
      have := rules.distinct t call.within n call.counted i inRange w position.1 same
      omega
    rw [Marked, Shared.setCell_of_ne _ other]
    exact held.2 i inRange (by omega)
  | @setMissed w target desired missed =>
    obtain rfl := position.2.2.1.2 current
    exact absurd (held.2 w position.1 (Nat.le_refl w)) missed
  | setVerified | setDiverted => exact held.elim
  | reverted | revertMissed =>
    exact ⟨_, rfl, undisturbed_revertBelow position.2.1⟩
  | revertLoadTarget | revertLoadExpected | prepared => exact ⟨_, rfl, trivial⟩

/-- The store that publishes a call leads to its claims. -/
theorem unhelped_of_initMoves {words : KCasWords P.numWords} {pc : InitPc}
    (fits : s.sequenceOf P t < 2 ^ P.stageSequenceBits) (position : InitOk P s t words pc)
    (moves : InitMoves P s t words pc event s' frames) : Unhelped P load s' t frames := by
  cases moves with
  | @storeStage n =>
    obtain ⟨rfl, -⟩ := position
    exact undisturbed_claimFrom (Shared.stageOf_storeStage_self fits)
  | _ => trivial

/-- All threads are alone with their calls. -/
def AllUnhelped (P : Params) (load : Workload P.numWords) (σ : Config P.numWords) : Prop :=
  ∀ t < P.numThreads, Unhelped P load σ.shared t (σ.threads t).stack

theorem Works.unhelped (works : Works P σ h role t n pc) (ok : ConfigOk P load σ)
    (all : AllUnhelped P load σ) : h = t ∧ role = .originator ∧ Undisturbed P load σ.shared t n pc ∧
      (σ.threads h).completed = n ∧ RowAt P σ.shared t n pc := by
  have held := ok.callStacks h works.within
  have alone := all h works.within
  have member := works.member
  generalize (σ.threads h).stack = stack at held alone member
  generalize (σ.threads h).completed = completed at held ⊢
  cases stack with
  | nil => cases member
  | cons frame rest =>
    cases rest with
    | cons caller rest =>
      cases frame <;> exact alone.elim
    | nil =>
      obtain rfl := List.mem_singleton.mp member
      obtain ⟨rfl, same, -, row, -⟩ := held
      obtain ⟨rfl, rfl, -⟩ := (Operation.mk.injEq ..).mp same
      exact ⟨rfl, rfl, alone, rfl, row⟩

/-- In an orderly run the words of a call without conflicts are free. -/
theorem free_of_conflictFree (ok : ConfigOk P load σ) (marks : MarksOk P load σ.shared)
    (apart : ConflictFree P load σ) (within : t < P.numThreads)
    (busy : (σ.threads t).stack ≠ []) :
    Free P load σ.shared t (σ.threads t).completed := by
  intro w inRange
  refine (ok.shared.cell _).imp_right ?_
  rintro ⟨u, withinU, k, counted, held, -⟩
  obtain ⟨now, active, j, inRange', same⟩ := marks.current u withinU k counted _ held
  obtain ⟨completed, busyU⟩ := ok.inProgress withinU active
  obtain rfl := completed.trans now
  by_cases own : t = u
  · subst own
    exact held
  · exact absurd ⟨own, busy, busyU, w, inRange, j, inRange', same⟩ (apart t within u withinU)

/-! ### Steps without conflicts -/

theorem Undisturbed.congr (held : Undisturbed P load s t n pc)
    (stage : s'.stageOf P t = s.stageOf P t)
    (marks : ∀ w, Marked P load s' t n w ↔ Marked P load s t n w) :
    Undisturbed P load s' t n pc := by
  cases pc <;> simp only [Undisturbed, stage, marks] at held ⊢ <;> exact held

/-- Nobody else touches the row or the markers of a call. -/
theorem Reached.undisturbed_other (reached : Reached P load cells trace x)
    (rules : UsageRules P load cells) (all : AllUnhelped P load x.before)
    (within : t < P.numThreads) (other : t ≠ x.actor.thread) (counted : n < load.count t)
    (held : Undisturbed P load x.before.shared t n pc) :
    Undisturbed P load x.after.shared t n pc := by
  have own {role : Role} {k : ℕ} {pc : Pc} (works : Works P x.before x.actor.thread role t k pc) :
      False := other (works.unhelped reached.before all).1.symm
  refine held.congr ?_ fun w => ⟨fun marked => ?_, fun marked => ?_⟩
  · cases reached.rowStep rules t with
    | kept same => exact Shared.stageOf_congr same
    | published owner => exact absurd owner.symm other
    | exchanged works => exact (own works).elim
    | retired works => exact (own works).elim
  · rcases reached.mark_found rules within counted marked with held | ⟨role, i, expected, works, -⟩
    · exact held
    · exact (own works).elim
  · by_contra lost
    rcases reached.mark_lost rules within counted marked lost with
      ⟨role, i, desired, works, -⟩ | ⟨role, i, expected, next, works, -⟩
    · exact (own works).elim
    · exact (own works).elim

/-- The thread that moves stays alone with its call. -/
theorem Reached.unhelped_own (reached : Reached P load cells trace x)
    (rules : UsageRules P load cells) (marks : MarksOk P load x.before.shared)
    (apart : ConflictFree P load x.before) (all : AllUnhelped P load x.before) :
    Unhelped P load x.after.shared x.actor.thread (x.after.threads x.actor.thread).stack := by
  have held := reached.before.callStacks _ reached.within
  have alone := all _ reached.within
  have free := free_of_conflictFree reached.before marks apart reached.within
  have bound := rules.stage_lt reached.within (reached.before.shared.bound _ reached.within)
  have moves := reached.moves
  generalize x.before.threads x.actor.thread = thread at moves held alone free
  generalize x.after.threads x.actor.thread = thread' at moves ⊢
  generalize x.event = event at moves
  generalize x.after.shared = s' at moves ⊢
  cases moves with
  | invoke => trivial
  | respond => trivial
  | helpReturned => exact alone.elim
  | @move completed frame rest _ _ frames moves =>
    cases rest with
    | cons caller rest => cases frame <;> exact alone.elim
    | nil =>
      rw [List.append_nil]
      cases moves with
      | init moves =>
        obtain ⟨-, rfl, -, -, -, -, position⟩ := held
        exact unhelped_of_initMoves bound position moves
      | help => exact held.elim
      | @operate role t n pc _ _ _ moves =>
        obtain ⟨same, ok⟩ := workOk_of_originatorOk reached.within held
        obtain ⟨rfl, rfl, -⟩ := (Operation.mk.injEq ..).mp same
        obtain ⟨rfl, -⟩ := held
        obtain ⟨pc', rfl, after⟩ := undisturbed_of_moves rules ok (free (by simp)) alone moves
        exact after

theorem allUnhelped_step (rules : UsageRules P load cells) (reached : Reached P load cells trace x)
    (marks : MarksOk P load x.before.shared) (apart : ConflictFree P load x.before)
    (all : AllUnhelped P load x.before) : AllUnhelped P load x.after := by
  intro t within
  by_cases own : t = x.actor.thread
  · subst own
    exact reached.unhelped_own rules marks apart all
  · rw [reached.others t own]
    have held := reached.before.callStacks t within
    have alone := all t within
    generalize (x.before.threads t).stack = stack at held alone
    generalize (x.before.threads t).completed = completed at held
    cases stack with
    | nil => trivial
    | cons frame rest =>
      cases rest with
      | cons caller rest => cases frame <;> exact alone.elim
      | nil =>
        cases frame with
        | initializing => trivial
        | helpThread => exact alone.elim
        | operating role op pc =>
          obtain ⟨-, rfl, counted, -⟩ := held
          exact reached.undisturbed_other rules all within own counted alone

theorem event_of_claimedFor {op : Operation} (claims : op ∈ event.claimedFor) :
    ∃ w target expected new actual,
      event = .exchangeCell .claim op w target expected new (.ok actual) := by
  unfold Event.claimedFor at claims
  split at claims
  · obtain rfl := Option.some.inj claims
    exact ⟨_, _, _, _, _, rfl⟩
  · cases claims

theorem event_of_failedAt {op : Operation} (fails : (op, w) ∈ event.failedAt) :
    ∃ role actual,
      event = .exchangeStage role op .claiming .reverting (.revert w) (.ok actual) := by
  unfold Event.failedAt at fails
  split at fails
  · obtain ⟨rfl, rfl⟩ := (Prod.mk.injEq ..).mp (Option.some.inj fails)
    exact ⟨_, _, rfl⟩
  · cases fails

/-- Nobody is late in a step of an originator that is alone. -/
theorem Reached.orderly_of_unhelped (reached : Reached P load cells trace x)
    (rules : UsageRules P load cells) (all : AllUnhelped P load x.before) : Orderly P x := by
  constructor
  · intro op claims
    obtain ⟨w, target, expected, new, actual, event⟩ := event_of_claimedFor claims
    obtain ⟨role, -, works, -⟩ := reached.exchange event
    have call := (works.ok reached.before).call
    obtain ⟨-, -, claiming, -, row⟩ := works.unhelped reached.before all
    exact (reached.before.shared.word_eq_iff rules call.within (Nat.le_of_lt call.counted)).mpr
      ⟨claiming, row.2⟩
  · rintro ⟨op, w⟩ fails j inRange above marked
    obtain ⟨role, actual, event⟩ := event_of_failedAt fails
    obtain ⟨t, n, rfl, works, current, claiming, -⟩ := reached.stageExchanged event
    obtain ⟨-, -, undisturbed, -⟩ := works.unhelped reached.before all
    have call := (works.ok reached.before).call
    subst current
    -- markers are on a prefix of the words, and the word that failed has none
    rw [Params.operation_threadIndex, (reached.before.shared.words call inRange rfl).1] at marked
    obtain ⟨i, inRange', same, below⟩ :=
      reached.before.shared.claimed t call.within claiming _ marked
    obtain rfl := rules.distinct t call.within _ call.counted j inRange i inRange' same
    exact undisturbed.2.2 w rfl (below w above)

/-- A run without conflicts is orderly, and nobody helps in it. -/
theorem orderly_of_conflictFree (rules : UsageRules P load cells)
    (run : Execution P load cells trace σ) (apart : ∀ x ∈ trace, ConflictFree P load x.before) :
    (∀ x ∈ trace, Orderly P x) ∧ AllUnhelped P load σ := by
  refine execution_invariant (fun x => ConflictFree P load x.before)
    (fun trace σ => (∀ x ∈ trace, Orderly P x) ∧ AllUnhelped P load σ) rules
    ⟨by simp, fun t _ => trivial⟩ ?_ run apart
  rintro trace x reached apart ⟨orderly, all⟩
  have marks := (marksOk_of_orderly rules reached.run orderly).2
  refine ⟨?_, allUnhelped_step rules reached marks apart all⟩
  intro y member
  rcases List.mem_append.mp member with earlier | last
  · exact orderly y earlier
  · obtain rfl := List.mem_singleton.mp last
    exact reached.orderly_of_unhelped rules all

/-! ### The steps of one call -/

/-- The accesses that an operation has left when it is alone with its call. -/
def Pc.left (numWords : ℕ) : Pc → ℕ
  | .claimLoadTarget w => 3 * (numWords - w) + 3 * numWords + 4
  | .claimLoadExpected w _ => 3 * (numWords - w) + 3 * numWords + 3
  | .claimExchange w .. => 3 * (numWords - w) + 3 * numWords + 2
  | .claimVerify .. => 3 * numWords + 4
  | .changeStage .. => 3 * numWords + 3
  | .setLoadTarget w => 3 * (numWords - w) + 2
  | .setLoadDesired w _ => 3 * (numWords - w) + 1
  | .setExchange w .. => 3 * (numWords - w)
  | .revertLoadTarget w _ => 3 * w + 5
  | .revertLoadExpected w .. => 3 * w + 4
  | .revertExchange w .. => 3 * w + 3
  | .prepare _ => 2
  | .finished _ => 1
  | _ => 0

def InitPc.left (numWords : ℕ) : InitPc → ℕ
  | .storeTarget w => 3 * (numWords - w) + 6 * numWords + 6
  | .storeExpected w => 3 * (numWords - w) + 6 * numWords + 5
  | .storeDesired w => 3 * (numWords - w) + 6 * numWords + 4
  | .loadStage => 6 * numWords + 6
  | .storeStage _ => 6 * numWords + 5

/-- The steps that a thread has left until it returns, and before its next call. -/
def stackLeft (P : Params) : List (Frame P.numWords) → ℕ
  | [] => 9 * P.numWords + 7
  | [.initializing _ _ _ pc] => pc.left P.numWords
  | [.operating _ _ pc] => pc.left P.numWords
  | _ => 0

theorem left_claimFrom {op : Operation} :
    (claimFrom P .originator op w).left P.numWords ≤ 3 * (P.numWords - w) + 3 * P.numWords + 4 := by
  unfold claimFrom
  split
  · exact Nat.le_refl _
  · simp only [afterClaim, claimAndTransition, Pc.left]
    omega

theorem left_setFrom : (setFrom P .originator w).left P.numWords ≤ 3 * (P.numWords - w) + 2 := by
  unfold setFrom
  split
  · exact Nat.le_refl _
  · simp only [afterSetOk, Pc.left]
    omega

theorem left_revertBelow {next : RevertNext} (pending : NextOk P s .originator t n next) :
    (revertBelow .originator next w).left P.numWords ≤ 3 * w + 2 := by
  cases w with
  | succ w =>
    simp only [revertBelow, Pc.left]
    omega
  | zero =>
    cases next with
    | prepare => exact Nat.le_refl 2
    | fail => exact pending.elim
    | changeToReverted => cases pending.1
    | helpReturn => cases pending.1

/-- Each access of an originator that is alone brings it nearer to its return, unless a
weak exchange fails for no reason. -/
theorem left_of_moves {completed : ℕ} (ok : WorkOk P load s h completed .originator t n pc)
    (held : Undisturbed P load s t n pc)
    (moves : OperationMoves P s .originator t n pc event s'
      [.operating .originator (P.operation t n) pc']) :
    pc'.left P.numWords ≤ pc.left P.numWords ∧
      (event.failsWeakly = false → pc'.left P.numWords < pc.left P.numWords) := by
  have position := ok.position
  have within (less : pc'.left P.numWords < pc.left P.numWords) :
      pc'.left P.numWords ≤ pc.left P.numWords ∧
        (event.failsWeakly = false → pc'.left P.numWords < pc.left P.numWords) :=
    ⟨Nat.le_of_lt less, fun _ => less⟩
  cases moves with
  | claimSpurious => exact ⟨Nat.le_refl _, by simp [Event.failsWeakly]⟩
  | @claimed w | @claimFoundOwn w =>
    have inRange : w < P.numWords := position.1
    refine within (Nat.lt_of_le_of_lt left_claimFrom ?_)
    simp only [Pc.left]
    omega
  | @claimFoundOther w =>
    have inRange : w < P.numWords := position.1
    refine within ?_
    simp only [Pc.left]
    omega
  | claimDiverted diverted => exact absurd held.1 diverted.stage_ne
  | stageChanged =>
    refine within ?_
    rcases position with ⟨-, -, rfl, -⟩ | ⟨w, inRange, -, -, rfl, -⟩ | ⟨helper, -⟩ | ⟨helper, -⟩
    · refine Nat.lt_of_le_of_lt left_setFrom ?_
      simp only [Pc.left]
      omega
    · simp only [afterStageChanged, Pc.left]
      omega
    · cases helper
    · cases helper
  | stageRefused diverted => exact absurd (held.2.1 ▸ held.1) diverted.stage_ne
  | @setDone w =>
    have inRange : w < P.numWords := position.1
    refine within (Nat.lt_of_le_of_lt left_setFrom ?_)
    simp only [Pc.left]
    omega
  | @setMissed w target desired missed =>
    obtain rfl := position.2.2.1.2 (ok.own rfl).2.2.2
    exact absurd (held.2 w position.1 (Nat.le_refl w)) missed
  | setVerified | setDiverted => exact held.elim
  | reverted | revertMissed =>
    refine within (Nat.lt_of_le_of_lt (left_revertBelow position.2.1) ?_)
    simp only [Pc.left]
    omega
  | claimLoadTarget | claimLoadExpected | verifiedReal | setLoadTarget | setLoadDesired
  | revertLoadTarget | revertLoadExpected | prepared =>
    refine within ?_
    simp only [Pc.left]
    omega

theorem left_of_initMoves {words : KCasWords P.numWords} {pc : InitPc}
    (moves : InitMoves P s t words pc event s' frames) :
    stackLeft P frames < pc.left P.numWords := by
  cases moves with
  | storeDesired =>
    simp only [stackLeft]
    split <;> simp only [InitPc.left] <;> omega
  | storeStage =>
    refine Nat.lt_of_le_of_lt left_claimFrom ?_
    simp only [InitPc.left]
    omega
  | _ =>
    simp only [stackLeft, InitPc.left]
    omega

/-- A thread that takes a step comes nearer to the return of its call. -/
theorem Reached.left_own (reached : Reached P load cells trace x)
    (rules : UsageRules P load cells) (marks : MarksOk P load x.before.shared)
    (apart : ConflictFree P load x.before) (all : AllUnhelped P load x.before)
    (calm : ∀ result, x.event ≠ .responded result) :
    stackLeft P (x.after.threads x.actor.thread).stack ≤
        stackLeft P (x.before.threads x.actor.thread).stack ∧
      (x.event.failsWeakly = false → stackLeft P (x.after.threads x.actor.thread).stack <
        stackLeft P (x.before.threads x.actor.thread).stack) := by
  have within {after before : ℕ} {fails : Prop} (less : after < before) :
      after ≤ before ∧ (fails → after < before) := ⟨Nat.le_of_lt less, fun _ => less⟩
  have held := reached.before.callStacks _ reached.within
  have alone := all _ reached.within
  have free := free_of_conflictFree reached.before marks apart reached.within
  have moves := reached.moves
  generalize x.before.threads x.actor.thread = thread at moves held alone free ⊢
  generalize x.after.threads x.actor.thread = thread' at moves ⊢
  generalize x.event = event at moves calm ⊢
  generalize x.after.shared = s' at moves
  cases moves with
  | invoke =>
    refine within ?_
    simp only [stackLeft]
    split <;> simp only [InitPc.left] <;> omega
  | respond => exact absurd rfl (calm _)
  | helpReturned => exact alone.elim
  | @move completed frame rest _ _ frames moves =>
    cases rest with
    | cons caller rest => cases frame <;> exact alone.elim
    | nil =>
      rw [List.append_nil]
      cases moves with
      | init moves => exact within (left_of_initMoves moves)
      | help => exact held.elim
      | @operate role t n pc _ _ _ moves =>
        obtain ⟨same, ok⟩ := workOk_of_originatorOk reached.within held
        obtain ⟨rfl, rfl, -⟩ := (Operation.mk.injEq ..).mp same
        obtain ⟨rfl, -⟩ := held
        obtain ⟨pc', rfl, -⟩ := undisturbed_of_moves rules ok (free (by simp)) alone moves
        exact left_of_moves ok alone moves

theorem stackLeft_le {completed : ℕ} (held : StackOk P load s t completed stack) :
    stackLeft P stack ≤ 9 * P.numWords + 7 := by
  cases stack with
  | nil => exact Nat.le_refl _
  | cons frame rest =>
    cases rest with
    | cons caller rest => cases frame <;> exact Nat.zero_le _
    | nil =>
      cases frame with
      | initializing threadId threadIndex words pc =>
        cases pc <;> simp only [stackLeft, InitPc.left] <;> omega
      | helpThread => exact held.elim
      | operating role op pc =>
        obtain ⟨rfl, -, -, -, position⟩ := held
        cases pc with
        | revertLoadTarget w | revertLoadExpected w | revertExchange w =>
          have inRange : w < P.numWords := position.1
          simp only [stackLeft, Pc.left]
          omega
        | _ =>
          simp only [stackLeft, Pc.left]
          omega

theorem stackLeft_pos {completed : ℕ} (held : StackOk P load s t completed stack)
    (alone : Unhelped P load s t stack) : 0 < stackLeft P stack := by
  cases stack with
  | nil => exact Nat.succ_pos _
  | cons frame rest =>
    cases rest with
    | cons caller rest => cases frame <;> exact alone.elim
    | nil =>
      cases frame with
      | initializing threadId threadIndex words pc =>
        cases pc <;> simp only [stackLeft, InitPc.left] <;> omega
      | helpThread => exact held.elim
      | operating role op pc =>
        obtain ⟨rfl, -, -, -, position⟩ := held
        cases pc with
        | setExchange w =>
          have inRange : w < P.numWords := position.1
          simp only [stackLeft, Pc.left]
          omega
        | claimHelp | setVerify => exact alone.elim
        | returned => cases position.1
        | panicked => exact position.elim
        | _ => simp only [stackLeft, Pc.left, Nat.zero_lt_succ]

/-! ### Runs without conflicts -/

/-- A step of the thread index, unless it is a weak exchange that fails for no reason. -/
def takesStep (t : ℕ) (x : Transition (Config P.numWords) Actor Event) : Bool :=
  x.actor.thread = t && !x.event.failsWeakly

/-- While no two calls in progress share a cell nobody helps, each call returns with its
`9 * NUM_WORDS + 7`th own step at the latest, whatever the others do, and a thread with a
call in progress is never stuck. -/
theorem conflict_free_returns (rules : UsageRules P load cells)
    (run : Execution P load cells trace σ) (onward : Run (step P load) σ steps σ')
    (apart : ∀ x ∈ trace ++ steps, ConflictFree P load x.before) (within : t < P.numThreads)
    (silent : ∀ x ∈ steps, ∀ n result, ¬ Responds P x t n result) :
    steps.countP (takesStep t) ≤ 9 * P.numWords + 6 ∧ nesting (σ'.threads t).stack = 0 ∧
      ((σ'.threads t).stack ≠ [] → ∀ spurious, ∃ event σ'',
        step P load σ' ⟨t, spurious⟩ = some (event, σ'')) := by
  have whole := run.append onward
  obtain ⟨orderly, all⟩ := orderly_of_conflictFree rules whole apart
  have ok := configOk_of_execution rules whole
  have start := stackLeft_le ((configOk_of_execution rules run).callStacks t within)
  have finish := stackLeft_pos (ok.callStacks t within) (all t within)
  have step {x : Transition (Config P.numWords) Actor Event} (member : x ∈ steps) :
      stackLeft P (x.after.threads t).stack ≤ stackLeft P (x.before.threads t).stack ∧
        (takesStep t x = true →
          stackLeft P (x.after.threads t).stack < stackLeft P (x.before.threads t).stack) := by
    obtain ⟨front, back, rfl⟩ := List.append_of_mem member
    have reached : Reached P load cells (trace ++ front) x :=
      reached_of_split rules (by simpa using whole)
    obtain ⟨before, alone⟩ := orderly_of_conflictFree rules reached.run fun y early =>
      apart y (by simp only [List.mem_append, List.mem_cons] at early ⊢; tauto)
    by_cases own : x.actor.thread = t
    · subst own
      obtain ⟨le, lt⟩ := reached.left_own rules (marksOk_of_orderly rules reached.run before).2
        (apart x (by simp)) alone fun result event => silent x member _ result ⟨rfl, rfl, event⟩
      exact ⟨le, fun takes => lt (by simpa [takesStep] using takes)⟩
    · rw [reached.others t (Ne.symm own)]
      exact ⟨Nat.le_refl _, by simp [takesStep, own]⟩
  have few := onward.countP_le_of_lowers (fun σ => stackLeft P (σ.threads t).stack)
    (fun x member takes => (step member).2 takes) fun x member _ => (step member).1
  refine ⟨by omega, ?_, fun busy spurious =>
    exists_step ok (awake_of_execution rules whole) within busy spurious⟩
  have held := ok.callStacks t within
  have alone := all t within
  generalize (σ'.threads t).stack = stack at held alone
  cases stack with
  | nil => rfl
  | cons frame rest =>
    cases rest with
    | cons caller rest => cases frame <;> exact alone.elim
    | nil =>
      cases frame with
      | initializing => rfl
      | helpThread => exact alone.elim
      | operating role op pc =>
        obtain ⟨rfl, -⟩ := held
        rfl

/-- The second thread calls on the cells of the first one's earlier call, in the other
order, while that is on its next. -/
def apartCalls : Workload twoThreads.numWords := .ofCalls
  [[twoWords (onCell 0 0 1) (onCell 1 0 1), twoWords (onCell 2 0 1) (onCell 3 0 1)],
    [twoWords (onCell 1 1 2) (onCell 0 1 2)]]

theorem apartCalls_rules : UsageRules twoThreads apartCalls fun _ => 0 :=
  usageRules_of_checks (by decide +kernel)

/-- In the second calls the threads take turns. -/
theorem conflict_free_returns_apart : ∃ (steps : Trace twoThreads)
    (σ σ' : Config twoThreads.numWords), Run (step twoThreads apartCalls) σ steps σ' ∧
      steps.length = 37 ∧ steps.countP (takesStep 1) ≤ 24 ∧ nesting (σ'.threads 1).stack = 0 := by
  obtain ⟨trace, σ', run, length, apart, calm⟩ := exists_execution twoThreads apartCalls
    (fun _ => 0) [(0, 36), (1, 20), (0, 5)]
    (fun trace _ => trace.length = 61 ∧ (∀ x ∈ trace, ConflictFree twoThreads apartCalls x.before) ∧
      ∀ x ∈ trace.drop 24, x.event.isResponse = false) (by decide +kernel)
  rw [← List.take_append_drop 24 trace] at run apart
  obtain ⟨σ, earlier, onward⟩ := run.cut
  obtain ⟨few, none, -⟩ := conflict_free_returns (t := 1) apartCalls_rules earlier onward apart
    (by decide) (by
      rintro x member n result ⟨-, -, responded⟩
      have quiet := calm x member
      rw [responded] at quiet
      cases quiet)
  exact ⟨trace.drop 24, σ, σ', onward, by simp [length], few, none⟩

/-- A run without conflicts is linearizable without any order of the addresses: at its end
and at each of its moments the cells are those that its calls, one after another, lead to. -/
theorem conflict_free_linearizable (rules : UsageRules P load cells)
    (run : Execution P load cells trace σ) (apart : ∀ x ∈ trace, ConflictFree P load x.before) :
    ∃ order, Completion (fun call => atomicKcas (load.call call.1 call.2)) cells
        (AgreesWith P σ) (trace.filterMap (actionOf P)) order ∧
      ∀ front back middle, trace = front ++ back → Execution P load cells front middle →
        ∃ done, done <+: order ∧ Moment P load cells front middle done := by
  have orderly := (orderly_of_conflictFree rules run apart).1
  exact ⟨_, completion_of_orderly rules run orderly, fun _ _ _ split reached =>
    ⟨_, moment_of_orderly rules run orderly split reached⟩⟩

theorem conflict_free_linearizable_apart : ∃ (trace : Trace twoThreads)
    (σ : Config twoThreads.numWords), Execution twoThreads apartCalls (fun _ => 0) trace σ ∧
      trace.length = 72 ∧ σ.shared.cells 8 = 2 ∧ ∃ order,
        Completion (fun call => atomicKcas (apartCalls.call call.1 call.2)) (fun _ => 0)
          (AgreesWith twoThreads σ) (trace.filterMap (actionOf twoThreads)) order := by
  obtain ⟨trace, σ, run, length, cell, apart⟩ := exists_execution twoThreads apartCalls
    (fun _ => 0) [(0, 36), (1, 20), (0, 5), (1, 4), (0, 7)]
    (fun trace σ => trace.length = 72 ∧ σ.shared.cells 8 = 2 ∧
      ∀ x ∈ trace, ConflictFree twoThreads apartCalls x.before) (by decide +kernel)
  obtain ⟨order, explained, -⟩ := conflict_free_linearizable apartCalls_rules run apart
  exact ⟨trace, σ, run, length, cell, order, explained⟩

end KCas
