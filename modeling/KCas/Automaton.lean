import Mathlib.Data.List.Chain
import KCas.Activation

/-! The stage word of a row over a whole run: every change is an exchange on
behalf of the call whose sequence the row carries, or one of its owner's two
stores. What a row went through is remembered by the run, and is what the
originator reports. -/
namespace KCas

open Labelled

variable {P : Params} {load : Workload P.numWords} {cells : ℕ → ℕ} {s s' : Shared}
  {σ : Config P.numWords} {h t n w target expected desired : ℕ} {role : Role} {pc : Pc}
  {event : Event} {frames stack : List (Frame P.numWords)} {trace front back : Trace P}
  {x : Transition (Config P.numWords) Actor Event} {result : Except Error Unit}

/-! ### One step -/

/-- What a step does to the row of thread index `t`. -/
inductive RowStep (P : Params) (x : Transition (Config P.numWords) Actor Event) (t : ℕ) : Prop where
  | kept : x.after.shared.state.stageAndSequenceNumbers t =
      x.before.shared.state.stageAndSequenceNumbers t → RowStep P x t
  | published {n : ℕ} : x.actor.thread = t → (x.before.threads t).completed = n →
      x.event = .storeStage t (P.stageWord .claiming n) →
      x.before.shared.stageOf P t = .inactive → x.before.shared.sequenceOf P t = n →
      x.after.shared.stageOf P t = .claiming → x.after.shared.sequenceOf P t = n → RowStep P x t
  | exchanged {n : ℕ} {role : Role} {current desired : Stage} {next : StageNext} :
      Works P x.before x.actor.thread role t n (.changeStage current desired next) →
      x.event = .exchangeStage role (P.operation t n) current desired next
        (.ok (P.stageWord current n)) → StageEdge current desired →
      x.before.shared.stageOf P t = current → x.before.shared.sequenceOf P t = n →
      x.after.shared.stageOf P t = desired → x.after.shared.sequenceOf P t = n → RowStep P x t
  | retired {n : ℕ} {result : Except Error Unit} :
      Works P x.before x.actor.thread .originator t n (.prepare result) →
      x.actor.thread = t → (x.before.threads t).completed = n →
      x.event = .storeStage t (P.stageWord .inactive (n + 1)) →
      x.before.shared.stageOf P t ∈ [.setting, .successful, .reverting, .reverted] →
      x.before.shared.sequenceOf P t = n → x.after.shared.stageOf P t = .inactive →
      x.after.shared.sequenceOf P t = n + 1 → RowStep P x t

theorem PreparedOk.stage {result : Except Error Unit}
    (held : PreparedOk P s t n [.setting, .successful] result) (current : s.sequenceOf P t = n) :
    s.stageOf P t ∈ [.setting, .successful, .reverting, .reverted] := by
  rcases held with ⟨-, stage⟩ | ⟨-, stage⟩
  · exact List.mem_append_left [.reverting, .reverted] (stage current)
  · exact List.mem_append_right [.setting, .successful] (stage current)

/-- The moves that write to a stage word. -/
theorem OperationMoves.row (moves : OperationMoves P s role t n pc event s' frames) (u : ℕ) :
    s'.state.stageAndSequenceNumbers u = s.state.stageAndSequenceNumbers u ∨
      (u = t ∧ ∃ current desired next, pc = .changeStage current desired next ∧
        event = .exchangeStage role (P.operation t n) current desired next
          (.ok (P.stageWord current n)) ∧ StageEdge current desired ∧
        s.stageOf P t = current ∧ s.sequenceOf P t = n ∧
        s' = s.storeStage t (P.stageWord desired n)) ∨
      (u = t ∧ ∃ result, pc = .prepare result ∧
        event = .storeStage t (P.stageWord .inactive (n + 1)) ∧
        s' = s.storeStage t (P.stageWord .inactive (n + 1))) := by
  by_cases same : u = t
  · subst same
    cases moves with
    | stageChanged sequence stage edge =>
      exact .inr (.inl ⟨rfl, _, _, _, rfl, rfl, edge, stage, sequence, rfl⟩)
    | prepared => exact .inr (.inr ⟨rfl, _, rfl, rfl, rfl⟩)
    | _ => exact .inl rfl
  · left
    cases moves <;> simp [Shared.setCell, Shared.storeStage, same]

theorem InitMoves.row {words : KCasWords P.numWords} {pc : InitPc}
    (moves : InitMoves P s t words pc event s' frames) (u : ℕ) :
    s'.state.stageAndSequenceNumbers u = s.state.stageAndSequenceNumbers u ∨
      (u = t ∧ ∃ n, pc = .storeStage n ∧ event = .storeStage t (P.stageWord .claiming n) ∧
        s' = s.storeStage t (P.stageWord .claiming n)) := by
  by_cases same : u = t
  · subst same
    cases moves with
    | storeStage => exact .inr ⟨rfl, _, rfl, rfl, rfl⟩
    | _ => exact .inl rfl
  · left
    cases moves <;>
      simp [Shared.storeTarget, Shared.storeExpected, Shared.storeDesired, Shared.storeStage, same]

theorem Reached.rowStep (reached : Reached P load cells trace x) (rules : UsageRules P load cells)
    (t : ℕ) : RowStep P x t := by
  have held := reached.before.callStacks _ reached.within
  have shared := reached.before.shared
  have moves := reached.moves
  generalize shape : x.before.threads x.actor.thread = thread at moves held
  generalize shape' : x.after.threads x.actor.thread = thread' at moves
  generalize same : x.event = event at moves
  generalize same' : x.after.shared = s' at moves
  cases moves with
  | invoke => exact .kept (by rw [← same'])
  | helpReturned => exact .kept (by rw [← same'])
  | respond => exact .kept (by rw [← same'])
  | @move completed frame rest _ _ frames moves =>
    cases moves with
    | help => exact .kept (by rw [← same'])
    | @init u words pc _ _ _ moves =>
      rcases moves.row t with kept | ⟨rfl, n, rfl, rfl, rfl⟩
      · exact .kept (same' ▸ kept)
      · cases rest with
        | cons caller rest => exact held.1.elim
        | nil =>
          obtain ⟨-, own, -, counted, inactive, sequence, current, -⟩ := held
          subst own
          have fits := rules.stage_lt reached.within (Nat.le_of_lt counted)
          have callNumber : n = completed := current.trans sequence
          subst callNumber
          refine .published rfl (by rw [shape]) same inactive sequence ?_ ?_
          · rw [same', Shared.stageOf_storeStage_self fits]
          · rw [same', Shared.sequenceOf_storeStage_self fits]
    | @operate role u n pc _ _ _ moves =>
      rcases moves.row t with kept |
        ⟨rfl, current, desired, next, rfl, rfl, edge, stage, sequence, rfl⟩ |
        ⟨rfl, result, rfl, rfl, rfl⟩
      · exact .kept (same' ▸ kept)
      · have works : Works P x.before x.actor.thread role t n (.changeStage current desired next) :=
          ⟨reached.within, by rw [shape]; exact List.mem_cons_self⟩
        have call := (works.ok reached.before).call
        have fits := rules.stage_lt call.within (Nat.le_of_lt call.counted)
        refine .exchanged works same edge stage sequence ?_ ?_
        · rw [same', Shared.stageOf_storeStage_self fits]
        · rw [same', Shared.sequenceOf_storeStage_self fits]
      · have works : Works P x.before x.actor.thread role t n (.prepare result) :=
          ⟨reached.within, by rw [shape]; exact List.mem_cons_self⟩
        have ok := works.ok reached.before
        obtain ⟨rfl, callNumber, row⟩ := ok.own ok.position.1
        have fits := rules.stage_lt ok.call.within ok.call.counted
        refine .retired (ok.position.1 ▸ works) rfl callNumber.symm same
          (ok.position.2.stage row.2) row.2 ?_ ?_
        · rw [same', Shared.stageOf_storeStage_self fits]
        · rw [same', Shared.sequenceOf_storeStage_self fits]

/-! ### Whole runs -/

/-- At some step of the run the row of thread index `t` went through `stage`
with sequence `n`. -/
def Passed (P : Params) (trace : Trace P) (t n : ℕ) (stage : Stage) : Prop :=
  ∃ x ∈ trace, x.after.shared.sequenceOf P t = n ∧ x.after.shared.stageOf P t = stage

theorem passed_snoc {stage : Stage} : Passed P (trace ++ [x]) t n stage ↔
    Passed P trace t n stage ∨
      (x.after.shared.sequenceOf P t = n ∧ x.after.shared.stageOf P t = stage) := by
  simp [Passed, or_and_right, exists_or]

theorem Passed.append {stage : Stage} (passed : Passed P front t n stage) :
    Passed P (front ++ back) t n stage := by
  obtain ⟨x, member, at_⟩ := passed
  exact ⟨x, List.mem_append_left _ member, at_⟩

/-- The two outcomes a call can have: the stage at which it is decided, and the
one it may reach from there. -/
inductive Outcomes : Stage → Stage → Prop where
  | success : Outcomes .setting .successful
  | failure : Outcomes .reverting .reverted

/-- A row is at an outcome of its call just when it went through its first
stage, and what an earlier call went through is over. -/
structure OutcomeHistory (P : Params) (trace : Trace P) (s : Shared) (t : ℕ) (first last : Stage) :
    Prop where
  over_or_at : ∀ n, Passed P trace t n first →
    n < s.sequenceOf P t ∨ (s.sequenceOf P t = n ∧ (s.stageOf P t = first ∨ s.stageOf P t = last))
  passed : s.stageOf P t = first ∨ s.stageOf P t = last →
    Passed P trace t (s.sequenceOf P t) first

/-- What a run remembers of a row. -/
structure RowHistory (P : Params) (trace : Trace P) (s : Shared) (t : ℕ) : Prop where
  success : OutcomeHistory P trace s t .setting .successful
  failure : OutcomeHistory P trace s t .reverting .reverted
  exclusive : ∀ n, ¬ (Passed P trace t n .setting ∧ Passed P trace t n .reverting)

theorem Outcomes.edge {first last current desired : Stage} (outcome : Outcomes first last)
    (edge : StageEdge current desired) :
    (desired = first ∧ current = .claiming) ∨ (current = first ∧ desired = last) ∨
      (current ≠ first ∧ current ≠ last ∧ desired ≠ first ∧ desired ≠ last) := by
  cases outcome <;> cases edge <;> simp

theorem Outcomes.of_active {first last stage : Stage} (outcome : Outcomes first last)
    (at_ : stage = first ∨ stage = last) : stage ≠ .inactive ∧ stage ≠ .claiming := by
  cases outcome <;> rcases at_ with rfl | rfl <;> simp

theorem OutcomeHistory.step {first last : Stage} (outcome : Outcomes first last)
    (history : OutcomeHistory P trace x.before.shared t first last) (moved : RowStep P x t) :
    OutcomeHistory P (trace ++ [x]) x.after.shared t first last := by
  obtain ⟨over_or_at, passed⟩ := history
  cases moved with
  | kept same =>
    rw [← Shared.stageOf_congr same, ← Shared.sequenceOf_congr same] at over_or_at passed
    refine ⟨fun n held => ?_, fun at_ => (passed at_).append⟩
    rcases passed_snoc.mp held with earlier | ⟨sequence, stage⟩
    · exact over_or_at n earlier
    · exact .inr ⟨sequence, .inl stage⟩
  | @published n owner callNumber stored inactive sequence stage' sequence' =>
    rw [inactive, sequence] at over_or_at passed
    refine ⟨fun k held => ?_, fun at_ => ?_⟩
    · rcases passed_snoc.mp held with earlier | ⟨-, stage⟩
      · rcases over_or_at k earlier with gone | ⟨-, at_⟩
        · exact .inl (sequence'.symm ▸ gone)
        · exact absurd rfl (outcome.of_active at_).1
      · exact absurd stage' (outcome.of_active (.inl stage)).2
    · exact absurd stage' (outcome.of_active at_).2
  | @exchanged n role current desired next works changed edge stage sequence stage' sequence' =>
    rw [stage, sequence] at over_or_at passed
    refine ⟨fun k held => ?_, fun at_ => ?_⟩
    · rw [sequence', stage']
      rcases passed_snoc.mp held with earlier | ⟨same, first⟩
      · refine (over_or_at k earlier).imp_right fun ⟨same, at_⟩ => ⟨same, .inr ?_⟩
        rcases outcome.edge edge with ⟨-, claiming⟩ | ⟨-, last⟩ | ⟨notFirst, notLast, -⟩
        · exact absurd claiming (outcome.of_active at_).2
        · exact last
        · exact (at_.elim notFirst notLast).elim
      · exact .inr ⟨sequence'.symm.trans same, .inl (stage'.symm.trans first)⟩
    · rw [sequence']
      rw [stage'] at at_
      rcases outcome.edge edge with ⟨first, -⟩ | ⟨first, -⟩ | ⟨-, -, notFirst, notLast⟩
      · exact passed_snoc.mpr (.inr ⟨sequence', stage'.trans first⟩)
      · exact (passed (.inl first)).append
      · exact (at_.elim notFirst notLast).elim
  | @retired n result works owner callNumber stored stage sequence stage' sequence' =>
    rw [sequence] at over_or_at passed
    refine ⟨fun k held => ?_, fun at_ => ?_⟩
    · rcases passed_snoc.mp held with earlier | ⟨-, stage⟩
      · left
        rcases over_or_at k earlier with gone | ⟨same, -⟩ <;> omega
      · exact absurd stage' (outcome.of_active (.inl stage)).1
    · exact absurd stage' (outcome.of_active at_).1

/-- A row reaches the first stage of an outcome only from Claiming. -/
theorem RowStep.enters {first last : Stage} (outcome : Outcomes first last)
    (moved : RowStep P x t) (sequence : x.after.shared.sequenceOf P t = n)
    (stage : x.after.shared.stageOf P t = first) :
    x.before.shared.sequenceOf P t = n ∧
      (x.before.shared.stageOf P t = first ∨ x.before.shared.stageOf P t = .claiming) := by
  cases moved with
  | kept same =>
    rw [← Shared.stageOf_congr same, ← Shared.sequenceOf_congr same]
    exact ⟨sequence, .inl stage⟩
  | published owner callNumber stored inactive before claiming =>
    exact absurd (claiming.symm.trans stage).symm (outcome.of_active (.inl rfl)).2
  | exchanged works changed edge before sequence' desired sequence'' =>
    rw [sequence', ← sequence'', before]
    rw [desired] at stage
    refine ⟨sequence, ?_⟩
    rcases outcome.edge edge with ⟨-, claiming⟩ | ⟨-, last⟩ | ⟨-, -, notFirst, -⟩
    · exact .inr claiming
    · exact absurd (last.symm.trans stage) (by cases outcome <;> simp)
    · exact absurd stage notFirst
  | retired works owner callNumber stored decided before inactive =>
    exact absurd (inactive.symm.trans stage).symm (outcome.of_active (.inl rfl)).1

theorem rowHistory_initial :
    RowHistory P [] (Config.initial P.numWords cells).shared t := by
  refine ⟨⟨?_, ?_⟩, ⟨?_, ?_⟩, ?_⟩ <;> simp [Passed, stageOf_initial]

theorem RowHistory.step (history : RowHistory P trace x.before.shared t) (moved : RowStep P x t) :
    RowHistory P (trace ++ [x]) x.after.shared t := by
  refine ⟨history.success.step .success moved, history.failure.step .failure moved, ?_⟩
  rintro n ⟨setting, reverting⟩
  rcases passed_snoc.mp setting with wasSetting | ⟨sequence, stage⟩ <;>
    rcases passed_snoc.mp reverting with wasReverting | ⟨sequence', stage'⟩
  · exact history.exclusive n ⟨wasSetting, wasReverting⟩
  · obtain ⟨current, before⟩ := moved.enters .failure sequence' stage'
    rcases history.success.over_or_at n wasSetting with gone | ⟨-, at_⟩
    · omega
    · rcases before with before | before <;> simp [before] at at_
  · obtain ⟨current, before⟩ := moved.enters .success sequence stage
    rcases history.failure.over_or_at n wasReverting with gone | ⟨-, at_⟩
    · omega
    · rcases before with before | before <;> simp [before] at at_
  · simp [stage] at stage'

theorem rowHistory_of_execution (rules : UsageRules P load cells)
    (run : Execution P load cells trace σ) (t : ℕ) : RowHistory P trace σ.shared t :=
  execution_always (fun trace σ => RowHistory P trace σ.shared t) rules rowHistory_initial
    (fun _ _ reached history => history.step (reached.rowStep rules t)) run

/-! ### What the activations know of it -/

/-- The activation writes desired values, or carries the call's result, only
after the row went through the stage that decides so. -/
def Decided (P : Params) (trace : Trace P) (t n : ℕ) : Pc → Prop
  | .setLoadTarget _ | .setLoadDesired .. | .setExchange .. | .setVerify _ =>
    Passed P trace t n .setting
  | .prepare result | .finished result =>
    (result = .ok () → Passed P trace t n .setting) ∧
      (result = .error .valueWasNotExpectedValue → Passed P trace t n .reverting)
  | _ => True

theorem Decided.append (decided : Decided P front t n pc) : Decided P (front ++ back) t n pc := by
  cases pc with
  | prepare result | finished result =>
    exact decided.imp (fun held ok => (held ok).append) fun held err => (held err).append
  | setLoadTarget => exact Passed.append decided
  | setLoadDesired => exact Passed.append decided
  | setExchange => exact Passed.append decided
  | setVerify => exact Passed.append decided
  | _ => trivial

theorem decided_setFrom (passed : Passed P trace t n .setting) :
    Decided P trace t n (setFrom P role w) := by
  unfold setFrom
  split
  · exact passed
  · cases role with
    | originator => exact ⟨fun _ => passed, by simp⟩
    | helper => trivial

theorem decided_claimFrom {op : Operation} : Decided P trace t n (claimFrom P role op w) := by
  unfold claimFrom
  split
  · trivial
  · cases role <;> trivial

theorem decided_revertAllWords {next : RevertNext} :
    Decided P trace t n (revertAllWords P next) := by
  unfold revertAllWords
  split <;> trivial

theorem decided_prepare {stages : List Stage} (history : RowHistory P trace s t)
    (sequence : s.sequenceOf P t = n) (among : stages ⊆ [.setting, .successful])
    (held : PreparedOk P s t n stages result) : Decided P trace t n (.prepare result) := by
  subst sequence
  rcases held with ⟨rfl, stage⟩ | ⟨rfl, stage⟩
  · exact ⟨fun _ => history.success.passed (by simpa using among (stage rfl)), by simp⟩
  · exact ⟨by simp, fun _ => history.failure.passed (by simpa using stage rfl)⟩

theorem decided_revertBelow {next : RevertNext} (history : RowHistory P trace s t)
    (own : role = .originator → s.sequenceOf P t = n) (pending : NextOk P s role t n next) :
    Decided P trace t n (revertBelow role next w) := by
  cases w with
  | zero =>
    cases next with
    | prepare result =>
      exact decided_prepare history (own pending.1) (by simp) pending.2
    | fail error => exact pending.elim
    | changeToReverted => trivial
    | helpReturn result => trivial
  | succ w => trivial

theorem decided_of_goesOn (history : RowHistory P trace s t) (goes : GoesOn P s role t n pc) :
    Decided P trace t n pc := by
  cases goes with
  | set current setting => exact decided_setFrom (current ▸ history.success.passed (.inl setting))
  | revert => exact decided_revertAllWords

theorem decided_afterStageChanged {current desired : Stage} {next : StageNext}
    (position : PcOk P load s role t n (.changeStage current desired next))
    (passed : desired = .setting → Passed P trace t n .setting) :
    Decided P trace t n (afterStageChanged P role next) := by
  rcases position with ⟨-, rfl, rfl, -⟩ | ⟨w, -, -, -, rfl, -⟩ | ⟨-, -, -, rfl, -⟩ |
    ⟨-, -, -, rfl, -⟩
  · exact decided_setFrom (passed rfl)
  · cases role <;> trivial
  · trivial
  · trivial

theorem decided_of_moves (history : RowHistory P trace s t)
    (after : RowHistory P (trace ++ [x]) s' t) (rules : UsageRules P load cells)
    (ok : WorkOk P load s h completed role t n pc) (decided : Decided P trace t n pc)
    (moves : OperationMoves P s role t n pc event s' frames) {pc' : Pc}
    (member : .operating role (P.operation t n) pc' ∈ frames) :
    Decided P (trace ++ [x]) t n pc' := by
  have position := ok.position
  have fits := rules.stage_lt ok.call.within (Nat.le_of_lt ok.call.counted)
  have own := ok.current moves
  cases moves with
  | claimed | claimFoundOwn =>
    obtain rfl := eq_of_mem_operating member
    exact decided_claimFrom
  | verifiedMarker =>
    obtain rfl : pc' = _ := by simpa using member
    trivial
  | claimDiverted diverted =>
    obtain rfl := eq_of_mem_operating member
    exact (decided_of_goesOn history (goesOn_of_claimDiverted diverted)).append
  | stageChanged sequence stage edge =>
    obtain rfl := eq_of_mem_operating member
    refine decided_afterStageChanged position ?_
    rintro rfl
    have passed := after.success.passed (.inl (Shared.stageOf_storeStage_self fits))
    rwa [Shared.sequenceOf_storeStage_self fits] at passed
  | stageRefused diverted =>
    obtain rfl := eq_of_mem_operating member
    exact (decided_of_goesOn history (goesOn_of_stageRefused position diverted)).append
  | setLoadTarget | setLoadDesired | setMissed =>
    obtain rfl := eq_of_mem_operating member
    exact Passed.append decided
  | setDone | setVerified =>
    obtain rfl := eq_of_mem_operating member
    exact decided_setFrom (Passed.append decided)
  | setDiverted diverted =>
    obtain rfl := eq_of_mem_operating member
    exact (decided_of_goesOn history (goesOn_of_setDiverted position.2 diverted)).append
  | reverted | revertMissed =>
    obtain rfl := eq_of_mem_operating member
    exact (decided_revertBelow history own position.2.1).append
  | prepared =>
    obtain rfl := eq_of_mem_operating member
    exact Decided.append decided
  | _ =>
    obtain rfl : pc' = _ := by simpa using member
    trivial

theorem decided_of_helpEntry (history : RowHistory P trace s t) (entry : HelpEntry P s t n pc) :
    Decided P trace t n pc := by
  cases entry with
  | setting sequence stage =>
    subst sequence
    exact decided_setFrom (history.success.passed (.inl stage))
  | claiming => exact decided_claimFrom
  | reverting => exact decided_revertAllWords
  | _ => trivial

/-- What a run remembers of the activations. -/
def WorkDecided (P : Params) (trace : Trace P) (σ : Config P.numWords) : Prop :=
  ∀ h role t n pc, Works P σ h role t n pc → Decided P trace t n pc

theorem workDecided_step (rules : UsageRules P load cells) (reached : Reached P load cells trace x)
    (held : WorkDecided P trace x.before) : WorkDecided P (trace ++ [x]) x.after := by
  have history (t : ℕ) := rowHistory_of_execution rules reached.run t
  have after (t : ℕ) := (history t).step (reached.rowStep rules t)
  refine reached.all_work ?_ ?_ ?_ ?_ ?_ held
  · intro h completed role t n pc ok decided
    exact decided.append
  · intro completed role t n pc pc' frames ok decided moves member
    exact decided_of_moves (history t) (after t) rules ok decided moves member
  · intro t n
    exact decided_claimFrom
  · intro t n pc same entry
    exact (decided_of_helpEntry (history t) entry).append
  · intro t n w target expected waiting
    trivial

theorem workDecided_of_execution (rules : UsageRules P load cells)
    (run : Execution P load cells trace σ) : WorkDecided P trace σ :=
  execution_always (WorkDecided P) rules (fun h role t n pc works => by cases works.member)
    (fun _ _ reached held => workDecided_step rules reached held) run

/-! ### The automaton -/

/-- The changes of the stage word of a thread that makes `count` calls: a walk
from Inactive over Claiming and one of the two outcomes to Inactive at the next
sequence. -/
inductive WalkEdge (P : Params) (count : ℕ) : ℕ → ℕ → Prop where
  | toClaiming {n : ℕ} : n < count →
      WalkEdge P count (P.stageWord .inactive n) (P.stageWord .claiming n)
  | toSetting {n : ℕ} : n < count →
      WalkEdge P count (P.stageWord .claiming n) (P.stageWord .setting n)
  | toReverting {n : ℕ} : n < count →
      WalkEdge P count (P.stageWord .claiming n) (P.stageWord .reverting n)
  | toSuccessful {n : ℕ} : n < count →
      WalkEdge P count (P.stageWord .setting n) (P.stageWord .successful n)
  | toReverted {n : ℕ} : n < count →
      WalkEdge P count (P.stageWord .reverting n) (P.stageWord .reverted n)
  | toInactive {n : ℕ} {stage : Stage} : n < count →
      stage ∈ [.setting, .successful, .reverting, .reverted] →
      WalkEdge P count (P.stageWord stage n) (P.stageWord .inactive (n + 1))

/-- The successive values of a stage word, from `State::new()` on. -/
def stageWords (P : Params) (trace : Trace P) (t : ℕ) : List ℕ :=
  State.new.stageAndSequenceNumbers t ::
    trace.map fun x => x.after.shared.state.stageAndSequenceNumbers t

/-- At some step of the run the stage word was at `stage` with sequence `n`. -/
def WentThrough (P : Params) (trace : Trace P) (t n : ℕ) (stage : Stage) : Prop :=
  ∃ x ∈ trace, x.after.shared.state.stageAndSequenceNumbers t = P.stageWord stage n

/-- The return of the call of thread index `t` with sequence `n`. -/
def Responds (P : Params) (x : Transition (Config P.numWords) Actor Event) (t n : ℕ)
    (result : Except Error Unit) : Prop :=
  x.actor.thread = t ∧ (x.before.threads t).completed = n ∧ x.event = .responded result

instance : Decidable (Responds P x t n result) := inferInstanceAs (Decidable (_ ∧ _ ∧ _))

/-- A change of a stage word is an exchange for the call whose sequence it
carries, or a store of its owner during that call. -/
def ChangedByOwnCall (P : Params) (x : Transition (Config P.numWords) Actor Event) (t : ℕ) : Prop :=
  ∃ n stage stage', x.before.shared.state.stageAndSequenceNumbers t = P.stageWord stage n ∧
    ((∃ role next, x.event = .exchangeStage role (P.operation t n) stage stage' next
        (.ok (P.stageWord stage n)) ∧
      x.after.shared.state.stageAndSequenceNumbers t = P.stageWord stage' n) ∨
    (x.actor.thread = t ∧ (x.before.threads t).completed = n ∧
      x.event = .storeStage t (x.after.shared.state.stageAndSequenceNumbers t)))

theorem reached_of_mem (rules : UsageRules P load cells) (run : Execution P load cells trace σ)
    (member : x ∈ trace) :
    ∃ front back, trace = front ++ x :: back ∧ Reached P load cells front x := by
  obtain ⟨front, back, rfl⟩ := List.append_of_mem member
  exact ⟨front, back, rfl, reached_of_split rules run⟩

theorem wentThrough_iff (rules : UsageRules P load cells)
    (run : Execution P load cells trace σ) (within : t < P.numThreads) (counted : n ≤ load.count t)
    {stage : Stage} : WentThrough P trace t n stage ↔ Passed P trace t n stage := by
  constructor
  · rintro ⟨x, member, word⟩
    obtain ⟨front, back, -, reached⟩ := reached_of_mem rules run member
    have at_ := (reached.after.shared.word_eq_iff rules within counted).mp word
    exact ⟨x, member, at_.2, at_.1⟩
  · rintro ⟨x, member, sequence, stage⟩
    obtain ⟨front, back, -, reached⟩ := reached_of_mem rules run member
    exact ⟨x, member, (reached.after.shared.word_eq_iff rules within counted).mpr ⟨stage, sequence⟩⟩

theorem Reached.walk (reached : Reached P load cells trace x) (rules : UsageRules P load cells)
    (within : t < P.numThreads) :
    x.after.shared.state.stageAndSequenceNumbers t =
        x.before.shared.state.stageAndSequenceNumbers t ∨
      WalkEdge P (load.count t) (x.before.shared.state.stageAndSequenceNumbers t)
          (x.after.shared.state.stageAndSequenceNumbers t) ∧ ChangedByOwnCall P x t := by
  have before := reached.before.shared.word t within
  have after := reached.after.shared.word t within
  cases reached.rowStep rules t with
  | kept same => exact .inl same
  | @published n owner callNumber stored inactive sequence stage' sequence' =>
    right
    rw [inactive, sequence] at before
    rw [stage', sequence'] at after
    have counted : n < load.count t := by
      have row := (reached.after.shared.row t within (by simp [stage'])).1
      rwa [sequence'] at row
    refine ⟨?_, n, .inactive, .claiming, before, .inr ⟨owner, callNumber, after ▸ stored⟩⟩
    rw [before, after]
    exact .toClaiming counted
  | @exchanged n role current desired next works changed edge stage sequence stage' sequence' =>
    right
    have counted : n < load.count t := by
      have row := (reached.before.shared.row t within (by rw [stage]; cases edge <;> simp)).1
      rwa [sequence] at row
    rw [stage, sequence] at before
    rw [stage', sequence'] at after
    refine ⟨?_, n, current, desired, before, .inl ⟨role, next, changed, after⟩⟩
    rw [before, after]
    cases edge with
    | toSetting => exact .toSetting counted
    | toReverting => exact .toReverting counted
    | toSuccessful => exact .toSuccessful counted
    | toReverted => exact .toReverted counted
  | @retired n result works owner callNumber stored stage sequence stage' sequence' =>
    right
    have counted : n < load.count t := by
      have row := (reached.before.shared.row t within (by rintro at_; simp [at_] at stage)).1
      rwa [sequence] at row
    rw [sequence] at before
    rw [stage', sequence'] at after
    refine ⟨?_, n, _, .inactive, before, .inr ⟨owner, callNumber, after ▸ stored⟩⟩
    rw [before, after]
    exact .toInactive counted stage

theorem stageWords_snoc :
    stageWords P (trace ++ [x]) t =
      stageWords P trace t ++ [x.after.shared.state.stageAndSequenceNumbers t] := by
  simp [stageWords]

theorem stageWords_walk (rules : UsageRules P load cells) (run : Execution P load cells trace σ)
    (within : t < P.numThreads) :
    (stageWords P trace t).IsChain (fun a b => b = a ∨ WalkEdge P (load.count t) a b) ∧
      (stageWords P trace t).getLast? = some (σ.shared.state.stageAndSequenceNumbers t) := by
  refine execution_always (fun trace σ =>
    (stageWords P trace t).IsChain (fun a b => b = a ∨ WalkEdge P (load.count t) a b) ∧
      (stageWords P trace t).getLast? = some (σ.shared.state.stageAndSequenceNumbers t))
    rules ?_ ?_ run
  · exact ⟨.singleton _, rfl⟩
  · rintro trace x reached ⟨chain, last⟩
    rw [stageWords_snoc]
    refine ⟨chain.append (.singleton _) ?_, by simp⟩
    intro a isLast b isHead
    obtain rfl : x.before.shared.state.stageAndSequenceNumbers t = a :=
      Option.some.inj (last.symm.trans isLast)
    obtain rfl : x.after.shared.state.stageAndSequenceNumbers t = b := by simpa using isHead
    exact (reached.walk rules within).imp_right And.left

theorem Reached.responds (reached : Reached P load cells trace x)
    (responds : Responds P x t n result) :
    Works P x.before t .originator t n (.finished result) ∧
      WorkOk P load x.before.shared t n .originator t n (.finished result) := by
  obtain ⟨rfl, rfl, event⟩ := responds
  have held := reached.before.callStacks _ reached.within
  have moves := reached.moves
  rw [event] at moves
  generalize shape : x.before.threads x.actor.thread = thread at moves held
  generalize x.after.threads x.actor.thread = thread' at moves
  generalize x.after.shared = s' at moves
  cases moves with
  | respond =>
    obtain ⟨same, ok⟩ := workOk_of_originatorOk reached.within held
    refine ⟨⟨reached.within, ?_⟩, ok⟩
    rw [shape, same]
    exact List.mem_singleton.mpr rfl
  | move moves =>
    cases moves with
    | init moves => cases moves
    | operate moves => cases moves

theorem result_iff_passed (rules : UsageRules P load cells)
    (run : Execution P load cells (front ++ x :: back) σ) (responds : Responds P x t n result) :
    (result = .ok () ↔ Passed P front t n .setting) ∧
      (result = .error .valueWasNotExpectedValue ↔ Passed P front t n .reverting) := by
  have reached := reached_of_split rules run
  obtain ⟨works, ok⟩ := reached.responds responds
  have decided := workDecided_of_execution rules reached.run _ _ _ _ _ works
  have exclusive := (rowHistory_of_execution rules reached.run t).exclusive n
  rcases ok.position.2 with rfl | rfl
  · refine ⟨⟨decided.1, fun _ => rfl⟩, by simp, fun passed => ?_⟩
    exact absurd ⟨decided.1 rfl, passed⟩ exclusive
  · refine ⟨⟨by simp, fun passed => ?_⟩, decided.2, fun _ => rfl⟩
    exact absurd ⟨passed, decided.2 rfl⟩ exclusive

/-- The stage words of a run walk the automaton, one outcome a call, and what
each call returns is its outcome. -/
theorem stage_automaton (rules : UsageRules P load cells) (run : Execution P load cells trace σ) :
    (∀ t < P.numThreads,
      (stageWords P trace t).head? = some (P.stageWord .inactive 0) ∧
      (stageWords P trace t).IsChain (fun a b => b = a ∨ WalkEdge P (load.count t) a b) ∧
      (∀ n ≤ load.count t,
        ¬ (WentThrough P trace t n .setting ∧ WentThrough P trace t n .reverting)) ∧
      ∀ x ∈ trace, x.after.shared.state.stageAndSequenceNumbers t ≠
        x.before.shared.state.stageAndSequenceNumbers t → ChangedByOwnCall P x t) ∧
    ∀ front x back t n result, trace = front ++ x :: back → Responds P x t n result →
      (result = .ok () ↔ WentThrough P front t n .setting) ∧
        (result = .error .valueWasNotExpectedValue ↔ WentThrough P front t n .reverting) := by
  refine ⟨fun t within => ⟨?_, (stageWords_walk rules run within).1, ?_, ?_⟩, ?_⟩
  · rw [Params.stageWord_inactive_zero]
    rfl
  · intro n counted
    rw [wentThrough_iff rules run within counted,
      wentThrough_iff rules run within counted]
    exact (rowHistory_of_execution rules run t).exclusive n
  · intro x member changed
    obtain ⟨front, back, -, reached⟩ := reached_of_mem rules run member
    exact ((reached.walk rules within).resolve_left changed).2
  · rintro front x back t n result rfl responds
    have reached := reached_of_split rules run
    have call := (reached.responds responds).2.call
    rw [wentThrough_iff rules reached.run call.within (Nat.le_of_lt call.counted),
      wentThrough_iff rules reached.run call.within (Nat.le_of_lt call.counted)]
    exact result_iff_passed rules run responds

/-- Both calls of the contended run return, each with the outcome of its walk. -/
theorem stage_automaton_contended : ∃ (trace : Trace twoThreads) (σ : Config twoThreads.numWords),
    Execution twoThreads contended (fun _ => 0) trace σ ∧
      (σ.threads 0).completed = 1 ∧ (σ.threads 1).completed = 1 ∧
      ∀ t < 2, ¬ (WentThrough twoThreads trace t 0 .setting ∧
        WentThrough twoThreads trace t 0 .reverting) := by
  obtain ⟨trace, σ, run, first, second⟩ := exists_execution twoThreads contended (fun _ => 0)
    contendedTurns (fun _ σ => (σ.threads 0).completed = 1 ∧ (σ.threads 1).completed = 1)
    (by decide +kernel)
  exact ⟨trace, σ, run, first, second, fun t within =>
    ((stage_automaton contended_rules run).1 t within).2.2.1 0 (Nat.zero_le _)⟩

end KCas
