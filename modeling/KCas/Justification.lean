import KCas.History

/-! Every result is justified by an instant inside its call: a success by the
exchange of its stage word, at which the call's markers stood on all of its
words, and a failure by a real value that was not the expected one. -/
namespace KCas

open Labelled

variable {P : Params} {load : Workload P.numWords} {cells : ℕ → ℕ} {s s' : Shared}
  {σ : Config P.numWords} {h t n w target expected desired completed : ℕ} {role : Role} {pc : Pc}
  {event : Event} {frames stack : List (Frame P.numWords)} {trace front back : Trace P}
  {x : Transition (Config P.numWords) Actor Event} {result : Except Error Unit}

/-! ### What a run remembers of a call's words -/

/-- The exchange that puts the call's marker in place of the expected value. -/
def claimEvent (P : Params) (load : Workload P.numWords) (t n w : ℕ) : Event :=
  .exchangeCell .claim (P.operation t n) w ((load.call t n).target w) ((load.call t n).expected w)
    (P.marker t n) (.ok ((load.call t n).expected w))

/-- The exchange that puts the desired value in place of the call's marker. -/
def setEvent (P : Params) (load : Workload P.numWords) (t n w : ℕ) : Event :=
  .exchangeCell .set (P.operation t n) w ((load.call t n).target w) (P.marker t n)
    ((load.call t n).desired w) (.ok (P.marker t n))

/-- The call's marker replaced the expected value of word `w`, and has been
there since. -/
def ClaimedSince (P : Params) (load : Workload P.numWords) (trace : Trace P) (t n w : ℕ) : Prop :=
  ∃ front x back, trace = front ++ x :: back ∧ x.event = claimEvent P load t n w ∧
    ∀ y ∈ x :: back, Marked P load y.after.shared t n w

/-- Word `w` was overwritten from the marker with the desired value. -/
def Overwritten (P : Params) (load : Workload P.numWords) (trace : Trace P) (t n w : ℕ) : Prop :=
  ∃ x ∈ trace, x.event = setEvent P load t n w

/-- A claim exchange for the call, still at Claiming, meets a real value that is
not the expected one of its word. -/
structure Observes (P : Params) (load : Workload P.numWords)
    (x : Transition (Config P.numWords) Actor Event) (t n : ℕ) : Prop where
  event : ∃ w target expected actual, x.event = .exchangeCell .claim (P.operation t n) w target
    expected (P.marker t n) (.error actual)
  sequence : x.before.shared.sequenceOf P t = n
  claiming : x.before.shared.stageOf P t = .claiming
  busy : (x.before.threads t).completed = n ∧ (x.before.threads t).stack ≠ []
  found : ∃ w < P.numWords, P.Legal (x.before.shared.cells ((load.call t n).target w)) ∧
    x.before.shared.cells ((load.call t n).target w) ≠ (load.call t n).expected w

/-- During the call one of its words held a real value that was not the
expected one. -/
def Observed (P : Params) (load : Workload P.numWords) (trace : Trace P) (t n : ℕ) : Prop :=
  ∃ x ∈ trace, Observes P load x t n

/-- The step `x` after the run `front` moves the call from Claiming to Setting
while its markers, each in place of the expected value, are on all its words. -/
structure Commits (P : Params) (load : Workload P.numWords) (front : Trace P)
    (x : Transition (Config P.numWords) Actor Event) (t n : ℕ) : Prop where
  before : x.before.shared.state.stageAndSequenceNumbers t = P.stageWord .claiming n
  after : x.after.shared.state.stageAndSequenceNumbers t = P.stageWord .setting n
  marked : ∀ w < P.numWords, Marked P load x.before.shared t n w
  claimed : ∀ w < P.numWords, ClaimedSince P load front t n w

def Committed (P : Params) (load : Workload P.numWords) (trace : Trace P) (t n : ℕ) : Prop :=
  ∃ front x back, trace = front ++ x :: back ∧ Commits P load front x t n

theorem ClaimedSince.snoc (claimed : ClaimedSince P load trace t n w)
    (marked : Marked P load x.after.shared t n w) : ClaimedSince P load (trace ++ [x]) t n w := by
  obtain ⟨front, y, back, rfl, event, since⟩ := claimed
  refine ⟨front, y, back ++ [x], by simp, event, ?_⟩
  intro z member
  rcases List.mem_append.mp (show z ∈ (y :: back) ++ [x] from member) with earlier | last
  · exact since z earlier
  · obtain rfl := List.mem_singleton.mp last
    exact marked

theorem Overwritten.append (overwritten : Overwritten P load front t n w) :
    Overwritten P load (front ++ back) t n w := by
  obtain ⟨x, member, event⟩ := overwritten
  exact ⟨x, List.mem_append_left _ member, event⟩

theorem Observed.append (observed : Observed P load front t n) :
    Observed P load (front ++ back) t n := by
  obtain ⟨x, member, held⟩ := observed
  exact ⟨x, List.mem_append_left _ member, held⟩

theorem Committed.append (committed : Committed P load front t n) :
    Committed P load (front ++ back) t n := by
  obtain ⟨before, x, after, rfl, held⟩ := committed
  exact ⟨before, x, after ++ back, by simp, held⟩

/-! ### Marks appear and disappear -/

/-- A call whose row is at one of its stages is in progress. -/
theorem ConfigOk.inProgress (ok : ConfigOk P load σ) (within : t < P.numThreads)
    (active : σ.shared.stageOf P t ≠ .inactive) :
    (σ.threads t).completed = σ.shared.sequenceOf P t ∧ (σ.threads t).stack ≠ [] := by
  have held := ok.callStacks t within
  generalize (σ.threads t).stack = stack at held
  generalize (σ.threads t).completed = completed at held
  constructor
  · induction stack with
    | nil => exact absurd held.1 active
    | cons frame rest ih =>
      cases rest with
      | cons caller rest => exact ih held.2.2
      | nil =>
        cases frame with
        | initializing => exact absurd held.2.2.2.2.1 active
        | helpThread => exact held.elim
        | operating role op pc =>
          have row := held.2.2.2.1
          refine (row.active ?_).2.symm
          rintro result rfl
          exact active row.1
  · rintro rfl
    exact active held.1

/-- Only a claim exchange of the call itself puts its marker anywhere. -/
theorem Reached.mark_found (reached : Reached P load cells trace x)
    (rules : UsageRules P load cells) (within : t < P.numThreads) (counted : n < load.count t)
    {address : ℕ} (marked : x.after.shared.cells address = P.marker t n) :
    x.before.shared.cells address = P.marker t n ∨ ∃ role w expected,
      Works P x.before x.actor.thread role t n (.claimExchange w address expected) ∧
      x.event = .exchangeCell .claim (P.operation t n) w address expected (P.marker t n)
        (.ok expected) ∧ x.before.shared.cells address = expected := by
  have unreal {value : ℕ} (real : P.Legal value) (same : value = P.marker t n) : False :=
    rules.marker_not_legal within counted (same ▸ real)
  cases reached.cellStep address with
  | kept same => exact .inl (same ▸ marked)
  | claimed works event found wrote =>
    have call := (works.ok reached.before).call
    obtain ⟨rfl, rfl⟩ := rules.marker_inj within counted call.within call.counted
      (marked.symm.trans wrote)
    exact .inr ⟨_, _, _, works, event, found⟩
  | set works event found wrote =>
    exact (unreal (works.ok reached.before).position.2.2.2.1 (wrote.symm.trans marked)).elim
  | reverted works event found wrote =>
    exact (unreal (works.ok reached.before).position.2.2.2.1 (wrote.symm.trans marked)).elim

/-- An exchange on a stage word leaves all cells alone. -/
theorem Reached.cells_of_exchangeStage (reached : Reached P load cells trace x) {op : Operation}
    {current desired : Stage} {next : StageNext} {result : Except ℕ ℕ}
    (event : x.event = .exchangeStage role op current desired next result) :
    x.after.shared.cells = x.before.shared.cells := by
  funext address
  cases reached.cellStep address with
  | kept same => exact same
  | claimed _ exchanged => cases event.symm.trans exchanged
  | set _ exchanged => cases event.symm.trans exchanged
  | reverted _ exchanged => cases event.symm.trans exchanged

/-- Whoever is about to move a row to Setting has marked every word. -/
theorem PcOk.marked {current : Stage} {next : StageNext}
    (position : PcOk P load s role t n (.changeStage current .setting next))
    (sequence : s.sequenceOf P t = n) (stage : s.stageOf P t = current) :
    ∀ w < P.numWords, Marked P load s t n w := by
  rcases position with ⟨rfl, -, -, below⟩ | ⟨_, -, -, reverting, -⟩ | ⟨-, -, successful, -⟩ |
    ⟨-, -, reverted, -⟩
  · exact below sequence stage
  · cases reverting
  · cases successful
  · cases reverted

/-- A row that went through Setting did so earlier or just now, and then all of
the call's words are marked. -/
theorem Reached.passed_setting (reached : Reached P load cells trace x)
    (rules : UsageRules P load cells) (passed : Passed P (trace ++ [x]) t n .setting) :
    Passed P trace t n .setting ∨ ((∀ w < P.numWords, Marked P load x.before.shared t n w) ∧
      x.after.shared.cells = x.before.shared.cells) := by
  rcases passed_snoc.mp passed with earlier | ⟨sequence, setting⟩
  · exact .inl earlier
  · cases reached.rowStep rules t with
    | kept same =>
      rw [Shared.stageOf_congr same] at setting
      rw [Shared.sequenceOf_congr same] at sequence
      exact .inl (sequence ▸
        (rowHistory_of_execution rules reached.run t).success.passed (.inl setting))
    | published _ _ _ _ _ claiming => cases claiming.symm.trans setting
    | retired _ _ _ _ _ _ inactive => cases inactive.symm.trans setting
    | exchanged works event edge stage current stage' current' =>
      obtain rfl := stage'.symm.trans setting
      obtain rfl := current'.symm.trans sequence
      exact .inr ⟨(works.ok reached.before).position.marked current stage,
        reached.cells_of_exchangeStage event⟩

/-- Only a set or revert exchange of the call itself takes its marker away. -/
theorem Reached.mark_lost (reached : Reached P load cells trace x) (rules : UsageRules P load cells)
    (within : t < P.numThreads) (counted : n < load.count t) {address : ℕ}
    (marked : x.before.shared.cells address = P.marker t n)
    (lost : x.after.shared.cells address ≠ P.marker t n) :
    (∃ role w desired, Works P x.before x.actor.thread role t n (.setExchange w address desired) ∧
      x.event = .exchangeCell .set (P.operation t n) w address (P.marker t n) desired
        (.ok (P.marker t n))) ∨
    ∃ role w expected next,
      Works P x.before x.actor.thread role t n (.revertExchange w address expected next) ∧
      x.event = .exchangeCell .revert (P.operation t n) w address (P.marker t n) expected
        (.ok (P.marker t n)) := by
  cases reached.cellStep address with
  | kept same => exact absurd (same.trans marked) lost
  | claimed works event found wrote =>
    have real := (works.ok reached.before).position.2.2.2.1
    exact absurd (found.symm.trans marked ▸ real) (rules.marker_not_legal within counted)
  | set works event found wrote =>
    have call := (works.ok reached.before).call
    obtain ⟨rfl, rfl⟩ := rules.marker_inj within counted call.within call.counted
      (marked.symm.trans found)
    exact .inl ⟨_, _, _, works, event⟩
  | reverted works event found wrote =>
    have call := (works.ok reached.before).call
    obtain ⟨rfl, rfl⟩ := rules.marker_inj within counted call.within call.counted
      (marked.symm.trans found)
    exact .inr ⟨_, _, _, _, works, event⟩

/-! ### The invariant -/

/-- What a run remembers of the words of the call a row carries, and of the
outcome of every call. -/
structure RowEvidence (P : Params) (load : Workload P.numWords) (trace : Trace P) (s : Shared)
    (t : ℕ) : Prop where
  claimed : s.stageOf P t = .claiming → ∀ w < P.numWords, Marked P load s t (s.sequenceOf P t) w →
    ClaimedSince P load trace t (s.sequenceOf P t) w
  pending : s.stageOf P t = .setting → ∀ w < P.numWords,
    Marked P load s t (s.sequenceOf P t) w ∨ Overwritten P load trace t (s.sequenceOf P t) w
  overwritten : s.stageOf P t = .successful → ∀ w < P.numWords,
    Overwritten P load trace t (s.sequenceOf P t) w
  committed : ∀ n, Passed P trace t n .setting → Committed P load trace t n
  observed : ∀ n, Passed P trace t n .reverting → Observed P load trace t n

/-- What an activation knows while the row still carries its call. -/
def Evidence (P : Params) (load : Workload P.numWords) (trace : Trace P) (s : Shared) (t n : ℕ) :
    Pc → Prop
  | .claimVerify _ _ _ actual => s.sequenceOf P t = n → s.stageOf P t = .claiming →
    P.Legal actual → Observed P load trace t n
  | .changeStage _ desired _ =>
    (desired = .reverting → s.sequenceOf P t = n → Observed P load trace t n) ∧
      (desired = .successful → s.sequenceOf P t = n →
        ∀ w < P.numWords, Overwritten P load trace t n w)
  | .setLoadTarget w | .setLoadDesired w _ | .setExchange w _ _ =>
    s.sequenceOf P t = n → ∀ i < w, Overwritten P load trace t n i
  | .setVerify w => s.sequenceOf P t = n → ∀ i < w + 1, Overwritten P load trace t n i
  | .prepare result | .finished result =>
    result = .ok () → ∀ w < P.numWords, Overwritten P load trace t n w
  | _ => True

theorem Evidence.kept (reached : Reached P load cells trace x)
    (call : CallOk P load x.before.shared t n)
    (evidence : Evidence P load trace x.before.shared t n pc) :
    Evidence P load (trace ++ [x]) x.after.shared t n pc := by
  have current {fact : Prop} (held : x.before.shared.sequenceOf P t = n → fact) :
      x.after.shared.sequenceOf P t = n → fact := reached.evolves.whileCurrent call held
  cases pc with
  | claimVerify =>
    intro same claiming real
    obtain ⟨before, -, kept | edge⟩ := reached.evolves.current_back call.within call.started same
    · exact (evidence before (kept ▸ claiming) real).append
    · exact absurd claiming edge.target_ne_claiming
  | changeStage =>
    exact ⟨fun reverting => current fun same => (evidence.1 reverting same).append,
      fun successful => current fun same w inRange => (evidence.2 successful same w inRange).append⟩
  | setLoadTarget => exact current fun same i below => (evidence same i below).append
  | setLoadDesired => exact current fun same i below => (evidence same i below).append
  | setExchange => exact current fun same i below => (evidence same i below).append
  | setVerify => exact current fun same i below => (evidence same i below).append
  | prepare => exact fun ok w inRange => (evidence ok w inRange).append
  | finished => exact fun ok w inRange => (evidence ok w inRange).append
  | _ => trivial

/-- The originator reports a success only while its row carries the call. -/
theorem evidence_setFrom (atMost : w ≤ P.numWords)
    (own : role = .originator → s.sequenceOf P t = n)
    (below : s.sequenceOf P t = n → ∀ i < w, Overwritten P load trace t n i) :
    Evidence P load trace s t n (setFrom P role w) := by
  unfold setFrom
  split
  · exact below
  · obtain rfl : w = P.numWords := by omega
    cases role with
    | originator => exact fun _ => below (own rfl)
    | helper => exact ⟨by simp, fun _ => below⟩

theorem evidence_claimFrom {op : Operation} :
    Evidence P load trace s t n (claimFrom P role op w) := by
  unfold claimFrom
  split
  · trivial
  · cases role <;> exact ⟨by simp, by simp⟩

theorem evidence_revertAllWords {next : RevertNext} :
    Evidence P load trace s t n (revertAllWords P next) := by
  unfold revertAllWords
  split <;> trivial

theorem evidence_revertBelow {next : RevertNext} (rows : RowEvidence P load trace s t)
    (own : role = .originator → s.sequenceOf P t = n) (pending : NextOk P s role t n next) :
    Evidence P load trace s t n (revertBelow role next w) := by
  cases w with
  | succ w => trivial
  | zero =>
    cases next with
    | fail error => exact pending.elim
    | helpReturn result => trivial
    | changeToReverted => exact ⟨by simp, by simp⟩
    | prepare result =>
      rintro rfl
      obtain rfl := own pending.1
      rcases pending.2 with ⟨-, stage⟩ | ⟨isError, -⟩
      · exact rows.overwritten (by simpa using stage rfl)
      · cases isError

theorem evidence_of_goesOn (own : role = .originator → s.sequenceOf P t = n)
    (goes : GoesOn P s role t n pc) : Evidence P load trace s t n pc := by
  cases goes with
  | set =>
    exact evidence_setFrom (Nat.zero_le _) own fun _ i below => absurd below (Nat.not_lt_zero i)
  | revert => exact evidence_revertAllWords

theorem evidence_of_helpEntry (entry : HelpEntry P s t n pc) :
    Evidence P load trace s t n pc := by
  cases entry with
  | claiming => exact evidence_claimFrom
  | setting =>
    exact evidence_setFrom (Nat.zero_le _) (by simp) fun _ i below =>
      absurd below (Nat.not_lt_zero i)
  | reverting => exact evidence_revertAllWords
  | _ => trivial

theorem evidence_afterStageChanged {current desired : Stage} {next : StageNext}
    (position : PcOk P load s role t n (.changeStage current desired next))
    (own : role = .originator → s'.sequenceOf P t = n) :
    Evidence P load trace s' t n (afterStageChanged P role next) := by
  rcases position with ⟨-, -, rfl, -⟩ | ⟨w, -, -, -, rfl, -⟩ | ⟨-, -, -, rfl, -⟩ |
    ⟨-, -, -, rfl, -⟩
  · exact evidence_setFrom (Nat.zero_le _) own fun _ i below => absurd below (Nat.not_lt_zero i)
  · cases role <;> trivial
  · trivial
  · trivial

/-- A set exchange that does not find the marker finds the word overwritten. -/
theorem overwritten_of_missed (rows : RowEvidence P load trace s t)
    (position : PcOk P load s role t n (.setExchange w target desired))
    (current : s.sequenceOf P t = n) (missed : s.cells target ≠ P.marker t n) :
    Overwritten P load trace t n w := by
  obtain ⟨inRange, stage, address, -⟩ := position
  obtain rfl := address.2 current
  subst current
  have stage := stage rfl
  simp only [List.mem_cons, List.not_mem_nil, or_false] at stage
  rcases stage with setting | successful
  · exact (rows.pending setting w inRange).resolve_left missed
  · exact rows.overwritten successful w inRange

theorem evidence_of_moves (rules : UsageRules P load cells) (reached : Reached P load cells trace x)
    (rows : RowEvidence P load trace x.before.shared t)
    (ok : WorkOk P load x.before.shared h completed role t n pc)
    (evidence : Evidence P load trace x.before.shared t n pc)
    (moves : OperationMoves P x.before.shared role t n pc x.event x.after.shared frames) {pc' : Pc}
    (member : .operating role (P.operation t n) pc' ∈ frames) :
    Evidence P load (trace ++ [x]) x.after.shared t n pc' := by
  have call := ok.call
  have position := ok.position
  have own := ok.current moves
  have kept {pc : Pc} (held : Evidence P load trace x.before.shared t n pc) :=
    held.kept reached call
  generalize same : x.event = event at moves
  generalize same' : x.after.shared = s' at moves kept ⊢
  cases moves with
  | claimed | claimFoundOwn =>
    obtain rfl := eq_of_mem_operating member
    exact evidence_claimFrom
  | @claimFoundOther w target expected other foreign =>
    obtain rfl := eq_of_mem_operating member
    intro current claiming real
    obtain ⟨inRange, -, address, -, value⟩ := position
    obtain rfl := address.2 current
    obtain rfl := value current
    have progress := reached.before.inProgress call.within (call.started.active current)
    exact ⟨x, by simp, ⟨_, _, _, _, same⟩, current, claiming,
      ⟨progress.1.trans current, progress.2⟩, w, inRange, real, other⟩
  | verifiedReal current claiming real =>
    obtain rfl := eq_of_mem_operating member
    exact ⟨fun _ current => (evidence current claiming real).append, by simp⟩
  | verifiedMarker =>
    obtain rfl : pc' = _ := by simpa using member
    trivial
  | claimDiverted diverted =>
    obtain rfl := eq_of_mem_operating member
    exact evidence_of_goesOn own (goesOn_of_claimDiverted diverted)
  | @stageChanged current desired next sequence stage edge =>
    obtain rfl := eq_of_mem_operating member
    have fits := rules.stage_lt call.within (Nat.le_of_lt call.counted)
    exact evidence_afterStageChanged position fun _ => Shared.sequenceOf_storeStage_self fits
  | stageRefused diverted =>
    obtain rfl := eq_of_mem_operating member
    exact evidence_of_goesOn own (goesOn_of_stageRefused position diverted)
  | setLoadTarget | setLoadDesired | prepared =>
    obtain rfl := eq_of_mem_operating member
    exact kept evidence
  | @setDone w target desired found =>
    obtain rfl := eq_of_mem_operating member
    obtain ⟨inRange, -, address, -, value⟩ := position
    refine evidence_setFrom inRange own fun current i below => ?_
    rcases Nat.lt_succ_iff_lt_or_eq.mp below with earlier | rfl
    · exact (evidence current i earlier).append
    · obtain rfl := address.2 current
      obtain rfl := value current
      exact ⟨x, by simp, same⟩
  | @setMissed w target desired missed =>
    obtain rfl := eq_of_mem_operating member
    intro current i below
    rcases Nat.lt_succ_iff_lt_or_eq.mp below with earlier | rfl
    · exact (evidence current i earlier).append
    · exact (overwritten_of_missed rows position current missed).append
  | setVerified current setting =>
    obtain rfl := eq_of_mem_operating member
    exact kept (evidence_setFrom position.1 (fun _ => current) evidence)
  | setDiverted diverted =>
    obtain rfl := eq_of_mem_operating member
    exact evidence_of_goesOn own (goesOn_of_setDiverted position.2 diverted)
  | reverted | revertMissed =>
    obtain rfl := eq_of_mem_operating member
    exact kept (evidence_revertBelow rows own position.2.1)
  | _ =>
    obtain rfl : pc' = _ := by simpa using member
    trivial

def WorkEvidence (P : Params) (load : Workload P.numWords) (trace : Trace P)
    (σ : Config P.numWords) : Prop :=
  ∀ h role t n pc, Works P σ h role t n pc → Evidence P load trace σ.shared t n pc

theorem workEvidence_step (rules : UsageRules P load cells) (reached : Reached P load cells trace x)
    (rows : ∀ t < P.numThreads, RowEvidence P load trace x.before.shared t)
    (held : WorkEvidence P load trace x.before) : WorkEvidence P load (trace ++ [x]) x.after := by
  refine reached.all_work ?_ ?_ ?_ ?_ ?_ held
  · intro h completed role t n pc ok evidence
    exact evidence.kept reached ok.call
  · intro completed role t n pc pc' frames ok evidence moves member
    exact evidence_of_moves rules reached (rows t ok.call.within) ok evidence moves member
  · intro t n
    exact evidence_claimFrom
  · intro t n pc same entry
    exact evidence_of_helpEntry (same ▸ entry)
  · intro t n w target expected waiting
    trivial

theorem claimedSince_step (rules : UsageRules P load cells) (reached : Reached P load cells trace x)
    (within : t < P.numThreads) (rows : RowEvidence P load trace x.before.shared t)
    (before : x.before.shared.stageOf P t = .claiming)
    (same : x.after.shared.sequenceOf P t = x.before.shared.sequenceOf P t)
    (inRange : w < P.numWords)
    (marked : Marked P load x.after.shared t (x.after.shared.sequenceOf P t) w) :
    ClaimedSince P load (trace ++ [x]) t (x.after.shared.sequenceOf P t) w := by
  have counted := (reached.before.shared.row t within (by simp [before])).1
  rw [same] at marked ⊢
  rcases reached.mark_found rules within counted marked with
    held | ⟨role, i, expected, works, event, -⟩
  · exact (rows.claimed before w inRange held).snoc marked
  · obtain ⟨inRange', -, address, -, value⟩ := (works.ok reached.before).position
    obtain rfl := rules.distinct t within _ counted w inRange i inRange' (address.2 rfl)
    obtain rfl := value rfl
    exact ⟨trace, x, [], by simp, event, by simpa using marked⟩

theorem NextOk.stage {next : RevertNext} (held : NextOk P s role t n next)
    (current : s.sequenceOf P t = n) : s.stageOf P t ∈ [.successful, .reverting, .reverted] := by
  cases next with
  | prepare result =>
    rcases held.2 with ⟨-, stage⟩ | ⟨-, stage⟩
    · exact List.mem_append_left [.reverting, .reverted] (stage current)
    · exact List.mem_cons_of_mem _ (stage current)
  | fail error => exact held.elim
  | changeToReverted => exact List.mem_cons_of_mem _ (held.2 current)
  | helpReturn result =>
    rcases held.2 with ⟨-, stage⟩ | ⟨-, gone⟩
    · exact (show [Stage.successful, .reverted] ⊆ [.successful, .reverting, .reverted] by simp)
        (stage current)
    · omega

/-- At Setting a word keeps the marker until it is overwritten. -/
theorem pending_step (rules : UsageRules P load cells) (reached : Reached P load cells trace x)
    (within : t < P.numThreads) (setting : x.before.shared.stageOf P t = .setting)
    (sequence : x.before.shared.sequenceOf P t = n) (inRange : w < P.numWords)
    (held : Marked P load x.before.shared t n w ∨ Overwritten P load trace t n w) :
    Marked P load x.after.shared t n w ∨ Overwritten P load (trace ++ [x]) t n w := by
  rcases held with marked | overwritten
  · have counted := (reached.before.shared.row t within (by simp [setting])).1
    rw [sequence] at counted
    by_cases still : Marked P load x.after.shared t n w
    · exact .inl still
    · rcases reached.mark_lost rules within counted marked still with
        ⟨role, i, desired, works, event⟩ | ⟨role, i, expected, next, works, event⟩
      · obtain ⟨inRange', -, address, -, value⟩ := (works.ok reached.before).position
        obtain rfl := rules.distinct t within _ counted w inRange i inRange' (address.2 sequence)
        obtain rfl := value sequence
        exact .inr ⟨x, by simp, event⟩
      · have stage := (works.ok reached.before).position.2.1.stage sequence
        simp [setting] at stage
  · exact .inr overwritten.append

theorem rowEvidence_step (rules : UsageRules P load cells) (reached : Reached P load cells trace x)
    (within : t < P.numThreads) (rows : RowEvidence P load trace x.before.shared t)
    (works : WorkEvidence P load trace x.before) :
    RowEvidence P load (trace ++ [x]) x.after.shared t := by
  have history := rowHistory_of_execution rules reached.run t
  -- what earlier steps went through stays justified, so only the last one counts
  have outcomes (committed : x.after.shared.stageOf P t = .setting →
        Committed P load (trace ++ [x]) t (x.after.shared.sequenceOf P t))
      (observed : x.after.shared.stageOf P t = .reverting →
        Observed P load (trace ++ [x]) t (x.after.shared.sequenceOf P t)) :
      (∀ n, Passed P (trace ++ [x]) t n .setting → Committed P load (trace ++ [x]) t n) ∧
        ∀ n, Passed P (trace ++ [x]) t n .reverting → Observed P load (trace ++ [x]) t n := by
    refine ⟨fun n passed => ?_, fun n passed => ?_⟩
    · rcases passed_snoc.mp passed with earlier | ⟨rfl, stage⟩
      · exact (rows.committed n earlier).append
      · exact committed stage
    · rcases passed_snoc.mp passed with earlier | ⟨rfl, stage⟩
      · exact (rows.observed n earlier).append
      · exact observed stage
  cases reached.rowStep rules t with
  | kept same =>
    have stage : x.after.shared.stageOf P t = x.before.shared.stageOf P t :=
      Shared.stageOf_congr same
    have sequence : x.after.shared.sequenceOf P t = x.before.shared.sequenceOf P t :=
      Shared.sequenceOf_congr same
    obtain ⟨committed, observed⟩ := outcomes
      (fun at_ =>
        sequence ▸ (rows.committed _ (history.success.passed (.inl (stage ▸ at_)))).append)
      (fun at_ => sequence ▸ (rows.observed _ (history.failure.passed (.inl (stage ▸ at_)))).append)
    refine ⟨?_, ?_, ?_, committed, observed⟩
    · intro claiming w inRange marked
      exact claimedSince_step rules reached within rows (stage ▸ claiming) sequence inRange marked
    · intro setting w inRange
      rw [sequence]
      exact pending_step rules reached within (stage ▸ setting) rfl inRange
        (rows.pending (stage ▸ setting) w inRange)
    · intro successful w inRange
      rw [sequence]
      exact (rows.overwritten (stage ▸ successful) w inRange).append
  | @published n owner callNumber stored inactive sequence stage' sequence' =>
    obtain ⟨committed, observed⟩ := outcomes (by simp [stage']) (by simp [stage'])
    refine ⟨?_, by simp [stage'], by simp [stage'], committed, observed⟩
    intro claiming w inRange marked
    rw [sequence'] at marked
    have counted := (reached.after.shared.row t within (by simp [stage'])).1
    rw [sequence'] at counted
    have fresh : ¬ Started P x.before.shared t n := by
      rintro (gone | ⟨-, active⟩)
      · omega
      · exact active inactive
    rcases reached.mark_found rules within counted marked with held | ⟨role, i, expected, works, -⟩
    · exact absurd held (reached.before.shared.unpublished rules within counted fresh _)
    · exact absurd (works.ok reached.before).call.started fresh
  | @exchanged n role current desired next mover changed edge stage sequence stage' sequence' =>
    have ok := mover.ok reached.before
    have evidence := works _ _ _ _ _ mover
    have counted := ok.call.counted
    have marked (setting : desired = .setting) :
        ∀ w < P.numWords, Marked P load x.before.shared t n w :=
      PcOk.marked (setting ▸ ok.position) sequence stage
    obtain ⟨committed, observed⟩ := outcomes
      (fun at_ => by
        rw [stage'] at at_
        subst at_
        cases edge
        have counted' := Nat.le_of_lt counted
        refine sequence' ▸ ⟨trace, x, [], by simp,
          (reached.before.shared.word_eq_iff rules within counted').mpr ⟨stage, sequence⟩,
          (reached.after.shared.word_eq_iff rules within counted').mpr ⟨stage', sequence'⟩,
          marked rfl, fun w inRange => ?_⟩
        have held := rows.claimed stage w inRange
        rw [sequence] at held
        exact held (marked rfl w inRange))
      (fun at_ => sequence' ▸ (evidence.1 (stage' ▸ at_) sequence).append)
    refine ⟨?_, ?_, ?_, committed, observed⟩
    · intro claiming
      exact absurd (stage'.symm.trans claiming) edge.target_ne_claiming
    · intro setting w inRange
      left
      rw [sequence', Marked, reached.cells_of_exchangeStage changed]
      exact marked (stage'.symm.trans setting) w inRange
    · intro successful w inRange
      rw [sequence']
      exact (evidence.2 (stage'.symm.trans successful) sequence w inRange).append
  | @retired n result works owner callNumber stored stage sequence stage' sequence' =>
    obtain ⟨committed, observed⟩ := outcomes (by simp [stage']) (by simp [stage'])
    exact ⟨by simp [stage'], by simp [stage'], by simp [stage'], committed, observed⟩

theorem evidence_of_execution (rules : UsageRules P load cells)
    (run : Execution P load cells trace σ) :
    WorkEvidence P load trace σ ∧ ∀ t < P.numThreads, RowEvidence P load trace σ.shared t := by
  refine execution_always (fun trace σ =>
    WorkEvidence P load trace σ ∧ ∀ t < P.numThreads, RowEvidence P load trace σ.shared t)
    rules ⟨?_, ?_⟩ ?_ run
  · intro h role t n pc works
    cases works.member
  · intro t _
    refine ⟨?_, ?_, ?_, ?_, ?_⟩ <;> simp [stageOf_initial, Passed]
  · rintro trace x reached ⟨works, rows⟩
    exact ⟨workEvidence_step rules reached rows works,
      fun t within => rowEvidence_step rules reached within (rows t within) works⟩

/-- A call that succeeded is over only when all of its words are overwritten. -/
theorem overwritten_of_retired (rules : UsageRules P load cells)
    (run : Execution P load cells trace σ) (passed : Passed P trace t n .setting)
    (gone : n < σ.shared.sequenceOf P t) (inRange : w < P.numWords) :
    Overwritten P load trace t n w := by
  refine execution_always (fun trace σ => Passed P trace t n .setting →
    n < σ.shared.sequenceOf P t → Overwritten P load trace t n w) rules ?_ ?_ run passed gone
  · simp [Passed]
  · intro trace x reached held passed gone
    rcases passed_snoc.mp passed with earlier | ⟨now, -⟩
    · have kept (same : x.after.shared.sequenceOf P t = x.before.shared.sequenceOf P t) :
          Overwritten P load (trace ++ [x]) t n w := (held earlier (same ▸ gone)).append
      cases reached.rowStep rules t with
      | kept same => exact kept (Shared.sequenceOf_congr same)
      | published _ _ _ _ sequence _ sequence' => exact kept (sequence'.trans sequence.symm)
      | exchanged _ _ _ _ sequence _ sequence' => exact kept (sequence'.trans sequence.symm)
      | @retired k result works _ _ _ _ sequence _ sequence' =>
        by_cases before : n < k
        · exact (held earlier (sequence.symm ▸ before)).append
        · -- the owner retires the call itself, and so knows its result
          obtain rfl : n = k := by omega
          have decided := workDecided_of_execution rules reached.run _ _ _ _ _ works
          have evidence := (evidence_of_execution rules reached.run).1 _ _ _ _ _ works
          rcases (works.ok reached.before).position.2 with ⟨ok, -⟩ | ⟨failed, -⟩
          · exact (evidence ok w inRange).append
          · exact absurd ⟨earlier, decided.2 failed⟩
              ((rowHistory_of_execution rules reached.run t).exclusive n)
    · omega

/-! ### Results -/

/-- A word is overwritten only after the row went through Setting. -/
theorem passed_of_setEvent (rules : UsageRules P load cells)
    (run : Execution P load cells (front ++ x :: back) σ) {op : Operation} {new actual : ℕ}
    (event : x.event = .exchangeCell .set op w target expected new (.ok actual)) :
    Passed P front op.threadIndex op.sequence .setting := by
  have reached := reached_of_split rules run
  have moves := reached.moves
  rw [event] at moves
  generalize shape : x.before.threads x.actor.thread = thread at moves
  generalize x.after.threads x.actor.thread = thread' at moves
  generalize x.after.shared = s' at moves
  cases moves with
  | @move completed frame rest _ _ frames moves =>
    cases moves with
    | init moves => cases moves
    | @operate role t n pc _ _ _ moves =>
      cases moves with
      | setDone found =>
        have works : Works P x.before x.actor.thread role t n (.setExchange w target new) :=
          ⟨reached.within, by rw [shape]; exact List.mem_cons_self⟩
        exact workDecided_of_execution rules reached.run _ _ _ _ _ works

/-- Between the commit and any later point, what was overwritten was
overwritten after the commit. -/
theorem overwritten_after_commit (rules : UsageRules P load cells)
    (run : Execution P load cells (front ++ x :: back) σ) (commits : Commits P load front x t n)
    (within : t < P.numThreads) (counted : n < load.count t)
    (overwritten : Overwritten P load (front ++ x :: back) t n w) :
    Overwritten P load back t n w := by
  obtain ⟨y, member, event⟩ := overwritten
  have reached := reached_of_split rules run
  have before :=
    (reached.before.shared.word_eq_iff rules within (Nat.le_of_lt counted)).mp commits.before
  have notYet : ¬ Passed P front t n .setting := by
    intro passed
    rcases (rowHistory_of_execution rules reached.run t).success.over_or_at n passed with
      gone | ⟨-, at_⟩
    · omega
    · simp [before.1] at at_
  rcases List.mem_append.mp member with early | later
  · obtain ⟨front', back', rfl⟩ := List.append_of_mem early
    exact absurd (passed_of_setEvent rules reached.run event).append notYet
  · rcases List.mem_cons.mp later with rfl | inBack
    · exact absurd (passed_of_setEvent rules run event) notYet
    · exact ⟨y, inBack, event⟩

/-- Every returned result is justified by an instant inside the call. -/
theorem results_justified (rules : UsageRules P load cells)
    (run : Execution P load cells (front ++ x :: back) σ) (responds : Responds P x t n result) :
    (result = .ok () → ∃ earlier commit later, front = earlier ++ commit :: later ∧
      Commits P load earlier commit t n ∧ ∀ w < P.numWords, Overwritten P load later t n w) ∧
    (result = .error .valueWasNotExpectedValue → Observed P load front t n ∧
      ∀ y ∈ front ++ x :: back, ∀ w target expected new actual, y.event ≠
        .exchangeCell .set (P.operation t n) w target expected new (.ok actual)) := by
  have reached := reached_of_split rules run
  obtain ⟨works, ok⟩ := reached.responds responds
  obtain ⟨evidence, rows⟩ := evidence_of_execution rules reached.run
  have decided := workDecided_of_execution rules reached.run _ _ _ _ _ works
  constructor
  · rintro rfl
    obtain ⟨earlier, commit, later, rfl, commits⟩ :=
      (rows t ok.call.within).committed n (decided.1 rfl)
    refine ⟨earlier, commit, later, rfl, commits, fun w inRange => ?_⟩
    exact overwritten_after_commit rules reached.run commits ok.call.within ok.call.counted
      (evidence _ _ _ _ _ works rfl w inRange)
  · rintro rfl
    have reverting := decided.2 rfl
    refine ⟨(rows t ok.call.within).observed n reverting, ?_⟩
    intro y member w target expected new actual event
    obtain ⟨before, after, split⟩ := List.append_of_mem member
    have setting : Passed P before t n .setting := passed_of_setEvent rules (split ▸ run) event
    refine (rowHistory_of_execution rules run t).exclusive n ⟨?_, reverting.append⟩
    rw [split]
    exact setting.append

/-- In the contended run the first call succeeds after the second one failed. -/
theorem results_justified_contended : ∃ (front back : Trace twoThreads)
    (x : Transition (Config twoThreads.numWords) Actor Event) (σ : Config twoThreads.numWords),
    Execution twoThreads contended (fun _ => 0) (front ++ x :: back) σ ∧
      Responds twoThreads x 0 0 (.ok ()) ∧ ∃ earlier commit later,
        front = earlier ++ commit :: later ∧ Commits twoThreads contended earlier commit 0 0 ∧
          ∀ w < 2, Overwritten twoThreads contended later 0 0 w := by
  obtain ⟨trace, σ, run, x, member, responds⟩ := exists_execution twoThreads contended
    (fun _ => 0) contendedTurns (fun trace _ => ∃ x ∈ trace, Responds twoThreads x 0 0 (.ok ()))
    (by decide +kernel)
  obtain ⟨front, back, rfl⟩ := List.append_of_mem member
  exact ⟨front, back, x, σ, run, responds, (results_justified contended_rules run responds).1 rfl⟩

end KCas
