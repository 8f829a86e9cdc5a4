import KCas.Justification

/-! One call a thread, all on the same cells with the same expected values. No
row is written twice, so a late helper always has the words of the call it helps,
and takes away what it put into a cell. -/
namespace KCas

open Labelled

variable {P : Params} {load : Workload P.numWords} {cells targets expecteds : ℕ → ℕ}
  {s s' : Shared} {σ : Config P.numWords} {h t u n w value : ℕ} {role : Role} {pc pc' : Pc}
  {event : Event} {frames : List (Frame P.numWords)} {trace front back : Trace P}
  {x : Transition (Config P.numWords) Actor Event} {result : Except Error Unit}

/-- Every thread calls once, on the cells `targets`, which are distinct, with
the expected values `expecteds`. The desired values are each thread's own. -/
structure OneShot (P : Params) (load : Workload P.numWords) (cells targets expecteds : ℕ → ℕ) :
    Prop where
  count : ∀ t < P.numThreads, load.count t = 1
  target : ∀ t < P.numThreads, ∀ w < P.numWords, (load.call t 0).target w = targets w
  expected : ∀ t < P.numThreads, ∀ w < P.numWords, (load.call t 0).expected w = expecteds w
  distinct : ∀ i < P.numWords, ∀ j < P.numWords, targets i = targets j → i = j
  cells_legal : ∀ address, P.Legal (cells address)
  expected_legal : ∀ w < P.numWords, P.Legal (expecteds w)
  desired_legal : ∀ t < P.numThreads, ∀ w < P.numWords, P.Legal ((load.call t 0).desired w)

theorem OneShot.first (shot : OneShot P load cells targets expecteds) (within : t < P.numThreads)
    (counted : n < load.count t) : n = 0 := by
  rw [shot.count t within] at counted
  omega

/-- One call never overflows a sequence number. -/
theorem OneShot.rules (shot : OneShot P load cells targets expecteds) :
    UsageRules P load cells where
  cells_legal := shot.cells_legal
  expected_legal := by
    intro t within n counted w inRange
    obtain rfl := shot.first within counted
    rw [shot.expected t within w inRange]
    exact shot.expected_legal w inRange
  desired_legal := by
    intro t within n counted w inRange
    obtain rfl := shot.first within counted
    exact shot.desired_legal t within w inRange
  distinct := by
    intro t within n counted i inRange j inRange' same
    obtain rfl := shot.first within counted
    rw [shot.target t within i inRange, shot.target t within j inRange'] at same
    exact shot.distinct i inRange j inRange' same
  marker_fits := by
    intro t within
    rw [shot.count t within]
    exact Nat.one_le_two_pow
  stage_fits := by
    intro t within
    rw [shot.count t within]
    refine Nat.one_lt_two_pow ?_
    have bytes := P.two_le_usizeBytes
    simp only [Params.stageSequenceBits, Params.usizeBits, stageBitLength]
    omega

/-! ### The words of late helpers -/

/-- The words an activation has loaded are those of its call. -/
def HasWords (words : KCasWords P.numWords) : Pc → Prop
  | .claimLoadExpected w target | .setLoadDesired w target | .revertLoadExpected w target _ =>
    target = words.target w
  | .claimExchange w target expected | .claimVerify w target expected _ |
    .claimHelp w target expected | .revertExchange w target expected _ =>
    target = words.target w ∧ expected = words.expected w
  | .setExchange w target desired => target = words.target w ∧ desired = words.desired w
  | _ => True

theorem hasWords_of_turn {words : KCasWords P.numWords} (turn : pc.Turn) : HasWords words pc := by
  cases pc with
  | claimLoadTarget | changeStage | setLoadTarget | revertLoadTarget | prepare | returned
  | panicked => trivial
  | _ => exact turn.elim

theorem hasWords_of_moves {words : KCasWords P.numWords} (position : PcOk P load s role t n pc)
    (stored : ∀ w < P.numWords, s.state.targetAddresses t w = words.target w ∧
      s.state.expectedValues t w = words.expected w ∧ s.state.desiredValues t w = words.desired w)
    (has : HasWords words pc) (moves : OperationMoves P s role t n pc event s' frames)
    (member : .operating role (P.operation t n) pc' ∈ frames) : HasWords words pc' := by
  cases moves with
  | claimLoadTarget | setLoadTarget | revertLoadTarget =>
    obtain rfl := eq_of_mem_operating member
    exact (stored _ position.1).1
  | claimLoadExpected | revertLoadExpected =>
    obtain rfl := eq_of_mem_operating member
    exact ⟨has, (stored _ position.1).2.1⟩
  | setLoadDesired =>
    obtain rfl := eq_of_mem_operating member
    exact ⟨has, (stored _ position.1).2.2⟩
  | claimSpurious | claimFoundOther =>
    obtain rfl := eq_of_mem_operating member
    exact has
  | verifiedMarker =>
    obtain rfl : pc' = _ := by simpa using member
    exact has
  | claimed | claimFoundOwn =>
    obtain rfl := eq_of_mem_operating member
    exact hasWords_of_turn turn_claimFrom
  | claimDiverted diverted =>
    obtain rfl := eq_of_mem_operating member
    exact hasWords_of_turn (turn_of_goesOn (goesOn_of_claimDiverted diverted))
  | stageChanged =>
    obtain rfl := eq_of_mem_operating member
    exact hasWords_of_turn turn_afterStageChanged
  | stageRefused diverted =>
    obtain rfl := eq_of_mem_operating member
    exact hasWords_of_turn (turn_of_goesOn (goesOn_of_stageRefused position diverted))
  | setDone | setVerified =>
    obtain rfl := eq_of_mem_operating member
    exact hasWords_of_turn turn_setFrom
  | setDiverted diverted =>
    obtain rfl := eq_of_mem_operating member
    exact hasWords_of_turn (turn_of_goesOn (goesOn_of_setDiverted position.2 diverted))
  | reverted | revertMissed =>
    obtain rfl := eq_of_mem_operating member
    exact hasWords_of_turn (turn_revertBelow position.2.1)
  | _ =>
    obtain rfl : pc' = _ := by simpa using member
    trivial

/-- Published rows hold the words of their calls for good, and every activation
has words of its call. -/
structure WordsKept (P : Params) (load : Workload P.numWords) (σ : Config P.numWords) : Prop where
  rows : ∀ t < P.numThreads, Started P σ.shared t 0 →
    Stored P σ.shared t (load.call t 0) P.numWords
  works : ∀ h role t n pc, Works P σ h role t n pc → HasWords (load.call t 0) pc

/-- A row is only written before it is published. -/
theorem Reached.row_kept (reached : Reached P load cells trace x)
    (shot : OneShot P load cells targets expecteds) (within : t < P.numThreads)
    (started : Started P x.before.shared t 0) :
    x.after.shared.state.targetAddresses t = x.before.shared.state.targetAddresses t ∧
      x.after.shared.state.expectedValues t = x.before.shared.state.expectedValues t ∧
      x.after.shared.state.desiredValues t = x.before.shared.state.desiredValues t := by
  by_cases untouched : t ≠ x.actor.thread ∨ x.before.shared.stageOf P t ≠ .inactive
  · exact reached.evolves.rows t within untouched
  · simp only [ne_eq, not_or, not_not] at untouched
    obtain ⟨rfl, inactive⟩ := untouched
    have held := reached.before.callStacks _ within
    have moves := reached.moves
    generalize x.before.threads x.actor.thread = thread at moves held
    generalize x.after.threads x.actor.thread = thread' at moves
    generalize x.event = event at moves
    generalize x.after.shared = s' at moves ⊢
    cases moves with
    | @move completed frame rest _ _ frames moves =>
      cases moves with
      | help => exact ⟨rfl, rfl, rfl⟩
      | operate moves => cases moves <;> exact ⟨rfl, rfl, rfl⟩
      | init moves =>
        cases rest with
        | cons caller rest => exact held.1.elim
        | nil =>
          -- the thread would be before its first call, whose row is already published
          obtain ⟨-, -, -, counted, -, sequence, -⟩ := held
          have first := shot.first within counted
          rcases started with gone | ⟨-, active⟩
          · omega
          · exact absurd inactive active
    | _ => exact ⟨rfl, rfl, rfl⟩

/-- A row that gets published holds the words of its call. -/
theorem Reached.stored_of_published (reached : Reached P load cells trace x)
    (rules : UsageRules P load cells) (within : t < P.numThreads)
    (before : ¬ Started P x.before.shared t 0) (after : Started P x.after.shared t 0) :
    Stored P x.after.shared t (load.call t 0) P.numWords := by
  have active : x.after.shared.stageOf P t ≠ .inactive ∧ x.after.shared.sequenceOf P t = 0 := by
    cases reached.rowStep rules t with
    | kept same =>
      refine absurd ?_ before
      simpa [Started, Shared.stageOf_congr same, Shared.sequenceOf_congr same] using after
    | published owner callNumber stored inactive sequence stage' sequence' =>
      refine ⟨by simp [stage'], ?_⟩
      by_contra later
      exact before (.inl (by omega))
    | exchanged works event edge stage sequence =>
      refine absurd ?_ before
      by_cases first : x.before.shared.sequenceOf P t = 0
      · refine .inr ⟨first, ?_⟩
        rw [stage]
        cases edge <;> simp
      · exact .inl (Nat.pos_of_ne_zero first)
    | retired works owner callNumber stored stage sequence =>
      refine absurd ?_ before
      by_cases first : x.before.shared.sequenceOf P t = 0
      · refine .inr ⟨first, ?_⟩
        rintro inactive
        simp [inactive] at stage
      · exact .inl (Nat.pos_of_ne_zero first)
  have row := (reached.after.shared.row t within active.1).2
  rwa [active.2] at row

theorem wordsKept_of_execution (shot : OneShot P load cells targets expecteds)
    (run : Execution P load cells trace σ) : WordsKept P load σ := by
  refine execution_always (fun _ σ => WordsKept P load σ) shot.rules ⟨?_, ?_⟩ ?_ run
  · rintro t within (gone | ⟨-, active⟩)
    · simp [sequenceOf_initial] at gone
    · exact absurd stageOf_initial active
  · intro h role t n pc works
    cases works.member
  · rintro trace x reached ⟨rows, held⟩
    constructor
    · intro t within started
      by_cases before : Started P x.before.shared t 0
      · obtain ⟨target, expected, desired⟩ := reached.row_kept shot within before
        intro w inRange
        rw [target, expected, desired]
        exact rows t within before w inRange
      · exact reached.stored_of_published shot.rules within before started
    · refine reached.all_work ?_ ?_ ?_ ?_ ?_ held
      · intro h completed role t n pc ok has
        exact has
      · intro completed role t n pc pc' frames ok has moves member
        obtain rfl := shot.first ok.call.within ok.call.counted
        exact hasWords_of_moves ok.position (rows t ok.call.within ok.call.started) has moves member
      · intro t n
        exact hasWords_of_turn turn_claimFrom
      · intro t n pc same entry
        exact hasWords_of_turn (turn_of_helpEntry entry)
      · intro t n w target expected has
        exact has

/-! ### Somebody takes every marker away -/

/-- An activation at this position still removes the call's marker from word `w`,
if it is there. -/
def Covers (w : ℕ) : Pc → Prop
  | .claimLoadTarget i | .claimLoadExpected i _ | .claimExchange i .. | .claimVerify i .. |
    .claimHelp i .. => w < i
  | .changeStage .claiming _ (.revert i) => w < i
  | .changeStage .claiming .. => True
  | .setLoadTarget i | .setLoadDesired i _ | .setExchange i .. => i ≤ w
  | .setVerify i => i < w
  | .revertLoadTarget i _ | .revertLoadExpected i .. | .revertExchange i .. => w ≤ i
  | _ => False

theorem covers_claimFrom {op : Operation} {i : ℕ} (below : w < i) :
    Covers w (claimFrom P role op i) := by
  unfold claimFrom
  split
  · exact below
  · cases role <;> trivial

theorem covers_setFrom {i : ℕ} (inRange : w < P.numWords) (atLeast : i ≤ w) :
    Covers w (setFrom P role i) := by
  unfold setFrom
  split
  · exact atLeast
  · omega

theorem covers_revertAllWords {next : RevertNext} (inRange : w < P.numWords) :
    Covers w (revertAllWords P next) := by
  rw [revertAllWords, if_neg (by omega)]
  exact Nat.le_sub_one_of_lt inRange

theorem covers_revertBelow {next : RevertNext} {i : ℕ} (below : w < i) :
    Covers w (revertBelow role next i) := by
  cases i with
  | zero => omega
  | succ i => exact Nat.le_of_lt_succ below

theorem covers_of_goesOn (inRange : w < P.numWords) (goes : GoesOn P s role t n pc) :
    Covers w pc := by
  cases goes with
  | set => exact covers_setFrom inRange (Nat.zero_le _)
  | revert => exact covers_revertAllWords inRange

theorem covers_afterStageChanged {current desired : Stage} {next : StageNext}
    (inRange : w < P.numWords)
    (position : PcOk P load s role t n (.changeStage current desired next))
    (covers : Covers w (.changeStage current desired next)) :
    Covers w (afterStageChanged P role next) := by
  rcases position with ⟨rfl, rfl, rfl, -⟩ | ⟨i, -, rfl, rfl, rfl, -⟩ | ⟨-, rfl, -⟩ | ⟨-, rfl, -⟩
  · exact covers_setFrom inRange (Nat.zero_le _)
  · cases role <;> exact Nat.le_of_lt covers
  · exact covers.elim
  · exact covers.elim

/-- As long as the marker stays, the activation keeps to it. -/
theorem covers_of_moves (words : KCasWords P.numWords) (inRange : w < P.numWords)
    (position : PcOk P load s role t n pc) (has : HasWords words pc)
    (unreal : ∀ value, P.Legal value → value ≠ P.marker t n)
    (covers : Covers w pc) (marked : s'.cells (words.target w) = P.marker t n)
    (moves : OperationMoves P s role t n pc event s' frames) :
    ∃ pc', .operating role (P.operation t n) pc' ∈ frames ∧ Covers w pc' := by
  cases moves with
  | claimed | claimFoundOwn =>
    exact ⟨_, List.mem_singleton.mpr rfl, covers_claimFrom (Nat.lt_succ_of_lt covers)⟩
  | verifiedMarker => exact ⟨_, List.mem_cons_of_mem _ (List.mem_singleton.mpr rfl), covers⟩
  | claimDiverted diverted =>
    exact ⟨_, List.mem_singleton.mpr rfl,
      covers_of_goesOn inRange (goesOn_of_claimDiverted diverted)⟩
  | stageChanged =>
    exact ⟨_, List.mem_singleton.mpr rfl, covers_afterStageChanged inRange position covers⟩
  | stageRefused diverted =>
    exact ⟨_, List.mem_singleton.mpr rfl,
      covers_of_goesOn inRange (goesOn_of_stageRefused position diverted)⟩
  | @setDone i target desired found =>
    refine ⟨_, List.mem_singleton.mpr rfl, covers_setFrom inRange ?_⟩
    rcases Nat.lt_or_eq_of_le covers with above | rfl
    · exact above
    · obtain ⟨rfl, rfl⟩ := has
      rw [Shared.setCell_self] at marked
      exact absurd marked (unreal _ position.2.2.2.1)
  | @setMissed i target desired missed =>
    refine ⟨_, List.mem_singleton.mpr rfl, ?_⟩
    rcases Nat.lt_or_eq_of_le covers with above | rfl
    · exact above
    · exact absurd (has.1 ▸ marked) missed
  | setVerified => exact ⟨_, List.mem_singleton.mpr rfl, covers_setFrom inRange covers⟩
  | setDiverted diverted =>
    exact ⟨_, List.mem_singleton.mpr rfl,
      covers_of_goesOn inRange (goesOn_of_setDiverted position.2 diverted)⟩
  | @reverted i target expected next found =>
    refine ⟨_, List.mem_singleton.mpr rfl, covers_revertBelow ?_⟩
    rcases Nat.lt_or_eq_of_le covers with below | rfl
    · exact below
    · obtain ⟨rfl, rfl⟩ := has
      rw [Shared.setCell_self] at marked
      exact absurd marked (unreal _ position.2.2.2.1)
  | @revertMissed i target expected next missed =>
    refine ⟨_, List.mem_singleton.mpr rfl, covers_revertBelow ?_⟩
    rcases Nat.lt_or_eq_of_le covers with below | rfl
    · exact below
    · exact absurd (has.1 ▸ marked) missed
  | prepared => exact covers.elim
  | _ => exact ⟨_, List.mem_singleton.mpr rfl, covers⟩

/-- An activation goes on unless it is at its end. -/
theorem Reached.goes_on (reached : Reached P load cells trace x)
    (works : Works P x.before h role t n pc) : Works P x.after h role t n pc ∨
      (∃ frames, OperationMoves P x.before.shared role t n pc x.event x.after.shared frames ∧
        ∀ pc', .operating role (P.operation t n) pc' ∈ frames → Works P x.after h role t n pc') ∨
      (∃ w target expected, pc = .claimHelp w target expected ∧
        Works P x.after h role t n (.claimExchange w target expected)) ∨
      (∃ result, pc = .returned result) ∨ ∃ result, pc = .finished result := by
  obtain ⟨within, member⟩ := works
  by_cases own : h = x.actor.thread
  · subst own
    have moves := reached.moves
    have put {pc' : Pc}
        (after : .operating role (P.operation t n) pc' ∈ (x.after.threads x.actor.thread).stack) :
        Works P x.after x.actor.thread role t n pc' := ⟨within, after⟩
    generalize x.before.threads x.actor.thread = thread at moves member
    generalize x.after.threads x.actor.thread = thread' at moves put
    generalize x.event = event at moves ⊢
    generalize x.after.shared = s' at moves ⊢
    cases moves with
    | invoke => simp at member
    | respond =>
      obtain ⟨-, -, rfl⟩ := (Frame.operating.injEq ..).mp (List.mem_singleton.mp member)
      exact .inr (.inr (.inr (.inr ⟨_, rfl⟩)))
    | helpReturned =>
      rcases List.mem_cons.mp member with top | below
      · obtain ⟨-, -, rfl⟩ := (Frame.operating.injEq ..).mp top
        exact .inr (.inr (.inr (.inl ⟨_, rfl⟩)))
      · rcases List.mem_cons.mp below with caller | further
        · obtain ⟨rfl, rfl, rfl⟩ := (Frame.operating.injEq ..).mp caller
          exact .inr (.inr (.inl ⟨_, _, _, rfl, put List.mem_cons_self⟩))
        · exact .inl (put (List.mem_cons_of_mem _ further))
    | @move completed frame rest _ _ frames moves =>
      rcases List.mem_cons.mp member with rfl | below
      · generalize shape : P.operation t n = op at moves
        cases moves with
        | @operate role u k pc _ _ _ moves =>
          obtain ⟨rfl, rfl, -⟩ := (Operation.mk.injEq ..).mp shape
          exact .inr (.inl ⟨frames, moves, fun pc' member => put (List.mem_append_left _ member)⟩)
      · exact .inl (put (List.mem_append_right _ below))
  · left
    exact ⟨within, (reached.others h own).symm ▸ member⟩

/-- A claim exchange that succeeded leads to the next word. -/
theorem Reached.claims_on (reached : Reached P load cells trace x) {target expected : ℕ}
    (event : x.event = .exchangeCell .claim (P.operation t n) w target expected (P.marker t n)
      (.ok expected)) :
    ∃ role, Works P x.after x.actor.thread role t n
      (claimFrom P role (P.operation t n) (w + 1)) := by
  have moves := reached.moves
  have put {role : Role} {pc : Pc}
      (after : .operating role (P.operation t n) pc ∈ (x.after.threads x.actor.thread).stack) :
      Works P x.after x.actor.thread role t n pc := ⟨reached.within, after⟩
  generalize x.before.threads x.actor.thread = thread at moves
  generalize x.after.threads x.actor.thread = thread' at moves put
  generalize x.after.shared = s' at moves
  generalize x.event = happened at moves event
  cases moves with
  | move moves =>
    cases moves with
    | init moves => cases moves <;> cases event
    | help => cases event
    | @operate role u k pc _ _ _ moves =>
      cases moves with
      | claimed found =>
        obtain ⟨-, same, rfl, -⟩ := (Event.exchangeCell.injEq ..).mp event
        obtain ⟨rfl, rfl, -⟩ := (Operation.mk.injEq ..).mp same
        exact ⟨role, put (List.mem_append_left _ (List.mem_singleton.mpr rfl))⟩
      | claimFoundOwn => simp at event
      | _ => cases event
  | _ => cases event

/-- Every marker has an activation that still removes it. -/
def Covered (P : Params) (targets : ℕ → ℕ) (σ : Config P.numWords) : Prop :=
  ∀ t < P.numThreads, ∀ w < P.numWords, σ.shared.cells (targets w) = P.marker t 0 →
    ∃ h role pc, Works P σ h role t 0 pc ∧ Covers w pc

theorem covered_step (shot : OneShot P load cells targets expecteds)
    (reached : Reached P load cells trace x) (covered : Covered P targets x.before) :
    Covered P targets x.after := by
  intro t within w inRange marked
  have counted : 0 < load.count t := by
    rw [shot.count t within]
    exact Nat.one_pos
  obtain ⟨rows, has⟩ := wordsKept_of_execution shot reached.run
  have own := shot.target t within w inRange
  rcases reached.mark_found shot.rules within counted marked with
    held | ⟨role, i, expected, works, event, -⟩
  · obtain ⟨h, role, pc, works, covers⟩ := covered t within w inRange held
    have ok := works.ok reached.before
    rcases reached.goes_on works with stays | ⟨frames, moves, onward⟩ |
      ⟨i, target, expected, rfl, onward⟩ | ⟨result, rfl⟩ | ⟨result, rfl⟩
    · exact ⟨h, role, pc, stays, covers⟩
    · obtain ⟨pc', member, covers'⟩ := covers_of_moves (load.call t 0) inRange ok.position
        (has _ _ _ _ _ works) (fun value real same =>
          shot.rules.marker_not_legal within counted (same ▸ real)) covers (own ▸ marked) moves
      exact ⟨h, role, pc', onward pc' member, covers'⟩
    · exact ⟨h, role, _, onward, covers⟩
    · exact covers.elim
    · exact covers.elim
  · -- the activation that put the marker there has just passed the word
    have ok := works.ok reached.before
    have here := (has _ _ _ _ _ works).1
    rw [shot.target t within i ok.position.1] at here
    obtain rfl := shot.distinct w inRange i ok.position.1 here
    obtain ⟨role, onward⟩ := reached.claims_on event
    exact ⟨_, role, _, onward, covers_claimFrom (Nat.lt_succ_self w)⟩

theorem covered_of_execution (shot : OneShot P load cells targets expecteds)
    (run : Execution P load cells trace σ) : Covered P targets σ := by
  refine execution_always (fun _ σ => Covered P targets σ) shot.rules ?_
    (fun _ _ reached covered => covered_step shot reached covered) run
  intro t within w inRange marked
  have counted : 0 < load.count t := by
    rw [shot.count t within]
    exact Nat.one_pos
  have real : P.Legal (cells (targets w)) := shot.cells_legal _
  exact absurd (marked ▸ real) (shot.rules.marker_not_legal within counted)

end KCas
