import KCas.Orderly

/-! `kcas` as one atomic operation, and the memory it is atomic on. A cell that
holds a marker stands for the expected value of its word until the call is
decided and for the desired one after a success, so what the cells stand for
changes at the exchange from Claiming to Setting and nowhere else. -/
namespace KCas

open Labelled

variable {P : Params} {load : Workload P.numWords} {cells : ℕ → ℕ} {s s' : Shared}
  {σ : Config P.numWords} {h t n w address : ℕ} {role : Role} {trace front back : Trace P}
  {x : Transition (Config P.numWords) Actor Event} {numWords : ℕ} {words : KCasWords numWords}

/-! ### The atomic specification -/

/-- The word of a call with the given target. -/
def wordAt (words : KCasWords numWords) (address : ℕ) : Option ℕ :=
  (List.range numWords).find? fun w => words.target w = address

def writeDesired (words : KCasWords numWords) (memory : ℕ → ℕ) (address : ℕ) : ℕ :=
  match wordAt words address with
  | some w => words.desired w
  | none => memory address

/-- If every target holds its expected value, write all desired values. -/
def atomicKcas (words : KCasWords numWords) (memory : ℕ → ℕ) : (ℕ → ℕ) × Except Error Unit :=
  if ∀ w < numWords, memory (words.target w) = words.expected w then
    (writeDesired words memory, .ok ())
  else (memory, .error .valueWasNotExpectedValue)

theorem wordAt_target
    (distinct : ∀ i < numWords, ∀ j < numWords, words.target i = words.target j → i = j)
    (inRange : w < numWords) : wordAt words (words.target w) = some w := by
  have found : (wordAt words (words.target w)).isSome = true := by
    rw [wordAt, List.find?_isSome]
    exact ⟨w, List.mem_range.mpr inRange, by simp⟩
  obtain ⟨i, at_⟩ := Option.isSome_iff_exists.mp found
  have member := List.mem_range.mp (List.mem_of_find?_eq_some at_)
  have same : words.target i = words.target w := by simpa using List.find?_some at_
  rw [at_, distinct i member w inRange same]

theorem wordAt_none (other : ∀ w < numWords, address ≠ words.target w) :
    wordAt words address = none := by
  rw [wordAt, List.find?_eq_none]
  intro w member
  simpa using (other w (List.mem_range.mp member)).symm

/-! ### The memory that clients see -/

/-- The calls at this stage count as done. -/
def Stage.succeeded : Stage → Bool
  | .setting | .successful => true
  | _ => false

/-- What a cell stands for. -/
def contentOf (P : Params) (load : Workload P.numWords) (s : Shared) (address : ℕ) : ℕ :=
  let value := s.cells address
  if isValueAKcasMarker P.usizeBits P.numThreads value then
    let t := extractThreadFromThreadAndSequence P.usizeBits P.numThreads value - 1
    let words := load.call t (extractSequenceFromThreadAndSequence P.usizeBits P.numThreads value)
    match wordAt words address with
    | some w => if (s.stageOf P t).succeeded then words.desired w else words.expected w
    | none => value
  else value

theorem contentOf_real (real : P.Legal (s.cells address)) :
    contentOf P load s address = s.cells address := by
  simp [contentOf, Params.isValueAKcasMarker_of_legal real]

theorem contentOf_word (rules : UsageRules P load cells) (within : t < P.numThreads)
    (counted : n < load.count t) (inRange : w < P.numWords)
    (marked : Marked P load s t n w) : contentOf P load s ((load.call t n).target w) =
      if (s.stageOf P t).succeeded then (load.call t n).desired w
      else (load.call t n).expected w := by
  have fits := rules.marker_lt within counted
  have marked : s.cells ((load.call t n).target w) = P.marker t n := marked
  have own : wordAt (load.call t n) ((load.call t n).target w) = some w :=
    wordAt_target (rules.distinct t within n counted) inRange
  simp [contentOf, marked, Params.isValueAKcasMarker_marker within fits,
    Params.extractThread_marker within fits, Params.extractSequence_marker within fits, own]

/-- A cell whose value is kept keeps its content unless its marker's call is
decided. -/
theorem Reached.content_of_kept (reached : Reached P load cells trace x)
    (rules : UsageRules P load cells) (marks : MarksOk P load x.before.shared)
    (marksAfter : MarksOk P load x.after.shared)
    (same : x.after.shared.cells address = x.before.shared.cells address)
    (undecided : ∀ t < P.numThreads, ∀ n < load.count t,
      x.before.shared.cells address = P.marker t n → x.before.shared.stageOf P t ≠ .inactive →
      x.after.shared.stageOf P t ≠ .inactive →
      (x.after.shared.stageOf P t).succeeded = (x.before.shared.stageOf P t).succeeded) :
    contentOf P load x.after.shared address = contentOf P load x.before.shared address := by
  rcases reached.before.shared.cell address with real | ⟨t, within, n, counted, held, -⟩
  · rw [contentOf_real real, contentOf_real (same ▸ real), same]
  · obtain ⟨-, active, w, inRange, rfl⟩ := marks.current t within n counted address held
    obtain ⟨-, active', -⟩ := marksAfter.current t within n counted _ (same.trans held)
    rw [contentOf_word rules within counted inRange (show Marked P load _ t n w from held),
      contentOf_word rules within counted inRange (show Marked P load _ t n w from same.trans held),
      undecided t within n counted held active active']

theorem StageEdge.succeeded {a b : Stage} (edge : StageEdge a b) :
    b.succeeded = a.succeeded ∨ (a = .claiming ∧ b = .setting) := by
  cases edge <;> simp [Stage.succeeded]

/-- A step from Claiming to Setting for the call. -/
def CommitEvent (P : Params) (event : Event) (t n : ℕ) : Prop :=
  ∃ role next result,
    event = .exchangeStage role (P.operation t n) .claiming .setting next (.ok result)

/-- A row that is at a stage of its call before and after a step keeps its
verdict, unless the step commits the call. -/
theorem Reached.succeeded_kept (reached : Reached P load cells trace x)
    (rules : UsageRules P load cells) (active : x.before.shared.stageOf P t ≠ .inactive)
    (active' : x.after.shared.stageOf P t ≠ .inactive) :
    (x.after.shared.stageOf P t).succeeded = (x.before.shared.stageOf P t).succeeded ∨
      CommitEvent P x.event t (x.before.shared.sequenceOf P t) := by
  cases reached.rowStep rules t with
  | kept same => exact .inl (by rw [Shared.stageOf_congr same])
  | published _ _ _ inactive => exact absurd inactive active
  | retired _ _ _ _ _ _ stage' => exact absurd stage' active'
  | exchanged works event edge stage sequence stage' sequence' =>
    rw [stage, stage', sequence]
    refine edge.succeeded.imp_right ?_
    rintro ⟨rfl, rfl⟩
    exact ⟨_, _, _, event⟩

/-- Every step that does not commit a call keeps what the cells stand for. -/
theorem Reached.content_kept (reached : Reached P load cells trace x)
    (rules : UsageRules P load cells) (orderly : Orderly P x)
    (marks : MarksOk P load x.before.shared) (marksAfter : MarksOk P load x.after.shared)
    (quiet : ∀ t n, ¬ CommitEvent P x.event t n) :
    contentOf P load x.after.shared = contentOf P load x.before.shared := by
  funext address
  have rowOf {pass : Pass} {op : Operation} {w expected new : ℕ} {result : Except ℕ ℕ}
      (event : x.event = .exchangeCell pass op w address expected new result) (t : ℕ) :=
    reached.row_of_exchangeCell rules event t
  cases reached.cellStep address with
  | kept same =>
    refine reached.content_of_kept rules marks marksAfter same ?_
    intro t within n counted held active active'
    exact (reached.succeeded_kept rules active active').resolve_right (quiet t _)
  | claimed works event found wrote =>
    have ok := works.ok reached.before
    obtain ⟨inRange, -, own, real, value⟩ := ok.position
    obtain ⟨claiming, current⟩ :=
      orderly.claiming rules reached.before.shared ok.call.within ok.call.counted event
    obtain rfl := own.2 current
    rw [contentOf_word rules ok.call.within ok.call.counted inRange wrote, (rowOf event _).1,
      contentOf_real (s := x.before.shared) (found ▸ real), found, ← value current]
    simp [claiming, Stage.succeeded]
  | set works event found wrote =>
    have ok := works.ok reached.before
    obtain ⟨inRange, stage, own, real, value⟩ := ok.position
    obtain ⟨current, -⟩ := marks.current _ ok.call.within _ ok.call.counted address found
    obtain rfl := own.2 current
    have succeeded := stage current
    simp only [List.mem_cons, List.not_mem_nil, or_false] at succeeded
    rw [contentOf_real (wrote ▸ real),
      contentOf_word rules ok.call.within ok.call.counted inRange found, wrote, ← value current]
    rcases succeeded with at_ | at_ <;> simp [at_, Stage.succeeded]
  | reverted works event found wrote =>
    have ok := works.ok reached.before
    obtain ⟨inRange, pending, own, real, value⟩ := ok.position
    obtain ⟨current, -⟩ := marks.current _ ok.call.within _ ok.call.counted address found
    obtain rfl := own.2 current
    have stage := pending.stage current
    simp only [List.mem_cons, List.not_mem_nil, or_false] at stage
    rw [contentOf_real (wrote ▸ real),
      contentOf_word rules ok.call.within ok.call.counted inRange found, wrote, ← value current]
    rcases stage with gone | at_ | at_
    · exact absurd (current ▸ found) (marks.finished _ ok.call.within (.inl gone) _ inRange)
    · simp [at_, Stage.succeeded]
    · simp [at_, Stage.succeeded]

/-- What a successful exchange on a stage word is. -/
theorem Reached.stageExchanged (reached : Reached P load cells trace x) {op : Operation}
    {current desired : Stage} {next : StageNext} {actual : ℕ}
    (event : x.event = .exchangeStage role op current desired next (.ok actual)) :
    ∃ t n, op = P.operation t n ∧
      Works P x.before x.actor.thread role t n (.changeStage current desired next) ∧
      x.before.shared.sequenceOf P t = n ∧ x.before.shared.stageOf P t = current ∧
      x.after.shared = x.before.shared.storeStage t (P.stageWord desired n) := by
  have moves := reached.moves
  rw [event] at moves
  generalize shape : x.before.threads x.actor.thread = thread at moves
  generalize x.after.threads x.actor.thread = thread' at moves
  generalize x.after.shared = s' at moves ⊢
  cases moves with
  | @move completed frame rest _ _ frames moves =>
    cases moves with
    | init moves => cases moves
    | @operate role t n pc _ _ _ moves =>
      have works : Works P x.before x.actor.thread role t n pc :=
        ⟨reached.within, by rw [shape]; exact List.mem_cons_self⟩
      cases moves with
      | stageChanged sequence stage edge => exact ⟨t, n, rfl, works, sequence, stage, rfl⟩

/-- The step that commits a call does what the specification says. -/
theorem Reached.content_committed (reached : Reached P load cells trace x)
    (rules : UsageRules P load cells) (marks : MarksOk P load x.before.shared)
    (marksAfter : MarksOk P load x.after.shared) (commits : CommitEvent P x.event t n) :
    atomicKcas (load.call t n) (contentOf P load x.before.shared) =
      (contentOf P load x.after.shared, .ok ()) := by
  obtain ⟨role, next, actual, event⟩ := commits
  obtain ⟨u, k, same, works, current, claiming, after⟩ := reached.stageExchanged event
  obtain ⟨rfl, rfl, -⟩ := (Operation.mk.injEq ..).mp same
  have ok := works.ok reached.before
  have within := ok.call.within
  have counted := ok.call.counted
  have setting : x.after.shared.stageOf P t = .setting := by
    rw [after, Shared.stageOf_storeStage_self (rules.stage_lt within (Nat.le_of_lt counted))]
  have marked := ok.position.marked current claiming
  have kept (address : ℕ) : x.after.shared.cells address = x.before.shared.cells address :=
    congrFun (reached.cells_of_exchangeStage event) address
  have expected : ∀ w < P.numWords, contentOf P load x.before.shared ((load.call t n).target w) =
      (load.call t n).expected w := by
    intro w inRange
    rw [contentOf_word rules within counted inRange (marked w inRange), claiming]
    rfl
  rw [atomicKcas, if_pos expected, Prod.mk.injEq]
  refine ⟨funext fun address => ?_, rfl⟩
  by_cases own : ∃ w < P.numWords, address = (load.call t n).target w
  · obtain ⟨w, inRange, rfl⟩ := own
    rw [writeDesired, wordAt_target (rules.distinct t within n counted) inRange,
      contentOf_word rules within counted inRange
        (show Marked P load _ t n w from (kept _).trans (marked w inRange)), setting]
    rfl
  · have other : ∀ w < P.numWords, address ≠ (load.call t n).target w := fun w inRange same =>
      own ⟨w, inRange, same⟩
    rw [writeDesired, wordAt_none other]
    refine (reached.content_of_kept rules marks marksAfter (kept address) ?_).symm
    intro u withinU k countedU held active active'
    rcases reached.succeeded_kept rules active active' with same | ⟨role', next', actual', event'⟩
    · exact same
    · have same : P.operation t n = P.operation u (x.before.shared.sequenceOf P u) :=
        ((Event.exchangeStage.injEq ..).mp (event.symm.trans event')).2.1
      obtain ⟨rfl, -, -⟩ := (Operation.mk.injEq ..).mp same
      obtain ⟨now, -, w, inRange, target⟩ := marks.current _ withinU k countedU address held
      obtain rfl := now.symm.trans current
      exact absurd target (other w inRange)

end KCas
