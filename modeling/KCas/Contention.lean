import KCas.OneShot

/-! What many calls on the same cells come to, when every thread makes one. A
call that is decided after one that changes a cell finds that cell changed, so
at most one of those that succeed changes anything; the others that succeed find
and leave the expected values. -/
namespace KCas

open Labelled

variable {P : Params} {load : Workload P.numWords} {cells targets expecteds : ℕ → ℕ}
  {s : Shared} {σ : Config P.numWords} {t u w i address value : ℕ} {trace front back : Trace P}
  {x : Transition (Config P.numWords) Actor Event} {result : Except Error Unit}

/-! ### Contents -/

/-- What a step does to the cell at `address`, after the run `trace`. -/
inductive WordStep (P : Params) (load : Workload P.numWords) (targets expecteds : ℕ → ℕ)
    (trace : Trace P) (x : Transition (Config P.numWords) Actor Event) (address : ℕ) : Prop where
  | kept : x.after.shared.cells address = x.before.shared.cells address →
      WordStep P load targets expecteds trace x address
  | claimed {t w : ℕ} : t < P.numThreads → w < P.numWords → address = targets w →
      x.before.shared.cells address = expecteds w → x.after.shared.cells address = P.marker t 0 →
      WordStep P load targets expecteds trace x address
  | set {t w : ℕ} : t < P.numThreads → w < P.numWords → address = targets w →
      Passed P trace t 0 .setting → x.event = setEvent P load t 0 w →
      x.before.shared.cells address = P.marker t 0 →
      x.after.shared.cells address = (load.call t 0).desired w →
      WordStep P load targets expecteds trace x address
  | reverted {t w : ℕ} {role : Role} {target expected : ℕ} {next : RevertNext} :
      t < P.numThreads → w < P.numWords → address = targets w →
      Works P x.before x.actor.thread role t 0 (.revertExchange w target expected next) →
      x.before.shared.cells address = P.marker t 0 → x.after.shared.cells address = expecteds w →
      WordStep P load targets expecteds trace x address

theorem Reached.wordStep (reached : Reached P load cells trace x)
    (shot : OneShot P load cells targets expecteds) (address : ℕ) :
    WordStep P load targets expecteds trace x address := by
  obtain ⟨-, has⟩ := wordsKept_of_execution shot reached.run
  cases reached.cellStep address with
  | kept same => exact .kept same
  | @claimed role t n w expected works event found wrote =>
    have ok := works.ok reached.before
    obtain rfl := shot.first ok.call.within ok.call.counted
    obtain ⟨here, expects⟩ := has _ _ _ _ _ works
    have inRange := ok.position.1
    rw [shot.target t ok.call.within w inRange] at here
    rw [shot.expected t ok.call.within w inRange] at expects
    exact .claimed ok.call.within inRange here (found.trans expects) wrote
  | @set role t n w desired works event found wrote =>
    have ok := works.ok reached.before
    obtain rfl := shot.first ok.call.within ok.call.counted
    obtain ⟨here, desires⟩ := has _ _ _ _ _ works
    have inRange := ok.position.1
    have passed := workDecided_of_execution shot.rules reached.run _ _ _ _ _ works
    refine .set ok.call.within inRange ?_ passed ?_ found (wrote.trans desires)
    · rw [here, shot.target t ok.call.within w inRange]
    · rw [event, here, desires]
      rfl
  | @reverted role t n w expected next works event found wrote =>
    have ok := works.ok reached.before
    obtain rfl := shot.first ok.call.within ok.call.counted
    obtain ⟨here, expects⟩ := has _ _ _ _ _ works
    have inRange := ok.position.1
    rw [shot.target t ok.call.within w inRange] at here
    rw [shot.expected t ok.call.within w inRange] at expects
    exact .reverted ok.call.within inRange here works found (wrote.trans expects)

/-- Legal values are no markers. -/
theorem OneShot.unmarked (shot : OneShot P load cells targets expecteds) (within : t < P.numThreads)
    (real : P.Legal value) : value ≠ P.marker t 0 := by
  rintro rfl
  refine shot.rules.marker_not_legal within ?_ real
  rw [shot.count t within]
  exact Nat.one_pos

theorem OneShot.marker_inj (shot : OneShot P load cells targets expecteds)
    (within : t < P.numThreads) (within' : u < P.numThreads)
    (same : P.marker t 0 = P.marker u 0) : t = u := by
  refine (shot.rules.marker_inj within ?_ within' ?_ same).1
  · rw [shot.count t within]
    exact Nat.one_pos
  · rw [shot.count u within']
    exact Nat.one_pos

/-- A cell with a legal value that is not the expected one is never written. -/
theorem WordStep.frozen (shot : OneShot P load cells targets expecteds)
    (step : WordStep P load targets expecteds trace x (targets w)) (inRange : w < P.numWords)
    (real : P.Legal (x.before.shared.cells (targets w)))
    (unexpected : x.before.shared.cells (targets w) ≠ expecteds w) :
    x.after.shared.cells (targets w) = x.before.shared.cells (targets w) := by
  cases step with
  | kept same => exact same
  | @claimed t i within inRange' here found wrote =>
    obtain rfl := shot.distinct w inRange i inRange' here
    exact absurd found unexpected
  | set within _ _ _ _ found => exact absurd found (shot.unmarked within real)
  | reverted within _ _ _ found => exact absurd found (shot.unmarked within real)

/-- A real value that the cell of word `w` can hold. -/
def Possible (P : Params) (load : Workload P.numWords) (cells targets : ℕ → ℕ) (trace : Trace P)
    (w value : ℕ) : Prop :=
  value = cells (targets w) ∨
    ∃ t < P.numThreads, Passed P trace t 0 .setting ∧ value = (load.call t 0).desired w

theorem Possible.append (possible : Possible P load cells targets front w value) :
    Possible P load cells targets (front ++ back) w value := by
  refine possible.imp_right ?_
  rintro ⟨t, within, passed, same⟩
  exact ⟨t, within, passed.append, same⟩

theorem Possible.legal (shot : OneShot P load cells targets expecteds) (inRange : w < P.numWords)
    (possible : Possible P load cells targets trace w value) : P.Legal value := by
  rcases possible with rfl | ⟨t, within, -, rfl⟩
  · exact shot.cells_legal _
  · exact shot.desired_legal t within w inRange

/-- What the cells hold. -/
structure Contents (P : Params) (load : Workload P.numWords) (cells targets expecteds : ℕ → ℕ)
    (trace : Trace P) (s : Shared) : Prop where
  words : ∀ w < P.numWords, Possible P load cells targets trace w (s.cells (targets w)) ∨
    ((∃ t < P.numThreads, s.cells (targets w) = P.marker t 0) ∧
      Possible P load cells targets trace w (expecteds w))
  others : ∀ address, (∀ w < P.numWords, address ≠ targets w) → s.cells address = cells address

theorem Contents.possible (contents : Contents P load cells targets expecteds trace s)
    (shot : OneShot P load cells targets expecteds) (inRange : w < P.numWords)
    (real : P.Legal (s.cells (targets w))) :
    Possible P load cells targets trace w (s.cells (targets w)) := by
  refine (contents.words w inRange).resolve_right ?_
  rintro ⟨⟨t, within, marked⟩, -⟩
  exact shot.unmarked within real marked

theorem Contents.expected (contents : Contents P load cells targets expecteds trace s)
    (shot : OneShot P load cells targets expecteds) (within : t < P.numThreads)
    (inRange : w < P.numWords) (marked : s.cells (targets w) = P.marker t 0) :
    Possible P load cells targets trace w (expecteds w) := by
  rcases contents.words w inRange with possible | ⟨-, possible⟩
  · exact absurd marked (shot.unmarked within (possible.legal shot inRange))
  · exact possible

theorem contents_of_execution (shot : OneShot P load cells targets expecteds)
    (run : Execution P load cells trace σ) :
    Contents P load cells targets expecteds trace σ.shared := by
  refine execution_always (fun trace σ => Contents P load cells targets expecteds trace σ.shared)
    shot.rules ⟨fun w _ => .inl (.inl rfl), fun _ _ => rfl⟩ ?_ run
  intro trace x reached contents
  refine ⟨fun w inRange => ?_, fun address outside => ?_⟩
  · cases reached.wordStep shot (targets w) with
    | kept same =>
      rw [same]
      exact (contents.words w inRange).imp Possible.append (.imp_right Possible.append)
    | @claimed t i within inRange' here found wrote =>
      obtain rfl := shot.distinct w inRange i inRange' here
      have possible := contents.possible shot inRange (found ▸ shot.expected_legal w inRange)
      rw [found] at possible
      exact .inr ⟨⟨t, within, wrote⟩, possible.append⟩
    | @set t i within inRange' here passed event found wrote =>
      obtain rfl := shot.distinct w inRange i inRange' here
      exact .inl (.inr ⟨t, within, passed.append, wrote⟩)
    | @reverted t i role target expected next within inRange' here works found wrote =>
      obtain rfl := shot.distinct w inRange i inRange' here
      rw [wrote]
      exact .inl (contents.expected shot within inRange found).append
  · have before := contents.others address outside
    cases reached.wordStep shot address with
    | kept same => exact same.trans before
    | claimed _ inRange here => exact absurd here (outside _ inRange)
    | set _ inRange here => exact absurd here (outside _ inRange)
    | reverted _ inRange here => exact absurd here (outside _ inRange)

/-! ### The call that changes the cells -/

/-- What happens to a word that a call changes: once the call is decided, its
marker stays until the desired value replaces it, for good. -/
structure Settled (P : Params) (load : Workload P.numWords) (targets expecteds : ℕ → ℕ)
    (trace : Trace P) (s : Shared) (t : ℕ) : Prop where
  marked : Passed P trace t 0 .setting → ∀ w < P.numWords,
    (load.call t 0).desired w ≠ expecteds w → ¬ Overwritten P load trace t 0 w →
    s.cells (targets w) = P.marker t 0
  written : ∀ w < P.numWords, (load.call t 0).desired w ≠ expecteds w →
    Overwritten P load trace t 0 w → s.cells (targets w) = (load.call t 0).desired w

/-- A successful set exchange writes. -/
theorem Reached.set_wrote (reached : Reached P load cells trace x) {op : Operation}
    {target expected new actual : ℕ}
    (event : x.event = .exchangeCell .set op i target expected new (.ok actual)) :
    x.after.shared.cells target = new := by
  have moves := reached.moves
  rw [event] at moves
  generalize x.before.threads x.actor.thread = thread at moves
  generalize x.after.threads x.actor.thread = thread' at moves
  generalize x.after.shared = s' at moves ⊢
  cases moves with
  | move moves =>
    cases moves with
    | init moves => cases moves
    | operate moves =>
      cases moves with
      | setDone => exact Shared.setCell_self _

/-- Nobody reverts a call that was decided to succeed before all of its words
are overwritten. -/
theorem Reached.overwritten_of_revert (reached : Reached P load cells trace x) {role : Role}
    {n target expected : ℕ} {next : RevertNext} (rules : UsageRules P load cells)
    (works : Works P x.before x.actor.thread role t n (.revertExchange i target expected next))
    (passed : Passed P trace t n .setting) (inRange : w < P.numWords) :
    Overwritten P load trace t n w := by
  have ok := works.ok reached.before
  have history := rowHistory_of_execution rules reached.run t
  rcases history.success.over_or_at n passed with gone | ⟨current, stage⟩
  · exact overwritten_of_retired rules reached.run passed gone inRange
  · have among := ok.position.2.1.stage current
    have rows := (evidence_of_execution rules reached.run).2 t ok.call.within
    rcases stage with setting | successful
    · simp [setting] at among
    · exact current ▸ rows.overwritten successful w inRange

theorem settled_step (shot : OneShot P load cells targets expecteds)
    (reached : Reached P load cells trace x) (within : t < P.numThreads)
    (settled : Settled P load targets expecteds trace x.before.shared t) :
    Settled P load targets expecteds (trace ++ [x]) x.after.shared t := by
  refine ⟨fun passed w inRange changes missing => ?_, fun w inRange changes overwritten => ?_⟩
  · rcases reached.passed_setting shot.rules passed with earlier | ⟨marked, same⟩
    · have missing' : ¬ Overwritten P load trace t 0 w := fun held => missing held.append
      have held := settled.marked earlier w inRange changes missing'
      cases reached.wordStep shot (targets w) with
      | kept same => exact same.trans held
      | @claimed u i within' inRange' here found wrote =>
        have real : P.Legal (x.before.shared.cells (targets w)) :=
          found ▸ shot.expected_legal i inRange'
        exact absurd held (shot.unmarked within real)
      | @set u i within' inRange' here passed' event found wrote =>
        obtain rfl := shot.distinct w inRange i inRange' here
        obtain rfl := shot.marker_inj within within' (held.symm.trans found)
        exact absurd ⟨x, by simp, event⟩ missing
      | @reverted u i role target expected next within' inRange' here works found wrote =>
        obtain rfl := shot.marker_inj within within' (held.symm.trans found)
        exact absurd (reached.overwritten_of_revert shot.rules works earlier inRange) missing'
    · rw [same, ← shot.target t within w inRange]
      exact marked w inRange
  · obtain ⟨y, member, event⟩ := overwritten
    rcases List.mem_append.mp member with earlier | last
    · have before := settled.written w inRange changes ⟨y, earlier, event⟩
      rw [(reached.wordStep shot (targets w)).frozen shot inRange, before]
      · exact before ▸ shot.desired_legal t within w inRange
      · exact before ▸ changes
    · obtain rfl := List.mem_singleton.mp last
      rw [← shot.target t within w inRange]
      exact reached.set_wrote event

theorem settled_of_execution (shot : OneShot P load cells targets expecteds)
    (run : Execution P load cells trace σ) (within : t < P.numThreads) :
    Settled P load targets expecteds trace σ.shared t := by
  refine execution_always (fun trace σ => Settled P load targets expecteds trace σ.shared t)
    shot.rules ⟨?_, ?_⟩ (fun _ _ reached held => settled_step shot reached within held) run
  · simp [Passed]
  · simp [Overwritten]

/-- A decided call's changed word carries no other call's marker. -/
theorem Settled.marker_eq (settled : Settled P load targets expecteds trace s t)
    (shot : OneShot P load cells targets expecteds) (within : t < P.numThreads)
    (within' : u < P.numThreads) (passed : Passed P trace t 0 .setting) (inRange : w < P.numWords)
    (changes : (load.call t 0).desired w ≠ expecteds w)
    (marked : s.cells (targets w) = P.marker u 0) : t = u := by
  by_cases overwritten : Overwritten P load trace t 0 w
  · have wrote := settled.written w inRange changes overwritten
    have real := shot.desired_legal t within w inRange
    exact absurd (wrote.symm.trans marked) (shot.unmarked within' real)
  · have held := settled.marked passed w inRange changes overwritten
    exact shot.marker_inj within within' (held.symm.trans marked)

/-- The call changes one of the cells if it succeeds. -/
def Changes (P : Params) (load : Workload P.numWords) (expecteds : ℕ → ℕ) (t : ℕ) : Prop :=
  ∃ w < P.numWords, (load.call t 0).desired w ≠ expecteds w

theorem changes_once (shot : OneShot P load cells targets expecteds)
    (run : Execution P load cells trace σ) (within : t < P.numThreads) (within' : u < P.numThreads)
    (changes : Changes P load expecteds t) (changes' : Changes P load expecteds u)
    (passed : Passed P trace t 0 .setting) (passed' : Passed P trace u 0 .setting) : t = u := by
  refine execution_always (fun trace _ => Passed P trace t 0 .setting →
    Passed P trace u 0 .setting → t = u) shot.rules ?_ ?_ run passed passed'
  · simp [Passed]
  · intro trace x reached unique passed passed'
    obtain ⟨w, inRange, changed⟩ := changes
    obtain ⟨i, inRange', changed'⟩ := changes'
    have settled := settled_of_execution shot reached.run within
    have settled' := settled_of_execution shot reached.run within'
    rcases reached.passed_setting shot.rules passed with earlier | ⟨marked, -⟩ <;>
      rcases reached.passed_setting shot.rules passed' with earlier' | ⟨marked', -⟩
    · exact unique earlier earlier'
    · refine settled.marker_eq shot within within' earlier inRange changed ?_
      rw [← shot.target u within' w inRange]
      exact marked' w inRange
    · refine (settled'.marker_eq shot within' within earlier' inRange' changed' ?_).symm
      rw [← shot.target t within i inRange']
      exact marked i inRange'
    · -- one step decides one call
      have first := marked w inRange
      have second := marked' w inRange
      rw [Marked, shot.target t within w inRange] at first
      rw [Marked, shot.target u within' w inRange] at second
      exact shot.marker_inj within within' (first.symm.trans second)

/-- If a cell does not hold the expected value at first, no call succeeds. -/
theorem nobody_passes (shot : OneShot P load cells targets expecteds)
    (run : Execution P load cells trace σ) (inRange : w < P.numWords)
    (unexpected : cells (targets w) ≠ expecteds w) :
    ∀ t < P.numThreads, ¬ Passed P trace t 0 .setting := by
  refine execution_always (fun trace _ => ∀ t < P.numThreads, ¬ Passed P trace t 0 .setting)
    shot.rules ?_ ?_ run
  · simp [Passed]
  · intro trace x reached none t within passed
    rcases reached.passed_setting shot.rules passed with earlier | ⟨marked, -⟩
    · exact none t within earlier
    · have contents := contents_of_execution shot reached.run
      have here := marked w inRange
      rw [Marked, shot.target t within w inRange] at here
      rcases contents.expected shot within inRange here with same | ⟨u, within', passed', -⟩
      · exact unexpected same.symm
      · exact none u within' passed'

/-- A call that fails though the cells held what it expects came after one that
succeeded. -/
theorem passed_of_observed (shot : OneShot P load cells targets expecteds)
    (run : Execution P load cells trace σ) (within : t < P.numThreads)
    (expected : ∀ w < P.numWords, cells (targets w) = expecteds w)
    (observed : Observed P load trace t 0) : ∃ u < P.numThreads, Passed P trace u 0 .setting := by
  obtain ⟨x, member, observes⟩ := observed
  obtain ⟨front, back, rfl, reached⟩ := reached_of_mem shot.rules run member
  obtain ⟨w, inRange, real, unexpected⟩ := observes.found
  rw [shot.target t within w inRange] at real unexpected
  rw [shot.expected t within w inRange] at unexpected
  rcases (contents_of_execution shot reached.run).possible shot inRange real with
    same | ⟨u, within', passed, -⟩
  · exact absurd (same.trans (expected w inRange)) unexpected
  · exact ⟨u, within', passed.append⟩

/-! ### When all calls have returned -/

/-- Every call has returned. -/
def AllReturned (P : Params) (σ : Config P.numWords) : Prop :=
  ∀ t < P.numThreads, (σ.threads t).completed = 1

instance : Decidable (AllReturned P σ) :=
  inferInstanceAs (Decidable (∀ t < P.numThreads, _))

section Returned

variable (shot : OneShot P load cells targets expecteds) (run : Execution P load cells trace σ)
  (returned : AllReturned P σ)

include shot run returned

/-- Nobody is left to remove a marker, so none is left. -/
theorem legal_at_end : P.Legal (σ.shared.cells address) := by
  have ok := configOk_of_execution shot.rules run
  rcases ok.shared.cell address with real | ⟨t, within, n, counted, held, -⟩
  · exact real
  · obtain rfl := shot.first within counted
    by_cases listed : ∃ w < P.numWords, address = targets w
    · obtain ⟨w, inRange, rfl⟩ := listed
      obtain ⟨h, role, pc, works, -⟩ := covered_of_execution shot run t within w inRange held
      have busy := (ok.callStacks h works.within).counted (List.ne_nil_of_mem works.member)
      rw [returned h works.within, shot.count h works.within] at busy
      exact absurd busy (Nat.lt_irrefl 1)
    · have outside : ∀ w < P.numWords, address ≠ targets w := fun w inRange same =>
        listed ⟨w, inRange, same⟩
      rw [(contents_of_execution shot run).others address outside]
      exact shot.cells_legal address

theorem possible_at_end (inRange : w < P.numWords) :
    Possible P load cells targets trace w (σ.shared.cells (targets w)) :=
  (contents_of_execution shot run).possible shot inRange (legal_at_end shot run returned)

/-- Every call reported success, or failure. -/
theorem responded_at_end (within : t < P.numThreads) : ∃ x ∈ trace, ∃ result,
    Responds P x t 0 result ∧ (result = .ok () ∧ Passed P trace t 0 .setting ∨
      result = .error .valueWasNotExpectedValue ∧ Observed P load trace t 0 ∧
        ¬ Passed P trace t 0 .setting) := by
  have entered : 0 < (σ.threads t).completed := by
    rw [returned t within]
    exact Nat.one_pos
  obtain ⟨x, member, result, responds⟩ :=
    (callHistory_of_execution shot.rules run t).responded 0 entered
  refine ⟨x, member, result, responds, ?_⟩
  obtain ⟨front, back, rfl⟩ := List.append_of_mem member
  have outcome := result_iff_passed shot.rules run responds
  have reached := reached_of_split shot.rules run
  rcases (reached.responds responds).2.position.2 with ok | failed
  · exact .inl ⟨ok, (outcome.1.mp ok).append⟩
  · have rows := (evidence_of_execution shot.rules reached.run).2 t within
    refine .inr ⟨failed, (rows.observed 0 (outcome.2.mp failed)).append, ?_⟩
    intro passed
    exact (rowHistory_of_execution shot.rules run t).exclusive 0
      ⟨passed, (outcome.2.mp failed).append⟩

/-- The cells end with the words of any call that succeeded and that, if
another one changes a cell, is the one. -/
theorem final_of_passed (expected : ∀ w < P.numWords, cells (targets w) = expecteds w)
    (within : t < P.numThreads) (passed : Passed P trace t 0 .setting)
    (last : Changes P load expecteds t ∨
      ∀ u < P.numThreads, Passed P trace u 0 .setting → ¬ Changes P load expecteds u) :
    ∀ w < P.numWords, σ.shared.cells (targets w) = (load.call t 0).desired w := by
  intro w inRange
  have settled := settled_of_execution shot run within
  have real : P.Legal (σ.shared.cells (targets w)) := legal_at_end shot run returned
  by_cases changes : (load.call t 0).desired w = expecteds w
  · rw [changes]
    rcases possible_at_end shot run returned inRange with first | ⟨u, within', passed', wrote⟩
    · exact first.trans (expected w inRange)
    · rw [wrote]
      by_contra changed
      have changing : Changes P load expecteds u := ⟨w, inRange, changed⟩
      rcases last with own | none
      · obtain rfl := changes_once shot run within within' own changing passed passed'
        exact changed changes
      · exact none u within' passed' changing
  · by_cases overwritten : Overwritten P load trace t 0 w
    · exact settled.written w inRange changes overwritten
    · have marked := settled.marked passed w inRange changes overwritten
      exact absurd marked (shot.unmarked within real)

end Returned

/-- One call a thread, all on the same cells with the same expected values: no
call fails fatally and no marker stays. If the cells held these values, some
call succeeds and its values are what the cells end with; otherwise all calls
fail and the cells stay as they were. -/
theorem contention_law (threads : 0 < P.numThreads)
    (shot : OneShot P load cells targets expecteds) (run : Execution P load cells trace σ)
    (returned : AllReturned P σ) :
    (∀ x ∈ trace, ∀ t n error, ¬ Responds P x t n (.error (.fatal error))) ∧
    (∀ address, isValueAKcasMarker P.usizeBits P.numThreads (σ.shared.cells address) = false) ∧
    ((∀ w < P.numWords, cells (targets w) = expecteds w) →
      ∃ t < P.numThreads, (∃ x ∈ trace, Responds P x t 0 (.ok ())) ∧
        ∀ w < P.numWords, σ.shared.cells (targets w) = (load.call t 0).desired w) ∧
    ((∃ w < P.numWords, cells (targets w) ≠ expecteds w) →
      (∀ t < P.numThreads, ∃ x ∈ trace, Responds P x t 0 (.error .valueWasNotExpectedValue)) ∧
        (∀ x ∈ trace, ∀ t n, ¬ Responds P x t n (.ok ())) ∧
        ∀ address, σ.shared.cells address = cells address) := by
  refine ⟨?_, ?_, ?_, ?_⟩
  · intro x member t n error responds
    obtain ⟨front, back, -, reached⟩ := reached_of_mem shot.rules run member
    rcases (reached.responds responds).2.position.2 with ok | failed
    · cases ok
    · cases failed
  · intro address
    exact Params.isValueAKcasMarker_of_legal (legal_at_end shot run returned)
  · intro expected
    have somebody : ∃ t < P.numThreads, Passed P trace t 0 .setting := by
      obtain ⟨x, -, result, -, ⟨-, passed⟩ | ⟨-, observed, -⟩⟩ :=
        responded_at_end shot run returned threads
      · exact ⟨0, threads, passed⟩
      · exact passed_of_observed shot run threads expected observed
    obtain ⟨t, within, passed, last⟩ : ∃ t < P.numThreads, Passed P trace t 0 .setting ∧
        (Changes P load expecteds t ∨
          ∀ u < P.numThreads, Passed P trace u 0 .setting → ¬ Changes P load expecteds u) := by
      by_cases changing : ∃ u < P.numThreads, Passed P trace u 0 .setting ∧
          Changes P load expecteds u
      · obtain ⟨t, within, passed, changes⟩ := changing
        exact ⟨t, within, passed, .inl changes⟩
      · obtain ⟨t, within, passed⟩ := somebody
        exact ⟨t, within, passed, .inr fun u within' passed' changes =>
          changing ⟨u, within', passed', changes⟩⟩
    refine ⟨t, within, ?_, final_of_passed shot run returned expected within passed last⟩
    obtain ⟨x, member, result, responds, ⟨rfl, -⟩ | ⟨-, -, failed⟩⟩ :=
      responded_at_end shot run returned within
    · exact ⟨x, member, responds⟩
    · exact absurd passed failed
  · rintro ⟨w, inRange, unexpected⟩
    have none := nobody_passes shot run inRange unexpected
    refine ⟨fun t within => ?_, ?_, fun address => ?_⟩
    · obtain ⟨x, member, result, responds, ⟨-, passed⟩ | ⟨rfl, -⟩⟩ :=
        responded_at_end shot run returned within
      · exact absurd passed (none t within)
      · exact ⟨x, member, responds⟩
    · intro x member t n responds
      obtain ⟨front, back, rfl⟩ := List.append_of_mem member
      have call := ((reached_of_split shot.rules run).responds responds).2.call
      obtain rfl := shot.first call.within call.counted
      have passed := (result_iff_passed shot.rules run responds).1.mp rfl
      exact none t call.within passed.append
    · by_cases listed : ∃ i < P.numWords, address = targets i
      · obtain ⟨i, inRange', rfl⟩ := listed
        rcases possible_at_end shot run returned inRange' with first | ⟨u, within, passed, -⟩
        · exact first
        · exact absurd passed (none u within)
      · exact (contents_of_execution shot run).others address fun i inRange' same =>
          listed ⟨i, inRange', same⟩

/-- The contended calls are on the cells 8 and 16, with the expected value 0. -/
theorem contended_oneShot :
    OneShot twoThreads contended (fun _ => 0) (fun w => 8 * (w + 1)) fun _ => 0 where
  count := by decide +kernel
  target := by decide +kernel
  expected := by decide +kernel
  distinct := by
    intro i _ j _ same
    omega
  cells_legal := contended_rules.cells_legal
  expected_legal := fun _ _ => twoThreads.legal_zero
  desired_legal := by decide +kernel

/-- The contended run ends with the values of one of its calls. -/
theorem contention_law_contended : ∃ (trace : Trace twoThreads) (σ : Config twoThreads.numWords),
    Execution twoThreads contended (fun _ => 0) trace σ ∧ AllReturned twoThreads σ ∧
      ∃ t < 2, (∃ x ∈ trace, Responds twoThreads x t 0 (.ok ())) ∧
        ∀ w < 2, σ.shared.cells (8 * (w + 1)) = (contended.call t 0).desired w := by
  obtain ⟨trace, σ, run, returned⟩ := exists_execution twoThreads contended (fun _ => 0)
    contendedTurns (fun _ σ => AllReturned twoThreads σ) (by decide +kernel)
  exact ⟨trace, σ, run, returned, (contention_law (by decide) contended_oneShot run returned).2.2.1
    fun _ _ => rfl⟩

end KCas
