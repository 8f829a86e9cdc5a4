import KCas.Linearizable

/-! How often a word of a call is exchanged, counted over all threads that work for
the call. In an orderly run a call that succeeds claims and sets each of its words
exactly once, and a call that fails reverts exactly what was claimed for it, however
many helpers repeat its passes and however late they come. -/
namespace KCas

open Labelled

variable {P : Params} {load : Workload P.numWords} {cells : ℕ → ℕ} {s : Shared}
  {σ : Config P.numWords} {t n w : ℕ} {pass : Pass} {trace : Trace P}
  {x : Transition (Config P.numWords) Actor Event} {result : Except Error Unit}

/-- The pass, the call and the word of a successful exchange on a target cell. -/
def Event.exchangedWord : Event → Option (Pass × Operation × ℕ)
  | .exchangeCell pass op w _ _ _ (.ok _) => some (pass, op, w)
  | _ => none

/-- The successful exchanges of a pass on word `w` of a call, whoever made them. -/
def exchanges (P : Params) (trace : Trace P) (pass : Pass) (t n w : ℕ) : ℕ :=
  trace.countP fun x => x.event.exchangedWord = some (pass, P.operation t n, w)

theorem exchanges_snoc : exchanges P (trace ++ [x]) pass t n w =
    exchanges P trace pass t n w +
      if x.event.exchangedWord = some (pass, P.operation t n, w) then 1 else 0 := by
  simp [exchanges, List.countP_append, List.countP_singleton]

theorem exchangedWord_eq_some {op : Operation} : x.event.exchangedWord = some (pass, op, w) ↔
    ∃ target expected new actual,
      x.event = .exchangeCell pass op w target expected new (.ok actual) := by
  constructor
  · intro exchanged
    unfold Event.exchangedWord at exchanged
    split at exchanged
    · rename_i event
      obtain ⟨rfl, rfl, rfl⟩ : _ ∧ _ ∧ _ := by simpa using exchanged
      exact ⟨_, _, _, _, event⟩
    · cases exchanged
  · rintro ⟨target, expected, new, actual, event⟩
    simp [Event.exchangedWord, event]

instance : Decidable (Marked P load s t n w) := inferInstanceAs (Decidable (_ = _))

/-! ### One step -/

/-- What a step does to word `w` of a call: the exchanges that succeed for it are those
that change whether it is marked. -/
inductive EffectStep (P : Params) (load : Workload P.numWords)
    (x : Transition (Config P.numWords) Actor Event) (t n w : ℕ) : Prop where
  | kept : (∀ pass, x.event.exchangedWord ≠ some (pass, P.operation t n, w)) →
      (Marked P load x.after.shared t n w ↔ Marked P load x.before.shared t n w) →
      EffectStep P load x t n w
  | claimed : x.event.exchangedWord = some (.claim, P.operation t n, w) →
      x.before.shared.sequenceOf P t = n → x.before.shared.stageOf P t = .claiming →
      ¬ Marked P load x.before.shared t n w → Marked P load x.after.shared t n w →
      EffectStep P load x t n w
  | set {role : Role} {target desired : ℕ} :
      x.event.exchangedWord = some (.set, P.operation t n, w) →
      Works P x.before x.actor.thread role t n (.setExchange w target desired) →
      Marked P load x.before.shared t n w → ¬ Marked P load x.after.shared t n w →
      EffectStep P load x t n w
  | reverted {role : Role} {target expected : ℕ} {next : RevertNext} :
      x.event.exchangedWord = some (.revert, P.operation t n, w) →
      Works P x.before x.actor.thread role t n (.revertExchange w target expected next) →
      Marked P load x.before.shared t n w → ¬ Marked P load x.after.shared t n w →
      EffectStep P load x t n w

/-- A successful exchange on a target cell is a write there. -/
theorem Reached.cell_exchanged (reached : Reached P load cells trace x) {op : Operation}
    {target expected new actual : ℕ}
    (event : x.event = .exchangeCell pass op w target expected new (.ok actual)) :
    x.before.shared.cells target = expected ∧ x.after.shared.cells target = new ∧
      (pass ≠ .claim → expected = op.threadAndSequence) := by
  have moves := reached.moves
  rw [event] at moves
  generalize x.before.threads x.actor.thread = thread at moves
  generalize x.after.threads x.actor.thread = thread' at moves
  generalize x.after.shared = s' at moves ⊢
  cases moves with
  | move moves =>
    cases moves with
    | init moves => cases moves
    | operate moves =>
      cases moves with
      | claimed found => exact ⟨found, Shared.setCell_self _, fun other => absurd rfl other⟩
      | setDone found => exact ⟨found, Shared.setCell_self _, fun _ => rfl⟩
      | reverted found => exact ⟨found, Shared.setCell_self _, fun _ => rfl⟩

/-- In an orderly run the exchange of a pass meets the word it is for. -/
theorem Reached.effect_of_exchanged (reached : Reached P load cells trace x)
    (rules : UsageRules P load cells) (orderly : Orderly P x)
    (marks : MarksOk P load x.before.shared)
    (exchanged : x.event.exchangedWord = some (pass, P.operation t n, w)) :
    EffectStep P load x t n w := by
  obtain ⟨target, expected, new, actual, event⟩ := exchangedWord_eq_some.mp exchanged
  obtain ⟨found, wrote, own⟩ := reached.cell_exchanged event
  obtain ⟨role, used⟩ := reached.exchange event
  cases pass with
  | claim =>
    obtain ⟨rfl, works, -⟩ := used
    have ok := works.ok reached.before
    obtain ⟨inRange, -, address, real, -⟩ := ok.position
    have unreal := rules.marker_not_legal ok.call.within ok.call.counted
    obtain ⟨claiming, current⟩ :=
      orderly.claiming rules reached.before.shared ok.call.within ok.call.counted event
    obtain rfl := address.2 current
    refine .claimed exchanged current claiming ?_ wrote
    exact fun marked => unreal (marked ▸ found ▸ real)
  | set =>
    obtain rfl := own (by decide)
    have ok := used.ok reached.before
    obtain ⟨inRange, -, address, real, -⟩ := ok.position
    have unreal := rules.marker_not_legal ok.call.within ok.call.counted
    obtain ⟨current, -⟩ := marks.current t ok.call.within n ok.call.counted target found
    obtain rfl := address.2 current
    refine .set exchanged used found ?_
    exact fun marked => unreal (marked ▸ wrote ▸ real)
  | revert =>
    obtain rfl := own (by decide)
    obtain ⟨next, works⟩ := used
    have ok := works.ok reached.before
    obtain ⟨inRange, -, address, real, -⟩ := ok.position
    have unreal := rules.marker_not_legal ok.call.within ok.call.counted
    obtain ⟨current, -⟩ := marks.current t ok.call.within n ok.call.counted target found
    obtain rfl := address.2 current
    refine .reverted exchanged works found ?_
    exact fun marked => unreal (marked ▸ wrote ▸ real)

/-- A word that no exchange succeeds for stays marked, or unmarked. -/
theorem Reached.marked_iff (reached : Reached P load cells trace x)
    (rules : UsageRules P load cells) (orderly : Orderly P x)
    (marks : MarksOk P load x.before.shared) (within : t < P.numThreads)
    (counted : n < load.count t) (inRange : w < P.numWords)
    (none : ∀ pass, x.event.exchangedWord ≠ some (pass, P.operation t n, w)) :
    Marked P load x.after.shared t n w ↔ Marked P load x.before.shared t n w := by
  have own {i : ℕ} (inRange' : i < P.numWords)
      (same : (load.call t n).target w = (load.call t n).target i) : w = i :=
    rules.distinct t within n counted w inRange i inRange' same
  constructor
  · intro marked
    rcases reached.mark_found rules within counted marked with
      held | ⟨role, i, expected, works, event, -⟩
    · exact held
    · obtain ⟨-, current⟩ :=
        orderly.claiming rules reached.before.shared within counted event
      obtain ⟨inRange', -, address, -⟩ := (works.ok reached.before).position
      obtain rfl := own inRange' (address.2 current)
      exact absurd (exchangedWord_eq_some.mpr ⟨_, _, _, _, event⟩) (none _)
  · intro marked
    by_contra lost
    obtain ⟨current, -⟩ := marks.current t within n counted _ marked
    rcases reached.mark_lost rules within counted marked lost with
      ⟨role, i, desired, works, event⟩ | ⟨role, i, expected, next, works, event⟩
    · obtain ⟨inRange', -, address, -⟩ := (works.ok reached.before).position
      obtain rfl := own inRange' (address.2 current)
      exact absurd (exchangedWord_eq_some.mpr ⟨_, _, _, _, event⟩) (none _)
    · obtain ⟨inRange', -, address, -⟩ := (works.ok reached.before).position
      obtain rfl := own inRange' (address.2 current)
      exact absurd (exchangedWord_eq_some.mpr ⟨_, _, _, _, event⟩) (none _)

theorem Reached.effectStep (reached : Reached P load cells trace x)
    (rules : UsageRules P load cells) (orderly : Orderly P x)
    (marks : MarksOk P load x.before.shared) (within : t < P.numThreads)
    (counted : n < load.count t) (inRange : w < P.numWords) : EffectStep P load x t n w := by
  by_cases none : ∀ pass, x.event.exchangedWord ≠ some (pass, P.operation t n, w)
  · exact .kept none (reached.marked_iff rules orderly marks within counted inRange none)
  · push Not at none
    obtain ⟨pass, exchanged⟩ := none
    exact reached.effect_of_exchanged rules orderly marks exchanged

/-! ### Whole runs -/

/-- The exchanges on a word balance: it was claimed once more than it was set and
reverted just while it is marked. -/
structure Balance (P : Params) (load : Workload P.numWords) (trace : Trace P) (s : Shared)
    (t n w : ℕ) : Prop where
  balance : exchanges P trace .claim t n w = exchanges P trace .set t n w +
    exchanges P trace .revert t n w + if Marked P load s t n w then 1 else 0
  claimed_once : exchanges P trace .claim t n w ≤ 1
  set_passed : 0 < exchanges P trace .set t n w → Passed P trace t n .setting
  revert_passed : 0 < exchanges P trace .revert t n w → Passed P trace t n .reverting

/-- While a call is at Claiming nothing was set or reverted for it. -/
theorem Balance.not_claimed (balance : Balance P load trace σ.shared t n w)
    (rules : UsageRules P load cells) (run : Execution P load cells trace σ)
    (current : σ.shared.sequenceOf P t = n) (claiming : σ.shared.stageOf P t = .claiming)
    (unmarked : ¬ Marked P load σ.shared t n w) : exchanges P trace .claim t n w = 0 := by
  have notSetting := not_passed_of_claiming rules run current claiming
  have notReverting : ¬ Passed P trace t n .reverting := by
    intro passed
    rcases (rowHistory_of_execution rules run t).failure.over_or_at n passed with gone | ⟨-, at_⟩
    · omega
    · simp [claiming] at at_
  have sets := mt balance.set_passed notSetting
  have reverts := mt balance.revert_passed notReverting
  have equal := balance.balance
  rw [if_neg unmarked] at equal
  omega

/-- A revert exchange that finds the marker belongs to a call at Reverting. -/
theorem Reached.reverting_of_reverted (reached : Reached P load cells trace x)
    (marks : MarksOk P load x.before.shared) {role : Role} {target expected : ℕ}
    {next : RevertNext}
    (works : Works P x.before x.actor.thread role t n (.revertExchange w target expected next))
    (marked : Marked P load x.before.shared t n w) :
    x.before.shared.sequenceOf P t = n ∧ x.before.shared.stageOf P t = .reverting := by
  have ok := works.ok reached.before
  obtain ⟨inRange, pending, -⟩ := ok.position
  obtain ⟨current, -⟩ := marks.current t ok.call.within n ok.call.counted _ marked
  have finished := mt (marks.finished t ok.call.within · w inRange)
    (not_not_intro (current ▸ marked))
  have stage := pending.stage current
  simp only [List.mem_cons, List.not_mem_nil, or_false] at stage
  tauto

theorem balance_step (rules : UsageRules P load cells) (reached : Reached P load cells trace x)
    (orderly : Orderly P x) (marks : MarksOk P load x.before.shared) (within : t < P.numThreads)
    (counted : n < load.count t) (inRange : w < P.numWords)
    (held : Balance P load trace x.before.shared t n w) :
    Balance P load (trace ++ [x]) x.after.shared t n w := by
  have equal := held.balance
  cases reached.effectStep rules orderly marks within counted inRange with
  | kept none same =>
    refine ⟨?_, ?_, ?_, ?_⟩ <;> simp only [exchanges_snoc, none, same, if_false, Nat.add_zero]
    · exact equal
    · exact held.claimed_once
    · exact fun more => (held.set_passed more).append
    · exact fun more => (held.revert_passed more).append
  | claimed event current claiming unmarked marked =>
    have fresh := held.not_claimed rules reached.run current claiming unmarked
    rw [if_neg unmarked] at equal
    refine ⟨?_, ?_, ?_, ?_⟩ <;> simp [exchanges_snoc, event, marked]
    · omega
    · omega
    · exact fun more => (held.set_passed more).append
    · exact fun more => (held.revert_passed more).append
  | set event works marked unmarked =>
    have passed := workDecided_of_execution rules reached.run _ _ _ _ _ works
    rw [if_pos marked] at equal
    refine ⟨?_, ?_, ?_, ?_⟩ <;> simp [exchanges_snoc, event, unmarked]
    · omega
    · exact held.claimed_once
    · exact Passed.append passed
    · exact fun more => (held.revert_passed more).append
  | reverted event works marked unmarked =>
    obtain ⟨current, reverting⟩ := reached.reverting_of_reverted marks works marked
    have passed := (rowHistory_of_execution rules reached.run t).failure.passed (.inl reverting)
    rw [if_pos marked] at equal
    refine ⟨?_, ?_, ?_, ?_⟩ <;> simp [exchanges_snoc, event, unmarked]
    · omega
    · exact held.claimed_once
    · exact fun more => (held.set_passed more).append
    · exact Passed.append (current ▸ passed)

theorem balance_of_orderly (rules : UsageRules P load cells)
    (run : Execution P load cells trace σ) (orderly : ∀ x ∈ trace, Orderly P x)
    (within : t < P.numThreads) (counted : n < load.count t) (inRange : w < P.numWords) :
    Balance P load trace σ.shared t n w := by
  refine orderly_invariant (fun trace σ => Balance P load trace σ.shared t n w) rules ?_ ?_ run
    orderly
  · have unmarked : ¬ Marked P load (Config.initial P.numWords cells).shared t n w :=
      fun marked => rules.marker_not_legal within counted (marked ▸ rules.cells_legal _)
    exact ⟨by simp [exchanges, unmarked], by simp [exchanges], by simp [exchanges],
      by simp [exchanges]⟩
  · intro trace x reached earlier now held
    have marks := (marksOk_of_orderly rules reached.run earlier).2
    exact balance_step rules reached now marks within counted inRange held

theorem completed_of_responds (rules : UsageRules P load cells)
    (run : Execution P load cells trace σ) (member : x ∈ trace)
    (responds : Responds P x t n result) : n < (σ.threads t).completed := by
  refine execution_always (fun trace σ => ∀ x ∈ trace, Responds P x t n result →
    n < (σ.threads t).completed) rules (by simp) ?_ run x member responds
  intro trace y reached held x member responds
  rcases List.mem_append.mp member with earlier | last
  · have before := held x earlier responds
    rcases reached.completed t with same | ⟨-, -, next⟩ <;> omega
  · obtain rfl := List.mem_singleton.mp last
    have next := reached.completed_responded responds
    omega

/-- The exchanges that a word of a call comes to, by the result of the call. -/
def EffectOf (P : Params) (trace : Trace P) (t n w : ℕ) : Except Error Unit → Prop
  | .ok () => exchanges P trace .claim t n w = 1 ∧ exchanges P trace .set t n w = 1 ∧
      exchanges P trace .revert t n w = 0
  | .error _ => exchanges P trace .set t n w = 0 ∧
      exchanges P trace .revert t n w = exchanges P trace .claim t n w

/-- In every orderly run each word of each call is claimed at most once, and set or
reverted at most as often. From the return of the call on, one that succeeded has
claimed and set each of its words exactly once, and one that failed has reverted what
it claimed. -/
theorem effects_once (rules : UsageRules P load cells) (run : Execution P load cells trace σ)
    (orderly : ∀ x ∈ trace, Orderly P x) (within : t < P.numThreads) (counted : n < load.count t)
    (inRange : w < P.numWords) :
    exchanges P trace .claim t n w ≤ 1 ∧
      exchanges P trace .set t n w + exchanges P trace .revert t n w ≤
        exchanges P trace .claim t n w ∧
      ∀ x ∈ trace, ∀ result, Responds P x t n result → EffectOf P trace t n w result := by
  have held := balance_of_orderly rules run orderly within counted inRange
  have equal := held.balance
  refine ⟨held.claimed_once, by omega, ?_⟩
  intro x member result responds
  have ok := configOk_of_execution rules run
  have gone : n < σ.shared.sequenceOf P t :=
    Nat.lt_of_lt_of_le (completed_of_responds rules run member responds) (ok.completed_le within)
  have unmarked : ¬ Marked P load σ.shared t n w := by
    intro marked
    obtain ⟨current, -⟩ :=
      (marksOk_of_orderly rules run orderly).2.current t within n counted _ marked
    omega
  have exclusive := (rowHistory_of_execution rules run t).exclusive n
  rw [if_neg unmarked] at equal
  obtain ⟨front, back, rfl⟩ := List.append_of_mem member
  obtain ⟨success, failure⟩ := result_iff_passed rules run responds
  have reached := reached_of_split rules run
  rcases (reached.responds responds).2.position.2 with rfl | rfl
  · have passed : Passed P (front ++ x :: back) t n .setting := (success.mp rfl).append
    obtain ⟨y, there, event⟩ := overwritten_of_retired rules run passed gone inRange
    have sets : 0 < exchanges P (front ++ x :: back) .set t n w :=
      List.countP_pos_iff.mpr ⟨y, there, by simp [event, setEvent, Event.exchangedWord]⟩
    have reverts := mt held.revert_passed fun reverting => exclusive ⟨passed, reverting⟩
    have once := held.claimed_once
    exact ⟨by omega, by omega, by omega⟩
  · have reverting : Passed P (front ++ x :: back) t n .reverting := (failure.mp rfl).append
    have sets := mt held.set_passed fun passed => exclusive ⟨passed, reverting⟩
    exact ⟨by omega, by omega⟩

/-- The second thread sets the words of the first one's call, which that one finds set. -/
theorem effects_once_contended : ∃ (trace : Trace twoThreads) (σ : Config twoThreads.numWords),
    Execution twoThreads contended (fun _ => 0) trace σ ∧ trace.length = 58 ∧
      EffectOf twoThreads trace 0 0 0 (.ok ()) ∧
      EffectOf twoThreads trace 1 0 1 (.error .valueWasNotExpectedValue) := by
  obtain ⟨trace, σ, run, orderly, length, first, second⟩ := exists_execution twoThreads contended
    (fun _ => 0) contendedTurns
    (fun trace _ => (∀ x ∈ trace, Orderly twoThreads x) ∧ trace.length = 58 ∧
      (∃ x ∈ trace, Responds twoThreads x 0 0 (.ok ())) ∧
      ∃ x ∈ trace, Responds twoThreads x 1 0 (.error .valueWasNotExpectedValue))
    (by decide +kernel)
  obtain ⟨x, member, responds⟩ := first
  obtain ⟨y, member', responds'⟩ := second
  have effects {t w : ℕ} (within : t < 2) (inRange : w < 2) :=
    (effects_once contended_rules run orderly (t := t) (n := 0) (w := w) within
      (by decide +revert) inRange).2.2
  exact ⟨trace, σ, run, length, effects (by decide) (by decide) x member _ responds,
    effects (by decide) (by decide) y member' _ responds'⟩

end KCas
