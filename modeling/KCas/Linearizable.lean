import Mathlib.Data.List.Permutation
import KCas.Content
import KCas.Library.Search

/-! Linearizability. A success takes effect at the exchange from Claiming to
Setting, a failure at the first claim exchange that met an unexpected value. In
orderly runs these are linearization points; a late helper breaks that. -/
namespace KCas

open Labelled Linearizability Search

variable {P : Params} {load : Workload P.numWords} {cells : ℕ → ℕ} {s : Shared}
  {σ : Config P.numWords} {t n w : ℕ} {trace front back : Trace P}
  {x y : Transition (Config P.numWords) Actor Event} {result : Except Error Unit}
  {call : ℕ × ℕ}

/-! ### The history of a run -/

/-- A total order of the calls, extending their real-time order, yields the
results and the content of every cell that holds no marker. -/
def LinearizableRun (P : Params) (load : Workload P.numWords) (cells : ℕ → ℕ) (trace : Trace P)
    (σ : Config P.numWords) : Prop :=
  Linearizable (fun call => atomicKcas (load.call call.1 call.2)) cells
    (fun memory => ∀ address, isValueAKcasMarker P.usizeBits P.numThreads
      (σ.shared.cells address) = false → memory address = σ.shared.cells address)
    (trace.filterMap (actionOf P))

/-! ### Linearization points -/

/-- The step decides the call: it commits it, or it is the first to observe an
unexpected value of a call that fails in the run `trace`. -/
def Decides (P : Params) (load : Workload P.numWords) (trace front : Trace P)
    (x : Transition (Config P.numWords) Actor Event) (call : ℕ × ℕ) : Prop :=
  CommitEvent P x.event call.1 call.2 ∨
    (Observes P load x call.1 call.2 ∧ Passed P trace call.1 call.2 .reverting ∧
      ¬ Observed P load front call.1 call.2)

open Classical in
/-- The call that a step of the run `trace` decides. -/
noncomputable def decidedCall (P : Params) (load : Workload P.numWords) (trace front : Trace P)
    (x : Transition (Config P.numWords) Actor Event) : Option (ℕ × ℕ) :=
  if decides : ∃ call, Decides P load trace front x call then some decides.choose else none

open Classical in
/-- What a call returns, if the run `trace` decides it. -/
noncomputable def outcomeOf (P : Params) (trace : Trace P) (call : ℕ × ℕ) : Except Error Unit :=
  if Passed P trace call.1 call.2 .setting then .ok () else .error .valueWasNotExpectedValue

theorem Decides.unique {call' : ℕ × ℕ} (decides : Decides P load trace front x call)
    (decides' : Decides P load trace front x call') : call = call' := by
  rcases decides with ⟨role, next, word, event⟩ | ⟨⟨⟨w, target, expected, actual, event⟩, -⟩, -⟩ <;>
    rcases decides' with ⟨role', next', word', event'⟩ |
      ⟨⟨⟨w', target', expected', actual', event'⟩, -⟩, -⟩
  · have same := ((Event.exchangeStage.injEq ..).mp (event.symm.trans event')).2.1
    obtain ⟨index, sequence, -⟩ := (Operation.mk.injEq ..).mp same
    exact Prod.ext index sequence
  · cases event.symm.trans event'
  · cases event.symm.trans event'
  · have same := ((Event.exchangeCell.injEq ..).mp (event.symm.trans event')).2.1
    obtain ⟨index, sequence, -⟩ := (Operation.mk.injEq ..).mp same
    exact Prod.ext index sequence

theorem decidedCall_eq_some : decidedCall P load trace front x = some call ↔
    Decides P load trace front x call := by
  unfold decidedCall
  split
  case isTrue decides =>
    rw [Option.some.injEq]
    exact ⟨fun same => same ▸ decides.choose_spec, fun held => decides.choose_spec.unique held⟩
  case isFalse none => simpa using fun held => none ⟨call, held⟩

theorem decidedCall_eq_none : decidedCall P load trace front x = none ↔
    ∀ call, ¬ Decides P load trace front x call := by
  unfold decidedCall
  split
  case isTrue decides => simpa using decides
  case isFalse none => simpa using none

theorem mem_points : call ∈ pointsFrom (decidedCall P load trace) [] front ↔
    ∃ before x after, front = before ++ x :: after ∧ Decides P load trace before x call := by
  simp [mem_pointsFrom, decidedCall_eq_some]

/-- The exchange that commits a call moves its row from Claiming to Setting. -/
theorem Reached.of_commitEvent (reached : Reached P load cells trace x)
    (rules : UsageRules P load cells) (commits : CommitEvent P x.event t n) :
    CallOk P load x.before.shared t n ∧ x.before.shared.stageOf P t = .claiming ∧
      x.before.shared.sequenceOf P t = n ∧ x.after.shared.stageOf P t = .setting ∧
      x.after.shared.sequenceOf P t = n := by
  obtain ⟨role, next, actual, event⟩ := commits
  obtain ⟨u, k, same, works, current, claiming, after⟩ := reached.stageExchanged event
  obtain ⟨rfl, rfl, -⟩ := (Operation.mk.injEq ..).mp same
  have call := (works.ok reached.before).call
  have fits := rules.stage_lt call.within (Nat.le_of_lt call.counted)
  refine ⟨call, claiming, current, ?_, ?_⟩
  · rw [after, Shared.stageOf_storeStage_self fits]
  · rw [after, Shared.sequenceOf_storeStage_self fits]

/-- The call that a step decides is in progress, at Claiming. -/
theorem Decides.claiming (decides : Decides P load trace front x (t, n))
    (reached : Reached P load cells front x) (rules : UsageRules P load cells) :
    t < P.numThreads ∧ x.before.shared.sequenceOf P t = n ∧
      x.before.shared.stageOf P t = .claiming := by
  rcases decides with commits | ⟨observes, -⟩
  · obtain ⟨call, claiming, current, -⟩ := reached.of_commitEvent rules commits
    exact ⟨call.within, current, claiming⟩
  · refine ⟨?_, observes.sequence, observes.claiming⟩
    obtain ⟨w, target, expected, actual, event⟩ := observes.event
    obtain ⟨role, pc, works, -⟩ := reached.touches event
    exact (works.ok reached.before).call.within

/-- A row moves from Claiming to Setting by the exchange that commits its call. -/
theorem Reached.commitEvent (reached : Reached P load cells front x)
    (rules : UsageRules P load cells) (call : t < P.numThreads ∧ n < load.count t)
    (commits : Commits P load front x t n) : CommitEvent P x.event t n := by
  obtain ⟨claiming, sequence⟩ := (reached.before.shared.word_eq_iff rules call.1
    (Nat.le_of_lt call.2)).mp commits.before
  obtain ⟨setting, -⟩ := (reached.after.shared.word_eq_iff rules call.1
    (Nat.le_of_lt call.2)).mp commits.after
  cases reached.rowStep rules t with
  | kept same => cases setting.symm.trans ((Shared.stageOf_congr same).trans claiming)
  | published _ _ _ inactive => cases inactive.symm.trans claiming
  | retired _ _ _ _ _ _ inactive => cases inactive.symm.trans setting
  | exchanged works event edge before current after =>
    obtain rfl := before.symm.trans claiming
    obtain rfl := after.symm.trans setting
    obtain rfl := current.symm.trans sequence
    exact ⟨_, _, _, event⟩

/-- A call commits at most once. -/
theorem not_passed_of_claiming (rules : UsageRules P load cells)
    (run : Execution P load cells trace σ) (sequence : σ.shared.sequenceOf P t = n)
    (claiming : σ.shared.stageOf P t = .claiming) : ¬ Passed P trace t n .setting := by
  intro passed
  rcases (rowHistory_of_execution rules run t).success.over_or_at n passed with gone | ⟨-, at_⟩
  · omega
  · simp [claiming] at at_

theorem Passed.of_commitEvent (rules : UsageRules P load cells)
    (run : Execution P load cells (front ++ x :: back) σ) (commits : CommitEvent P x.event t n) :
    Passed P (front ++ x :: back) t n .setting := by
  obtain ⟨-, -, -, stage, sequence⟩ := (reached_of_split rules run).of_commitEvent rules commits
  exact ⟨x, by simp, sequence, stage⟩

theorem decides_once (rules : UsageRules P load cells)
    (run : Execution P load cells (front ++ x :: back) σ)
    (decides : Decides P load (front ++ x :: back) front x (t, n)) :
    (t, n) ∉ pointsFrom (decidedCall P load (front ++ x :: back)) [] front := by
  intro again
  obtain ⟨before, y, after, rfl, earlier⟩ := mem_points.mp again
  have reached := reached_of_split rules run
  have exclusive := (rowHistory_of_execution rules run t).exclusive n
  rcases earlier with first | ⟨observed, reverting, -⟩
  · obtain ⟨-, sequence, claiming⟩ := decides.claiming reached rules
    exact not_passed_of_claiming rules reached.run sequence claiming
      (.of_commitEvent rules reached.run first)
  · rcases decides with commits | ⟨-, -, fresh⟩
    · exact exclusive ⟨.of_commitEvent rules run commits, reverting⟩
    · exact fresh ⟨y, by simp, observed⟩

/-- A call is decided only after it was entered. -/
theorem Decides.begun (decides : Decides P load trace front x (t, n))
    (reached : Reached P load cells front x) (rules : UsageRules P load cells) :
    Begun x.before t n := by
  obtain ⟨within, sequence, claiming⟩ := decides.claiming reached rules
  refine (reached.before.callStacks t within).began (.inr ⟨sequence, ?_⟩)
  simp [claiming]

/-- A call that began stays begun. -/
theorem begun_later (rules : UsageRules P load cells)
    (run : Execution P load cells (front ++ x :: back) σ) (begun : Begun x.before t n) :
    Begun σ t n := by
  have earlier := (reached_of_split rules run).run
  obtain ⟨y, member, action⟩ := ((callHistory_of_execution rules earlier t).invoked n).mpr begun
  exact ((callHistory_of_execution rules run t).invoked n).mp
    ⟨y, List.mem_append_left _ member, action⟩

theorem begun_of_points (rules : UsageRules P load cells) (run : Execution P load cells trace σ)
    {whole : Trace P} (decided : (t, n) ∈ pointsFrom (decidedCall P load whole) [] trace) :
    Begun σ t n := by
  obtain ⟨before, y, after, rfl, decides⟩ := mem_points.mp decided
  exact begun_later rules run (decides.begun (reached_of_split rules run) rules)

/-- A call that returned was decided before, with the result it returned. -/
theorem decided_of_responds (rules : UsageRules P load cells)
    (run : Execution P load cells (front ++ x :: back) σ) (responds : Responds P x t n result) :
    (t, n) ∈ pointsFrom (decidedCall P load (front ++ x :: back)) [] front ∧
      result = outcomeOf P (front ++ x :: back) (t, n) := by
  have reached := reached_of_split rules run
  have call := (reached.responds responds).2.call
  have rows := (evidence_of_execution rules reached.run).2 t call.within
  have exclusive := (rowHistory_of_execution rules run t).exclusive n
  obtain ⟨ok, err⟩ := result_iff_passed rules run responds
  rcases (reached.responds responds).2.position.2 with rfl | rfl
  · have setting := ok.mp rfl
    obtain ⟨before, y, after, rfl, commits⟩ := rows.committed n setting
    refine ⟨mem_points.mpr ⟨before, y, after, rfl, .inl ?_⟩, (if_pos setting.append).symm⟩
    have moved := reached_of_split rules reached.run
    exact moved.commitEvent rules ⟨call.within, call.counted⟩ commits
  · have reverting : Passed P (front ++ x :: back) t n .reverting := (err.mp rfl).append
    obtain ⟨before, y, after, rfl, observes, first⟩ :=
      exists_first_member (rows.observed n (err.mp rfl))
    refine ⟨mem_points.mpr ⟨before, y, after, rfl, .inr ⟨observes, reverting, ?_⟩⟩,
      (if_neg fun setting => exclusive ⟨setting, reverting⟩).symm⟩
    rintro ⟨z, member, earlier⟩
    exact first z member earlier

/-- In an orderly run the markers are in order around every step. -/
theorem marksOk_around (rules : UsageRules P load cells)
    (run : Execution P load cells (front ++ x :: back) σ)
    (orderly : ∀ y ∈ front ++ x :: back, Orderly P y) :
    MarksOk P load x.before.shared ∧ MarksOk P load x.after.shared := by
  have reached := reached_of_split rules run
  obtain ⟨cleared, marks⟩ := marksOk_of_orderly rules reached.run fun y member =>
    orderly y (List.mem_append_left _ member)
  exact ⟨marks, marksOk_step rules reached (orderly x (by simp)) cleared marks⟩

/-- The step that decides a call does what the specification says. -/
theorem decided_acts (rules : UsageRules P load cells)
    (run : Execution P load cells (front ++ x :: back) σ)
    (orderly : ∀ y ∈ front ++ x :: back, Orderly P y)
    (decides : Decides P load (front ++ x :: back) front x (t, n)) :
    atomicKcas (load.call t n) (contentOf P load x.before.shared) =
      (contentOf P load x.after.shared, outcomeOf P (front ++ x :: back) (t, n)) := by
  have reached := reached_of_split rules run
  obtain ⟨before, after⟩ := marksOk_around rules run orderly
  rcases decides with commits | ⟨observes, reverting, -⟩
  · have setting : Passed P (front ++ x :: back) t n .setting := .of_commitEvent rules run commits
    rw [outcomeOf, if_pos setting]
    exact reached.content_committed rules before after commits
  · have failing : ¬ Passed P (front ++ x :: back) t n .setting := fun setting =>
      (rowHistory_of_execution rules run t).exclusive n ⟨setting, reverting⟩
    obtain ⟨w, inRange, real, other⟩ := observes.found
    have unexpected : ¬ ∀ w < P.numWords,
        contentOf P load x.before.shared ((load.call t n).target w) =
          (load.call t n).expected w := by
      intro all
      exact other ((contentOf_real real).symm.trans (all w inRange))
    have kept := reached.content_kept rules (orderly x (by simp)) before after (by
      rintro u k ⟨role, next, word, event⟩
      obtain ⟨i, target, expected, actual, event'⟩ := observes.event
      cases event.symm.trans event')
    rw [outcomeOf, if_neg failing, atomicKcas, if_neg unexpected, kept]

/-! ### Linearizability -/

/-- The calls of an orderly run have linearization points, whether or not they are all
over. -/
theorem partialPoints_of_orderly (rules : UsageRules P load cells)
    (run : Execution P load cells trace σ) (orderly : ∀ x ∈ trace, Orderly P x) :
    PartialPoints (fun call => atomicKcas (load.call call.1 call.2))
      (fun σ => contentOf P load σ.shared) (outcomeOf P trace) (decidedCall P load trace)
      (actionOf P) trace := by
  constructor
  · rintro front x back rfl undecided
    obtain ⟨before, after⟩ := marksOk_around rules run orderly
    refine (reached_of_split rules run).content_kept rules (orderly x (by simp)) before after ?_
    exact fun t n commits => decidedCall_eq_none.mp undecided (t, n) (.inl commits)
  · rintro front x back ⟨t, n⟩ rfl decides
    exact decided_acts rules run orderly (decidedCall_eq_some.mp decides)
  · rintro front x back ⟨t, n⟩ rfl decides
    exact decides_once rules run (decidedCall_eq_some.mp decides)
  · rintro front x back ⟨t, n⟩ rfl invoked decided
    have reached := reached_of_split rules run
    exact not_begun_of_invoke reached invoked (begun_of_points rules reached.run decided)
  · rintro front x back ⟨t, n⟩ result rfl responds
    exact decided_of_responds rules run (actionOf_respond.mp responds)
  · rintro front back rfl ⟨t, n⟩ decided
    obtain ⟨middle, earlier, -⟩ := run.cut
    have begun := begun_of_points rules earlier decided
    exact ((callHistory_of_execution rules earlier t).invoked n).mpr begun

/-- Every run that ends with no call in progress is linearizable, if all its
steps are orderly. -/
theorem kcas_linearizable (rules : UsageRules P load cells) (run : Execution P load cells trace σ)
    (orderly : ∀ x ∈ trace, Orderly P x) (idle : Idle P σ) :
    LinearizableRun P load cells trace σ := by
  have points : LinearizationPoints (fun call => atomicKcas (load.call call.1 call.2))
      (fun σ => contentOf P load σ.shared) (outcomeOf P trace) (decidedCall P load trace)
      (actionOf P) trace := by
    refine ⟨partialPoints_of_orderly rules run orderly, ?_⟩
    rintro ⟨t, n⟩ invoked
    have begun := ((callHistory_of_execution rules run t).invoked n).mp invoked
    obtain ⟨x, member, action⟩ := invoked
    obtain ⟨front, back, -, reached⟩ := reached_of_mem rules run member
    have within : t < P.numThreads := (actionOf_invoke.mp action).1 ▸ reached.within
    have completed := begun.resolve_right fun last => last.2 (idle t within)
    obtain ⟨y, inTrace, result, responds⟩ :=
      (callHistory_of_execution rules run t).responded n completed
    obtain ⟨front, back, rfl⟩ := List.append_of_mem inTrace
    rw [pointsFrom_append]
    exact List.mem_append_left _ (decided_of_responds rules run responds).1
  have start : contentOf P load (Config.initial P.numWords cells).shared = cells :=
    funext fun address => contentOf_real (rules.cells_legal address)
  rw [LinearizableRun, ← start]
  refine linearizable_of_points run points ?_
  intro address unmarked
  simp [contentOf, unmarked]

/-- The contended run is linearizable. -/
theorem kcas_linearizable_contended : ∃ (trace : Trace twoThreads) (σ : Config twoThreads.numWords),
    Execution twoThreads contended (fun _ => 0) trace σ ∧ trace.length = 58 ∧
      LinearizableRun twoThreads contended (fun _ => 0) trace σ := by
  obtain ⟨trace, σ, run, length, orderly, idle⟩ := exists_execution twoThreads contended
    (fun _ => 0) contendedTurns
    (fun trace σ => trace.length = 58 ∧ (∀ x ∈ trace, Orderly twoThreads x) ∧ Idle twoThreads σ)
    (by decide +kernel)
  exact ⟨trace, σ, run, length, kcas_linearizable contended_rules run orderly idle⟩

/-! ### A late helper -/

/-- The second thread writes back what the first one changed; the third one
only gets to know the first. -/
def writtenBack : Workload threeThreadsOneWord.numWords := .ofCalls
  [[oneWord (onCell 0 0 1)], [oneWord (onCell 0 1 0)], [oneWord (onCell 0 5 6)]]

theorem writtenBack_rules : UsageRules threeThreadsOneWord writtenBack fun _ => 0 :=
  usageRules_of_checks (by decide +kernel)

/-- The third thread helps the first and stops in front of its claim exchange.
The first one succeeds, the second one writes the old value back and returns;
then the exchange takes place and the first call happens once more. -/
def writtenBackTurns : List (ℕ × ℕ) := [(0, 9), (2, 13), (0, 4), (1, 15), (2, 15), (0, 2)]

/-- What the callers see of that run. -/
def writtenBackHistory : List (Action (ℕ × ℕ) (Except Error Unit)) :=
  [.invoke (0, 0), .invoke (2, 0), .invoke (1, 0), .respond (1, 0) (.ok ()),
    .respond (2, 0) (.error .valueWasNotExpectedValue), .respond (0, 0) (.ok ())]

/-- No order of the three calls lets the first two succeed and ends with 1. -/
theorem writtenBack_orders : ∀ order ∈ [(0, 0), (1, 0), (2, 0)].permutations',
    ¬ (((0, 0), Except.ok ()) ∈ (execute (fun call : ℕ × ℕ =>
        atomicKcas (writtenBack.call call.1 call.2)) order fun _ => 0).1 ∧
      ((1, 0), Except.ok ()) ∈ (execute (fun call : ℕ × ℕ =>
        atomicKcas (writtenBack.call call.1 call.2)) order fun _ => 0).1 ∧
      (execute (fun call : ℕ × ℕ =>
        atomicKcas (writtenBack.call call.1 call.2)) order fun _ => 0).2 8 = 1) := by
  decide +kernel

theorem not_kcas_linearizable : ¬ ∀ (P : Params) (load : Workload P.numWords) (cells : ℕ → ℕ),
    UsageRules P load cells → GlobalOrder P load → ∀ trace σ, Execution P load cells trace σ →
      Idle P σ → LinearizableRun P load cells trace σ := by
  intro claim
  obtain ⟨trace, σ, run, history, content, idle⟩ :=
    exists_execution threeThreadsOneWord writtenBack (fun _ => 0) writtenBackTurns
      (fun trace σ => trace.filterMap (actionOf threeThreadsOneWord) = writtenBackHistory ∧
        σ.shared.cells 8 = 1 ∧ Idle threeThreadsOneWord σ)
      (by decide +kernel)
  obtain ⟨order, linearization⟩ := claim threeThreadsOneWord writtenBack (fun _ => 0)
    writtenBack_rules (globalOrder_of_ascending (by decide +kernel)) trace σ run idle
  rw [history] at linearization
  have calls : order.Perm [(0, 0), (1, 0), (2, 0)] := by
    rw [List.perm_ext_iff_of_nodup linearization.nodup (by decide)]
    intro call
    rw [linearization.complete]
    simp only [writtenBackHistory, List.mem_cons, Action.invoke.injEq, reduceCtorEq,
      List.not_mem_nil, or_false]
    tauto
  refine writtenBack_orders order (List.mem_permutations'.mpr calls) ⟨?_, ?_, ?_⟩
  · exact linearization.results _ _ (by simp [writtenBackHistory])
  · exact linearization.results _ _ (by simp [writtenBackHistory])
  · rw [← content]
    exact linearization.ends 8 (by rw [content]; decide +kernel)

end KCas
