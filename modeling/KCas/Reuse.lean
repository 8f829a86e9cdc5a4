import KCas.Rows

/-! The markers of the calls, whatever the cells hold and whatever the calls come to. A
row that a call has left before `prepare_for_next_operation` keeps its sequence, so the
next call with the thread id publishes that once more, and with it the same marker. -/
namespace KCas

open Labelled

variable {P : Params} {load : Workload P.numWords} {cells : ℕ → ℕ} {κ κ' : Clients P.numWords}
  {s s' : Shared} {c t u n : ℕ} {stack stack' : List (Frame P.numWords)} {event : Event}
  {trace front back : ClientTrace P} {x : ClientTransition P}

/-! ### Markers -/

/-- A call that publishes itself: its thread index, its number among the calls with
that, and its sequence. -/
structure Publication where
  threadIndex : ℕ
  number : ℕ
  sequence : ℕ
  deriving DecidableEq

/-- The marker that is put into cells for the call. -/
def Publication.marker (P : Params) (call : Publication) : ℕ :=
  P.marker call.threadIndex call.sequence

/-- The call that is published by a step, the store at the end of
`initialize_operation`. -/
def publicationOf (x : ClientTransition P) : Option Publication :=
  match x.before.clients x.actor.client with
  | .holding _ [.initializing _ t _ (.storeStage n)] => some ⟨t, x.before.completed t, n⟩
  | _ => none

/-- An exchange of `claim` puts the marker into a cell. -/
def PutsMarker (x : ClientTransition P) (marker : ℕ) : Prop :=
  ∃ threadId op w target expected actual,
    x.event = .calls threadId (.exchangeCell .claim op w target expected marker (.ok actual))

/-- An exchange of `claim` for the marker finds it in the cell, so that the word counts as
claimed. -/
def MeetsOwnMarker (x : ClientTransition P) (marker : ℕ) : Prop :=
  ∃ threadId op w target expected result,
    x.event = .calls threadId (.exchangeCell .claim op w target expected marker result) ∧
      x.before.shared.cells target = marker

/-- Calls with one marker are one call, and no call counts a marker as its own that was
put into a cell before it published itself. -/
structure MarkersNotReused (P : Params) (trace : ClientTrace P) : Prop where
  once : ∀ x ∈ trace, ∀ y ∈ trace, ∀ call ∈ publicationOf x, ∀ call' ∈ publicationOf y,
    call.marker P = call'.marker P →
      call.threadIndex = call'.threadIndex ∧ call.number = call'.number
  own : ∀ front x middle y back, trace = front ++ x :: (middle ++ y :: back) →
    ∀ marker, PutsMarker x marker → MeetsOwnMarker y marker →
      ∀ z ∈ middle, ∀ call ∈ publicationOf z, call.marker P ≠ marker

/-- A call that publishes itself finds its row Inactive. -/
def FindsInactive (P : Params) (x : ClientTransition P) : Prop :=
  ∀ call ∈ publicationOf x, x.before.shared.stageOf P call.threadIndex = .inactive

instance : Decidable (FindsInactive P x) :=
  inferInstanceAs (Decidable (∀ call ∈ publicationOf x, _ = _))

/-- A step that publishes a call. -/
structure PublishedBy (P : Params) (x : ClientTransition P) (call : Publication) : Prop where
  within : call.threadIndex < P.numThreads
  number : call.number = x.before.completed call.threadIndex
  holds : ∃ words, x.before.clients x.actor.client =
    .holding (convertThreadIndexToThreadId call.threadIndex)
      [.initializing (call.threadIndex + 1) call.threadIndex words (.storeStage call.sequence)]
  current : x.before.shared.sequenceOf P call.threadIndex = call.sequence
  started : Started P x.after.shared call.threadIndex call.sequence

theorem publishedBy_of_moves (ok : PoolOk P x.before) (rows : RowsOk P load x.before)
    (moves : ClientMoves P load x.before x.actor.client x.event x.after) {call : Publication}
    (publishes : publicationOf x = some call) : PublishedBy P x call := by
  obtain ⟨κ, ⟨c, drops, spurious⟩, event, κ'⟩ := x
  simp only [publicationOf] at publishes
  split at publishes
  · rename_i threadId id t words n holds
    obtain rfl := Option.some.inj publishes
    simp only at ok rows moves holds
    have live : (κ.clients c).liveId = some threadId := by
      rw [holds]
      rfl
    obtain ⟨u, rfl, owns⟩ := ok.index_of_live live
    obtain ⟨rfl, rfl, -⟩ := ok.calls c u _ holds
    have within := (ok.owned c t owns).1
    have current : n = κ.shared.sequenceOf P t := rows.calls c t _ holds _ List.mem_cons_self
    refine ⟨within, rfl, ⟨words, holds⟩, current.symm, ?_⟩
    cases moves with
    | calls before effect =>
      rw [holds] at before
      obtain rfl := Client.index_of_holding before
      obtain ⟨-, rfl⟩ := (Client.holding.injEq ..).mp before
      cases effect with
      | init moves =>
        cases moves with
        | storeStage =>
          have fits := (rows.packed t within).2
          rw [← current] at fits
          refine .inr ⟨Shared.sequenceOf_storeStage_self fits, ?_⟩
          simp [Clients.moveTo, Shared.stageOf_storeStage_self fits]
    | _ => simp_all
  · cases publishes

/-- Only the marker of a published call is put into a cell. -/
theorem started_of_putsMarker {marker : ℕ} (ok : PoolOk P x.before)
    (rows : RowsOk P load x.before)
    (moves : ClientMoves P load x.before x.actor.client x.event x.after)
    (puts : PutsMarker x marker) :
    ∃ u < P.numThreads, ∃ n, marker = P.marker u n ∧ Started P x.before.shared u n := by
  obtain ⟨κ, ⟨c, drops, spurious⟩, event, κ'⟩ := x
  obtain ⟨threadId, op', w, target, expected, actual, rfl⟩ := puts
  simp only at ok rows moves
  cases moves with
  | @calls t stack stack' event shared before effect =>
    have fits := ok.calls c t stack before
    have on := rows.calls c t stack before
    cases effect with
    | init moves => cases moves
    | @operate role op pc _ _ frames rest going effect =>
      cases effect with
      | moved _ cellwise =>
        obtain ⟨-, rfl⟩ := cellwise
        have running := on _ List.mem_cons_self
        cases role with
        | originator =>
          cases rest with
          | cons caller rest => cases fits.1.1
          | nil =>
            obtain ⟨-, same, -⟩ := fits
            obtain ⟨sequences, active⟩ := running.1 going
            refine ⟨t, (ok.owned c t (Client.owns_of_holding before)).1, op.sequence, ?_,
              .inr ⟨sequences.symm, active⟩⟩
            exact congrArg Operation.threadAndSequence same
        | helper =>
          obtain ⟨within, begun⟩ := running going
          refine ⟨op.threadIndex, within, op.sequence, ?_, begun⟩
          cases rest with
          | nil => cases fits.1
          | cons caller rest => exact congrArg Operation.threadAndSequence fits.1.2.2.2.1

/-- What was published is not published again as long as the rows are found Inactive. -/
theorem marker_ne_of_started (few : FewCalls P load) (ok : PoolOk P κ) (rows : RowsOk P load κ)
    (run : Run (clientStep P load) κ trace κ') (inactive : ∀ z ∈ trace, FindsInactive P z)
    (within : u < P.numThreads) (begun : Started P κ.shared u n) :
    ∀ z ∈ trace, ∀ call ∈ publicationOf z, call.marker P ≠ P.marker u n := by
  intro z member call publishes same
  obtain ⟨front, earlier, stepped, -⟩ := run.of_mem member
  obtain ⟨ok', rows', begun'⟩ := started_of_run few ok rows earlier within begun
  have published := publishedBy_of_moves ok' rows' (clientMoves_of_step ok' stepped) publishes
  have le := rows'.sequence_le_count within
  have le' := rows'.sequence_le_count published.within
  have bound := few u within
  have bound' := few call.threadIndex published.within
  have current := published.current
  have behind : n ≤ z.before.shared.sequenceOf P u := by
    rcases begun' with gone | ⟨same, -⟩
    · exact Nat.le_of_lt gone
    · exact Nat.le_of_eq same.symm
  obtain ⟨rfl, rfl⟩ := Params.marker_inj published.within (by omega) within (by omega) same
  rcases begun' with gone | ⟨-, active⟩
  · omega
  · exact active (inactive z member call publishes)

/-! ### Rows that are not Inactive -/

/-- The call has published itself: it has returned, or its operation is under way. -/
def PastPublication (κ : Clients P.numWords) (t k : ℕ) : Prop :=
  k < κ.completed t ∨ (k = κ.completed t ∧ ∃ c stack,
    κ.clients c = .holding (convertThreadIndexToThreadId t) stack ∧
      ∃ op pc, .operating .originator op pc ∈ stack)

/-- The sequence of a row that is busy was published. -/
def Traced (P : Params) (trace : ClientTrace P) (κ : Clients P.numWords) : Prop :=
  ∀ t < P.numThreads, κ.shared.stageOf P t ≠ .inactive → ∃ x ∈ trace, ∃ call ∈ publicationOf x,
    call.threadIndex = t ∧ call.sequence = κ.shared.sequenceOf P t ∧
      PastPublication κ t call.number

/-- An operation stays on the stack of its call until that returns. -/
theorem CallEffect.originator (effect : CallEffect P t s stack event s' stack')
    (works : ∃ op pc, .operating .originator op pc ∈ stack) :
    stack' = [] ∨ ∃ op pc, .operating .originator op pc ∈ stack' := by
  obtain ⟨op, pc, member⟩ := works
  cases effect with
  | init moves => simp at member
  | help => exact .inr ⟨op, pc, by simpa using member⟩
  | @operate role op' pc' _ _ frames rest going effect =>
    right
    rcases List.mem_cons.mp member with own | below
    · cases own
      cases effect with
      | helps => exact ⟨op, _, List.mem_cons_of_mem _ List.mem_cons_self⟩
      | _ => exact ⟨op, _, List.mem_cons_self⟩
    · exact ⟨op, pc, List.mem_append_right _ below⟩
  | helpReturned =>
    right
    simp only [List.mem_cons, Frame.operating.injEq, reduceCtorEq, false_and, false_or] at member
    rcases member with ⟨rfl, -, -⟩ | below
    · exact ⟨_, _, List.mem_cons_self⟩
    · exact ⟨op, pc, List.mem_cons_of_mem _ below⟩
  | respond => exact .inl rfl

/-- Only the return of a call with the thread index is counted. -/
theorem ClientMoves.completed_eq {event : ClientEvent} (moves : ClientMoves P load κ c event κ') :
    κ'.completed t = κ.completed t ∨ (κ'.completed t = κ.completed t + 1 ∧
      ∃ stack, κ.clients c = .holding (convertThreadIndexToThreadId t) stack) := by
  cases moves with
  | @calls u stack stack' event shared before effect =>
    simp only [Clients.moveTo]
    split
    · by_cases own : t = u
      · subst own
        exact .inr ⟨Function.update_self .., stack, before⟩
      · exact .inl (Function.update_of_ne own ..)
    · exact .inl rfl
  | _ => exact .inl rfl

theorem pastPublication_step (ok : PoolOk P κ) {event : ClientEvent} {k : ℕ}
    (moves : ClientMoves P load κ c event κ') (past : PastPublication κ t k) :
    PastPublication κ' t k := by
  rcases past with returned | ⟨rfl, d, stack, holds, works⟩
  · left
    rcases moves.completed_eq (t := t) with same | ⟨next, -⟩ <;> omega
  · by_cases own : d = c
    · subst own
      cases moves with
      | @calls u stack₀ stack' event shared before effect =>
        rw [holds] at before
        obtain rfl := Client.index_of_holding before
        obtain ⟨-, rfl⟩ := (Client.holding.injEq ..).mp before
        rcases effect.originator works with rfl | ⟨op, pc, member⟩
        · left
          simp [Clients.moveTo]
        · have more : stack' ≠ [] := List.ne_nil_of_mem member
          refine .inr ⟨by simp [Clients.moveTo, more], d, stack', ?_, op, pc, member⟩
          rw [Clients.moveTo_self]
      | _ => simp_all
    · have same : κ'.completed t = κ.completed t := by
        rcases moves.completed_eq (t := t) with same | ⟨-, stack', holds'⟩
        · exact same
        · exact absurd (ok.exclusive d c t (Client.owns_of_holding holds)
            (Client.owns_of_holding holds')) own
      exact .inr ⟨same.symm, d, stack, (moves.other own).trans holds, works⟩

/-- A call that publishes itself goes on with its operation. -/
theorem PublishedBy.past {call : Publication} (published : PublishedBy P x call)
    (moves : ClientMoves P load x.before x.actor.client x.event x.after) :
    PastPublication x.after call.threadIndex call.number := by
  obtain ⟨-, number, ⟨words, holds⟩, -, -⟩ := published
  obtain ⟨κ, ⟨c, drops, spurious⟩, event, κ'⟩ := x
  simp only at number holds moves ⊢
  cases moves with
  | calls before effect =>
    rw [holds] at before
    obtain rfl := Client.index_of_holding before
    obtain ⟨-, rfl⟩ := (Client.holding.injEq ..).mp before
    cases effect with
    | init moves =>
      cases moves with
      | storeStage =>
        refine .inr ⟨number, c, _, Clients.moveTo_self, _, _, List.mem_cons_self⟩
  | _ => simp_all

theorem traced_step (few : FewCalls P load) (ok : PoolOk P x.before)
    (rows : RowsOk P load x.before)
    (moves : ClientMoves P load x.before x.actor.client x.event x.after)
    (traced : Traced P trace x.before) : Traced P (trace ++ [x]) x.after := by
  intro t within busy
  have earlier (active : x.before.shared.stageOf P t ≠ .inactive)
      (sequences : x.after.shared.sequenceOf P t = x.before.shared.sequenceOf P t) :
      ∃ y ∈ trace ++ [x], ∃ call ∈ publicationOf y, call.threadIndex = t ∧
        call.sequence = x.after.shared.sequenceOf P t ∧ PastPublication x.after t call.number := by
    obtain ⟨y, member, call, publishes, index, sequence, past⟩ := traced t within active
    exact ⟨y, List.mem_append_left _ member, call, publishes, index,
      sequence.trans sequences.symm, pastPublication_step ok moves past⟩
  have published (call : Publication) (publishes : publicationOf x = some call) :=
    publishedBy_of_moves ok rows moves publishes
  have here (call : Publication) (publishes : publicationOf x = some call)
      (sequence : call.sequence = x.after.shared.sequenceOf P call.threadIndex) :
      ∃ y ∈ trace ++ [x], ∃ call' ∈ publicationOf y, call'.threadIndex = call.threadIndex ∧
        call'.sequence = x.after.shared.sequenceOf P call.threadIndex ∧
          PastPublication x.after call.threadIndex call'.number :=
    ⟨x, by simp, call, publishes, rfl, sequence,
      (publishedBy_of_moves ok rows moves publishes).past moves⟩
  generalize x.after = after at moves busy earlier here ⊢
  generalize x.event = event at moves
  cases moves with
  | @calls u stack stack' event shared before effect =>
    obtain ⟨sequences, active | ⟨rfl, words, rfl⟩⟩ :=
      (rows.effect ok few before effect).busy rows.packed within busy
    · exact earlier active sequences
    · refine here ⟨t, x.before.completed t, x.before.shared.sequenceOf P t⟩ ?_ sequences.symm
      simp [publicationOf, before]
  | _ => exact earlier busy rfl

theorem traced_of_run (few : FewCalls P load) (run : ClientRun P load cells trace κ) :
    Traced P trace κ := by
  refine run.invariant (fun _ => True) (fun trace κ => Traced P trace κ) ?_ ?_
    (fun _ _ => trivial)
  · intro t _ busy
    have word : (Clients.initial P cells).shared.state.stageAndSequenceNumbers t =
        P.stageWord .inactive 0 :=
      P.stageWord_inactive_zero.symm
    exact absurd (row_of_word word (Nat.two_pow_pos _)).1 busy
  · rintro trace before actor event after earlier stepped - traced
    obtain ⟨ok, rows⟩ := rowsOk_of_run few earlier
    exact traced_step few ok rows (clientMoves_of_step ok stepped) traced

/-- A call that finds its row busy shares its marker with an earlier one. -/
theorem findsInactive_of_markersNotReused (few : FewCalls P load)
    (run : ClientRun P load cells trace κ) (unique : MarkersNotReused P trace) :
    ∀ x ∈ trace, FindsInactive P x := by
  intro x member call publishes
  by_contra busy
  obtain ⟨front, back, rfl⟩ := List.append_of_mem member
  obtain ⟨reached, stepped, -⟩ := run.split
  obtain ⟨ok, rows⟩ := rowsOk_of_run few reached
  have published := publishedBy_of_moves ok rows (clientMoves_of_step ok stepped) publishes
  obtain ⟨y, earlier, call', publishes', index, sequence, past⟩ :=
    traced_of_run few reached _ published.within busy
  have same : call'.marker P = call.marker P := by
    rw [Publication.marker, Publication.marker, index, sequence, published.current]
  have number := (unique.once y (List.mem_append_left _ earlier) x member call' publishes' call
    publishes same).2
  rw [number, published.number] at past
  -- The earlier call would be this one, which has yet to publish itself.
  obtain ⟨words, holds⟩ := published.holds
  rcases past with less | ⟨-, c, stack, holds', op, pc, works⟩
  · exact Nat.lt_irrefl _ less
  · obtain rfl :=
      ok.exclusive _ _ _ (Client.owns_of_holding holds) (Client.owns_of_holding holds')
    rw [holds] at holds'
    obtain ⟨-, rfl⟩ := (Client.holding.injEq ..).mp holds'
    simp at works

/-- As long as the rows are found Inactive, no later call has the marker of a call. -/
theorem marker_ne_of_later (few : FewCalls P load)
    (run : ClientRun P load cells (front ++ x :: back) κ)
    (inactive : ∀ z ∈ front ++ x :: back, FindsInactive P z) {call : Publication}
    (publishes : publicationOf x = some call) :
    ∀ z ∈ back, ∀ call' ∈ publicationOf z, call'.marker P ≠ call.marker P := by
  obtain ⟨reached, stepped, onward⟩ := run.split
  obtain ⟨ok, rows⟩ := rowsOk_of_run few reached
  have moves := clientMoves_of_step ok stepped
  have published := publishedBy_of_moves ok rows moves publishes
  exact marker_ne_of_started few (poolOk_step ok moves) (rowsOk_step few ok rows moves) onward
    (fun z member => inactive z (by simp [member])) published.within published.started

/-- In every run with fewer calls than there are sequences, whatever they come to, no
marker is used again if and only if each call that publishes itself finds its row
Inactive. -/
theorem markers_not_reused_iff (few : FewCalls P load) (run : ClientRun P load cells trace κ) :
    MarkersNotReused P trace ↔ ∀ x ∈ trace, FindsInactive P x := by
  refine ⟨findsInactive_of_markersNotReused few run, fun inactive => ⟨?_, ?_⟩⟩
  · intro x member y member' call publishes call' publishes' same
    obtain ⟨front, back, rfl⟩ := List.append_of_mem member
    rcases List.mem_append.mp member' with before | after
    · obtain ⟨first, middle, rfl⟩ := List.append_of_mem before
      rw [List.append_assoc, List.cons_append] at run inactive
      exact absurd same (marker_ne_of_later few run inactive publishes' x (by simp) call publishes)
    · rcases List.mem_cons.mp after with rfl | behind
      · obtain rfl := Option.some.inj (publishes.symm.trans publishes')
        exact ⟨rfl, rfl⟩
      · have apart := marker_ne_of_later few run inactive publishes y behind call' publishes'
        exact absurd same.symm apart
  · rintro front x middle y back rfl marker puts - z member call publishes
    obtain ⟨reached, stepped, -⟩ := run.split
    obtain ⟨start, reached', onward⟩ := run.cut
    obtain rfl := onward.head
    obtain ⟨ok, rows⟩ := rowsOk_of_run few reached
    obtain ⟨u, within, n, rfl, begun⟩ :=
      started_of_putsMarker ok rows (clientMoves_of_step ok stepped) puts
    refine marker_ne_of_started few ok rows onward (fun z member => inactive z ?_) within begun z
      ?_ call publishes
    · exact List.mem_append_right _ member
    · simp [member]

/-- Both contended calls find their rows Inactive. -/
theorem markers_not_reused_handedOn : ∃ (trace : ClientTrace twoThreads)
    (κ : Clients twoThreads.numWords), ClientRun twoThreads contended (fun _ => 0) trace κ ∧
      trace.filterMap publicationOf = [⟨0, 0, 0⟩, ⟨1, 0, 0⟩] ∧
      MarkersNotReused twoThreads trace := by
  obtain ⟨trace, κ, run, calls, inactive⟩ := exists_run_of_replay
    (clientStep twoThreads contended) (Clients.initial twoThreads fun _ => 0) handedOnTurns
    (fun trace _ => trace.filterMap publicationOf = [⟨0, 0, 0⟩, ⟨1, 0, 0⟩] ∧
      ∀ x ∈ trace, FindsInactive twoThreads x) (by decide +kernel)
  exact ⟨trace, κ, run, calls, (markers_not_reused_iff (by decide +kernel) run).mpr inactive⟩

/-- The first call meets an illegal value in its second word. The second one expects
another value in the first word. -/
def afterFatal : Workload threeThreads.numWords := .ofCalls
  [[twoWords (onCell 0 0 1) (onCell 1 0 1), twoWords (onCell 0 5 6) (onCell 2 0 1)]]

/-- Only the cell at address 16 holds a value with illegal top bits. -/
def illegalCell (address : ℕ) : ℕ := if address = 16 then 2 ^ 63 else 0

/-- The first call returns a fatal error and its wrapper is dropped. A new one makes the
second call with the same thread id, to its end. -/
def afterFatalTurns : List ClientActor :=
  clientTurns [(0, 20)] ++ [⟨0, true, false⟩] ++ clientTurns [(0, 1), (1, 27)]

/-- The second call takes the marker that the first one left in a cell for its own. -/
theorem not_markers_not_reused : ¬ ∀ (P : Params) (load : Workload P.numWords) (cells : ℕ → ℕ)
    (trace : ClientTrace P) (κ : Clients P.numWords), FewCalls P load →
      ClientRun P load cells trace κ → MarkersNotReused P trace := by
  intro claim
  obtain ⟨trace, κ, run, calls⟩ := exists_run_of_replay (clientStep threeThreads afterFatal)
    (Clients.initial threeThreads illegalCell) afterFatalTurns
    (fun trace κ => trace.filterMap publicationOf = [⟨0, 0, 0⟩, ⟨0, 1, 0⟩] ∧
      κ.completed 0 = 2 ∧ κ.shared.cells 8 = 6) (by decide +kernel)
  have unique := claim threeThreads afterFatal illegalCell trace κ (by decide +kernel) run
  have published (call : Publication) (member : call ∈ trace.filterMap publicationOf) :
      ∃ x ∈ trace, publicationOf x = some call :=
    List.mem_filterMap.mp member
  obtain ⟨x, inTrace, first⟩ := published ⟨0, 0, 0⟩ (by simp [calls.1])
  obtain ⟨y, inTrace', second⟩ := published ⟨0, 1, 0⟩ (by simp [calls.1])
  exact absurd (unique.once x inTrace y inTrace' _ first _ second rfl).2 (by decide)

end KCas
