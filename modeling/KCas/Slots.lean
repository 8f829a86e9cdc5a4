import KCas.Positions
import KCas.Wrapper

/-! The pool of thread ids, whatever the calls of its clients come to. A slot is true
exactly while some client has it, from the exchange that takes it to the store in
`drop`; what one step of one client can do is listed once. -/
namespace KCas

open Labelled

variable {P : Params} {load : Workload P.numWords} {cells : ℕ → ℕ} {κ κ' : Clients P.numWords}
  {c d t : ℕ} {stack : List (Frame P.numWords)} {actor : ClientActor} {event : ClientEvent}

abbrev ClientTransition (P : Params) := Transition (Clients P.numWords) ClientActor ClientEvent

abbrev ClientTrace (P : Params) := List (ClientTransition P)

/-- The slots and their owners. -/
structure PoolOk (P : Params) (κ : Clients P.numWords) : Prop where
  owned : ∀ c t, (κ.clients c).Owns t →
    t < P.numThreads ∧ κ.shared.state.threadIndexSlots t = true
  exclusive : ∀ c d t, (κ.clients c).Owns t → (κ.clients d).Owns t → c = d
  owner : ∀ t, κ.shared.state.threadIndexSlots t = true → ∃ c, (κ.clients c).Owns t
  client : ∀ c, ClientOk P (κ.clients c)
  calls : ∀ c t stack, κ.clients c = .holding (convertThreadIndexToThreadId t) stack →
    StackFits P t stack

/-! ### Steps -/

/-- Everything one step of one client can do. -/
inductive ClientMoves (P : Params) (load : Workload P.numWords) (κ : Clients P.numWords) (c : ℕ) :
    ClientEvent → Clients P.numWords → Prop where
  | begins : κ.clients c = .outside → 0 < P.numThreads →
      ClientMoves P load κ c .silent (κ.moveTo c κ.shared κ.completed (.constructing 0))
  | nothingToScan : κ.clients c = .outside → P.numThreads = 0 →
      ClientMoves P load κ c .noThreadIdAvailable (κ.moveTo c κ.shared κ.completed .outside)
  | takes {i : ℕ} : κ.clients c = .constructing i → i < P.numThreads →
      κ.shared.state.threadIndexSlots i = false →
      ClientMoves P load κ c .silent
        (κ.moveTo c (κ.shared.storeSlot i true) κ.completed (.counting i))
  | passes {i : ℕ} : κ.clients c = .constructing i → κ.shared.state.threadIndexSlots i = true →
      i + 1 < P.numThreads →
      ClientMoves P load κ c .silent (κ.moveTo c κ.shared κ.completed (.constructing (i + 1)))
  | fails {i : ℕ} : κ.clients c = .constructing i → κ.shared.state.threadIndexSlots i = true →
      P.numThreads = i + 1 →
      ClientMoves P load κ c .noThreadIdAvailable (κ.moveTo c κ.shared κ.completed .outside)
  | counts {i : ℕ} : κ.clients c = .counting i →
      ClientMoves P load κ c (.constructed (convertThreadIndexToThreadId i))
        (κ.moveTo c (κ.shared.storeThreadsInUse
          ((κ.shared.state.numThreadsInUse + 1) % 2 ^ P.usizeBits)) κ.completed
          (.holding (convertThreadIndexToThreadId i) []))
  | drops {t : ℕ} : κ.clients c = .holding (convertThreadIndexToThreadId t) [] →
      ClientMoves P load κ c .dropped
        (κ.moveTo c (κ.shared.storeSlot t false) κ.completed .uncounting)
  | uncounts : κ.clients c = .uncounting →
      ClientMoves P load κ c .silent
        (κ.moveTo c (κ.shared.storeThreadsInUse (min κ.shared.state.numThreadsInUse 1)) κ.completed
          .outside)
  | enters {t : ℕ} : κ.clients c = .holding (convertThreadIndexToThreadId t) [] →
      κ.completed t < load.count t →
      ClientMoves P load κ c (.calls (convertThreadIndexToThreadId t) .invoked)
        (κ.moveTo c κ.shared κ.completed (.holding (convertThreadIndexToThreadId t)
          [.initializing (t + 1) t (load.call t (κ.completed t))
            (if 0 < P.numWords then .storeTarget 0 else .loadStage)]))
  | calls {t : ℕ} {stack stack' : List (Frame P.numWords)} {event : Event} {shared : Shared} :
      κ.clients c = .holding (convertThreadIndexToThreadId t) stack →
      CallEffect P t κ.shared stack event shared stack' →
      ClientMoves P load κ c (.calls (convertThreadIndexToThreadId t) event)
        (κ.moveTo c shared
          (if stack'.isEmpty then Function.update κ.completed t (κ.completed t + 1)
            else κ.completed)
          (.holding (convertThreadIndexToThreadId t) stack'))

theorem clientMoves_of_step (ok : PoolOk P κ)
    (stepped : clientStep P load κ actor = some (event, κ')) :
    ClientMoves P load κ actor.client event κ' := by
  have position := ok.client actor.client
  unfold clientStep at stepped
  cases before : κ.clients actor.client with
  | outside =>
    simp only [before, findFrom, Option.some.injEq, Prod.mk.injEq] at stepped
    obtain ⟨rfl, rfl⟩ := stepped
    split
    · rename_i some
      exact .begins before some
    · exact .nothingToScan before (by omega)
  | constructing i =>
    rw [before] at position
    have inRange : i < P.numThreads := position
    simp only [before, exchangeSlot, if_pos inRange] at stepped
    split at stepped
    · rename_i free
      cases stepped
      exact .takes before inRange free
    · rename_i taken
      simp only [Bool.not_eq_false] at taken
      simp only [findFrom, Option.some.injEq, Prod.mk.injEq] at stepped
      obtain ⟨rfl, rfl⟩ := stepped
      split
      · rename_i more
        exact .passes before taken more
      · exact .fails before taken (by omega)
  | counting i =>
    simp only [before, Option.some.injEq, Prod.mk.injEq] at stepped
    obtain ⟨rfl, rfl⟩ := stepped
    exact .counts before
  | uncounting =>
    simp only [before, Option.some.injEq, Prod.mk.injEq] at stepped
    obtain ⟨rfl, rfl⟩ := stepped
    exact .uncounts before
  | panicked =>
    rw [before] at position
    exact position.elim
  | holding threadId stack =>
    rw [before] at position
    obtain ⟨t, rfl⟩ := Nat.exists_eq_succ_of_ne_zero position
    have within := (ok.owned actor.client t (Client.owns_of_holding before)).1
    have fits := ok.calls actor.client t stack before
    simp only [before] at stepped
    split at stepped
    · rename_i drops
      obtain rfl := List.isEmpty_iff.mp drops.2
      simp only [dropWrapper, convertThreadIdToThreadIndex, Nat.succ_ne_zero, if_false,
        Nat.succ_sub_one, within, if_true, Option.some.injEq, Prod.mk.injEq] at stepped
      obtain ⟨rfl, rfl⟩ := stepped
      exact .drops before
    · obtain ⟨⟨event, shared, completed, stack'⟩, called, result⟩ :=
        Option.map_eq_some_iff.mp stepped
      simp only [Prod.mk.injEq] at result
      obtain ⟨rfl, rfl⟩ := result
      unfold callStep at called
      cases stack with
      | nil =>
        simp only [Nat.succ_sub_one] at called
        split at called
        · rename_i more
          simp only [Option.some.injEq, Prod.mk.injEq] at called
          obtain ⟨rfl, rfl, rfl, rfl⟩ := called
          exact .enters before more
        · cases called
      | cons frame rest =>
        obtain ⟨outcome, ran, result⟩ := Option.map_eq_some_iff.mp called
        simp only [Nat.succ_sub_one, Prod.mk.injEq] at result
        obtain ⟨rfl, rfl, rfl, rfl⟩ := result
        exact .calls before (effect_of_stackStep within fits ran)

/-! ### The invariant -/

variable {shared : Shared} {completed : ℕ → ℕ} {client : Client P.numWords}

theorem ClientMoves.other (moves : ClientMoves P load κ c event κ') (other : d ≠ c) :
    κ'.clients d = κ.clients d := by
  cases moves <;> exact Clients.moveTo_other other

/-- What one client must establish when it moves. -/
theorem PoolOk.moveTo (ok : PoolOk P κ)
    (owned : ∀ t, client.Owns t → t < P.numThreads ∧ shared.state.threadIndexSlots t = true)
    (alone : ∀ t, client.Owns t → ∀ d, (κ.clients d).Owns t → d = c)
    (others : ∀ d t, d ≠ c → (κ.clients d).Owns t → shared.state.threadIndexSlots t = true)
    (owner : ∀ t, shared.state.threadIndexSlots t = true →
      client.Owns t ∨ ∃ d, d ≠ c ∧ (κ.clients d).Owns t)
    (position : ClientOk P client)
    (calls : ∀ t stack, client = .holding (convertThreadIndexToThreadId t) stack →
      StackFits P t stack) : PoolOk P (κ.moveTo c shared completed client) := by
  refine ⟨?_, Clients.exclusive_moveTo ok.exclusive alone, ?_,
    Clients.each_moveTo (ClientOk P) position fun d _ => ok.client d, ?_⟩
  · refine Clients.each_moveTo (fun client => ∀ t, client.Owns t →
      t < P.numThreads ∧ shared.state.threadIndexSlots t = true) owned ?_
    exact fun d other t owns => ⟨(ok.owned d t owns).1, others d t other owns⟩
  · intro t taken
    rcases owner t taken with owns | ⟨d, other, owns⟩
    · exact ⟨c, by rwa [Clients.moveTo_self]⟩
    · exact ⟨d, by rwa [Clients.moveTo_other other]⟩
  · exact Clients.each_moveTo (fun client => ∀ t stack,
      client = .holding (convertThreadIndexToThreadId t) stack → StackFits P t stack) calls
      fun d _ => ok.calls d

/-- A client that owns the same slots as before. -/
theorem PoolOk.keep (ok : PoolOk P κ)
    (slots : shared.state.threadIndexSlots = κ.shared.state.threadIndexSlots)
    (same : ∀ t, client.Owns t ↔ (κ.clients c).Owns t) (position : ClientOk P client)
    (calls : ∀ t stack, client = .holding (convertThreadIndexToThreadId t) stack →
      StackFits P t stack) : PoolOk P (κ.moveTo c shared completed client) := by
  refine ok.moveTo ?_ ?_ ?_ ?_ position calls
  · intro t owns
    rw [slots]
    exact ok.owned c t ((same t).mp owns)
  · intro t owns d ownsD
    exact ok.exclusive d c t ownsD ((same t).mp owns)
  · intro d t _ ownsD
    rw [slots]
    exact (ok.owned d t ownsD).2
  · intro t taken
    rw [slots] at taken
    obtain ⟨d, owns⟩ := ok.owner t taken
    by_cases own : d = c
    · subst own
      exact .inl ((same t).mpr owns)
    · exact .inr ⟨d, own, owns⟩

theorem poolOk_step (ok : PoolOk P κ) (moves : ClientMoves P load κ c event κ') :
    PoolOk P κ' := by
  cases moves with
  | begins before some => exact ok.keep rfl (by simp [before, Client.Owns]) some (by simp)
  | nothingToScan before none => exact ok.keep rfl (by simp [before]) trivial (by simp)
  | passes before taken more =>
    exact ok.keep rfl (by simp [before, Client.Owns]) more (by simp)
  | fails before taken last => exact ok.keep rfl (by simp [before, Client.Owns]) trivial (by simp)
  | uncounts before => exact ok.keep rfl (by simp [before, Client.Owns]) trivial (by simp)
  | @counts i before =>
    refine ok.keep rfl ?_ (Nat.succ_ne_zero i) ?_
    · intro t
      rw [before]
      exact ⟨fun held => Nat.succ_injective held, fun held => congrArg _ held⟩
    · intro t stack holds
      obtain ⟨-, rfl⟩ := (Client.holding.injEq ..).mp holds
      trivial
  | @enters t before more =>
    refine ok.keep rfl (by simp [before, Client.Owns]) (Nat.succ_ne_zero t) ?_
    intro u stack holds
    obtain rfl := Client.index_of_holding holds
    obtain ⟨-, rfl⟩ := (Client.holding.injEq ..).mp holds
    refine ⟨rfl, rfl, ?_⟩
    split
    · assumption
    · trivial
  | @calls t stack stack' event shared before effect =>
    refine ok.keep effect.slots.1 (by simp [before, Client.Owns]) (Nat.succ_ne_zero t) ?_
    intro u stack holds
    obtain rfl := Client.index_of_holding holds
    obtain ⟨-, rfl⟩ := (Client.holding.injEq ..).mp holds
    exact effect.fits (ok.calls c _ _ before)
  | @takes i before inRange free =>
    refine ok.moveTo ?_ ?_ ?_ ?_ trivial (by simp)
    · rintro t rfl
      exact ⟨inRange, by simp [Shared.storeSlot]⟩
    · rintro t rfl d owns
      exact absurd ((ok.owned d i owns).2.symm.trans free) (by simp)
    · intro d t _ owns
      by_cases same : t = i
      · subst same
        simp [Shared.storeSlot]
      · simpa [Shared.storeSlot, same] using (ok.owned d t owns).2
    · intro t taken
      by_cases same : t = i
      · exact .inl same.symm
      · obtain ⟨d, owns⟩ := ok.owner t (by simpa [Shared.storeSlot, same] using taken)
        refine .inr ⟨d, ?_, owns⟩
        rintro rfl
        rw [before] at owns
        exact owns
  | @drops i before =>
    have owns : (κ.clients c).Owns i := Client.owns_of_holding before
    refine ok.moveTo (fun t held => held.elim) (fun t held => held.elim) ?_ ?_ trivial (by simp)
    · intro d t other ownsD
      have this : t ≠ i := by
        rintro rfl
        exact other (ok.exclusive d c t ownsD owns)
      simpa [Shared.storeSlot, this] using (ok.owned d t ownsD).2
    · intro t taken
      have this : t ≠ i := by
        rintro rfl
        simp [Shared.storeSlot] at taken
      obtain ⟨d, ownsD⟩ := ok.owner t (by simpa [Shared.storeSlot, this] using taken)
      refine .inr ⟨d, ?_, ownsD⟩
      rintro rfl
      rw [before] at ownsD
      exact this (Nat.succ_injective ownsD).symm

theorem poolOk_initial : PoolOk P (Clients.initial P cells) := by
  refine ⟨fun c t owns => owns.elim, fun c d t owns => owns.elim, ?_, fun c => trivial, ?_⟩
  · intro t taken
    simp [Clients.initial, State.new] at taken
  · intro c t stack holds
    simp [Clients.initial] at holds

theorem poolOk_of_run {trace : ClientTrace P} (run : ClientRun P load cells trace κ) :
    PoolOk P κ :=
  run.state_invariant poolOk_initial fun _ _ _ _ stepped ok =>
    poolOk_step ok (clientMoves_of_step ok stepped)

/-! ### Thread ids -/

/-- The thread id of a live wrapper: from the exchange that takes its slot to the
store in `drop`. -/
def Client.liveId {numWords : ℕ} : Client numWords → Option ℕ
  | .counting i => some (convertThreadIndexToThreadId i)
  | .holding threadId _ => some threadId
  | _ => none

theorem Client.liveId_eq {numWords : ℕ} {client : Client numWords} :
    client.liveId = some (convertThreadIndexToThreadId t) ↔ client.Owns t := by
  cases client with
  | counting i =>
    simp [Client.liveId, Client.Owns, convertThreadIndexToThreadId]
  | holding threadId stack => simp [Client.liveId, Client.Owns]
  | _ => simp [Client.liveId, Client.Owns]

/-- A live wrapper has a slot. -/
theorem PoolOk.index_of_live {threadId : ℕ} (ok : PoolOk P κ)
    (live : (κ.clients c).liveId = some threadId) :
    ∃ t, threadId = convertThreadIndexToThreadId t ∧ (κ.clients c).Owns t := by
  have position := ok.client c
  cases client : κ.clients c with
  | counting i =>
    rw [client] at live
    exact ⟨i, (Option.some.inj live).symm, rfl⟩
  | holding id stack =>
    rw [client] at live position
    obtain ⟨t, same⟩ := Nat.exists_eq_succ_of_ne_zero position
    exact ⟨t, (Option.some.inj live).symm.trans same, same⟩
  | _ => simp [client, Client.liveId] at live

/-- The client that moves has the wrapper with this thread index. -/
def ByHolder (x : ClientTransition P) (t : ℕ) : Prop :=
  ∃ stack, x.before.clients x.actor.client = .holding (convertThreadIndexToThreadId t) stack

/-- A step writes the row of a thread index only if its holder takes it. Others
exchange its stage word. -/
structure WrittenByHolder (P : Params) (x : ClientTransition P) (t : ℕ) : Prop where
  words : x.after.shared.state.targetAddresses t ≠ x.before.shared.state.targetAddresses t ∨
      x.after.shared.state.expectedValues t ≠ x.before.shared.state.expectedValues t ∨
      x.after.shared.state.desiredValues t ≠ x.before.shared.state.desiredValues t → ByHolder x t
  stage : x.after.shared.state.stageAndSequenceNumbers t ≠
      x.before.shared.state.stageAndSequenceNumbers t →
    (∃ threadId word, x.event = .calls threadId (.storeStage t word)) ∨
      ∃ threadId role op current desired next actual, op.threadIndex = t ∧
        x.event = .calls threadId (.exchangeStage role op current desired next (.ok actual))
  stores : ∀ threadId, ((∃ w, x.event = .calls threadId (.storeRow t w)) ∨
    ∃ word, x.event = .calls threadId (.storeStage t word)) → ByHolder x t

theorem writtenByHolder_of_moves {x : ClientTransition P} (ok : PoolOk P x.before)
    (moves : ClientMoves P load x.before x.actor.client x.event x.after) (t : ℕ) :
    WrittenByHolder P x t := by
  obtain ⟨κ, ⟨c, drops, spurious⟩, event, κ'⟩ := x
  simp only at ok moves
  cases moves with
  | @calls u stack stack' event shared before effect =>
    have own := effect.own (u := t) (ok.calls c u stack before)
    have holder (same : t = u) :
        ∃ stack, κ.clients c = .holding (convertThreadIndexToThreadId t) stack :=
      ⟨stack, same ▸ before⟩
    refine ⟨fun changed => ?_, fun changed => ?_, ?_⟩
    · by_contra other
      obtain ⟨targets, expecteds, desireds⟩ := effect.words_kept (u := t)
        fun w stored => other (holder (own.1 w stored))
      rcases changed with changed | changed | changed
      · exact changed targets
      · exact changed expecteds
      · exact changed desireds
    · by_cases stored : ∃ word, event = .storeStage t word
      · obtain ⟨word, rfl⟩ := stored
        exact .inl ⟨_, word, rfl⟩
      · rcases effect.stage_kept (u := t) (fun word same => stored ⟨word, same⟩) with kept |
          ⟨role, op, current, desired, next, actual, same, rfl⟩
        · exact absurd kept changed
        · exact .inr ⟨_, role, op, current, desired, next, actual, same, rfl⟩
    · rintro threadId (⟨w, same⟩ | ⟨word, same⟩)
      · exact holder (own.1 w ((ClientEvent.calls.injEq ..).mp same).2)
      · exact holder (own.2 word ((ClientEvent.calls.injEq ..).mp same).2)
  | _ =>
    refine ⟨fun changed => ?_, fun changed => absurd rfl changed, ?_⟩
    · rcases changed with changed | changed | changed <;> exact absurd rfl changed
    · rintro threadId (⟨w, same⟩ | ⟨word, same⟩) <;> cases same

/-- In every run of constructions, drops and calls the thread ids are exclusive, and
the rows of a thread id are written by the wrapper that has it. -/
theorem thread_ids_exclusive {trace : ClientTrace P} (run : ClientRun P load cells trace κ) :
    (∀ c d threadId, (κ.clients c).liveId = some threadId →
      (κ.clients d).liveId = some threadId → c = d) ∧
    (∀ c threadId, (κ.clients c).liveId = some threadId → 1 ≤ threadId ∧
      threadId ≤ P.numThreads ∧ κ.shared.state.threadIndexSlots (threadId - 1) = true) ∧
    (∀ t, (∀ c, (κ.clients c).liveId ≠ some (convertThreadIndexToThreadId t)) →
      κ.shared.state.threadIndexSlots t = false) ∧
    ∀ x ∈ trace, ∀ t, WrittenByHolder P x t := by
  have ok := poolOk_of_run run
  refine ⟨?_, ?_, ?_, ?_⟩
  · intro c d threadId liveC liveD
    obtain ⟨t, rfl, ownsC⟩ := ok.index_of_live liveC
    exact ok.exclusive c d t ownsC (Client.liveId_eq.mp liveD)
  · intro c threadId live
    obtain ⟨t, rfl, owns⟩ := ok.index_of_live live
    obtain ⟨within, taken⟩ := ok.owned c t owns
    exact ⟨Nat.succ_pos t, within, taken⟩
  · intro t none
    by_contra taken
    obtain ⟨c, owns⟩ := ok.owner t (by simpa using taken)
    exact none c (Client.liveId_eq.mpr owns)
  · intro x member t
    obtain ⟨front, earlier, taken, -⟩ := run.of_mem member
    have before := poolOk_of_run earlier
    exact writtenByHolder_of_moves before (clientMoves_of_step before taken) t

/-- The third client has the id of the first one, and the rows were written by
whoever had their ids. -/
theorem thread_ids_exclusive_handedOn : ∃ (trace : ClientTrace twoThreads)
    (κ : Clients twoThreads.numWords), ClientRun twoThreads contended (fun _ => 0) trace κ ∧
      (κ.clients 1).liveId = some 2 ∧ (κ.clients 2).liveId = some 1 ∧
      (∀ c d threadId, (κ.clients c).liveId = some threadId →
        (κ.clients d).liveId = some threadId → c = d) ∧
      ∀ x ∈ trace, ∀ t, WrittenByHolder twoThreads x t := by
  obtain ⟨trace, κ, run, first, second⟩ := exists_run_of_replay (clientStep twoThreads contended)
    (Clients.initial twoThreads fun _ => 0) handedOnTurns
    (fun _ κ => (κ.clients 1).liveId = some 2 ∧ (κ.clients 2).liveId = some 1) (by decide +kernel)
  have exclusive := thread_ids_exclusive run
  exact ⟨trace, κ, run, first, second, exclusive.1, exclusive.2.2.2⟩

end KCas
