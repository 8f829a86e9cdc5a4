import KCas.Library.Refinement
import KCas.Moments
import KCas.Slots

/-! Clients that construct wrappers, call through them and drop them are one more way
to run the system of thread ids: every run of clients is a run of that system, in which
the call made with a thread id is the one its holder makes, whoever that is. What holds
of every run of the system then holds whatever wrappers come and go. -/
namespace KCas

open Labelled Linearizability

variable {P : Params} {load : Workload P.numWords} {cells : ℕ → ℕ} {κ κ' : Clients P.numWords}
  {s : Shared} {c t : ℕ} {stack stack' : List (Frame P.numWords)} {actor : ClientActor}
  {event : ClientEvent} {trace : ClientTrace P}

/-! ### Calls do not look at slots -/

namespace Shared

/-- The shared memory as the calls see it. -/
def withoutPool (s : Shared) : Shared :=
  { s with state := { s.state with numThreadsInUse := 0, threadIndexSlots := fun _ => false } }

theorem exchangeCell_withoutPool (address expected new : ℕ) :
    s.withoutPool.exchangeCell address expected new =
      ((s.exchangeCell address expected new).1,
        (s.exchangeCell address expected new).2.withoutPool) := by
  unfold exchangeCell
  split <;> simp_all [withoutPool, setCell]

theorem exchangeCellWeak_withoutPool (spurious : Bool) (address expected new : ℕ) :
    s.withoutPool.exchangeCellWeak spurious address expected new =
      ((s.exchangeCellWeak spurious address expected new).1,
        (s.exchangeCellWeak spurious address expected new).2.withoutPool) := by
  unfold exchangeCellWeak
  split
  · rfl
  · exact exchangeCell_withoutPool address expected new

theorem exchangeStage_withoutPool (current desired : ℕ) :
    s.withoutPool.exchangeStage t current desired =
      ((s.exchangeStage t current desired).1,
        (s.exchangeStage t current desired).2.withoutPool) := by
  unfold exchangeStage
  split <;> simp_all [withoutPool, storeStage]

end Shared

def Outcome.withoutPool {numWords : ℕ} (outcome : Outcome numWords) : Outcome numWords :=
  { outcome with shared := outcome.shared.withoutPool }

theorem initializeOperation_withoutPool {threadId : ℕ} {words : KCasWords P.numWords}
    {pc : InitPc} : initializeOperation P s.withoutPool threadId t words pc =
      (initializeOperation P s threadId t words pc).withoutPool := by
  cases pc with
  | storeStage => rfl
  | _ =>
    simp only [initializeOperation]
    split <;> rfl

theorem helpThread_withoutPool {encountered : ℕ} : helpThread P s.withoutPool encountered =
    (helpThread P s encountered).withoutPool := by
  simp only [helpThread]
  split
  · rfl
  · split <;> rfl

theorem operate_withoutPool {spurious : Bool} {role : Role} {op : Operation} {pc : Pc} :
    operate P s.withoutPool spurious role op pc =
      (operate P s spurious role op pc).map Outcome.withoutPool := by
  cases pc with
  | claimExchange w target expected =>
    simp only [operate, Shared.exchangeCellWeak_withoutPool]
    rfl
  | setExchange w target desired =>
    simp only [operate, Shared.exchangeCell_withoutPool]
    rfl
  | revertExchange w target expected next =>
    simp only [operate, Shared.exchangeCell_withoutPool]
    rfl
  | changeStage current desired next =>
    simp only [operate, Shared.exchangeStage_withoutPool]
    split <;> rfl
  | claimVerify w target expected actual =>
    simp only [operate, Shared.withoutPool]
    split
    · split <;> rfl
    · rfl
  | setVerify w =>
    simp only [operate, Shared.withoutPool]
    split
    · split <;> rfl
    · rfl
  | prepare result =>
    simp only [operate]
    split
    · rfl
    · split <;> rfl
  | claimLoadTarget | claimLoadExpected | setLoadTarget | setLoadDesired | revertLoadTarget
  | revertLoadExpected =>
    simp only [operate]
    split <;> rfl
  | _ => rfl

/-- A step of a call is the same whatever the slots and the counter are. -/
theorem stackStep_withoutPool {spurious : Bool} : stackStep P s.withoutPool spurious stack =
    (stackStep P s spurious stack).map Outcome.withoutPool := by
  unfold stackStep
  split
  · rfl
  · rfl
  · rfl
  · rename_i frame rest _ _
    cases frame with
    | initializing threadId threadIndex words pc =>
      simp only [frameStep, initializeOperation_withoutPool]
      rfl
    | helpThread marker =>
      simp only [frameStep, helpThread_withoutPool]
      rfl
    | operating role op pc =>
      simp only [frameStep, operate_withoutPool]
      cases operate P s spurious role op pc <;> rfl

/-! ### The system of thread ids -/

theorem exists_callStack (κ : Clients P.numWords) (t : ℕ) : ∃ stack, CallStack κ t stack := by
  by_cases held : ∃ stack c, κ.clients c = .holding (convertThreadIndexToThreadId t) stack
  · obtain ⟨stack, c, holds⟩ := held
    exact ⟨stack, .inl ⟨c, holds⟩⟩
  · exact ⟨[], .inr ⟨rfl, fun c stack holds => held ⟨stack, c, holds⟩⟩⟩

/-- The stack of the call that is made with the thread index. -/
noncomputable def Clients.stackOf (κ : Clients P.numWords) (t : ℕ) : List (Frame P.numWords) :=
  (exists_callStack κ t).choose

/-- The configuration of the thread ids that the clients are in. -/
noncomputable def Clients.config (κ : Clients P.numWords) : Config P.numWords where
  shared := κ.shared.withoutPool
  threads := fun t => ⟨κ.completed t, κ.stackOf t⟩

theorem callStack_stackOf : CallStack κ t (κ.stackOf t) := (exists_callStack κ t).choose_spec

theorem PoolOk.stackOf_eq (ok : PoolOk P κ) (call : CallStack κ t stack) : κ.stackOf t = stack := by
  have owner {d e : ℕ} {first second : List (Frame P.numWords)}
      (holds : κ.clients d = .holding (convertThreadIndexToThreadId t) first)
      (holds' : κ.clients e = .holding (convertThreadIndexToThreadId t) second) :
      first = second := by
    obtain rfl := ok.exclusive d e t (Client.owns_of_holding holds) (Client.owns_of_holding holds')
    exact ((Client.holding.injEq ..).mp (holds.symm.trans holds')).2
  rcases callStack_stackOf (κ := κ) (t := t) with ⟨d, holds⟩ | ⟨same, none⟩
  · rcases call with ⟨e, holds'⟩ | ⟨rfl, none'⟩
    · exact owner holds holds'
    · exact absurd holds (none' d _)
  · rcases call with ⟨e, holds'⟩ | ⟨rfl, -⟩
    · exact absurd holds' (none e _)
    · exact same

theorem PoolOk.stackOf_holding (ok : PoolOk P κ)
    (holds : κ.clients c = .holding (convertThreadIndexToThreadId t) stack) :
    κ.stackOf t = stack :=
  ok.stackOf_eq (.inl ⟨c, holds⟩)

/-- A client that does not hold the thread id before or after leaves its call alone. -/
theorem PoolOk.stackOf_other (ok : PoolOk P κ) {shared : Shared} {completed : ℕ → ℕ}
    {client : Client P.numWords}
    (before : ∀ stack, κ.clients c ≠ .holding (convertThreadIndexToThreadId t) stack)
    (after : ∀ stack, client ≠ .holding (convertThreadIndexToThreadId t) stack) :
    (κ.moveTo c shared completed client).stackOf t = κ.stackOf t :=
  (ok.stackOf_eq (callStack_of_other before after callStack_stackOf)).symm

/-- A client that owns the thread index without a call leaves none. -/
theorem PoolOk.stackOf_owner (ok : PoolOk P κ) {shared : Shared} {completed : ℕ → ℕ}
    {client : Client P.numWords} (owns : (κ.clients c).Owns t)
    (before : ∀ stack, κ.clients c = .holding (convertThreadIndexToThreadId t) stack → stack = [])
    (after : ∀ stack, client = .holding (convertThreadIndexToThreadId t) stack → stack = []) :
    (κ.moveTo c shared completed client).stackOf t = κ.stackOf t := by
  have none {d : ℕ} {stack : List (Frame P.numWords)}
      (holds : κ.clients d = .holding (convertThreadIndexToThreadId t) stack) : stack = [] := by
    obtain rfl := ok.exclusive d c t (Client.owns_of_holding holds) owns
    exact before stack holds
  have empty : κ.stackOf t = [] := by
    rcases callStack_stackOf (κ := κ) (t := t) with ⟨d, holds⟩ | ⟨same, -⟩
    · exact none holds
    · exact same
  rw [empty]
  rcases callStack_stackOf (κ := κ.moveTo c shared completed client) (t := t) with
    ⟨d, holds⟩ | ⟨same, -⟩
  · by_cases own : d = c
    · subst own
      rw [Clients.moveTo_self] at holds
      exact after _ holds
    · rw [Clients.moveTo_other own] at holds
      exact none holds
  · exact same

/-- The step of the system of thread ids that a step of a client is. -/
def callOf (actor : ClientActor) : ClientEvent → Option (Actor × Event)
  | .calls threadId event => some (⟨threadId - 1, actor.spurious⟩, event)
  | _ => none

/-- A client outside a call changes nothing there. -/
theorem config_of_hidden (ok : PoolOk P κ) (moves : ClientMoves P load κ c event κ')
    (hidden : callOf actor event = none) : κ'.config = κ.config := by
  have same {shared : Shared} {client : Client P.numWords}
      (words : shared.withoutPool = κ.shared.withoutPool)
      (calls : ∀ t, (κ.moveTo c shared κ.completed client).stackOf t = κ.stackOf t) :
      (κ.moveTo c shared κ.completed client).config = κ.config := by
    simp only [Clients.config, calls, Config.mk.injEq]
    exact ⟨words, rfl⟩
  cases moves with
  | enters => cases hidden
  | calls => cases hidden
  | @counts i before =>
    refine same rfl fun t => ?_
    by_cases own : t = i
    · subst own
      exact ok.stackOf_owner (before ▸ rfl) (by simp [before]) (by simp [eq_comm])
    · refine ok.stackOf_other (by simp [before]) ?_
      rintro stack holds
      exact own (Client.index_of_holding holds).symm
  | @drops i before =>
    refine same rfl fun t => ?_
    by_cases own : t = i
    · subst own
      exact ok.stackOf_owner (before ▸ rfl) (by simp [before, eq_comm]) (by simp)
    · refine ok.stackOf_other ?_ (by simp)
      rintro stack holds
      exact own (Client.index_of_holding (before.symm.trans holds)).symm
  | begins before | nothingToScan before | takes before | passes before | fails before
  | uncounts before =>
    exact same rfl fun t => ok.stackOf_other (by simp [before]) (by simp)

/-- The configuration after the holder of a thread id took a step of its call. -/
theorem config_of_called (ok : PoolOk P κ) {shared : Shared} {completed : ℕ → ℕ}
    (ok' : PoolOk P (κ.moveTo c shared completed
      (.holding (convertThreadIndexToThreadId t) stack')))
    (before : κ.clients c = .holding (convertThreadIndexToThreadId t) stack)
    (others : ∀ u, u ≠ t → completed u = κ.completed u) :
    (κ.moveTo c shared completed (.holding (convertThreadIndexToThreadId t) stack')).config =
      ⟨shared.withoutPool, Function.update κ.config.threads t ⟨completed t, stack'⟩⟩ := by
  refine (Config.mk.injEq ..).mpr ⟨rfl, funext fun u => ?_⟩
  by_cases own : u = t
  · subst own
    rw [Function.update_self, ok'.stackOf_holding Clients.moveTo_self]
    rfl
  · have apart (stack : List (Frame P.numWords)) {client : Client P.numWords}
        (same : client = .holding (convertThreadIndexToThreadId t) stack) :
        ∀ stack, client ≠ .holding (convertThreadIndexToThreadId u) stack := by
      rintro stack' rfl
      exact own (Client.index_of_holding same)
    rw [Function.update_of_ne own, ok.stackOf_other (apart _ before) (apart _ rfl)]
    exact (Thread.mk.injEq ..).mpr ⟨others u own, rfl⟩

theorem step_of_visible (ok : PoolOk P κ)
    (stepped : clientStep P load κ actor = some (event, κ')) {a : Actor} {e : Event}
    (visible : callOf actor event = some (a, e)) :
    step P load κ.config a = some (e, κ'.config) := by
  have moves := clientMoves_of_step ok stepped
  have ok' := poolOk_step ok moves
  obtain ⟨t, stack, before, rfl⟩ : ∃ t stack,
      κ.clients actor.client = .holding (convertThreadIndexToThreadId t) stack ∧
        event = .calls (convertThreadIndexToThreadId t) e := by
    cases moves with
    | enters before =>
      obtain ⟨-, rfl⟩ := (Prod.mk.injEq ..).mp (Option.some.inj visible)
      exact ⟨_, _, before, rfl⟩
    | calls before =>
      obtain ⟨-, rfl⟩ := (Prod.mk.injEq ..).mp (Option.some.inj visible)
      exact ⟨_, _, before, rfl⟩
    | _ => cases visible
  obtain ⟨rfl, -⟩ := (Prod.mk.injEq ..).mp (Option.some.inj visible)
  have within := (ok.owned _ t (Client.owns_of_holding before)).1
  have thread : κ.config.threads t = ⟨κ.completed t, stack⟩ := by
    rw [← ok.stackOf_holding before]
    rfl
  simp only [clientStep, before] at stepped
  split at stepped
  · cases stepped
  · obtain ⟨⟨e', shared, completed, stack'⟩, called, result⟩ := Option.map_eq_some_iff.mp stepped
    simp only [Prod.mk.injEq, ClientEvent.calls.injEq, true_and] at result
    obtain ⟨rfl, rfl⟩ := result
    have index : convertThreadIndexToThreadId t - 1 = t := rfl
    simp only [step, index, within, if_true, thread]
    unfold callStep at called
    cases stack with
    | nil =>
      simp only [index] at called
      split at called
      · rename_i more
        simp only [Option.some.injEq, Prod.mk.injEq] at called
        obtain ⟨rfl, rfl, rfl, rfl⟩ := called
        have after := config_of_called ok ok' before fun _ _ => rfl
        rw [if_pos more, after]
        rfl
      · cases called
    | cons frame rest =>
      obtain ⟨outcome, ran, result⟩ := Option.map_eq_some_iff.mp called
      simp only [index, Prod.mk.injEq] at result
      obtain ⟨rfl, rfl, rfl, rfl⟩ := result
      have same : stackStep P κ.config.shared actor.spurious (frame :: rest) =
          some outcome.withoutPool := by
        rw [Clients.config, stackStep_withoutPool, ran]
        rfl
      have after := config_of_called ok ok' before (by
        intro u other
        split
        · exact Function.update_of_ne other ..
        · rfl)
      simp only [same, after, Outcome.withoutPool]
      split <;> simp

/-- Clients run the system of thread ids. -/
noncomputable def clientRefinement (P : Params) (load : Workload P.numWords) :
    Refinement (clientStep P load) (step P load) where
  holds := PoolOk P
  state := Clients.config
  label := callOf
  kept := fun _ _ _ _ ok stepped => poolOk_step ok (clientMoves_of_step ok stepped)
  hidden := fun _ _ _ _ ok stepped => config_of_hidden ok (clientMoves_of_step ok stepped)
  visible := fun _ _ _ _ _ _ ok stepped => step_of_visible ok stepped

theorem config_initial : (Clients.initial P cells).config = Config.initial P.numWords cells := by
  have idle (t : ℕ) : (Clients.initial P cells).stackOf t = [] :=
    poolOk_initial.stackOf_eq (.inr ⟨rfl, by simp [Clients.initial]⟩)
  simp only [Clients.config, idle]
  rfl

/-- Every run of clients is a run of the system of thread ids: the calls take the same
steps in the same order, and come to the same cells, rows and call stacks. -/
theorem client_run_refines (run : ClientRun P load cells trace κ) :
    Execution P load cells (trace.filterMap (clientRefinement P load).seen) κ.config :=
  (clientRefinement P load).run poolOk_initial config_initial run

/-- A client's run that hands a thread id on is a run of that id's calls. -/
theorem client_run_refines_handedOn : ∃ (trace : ClientTrace twoThreads)
    (κ : Clients twoThreads.numWords), ClientRun twoThreads contended (fun _ => 0) trace κ ∧
      trace.length = 70 ∧ Execution twoThreads contended (fun _ => 0)
        (trace.filterMap (clientRefinement twoThreads contended).seen) κ.config := by
  obtain ⟨trace, κ, run, length⟩ := exists_run_of_replay (clientStep twoThreads contended)
    (Clients.initial twoThreads fun _ => 0) handedOnTurns
    (fun trace _ => trace.length = 70) (by decide +kernel)
  exact ⟨trace, κ, run, length, client_run_refines run⟩

/-! ### Linearizability for clients -/

/-- The step of a call on the shared memory that the clients see. -/
def callSeen (P : Params) (x : ClientTransition P) :
    Option (Transition (Config P.numWords) Actor Event) :=
  (callOf x.actor x.event).map fun (actor, event) =>
    ⟨⟨x.before.shared, fun _ => ⟨0, []⟩⟩, actor, event, ⟨x.after.shared, fun _ => ⟨0, []⟩⟩⟩

/-- A step of a client at which nobody is late. -/
def OrderlyCall (P : Params) (x : ClientTransition P) : Prop := ∀ y ∈ callSeen P x, Orderly P y

instance {x : ClientTransition P} : Decidable (OrderlyCall P x) :=
  inferInstanceAs (Decidable (∀ y ∈ callSeen P x, Orderly P y))

theorem orderly_seen (orderly : ∀ x ∈ trace, OrderlyCall P x) :
    ∀ y ∈ trace.filterMap (clientRefinement P load).seen, Orderly P y := by
  intro y member
  obtain ⟨x, inTrace, seen⟩ := List.mem_filterMap.mp member
  obtain ⟨⟨actor, event⟩, label, rfl⟩ := Option.map_eq_some_iff.mp seen
  have label : callOf x.actor x.event = some (actor, event) := label
  -- being late is a matter of the event and of shared memory, where both look the same
  exact orderly x inTrace ⟨⟨x.before.shared, fun _ => ⟨0, []⟩⟩, actor, event,
    ⟨x.after.shared, fun _ => ⟨0, []⟩⟩⟩ (by simp [callSeen, label])

/-- Whatever wrappers come and go, the calls of clients have one total order that extends
their real-time order and gives their results and the content of the cells, at the end
and, by a first part of it, at every moment. -/
theorem clients_linearizable (rules : UsageRules P load cells)
    (run : ClientRun P load cells trace κ) (orderly : ∀ x ∈ trace, OrderlyCall P x) :
    ∃ order, Completion (fun call => atomicKcas (load.call call.1 call.2)) cells
        (AgreesWith P κ.config)
        ((trace.filterMap (clientRefinement P load).seen).filterMap (actionOf P)) order ∧
      ∀ front back middle, trace = front ++ back → ClientRun P load cells front middle →
        ∃ done, done <+: order ∧ Moment P load cells
          (front.filterMap (clientRefinement P load).seen) middle.config done := by
  have system := (clientRefinement P load).run poolOk_initial config_initial run
  have inTime : ∀ y ∈ trace.filterMap (clientRefinement P load).seen, Orderly P y :=
    orderly_seen orderly
  refine ⟨_, completion_of_orderly rules system inTime, ?_⟩
  rintro front back middle rfl reached
  refine ⟨_, moment_of_orderly rules system inTime List.filterMap_append ?_⟩
  exact (clientRefinement P load).run poolOk_initial config_initial reached

/-- The contended calls are made with wrappers, one of which is handed on. -/
theorem clients_linearizable_handedOn : ∃ (trace : ClientTrace twoThreads)
    (κ : Clients twoThreads.numWords), ClientRun twoThreads contended (fun _ => 0) trace κ ∧
      trace.length = 70 ∧ ∃ order,
        Completion (fun call => atomicKcas (contended.call call.1 call.2)) (fun _ => 0)
          (AgreesWith twoThreads κ.config)
          ((trace.filterMap (clientRefinement twoThreads contended).seen).filterMap
            (actionOf twoThreads)) order := by
  obtain ⟨trace, κ, run, length, orderly⟩ := exists_run_of_replay (clientStep twoThreads contended)
    (Clients.initial twoThreads fun _ => 0) handedOnTurns
    (fun trace _ => trace.length = 70 ∧ ∀ x ∈ trace, OrderlyCall twoThreads x) (by decide +kernel)
  obtain ⟨order, explained, -⟩ := clients_linearizable contended_rules run orderly
  exact ⟨trace, κ, run, length, order, explained⟩

end KCas
