import KCas.History

/-! The wrappers of `wrapper.rs`: they hand out the thread ids of a `State` and
take them back. Any number of clients construct wrappers, call `kcas` on them
and drop them; two clients never have the same thread id at once, so that all
that holds for thread ids holds for their calls. The three kinds of wrappers
differ only in how they hold the `State`. -/
namespace KCas

open Labelled

/-- Where a client is. It makes its calls through the wrapper it holds. -/
inductive Client (numWords : ℕ) where
  | outside
  /-- In `find_next_available_thread_index`, before the exchange on slot `i`. -/
  | constructing (i : ℕ)
  /-- Before it counts itself. -/
  | counting (threadIndex : ℕ)
  /-- It has a wrapper with this thread id; the stack of the call it makes. -/
  | holding (threadId : ℕ) (stack : List (Frame numWords))
  /-- In `drop`, after the slot was given back. -/
  | uncounting
  | panicked

/-- All clients of one `State`. `completed` counts the calls that were made with
a thread index, through whatever wrapper. -/
structure Clients (numWords : ℕ) where
  shared : Shared
  completed : ℕ → ℕ
  clients : ℕ → Client numWords

/-- The client goes on, and leaves this behind. -/
def Clients.moveTo {numWords : ℕ} (κ : Clients numWords) (c : ℕ) (shared : Shared)
    (completed : ℕ → ℕ) (client : Client numWords) : Clients numWords :=
  ⟨shared, completed, Function.update κ.clients c client⟩

/-- Who moves: what it does when it is free to choose, and whether a weak
exchange fails without a reason. -/
structure ClientActor where
  client : ℕ
  drops : Bool
  spurious : Bool

inductive ClientEvent where
  | silent
  | constructed (threadId : ℕ)
  | noThreadIdAvailable
  | dropped
  | calls (threadId : ℕ) (event : Event)

namespace Shared

variable (s : Shared)

def storeSlot (threadIndex : ℕ) (taken : Bool) : Shared :=
  { s with
    state :=
      { s.state with
        threadIndexSlots := Function.update s.state.threadIndexSlots threadIndex taken } }

def storeThreadsInUse (count : ℕ) : Shared :=
  { s with state := { s.state with numThreadsInUse := count } }

end Shared

section Steps

variable (P : Params) (load : Workload P.numWords)

/-- The head of the loop of `find_next_available_thread_index`. -/
def findFrom (i : ℕ) : ClientEvent × Client P.numWords :=
  if i < P.numThreads then (.silent, .constructing i) else (.noThreadIdAvailable, .outside)

/-- One access of `find_next_available_thread_index`: the exchange on a slot. -/
def exchangeSlot (s : Shared) (i : ℕ) : ClientEvent × Shared × Client P.numWords :=
  if i < P.numThreads then
    if s.state.threadIndexSlots i = false then (.silent, s.storeSlot i true, .counting i)
    else ((findFrom P (i + 1)).1, s, (findFrom P (i + 1)).2)
  else (.silent, s, .panicked)

/-- The first access of `drop`: it gives the slot back. -/
def dropWrapper (s : Shared) (threadId : ℕ) : Shared × Client P.numWords :=
  match convertThreadIdToThreadIndex threadId with
  | none => (s, .panicked)
  | some threadIndex =>
    if threadIndex < P.numThreads then (s.storeSlot threadIndex false, .uncounting)
    else (s, .panicked)

/-- One access of a client that moves its call on. -/
def callStep (κ : Clients P.numWords) (spurious : Bool) (threadId : ℕ)
    (stack : List (Frame P.numWords)) :
    Option (Event × Shared × (ℕ → ℕ) × List (Frame P.numWords)) :=
  let t := threadId - 1
  match stack with
  | [] =>
    if κ.completed t < load.count t then
      some (.invoked, κ.shared, κ.completed, [kcas P threadId (load.call t (κ.completed t))])
    else none
  | frame :: rest =>
    (stackStep P κ.shared spurious (frame :: rest)).map fun outcome =>
      (outcome.event, outcome.shared,
        if outcome.frames.isEmpty then Function.update κ.completed t (κ.completed t + 1)
        else κ.completed, outcome.frames)

/-- One step of one client. -/
def clientStep : System (Clients P.numWords) ClientActor ClientEvent := fun κ actor =>
  let c := actor.client
  match κ.clients c with
  | .outside =>
    some ((findFrom P 0).1, κ.moveTo c κ.shared κ.completed (findFrom P 0).2)
  | .constructing i =>
    let (event, shared, client) := exchangeSlot P κ.shared i
    some (event, κ.moveTo c shared κ.completed client)
  | .counting i =>
    let threadId := convertThreadIndexToThreadId i
    let count := (κ.shared.state.numThreadsInUse + 1) % 2 ^ P.usizeBits
    some (.constructed threadId,
      κ.moveTo c (κ.shared.storeThreadsInUse count) κ.completed (.holding threadId []))
  | .holding threadId stack =>
    if actor.drops ∧ stack.isEmpty then
      let (shared, client) := dropWrapper P κ.shared threadId
      some (.dropped, κ.moveTo c shared κ.completed client)
    else
      (callStep P load κ actor.spurious threadId stack).map
        fun (event, shared, completed, stack) =>
          (.calls threadId event, κ.moveTo c shared completed (.holding threadId stack))
  | .uncounting =>
    -- `fetch_min(1)`
    let count := min κ.shared.state.numThreadsInUse 1
    some (.silent, κ.moveTo c (κ.shared.storeThreadsInUse count) κ.completed .outside)
  | .panicked => none

/-- `State::new()` and cells with the given content; nobody has a wrapper yet. -/
def Clients.initial (cells : ℕ → ℕ) : Clients P.numWords where
  shared := ⟨cells, State.new⟩
  completed := fun _ => 0
  clients := fun _ => .outside

/-- The runs of clients whose calls with each thread id are those of a workload. -/
abbrev ClientRun (cells : ℕ → ℕ) := Run (clientStep P load) (Clients.initial P cells)

end Steps

variable {P : Params} {load : Workload P.numWords} {cells : ℕ → ℕ} {κ κ' : Clients P.numWords}
  {c d t n threadId : ℕ} {stack : List (Frame P.numWords)} {frame : Frame P.numWords}
  {s s' : Shared} {actor : ClientActor} {event : ClientEvent}

/-! ### The invariant -/

/-- The client has the slot of the thread index. -/
def Client.Owns {numWords : ℕ} (t : ℕ) : Client numWords → Prop
  | .counting i => i = t
  | .holding threadId _ => threadId = convertThreadIndexToThreadId t
  | _ => False

/-- The stack of the call that is made with the thread index. -/
def CallStack (κ : Clients P.numWords) (t : ℕ) (stack : List (Frame P.numWords)) : Prop :=
  (∃ c, κ.clients c = .holding (convertThreadIndexToThreadId t) stack) ∨
    (stack = [] ∧ ∀ c stack', κ.clients c ≠ .holding (convertThreadIndexToThreadId t) stack')

/-- The position of a client. -/
def ClientOk (P : Params) : Client P.numWords → Prop
  | .constructing i => i < P.numThreads
  | .holding threadId _ => threadId ≠ 0
  | .panicked => False
  | _ => True

structure ClientsOk (P : Params) (load : Workload P.numWords) (κ : Clients P.numWords) : Prop where
  shared : SharedOk P load κ.shared
  calls : ∀ t < P.numThreads, ∀ stack, CallStack κ t stack →
    StackOk P load κ.shared t (κ.completed t) stack
  owned : ∀ c t, (κ.clients c).Owns t →
    t < P.numThreads ∧ κ.shared.state.threadIndexSlots t = true
  exclusive : ∀ c d t, (κ.clients c).Owns t → (κ.clients d).Owns t → c = d
  client : ∀ c, ClientOk P (κ.clients c)

/-! ### Slots -/

/-- The slots and the counter play no part in a call. -/
structure SameWords (s s' : Shared) : Prop where
  cells : s'.cells = s.cells
  targets : s'.state.targetAddresses = s.state.targetAddresses
  expecteds : s'.state.expectedValues = s.state.expectedValues
  desireds : s'.state.desiredValues = s.state.desiredValues
  stages : s'.state.stageAndSequenceNumbers = s.state.stageAndSequenceNumbers

theorem sameWords_storeSlot {taken : Bool} : SameWords s (s.storeSlot t taken) :=
  ⟨rfl, rfl, rfl, rfl, rfl⟩

theorem sameWords_storeThreadsInUse {count : ℕ} : SameWords s (s.storeThreadsInUse count) :=
  ⟨rfl, rfl, rfl, rfl, rfl⟩

theorem SameWords.evolves (same : SameWords s s') (owner : ℕ) : Evolves P load owner s s' := by
  obtain ⟨cells, targets, expecteds, desireds, stages⟩ := same
  have sequence (t : ℕ) : s'.sequenceOf P t = s.sequenceOf P t :=
    Shared.sequenceOf_congr (congrFun stages t)
  have stage (t : ℕ) : s'.stageOf P t = s.stageOf P t := Shared.stageOf_congr (congrFun stages t)
  refine ⟨fun t _ => Nat.le_of_eq (sequence t).symm, fun t _ _ => sequence t,
    fun t _ _ => .inl (stage t), ?_, .inr fun t _ _ => stage t, ?_⟩
  · intro t _ _
    rw [targets, expecteds, desireds]
    exact ⟨rfl, rfl, rfl⟩
  · intro t _ n _ _ _ _ _ address held
    rw [cells]
    exact held

theorem SameWords.sharedOk (same : SameWords s s') (shared : SharedOk P load s) :
    SharedOk P load s' := by
  obtain ⟨cells, state⟩ := s
  obtain ⟨cells', state'⟩ := s'
  obtain ⟨rfl, targets, expecteds, desireds, stages⟩ := same
  obtain ⟨count, slots, _, _, _, _⟩ := state
  obtain ⟨count', slots', _, _, _, _⟩ := state'
  obtain rfl := targets
  obtain rfl := expecteds
  obtain rfl := desireds
  obtain rfl := stages
  exact ⟨shared.word, shared.bound, shared.row, shared.filled, shared.values, shared.cell,
    shared.claimed⟩

theorem SameWords.stackOk (same : SameWords s s') (within : t < P.numThreads)
    (held : StackOk P load s t n stack) : StackOk P load s' t n stack :=
  (same.evolves (t + 1)).stackOk within (Nat.ne_of_lt (Nat.lt_succ_self t)) held

/-! ### One client moves -/

theorem Client.owns_of_holding {numWords : ℕ} {client : Client numWords}
    {stack : List (Frame numWords)}
    (holds : client = .holding (convertThreadIndexToThreadId t) stack) : client.Owns t := by
  rw [holds]
  exact rfl

/-- A wrapper has one thread index. -/
theorem Client.index_of_holding {numWords u : ℕ} {stack stack' : List (Frame numWords)}
    (same : Client.holding (convertThreadIndexToThreadId t) stack =
      .holding (convertThreadIndexToThreadId u) stack') : t = u :=
  Nat.succ_injective ((Client.holding.injEq ..).mp same).1

/-- Clients that do not make the call do not change its stack. -/
theorem callStack_of_other {shared : Shared} {completed : ℕ → ℕ} {client : Client P.numWords}
    (before : ∀ stack, κ.clients c ≠ .holding (convertThreadIndexToThreadId t) stack)
    (after : ∀ stack, client ≠ .holding (convertThreadIndexToThreadId t) stack)
    (call : CallStack (κ.moveTo c shared completed client) t stack) : CallStack κ t stack := by
  rcases call with ⟨d, holds⟩ | ⟨rfl, none⟩
  · by_cases same : d = c
    · subst same
      simp only [Clients.moveTo, Function.update_self] at holds
      exact absurd holds (after stack)
    · simp only [Clients.moveTo, Function.update_of_ne same] at holds
      exact .inl ⟨d, holds⟩
  · refine .inr ⟨rfl, fun d stack' holds => ?_⟩
    by_cases same : d = c
    · subst same
      exact before stack' holds
    · refine none d stack' ?_
      simpa only [Clients.moveTo, Function.update_of_ne same] using holds

/-- The client that owns the thread index makes its call. -/
theorem ClientsOk.callStack_of_owner (ok : ClientsOk P load κ) {shared : Shared} {completed : ℕ → ℕ}
    {client : Client P.numWords} (owns : (κ.clients c).Owns t)
    (call : CallStack (κ.moveTo c shared completed client) t stack) :
    client = .holding (convertThreadIndexToThreadId t) stack ∨
      (stack = [] ∧ ∀ stack', client ≠ .holding (convertThreadIndexToThreadId t) stack') := by
  rcases call with ⟨d, holds⟩ | ⟨rfl, none⟩
  · by_cases same : d = c
    · subst same
      simp only [Clients.moveTo, Function.update_self] at holds
      exact .inl holds
    · simp only [Clients.moveTo, Function.update_of_ne same] at holds
      exact absurd (ok.exclusive d c t (Client.owns_of_holding holds) owns) same
  · right
    refine ⟨rfl, fun stack' holds => none c stack' ?_⟩
    simp only [Clients.moveTo, Function.update_self, holds]

section OneMoves

variable {shared : Shared} {completed : ℕ → ℕ} {client : Client P.numWords}

theorem Clients.moveTo_self : (κ.moveTo c shared completed client).clients c = client := by
  simp [Clients.moveTo]

theorem Clients.moveTo_other (other : d ≠ c) :
    (κ.moveTo c shared completed client).clients d = κ.clients d := by
  simp [Clients.moveTo, other]

/-- What holds of each client still does if it holds of the one that moves. -/
theorem Clients.each_moveTo (holds : Client P.numWords → Prop) (own : holds client)
    (each : ∀ d, d ≠ c → holds (κ.clients d)) (d : ℕ) :
    holds ((κ.moveTo c shared completed client).clients d) := by
  by_cases same : d = c
  · subst same
    rwa [moveTo_self]
  · rw [moveTo_other same]
    exact each d same

/-- A slot stays exclusive if nobody else has one that the moving client gets. -/
theorem Clients.exclusive_moveTo
    (exclusive : ∀ c d t, (κ.clients c).Owns t → (κ.clients d).Owns t → c = d)
    (alone : ∀ t, client.Owns t → ∀ d, (κ.clients d).Owns t → d = c) (d e t : ℕ)
    (ownsD : ((κ.moveTo c shared completed client).clients d).Owns t)
    (ownsE : ((κ.moveTo c shared completed client).clients e).Owns t) : d = e := by
  by_cases sameD : d = c <;> by_cases sameE : e = c
  · exact sameD.trans sameE.symm
  · subst sameD
    rw [moveTo_self] at ownsD
    rw [moveTo_other sameE] at ownsE
    exact absurd (alone t ownsD e ownsE) sameE
  · subst sameE
    rw [moveTo_self] at ownsE
    rw [moveTo_other sameD] at ownsD
    exact absurd (alone t ownsE d ownsD) sameD
  · rw [moveTo_other sameD] at ownsD
    rw [moveTo_other sameE] at ownsE
    exact exclusive d e t ownsD ownsE

end OneMoves

/-- What one client must establish when it moves. -/
theorem ClientsOk.moveTo (ok : ClientsOk P load κ) {shared : Shared} {completed : ℕ → ℕ}
    {client : Client P.numWords} (sharedOk : SharedOk P load shared)
    (calls : ∀ t < P.numThreads, ∀ stack, CallStack (κ.moveTo c shared completed client) t stack →
      StackOk P load shared t (completed t) stack)
    (owned : ∀ t, client.Owns t → t < P.numThreads ∧ shared.state.threadIndexSlots t = true)
    (alone : ∀ t, client.Owns t → ∀ d, (κ.clients d).Owns t → d = c)
    (others : ∀ d t, d ≠ c → (κ.clients d).Owns t → shared.state.threadIndexSlots t = true)
    (position : ClientOk P client) : ClientsOk P load (κ.moveTo c shared completed client) := by
  refine ⟨sharedOk, calls, ?_, Clients.exclusive_moveTo ok.exclusive alone,
    Clients.each_moveTo (ClientOk P) position fun d _ => ok.client d⟩
  refine Clients.each_moveTo (fun client => ∀ t, client.Owns t →
    t < P.numThreads ∧ shared.state.threadIndexSlots t = true) owned ?_
  exact fun d other t owns => ⟨(ok.owned d t owns).1, others d t other owns⟩

/-- A client without a wrapper before and after it moves. -/
theorem ClientsOk.moveOutside (ok : ClientsOk P load κ) {shared : Shared}
    {client : Client P.numWords} (same : SameWords κ.shared shared)
    (before : ∀ threadId stack, κ.clients c ≠ .holding threadId stack)
    (after : ∀ threadId stack, client ≠ .holding threadId stack)
    (owned : ∀ t, client.Owns t → t < P.numThreads ∧ shared.state.threadIndexSlots t = true)
    (alone : ∀ t, client.Owns t → ∀ d, (κ.clients d).Owns t → d = c)
    (others : ∀ d t, d ≠ c → (κ.clients d).Owns t → shared.state.threadIndexSlots t = true)
    (position : ClientOk P client) : ClientsOk P load (κ.moveTo c shared κ.completed client) := by
  refine ok.moveTo (same.sharedOk ok.shared) ?_ owned alone others position
  intro t within stack call
  exact same.stackOk within (ok.calls t within stack (callStack_of_other (before _) (after _) call))

theorem clientsOk_findFrom (ok : ClientsOk P load κ) {i : ℕ} {shared : Shared}
    (same : SameWords κ.shared shared)
    (slots : shared.state.threadIndexSlots = κ.shared.state.threadIndexSlots)
    (before : ∀ threadId stack, κ.clients c ≠ .holding threadId stack) :
    ClientsOk P load (κ.moveTo c shared κ.completed (findFrom P i).2) := by
  have others (d t : ℕ) (_ : d ≠ c) (owns : (κ.clients d).Owns t) :
      shared.state.threadIndexSlots t = true := by
    rw [slots]
    exact (ok.owned d t owns).2
  unfold findFrom
  split
  · rename_i more
    exact ok.moveOutside same before (by simp) (fun t owns => owns.elim) (fun t owns => owns.elim)
      others more
  · exact ok.moveOutside same before (by simp) (fun t owns => owns.elim) (fun t owns => owns.elim)
      others trivial

/-- A client that takes a free slot is its only owner. -/
theorem clientsOk_taken (ok : ClientsOk P load κ) {i : ℕ}
    (before : κ.clients c = .constructing i) (free : κ.shared.state.threadIndexSlots i = false) :
    ClientsOk P load (κ.moveTo c (κ.shared.storeSlot i true) κ.completed (.counting i)) := by
  have inRange : ClientOk P (.constructing i) := before ▸ ok.client c
  refine ok.moveOutside sameWords_storeSlot (by simp [before]) (by simp) ?_ ?_ ?_ trivial
  · rintro t rfl
    exact ⟨inRange, by simp [Shared.storeSlot]⟩
  · rintro t rfl d owns
    exact absurd ((ok.owned d i owns).2.symm.trans free) (by simp)
  · intro d t _ owns
    by_cases same : t = i
    · subst same
      simp [Shared.storeSlot]
    · simpa [Shared.storeSlot, same] using (ok.owned d t owns).2

/-- A client gets its wrapper. -/
theorem clientsOk_constructed (ok : ClientsOk P load κ) {i count : ℕ}
    (before : κ.clients c = .counting i) :
    ClientsOk P load (κ.moveTo c (κ.shared.storeThreadsInUse count) κ.completed
      (.holding (convertThreadIndexToThreadId i) [])) := by
  have owns : (κ.clients c).Owns i := by
    rw [before]
    exact rfl
  have same : SameWords κ.shared (κ.shared.storeThreadsInUse count) := sameWords_storeThreadsInUse
  have index {t : ℕ} (held : (.holding (convertThreadIndexToThreadId i) [] :
      Client P.numWords).Owns t) : t = i := (Nat.succ_injective held).symm
  refine ok.moveTo (same.sharedOk ok.shared) ?_ ?_ ?_ ?_ (Nat.succ_ne_zero i)
  · intro t within stack call
    refine same.stackOk within (ok.calls t within stack ?_)
    by_cases this : t = i
    · subst this
      rcases ok.callStack_of_owner owns call with holds | ⟨-, none⟩
      · obtain ⟨-, rfl⟩ := (Client.holding.injEq ..).mp holds
        refine .inr ⟨rfl, fun d stack' other => ?_⟩
        obtain rfl := ok.exclusive d c t (Client.owns_of_holding other) owns
        cases before.symm.trans other
      · exact absurd rfl (none [])
    · refine callStack_of_other (by simp [before]) ?_ call
      rintro stack' holds
      exact this (Client.index_of_holding holds).symm
  · rintro t held
    obtain rfl := index held
    exact ok.owned c t owns
  · rintro t held d ownsD
    obtain rfl := index held
    exact ok.exclusive d c t ownsD owns
  · intro d t _ ownsD
    exact (ok.owned d t ownsD).2

/-- A client without a call gives its slot back. -/
theorem clientsOk_dropped (ok : ClientsOk P load κ) {threadId : ℕ}
    (before : κ.clients c = .holding threadId []) :
    ClientsOk P load (κ.moveTo c (dropWrapper P κ.shared threadId).1 κ.completed
      (dropWrapper P κ.shared threadId).2) := by
  have nonZero : ClientOk P (.holding threadId []) := before ▸ ok.client c
  obtain ⟨i, rfl⟩ := Nat.exists_eq_succ_of_ne_zero nonZero
  have owns : (κ.clients c).Owns i := Client.owns_of_holding before
  have within := (ok.owned c i owns).1
  have dropped : dropWrapper P κ.shared (i + 1) = (κ.shared.storeSlot i false, .uncounting) := by
    simp [dropWrapper, convertThreadIdToThreadIndex, within]
  rw [dropped]
  have same : SameWords κ.shared (κ.shared.storeSlot i false) := sameWords_storeSlot
  refine ok.moveTo (same.sharedOk ok.shared) ?_ (fun t held => held.elim) (fun t held => held.elim)
    ?_ trivial
  · intro t inRange stack call
    refine same.stackOk inRange (ok.calls t inRange stack ?_)
    by_cases this : t = i
    · subst this
      rcases ok.callStack_of_owner owns call with holds | ⟨rfl, -⟩
      · cases holds
      · exact .inl ⟨c, before⟩
    · refine callStack_of_other ?_ (by simp) call
      intro stack' holds
      exact this (Client.index_of_holding (before.symm.trans holds)).symm
  · intro d t other ownsD
    have this : t ≠ i := by
      rintro rfl
      exact other (ok.exclusive d c t ownsD owns)
    simpa [Shared.storeSlot, this] using (ok.owned d t ownsD).2

/-! ### Calls -/

theorem slots_of_threadMoves {thread thread' : Thread P.numWords} {event : Event}
    (moves : ThreadMoves P load s t thread event s' thread') :
    s'.state.threadIndexSlots = s.state.threadIndexSlots := by
  cases moves with
  | move moves =>
    cases moves with
    | init moves => cases moves <;> rfl
    | help => rfl
    | operate moves => cases moves <;> rfl
  | _ => rfl

/-- A step of a client's call is a step of a thread. -/
theorem threadMoves_of_callStep (rules : UsageRules P load cells)
    (shared : SharedOk P load κ.shared)
    (within : t < P.numThreads) (held : StackOk P load κ.shared t (κ.completed t) stack)
    {spurious : Bool} {event : Event} {completed : ℕ → ℕ} {stack' : List (Frame P.numWords)}
    (called : callStep P load κ spurious (convertThreadIndexToThreadId t) stack =
      some (event, s', completed, stack')) :
    ThreadMoves P load κ.shared t ⟨κ.completed t, stack⟩ event s' ⟨completed t, stack'⟩ ∧
      ∀ u, u ≠ t → completed u = κ.completed u := by
  unfold callStep at called
  cases stack with
  | nil =>
    simp only [convertThreadIndexToThreadId, Nat.add_sub_cancel] at called
    split at called
    · rename_i more
      simp only [Option.some.injEq, Prod.mk.injEq] at called
      obtain ⟨rfl, rfl, rfl, rfl⟩ := called
      exact ⟨.invoke more, fun _ _ => rfl⟩
    · cases called
  | cons frame rest =>
    simp only [convertThreadIndexToThreadId, Nat.add_sub_cancel] at called
    obtain ⟨outcome, ran, result⟩ := Option.map_eq_some_iff.mp called
    simp only [Prod.mk.injEq] at result
    obtain ⟨rfl, rfl, rfl, rfl⟩ := result
    have moves := threadMoves_of_stackStep shared rules within held ran
    split at moves
    · rename_i ended
      simp only [ended, if_true, Function.update_self]
      exact ⟨moves, fun u other => Function.update_of_ne other _ _⟩
    · rename_i goesOn
      simp only [goesOn]
      exact ⟨moves, fun _ _ => rfl⟩

theorem clientsOk_called (ok : ClientsOk P load κ) (rules : UsageRules P load cells)
    (before : κ.clients c = .holding (convertThreadIndexToThreadId t) stack) {spurious : Bool}
    {event : Event} {completed : ℕ → ℕ} {stack' : List (Frame P.numWords)}
    (called : callStep P load κ spurious (convertThreadIndexToThreadId t) stack =
      some (event, s', completed, stack')) :
    ClientsOk P load
      (κ.moveTo c s' completed (.holding (convertThreadIndexToThreadId t) stack')) := by
  have owns : (κ.clients c).Owns t := Client.owns_of_holding before
  have within := (ok.owned c t owns).1
  have held := ok.calls t within stack (.inl ⟨c, before⟩)
  obtain ⟨moves, others⟩ := threadMoves_of_callStep rules ok.shared within held called
  obtain ⟨shared', evo, after⟩ := kept_of_threadMoves ok.shared rules within held moves
  have slots := slots_of_threadMoves moves
  have index {u : ℕ} (held : (.holding (convertThreadIndexToThreadId t) stack' :
      Client P.numWords).Owns u) : u = t := (Nat.succ_injective held).symm
  refine ok.moveTo shared' ?_ ?_ ?_ ?_ (Nat.succ_ne_zero t)
  · intro u inRange other call
    by_cases this : u = t
    · subst this
      rcases ok.callStack_of_owner owns call with holds | ⟨-, none⟩
      · obtain ⟨-, rfl⟩ := (Client.holding.injEq ..).mp holds
        exact after
      · exact absurd rfl (none stack')
    · rw [others u this]
      refine evo.stackOk inRange this (ok.calls u inRange other (callStack_of_other ?_ ?_ call))
      · intro stack holds
        exact this (Client.index_of_holding (before.symm.trans holds)).symm
      · intro stack holds
        exact this (Client.index_of_holding holds).symm
  · rintro u ownsU
    obtain rfl := index ownsU
    rw [slots]
    exact ok.owned c u owns
  · rintro u ownsU d ownsD
    obtain rfl := index ownsU
    exact ok.exclusive d c u ownsD owns
  · intro d u _ ownsD
    rw [slots]
    exact (ok.owned d u ownsD).2

theorem clientsOk_step (ok : ClientsOk P load κ) (rules : UsageRules P load cells)
    (stepped : clientStep P load κ actor = some (event, κ')) : ClientsOk P load κ' := by
  unfold clientStep at stepped
  have same : SameWords κ.shared κ.shared := ⟨rfl, rfl, rfl, rfl, rfl⟩
  cases before : κ.clients actor.client with
  | outside =>
    simp only [before, Option.some.injEq, Prod.mk.injEq] at stepped
    obtain ⟨-, rfl⟩ := stepped
    exact clientsOk_findFrom ok same rfl (by simp [before])
  | constructing i =>
    simp only [before, Option.some.injEq, Prod.mk.injEq] at stepped
    obtain ⟨-, rfl⟩ := stepped
    have inRange := ok.client actor.client
    rw [before] at inRange
    rw [exchangeSlot, if_pos (show i < P.numThreads from inRange)]
    split
    · rename_i free
      exact clientsOk_taken ok before free
    · exact clientsOk_findFrom ok same rfl (by simp [before])
  | counting i =>
    simp only [before, Option.some.injEq, Prod.mk.injEq] at stepped
    obtain ⟨-, rfl⟩ := stepped
    exact clientsOk_constructed ok before
  | uncounting =>
    simp only [before, Option.some.injEq, Prod.mk.injEq] at stepped
    obtain ⟨-, rfl⟩ := stepped
    refine ok.moveOutside sameWords_storeThreadsInUse (by simp [before]) (by simp)
      (fun t owns => owns.elim) (fun t owns => owns.elim) ?_ trivial
    exact fun d t _ owns => (ok.owned d t owns).2
  | panicked =>
    have position := ok.client actor.client
    rw [before] at position
    exact position.elim
  | holding threadId stack =>
    have position := ok.client actor.client
    rw [before] at position
    obtain ⟨t, rfl⟩ := Nat.exists_eq_succ_of_ne_zero position
    simp only [before] at stepped
    split at stepped
    · rename_i drops
      obtain rfl := List.isEmpty_iff.mp drops.2
      simp only [Option.some.injEq, Prod.mk.injEq] at stepped
      obtain ⟨-, rfl⟩ := stepped
      exact clientsOk_dropped ok before
    · obtain ⟨⟨event, shared, completed, stack'⟩, called, result⟩ :=
        Option.map_eq_some_iff.mp stepped
      simp only [Prod.mk.injEq] at result
      obtain ⟨-, rfl⟩ := result
      exact clientsOk_called ok rules before called

theorem clientsOk_initial (rules : UsageRules P load cells) :
    ClientsOk P load (Clients.initial P cells) := by
  refine ⟨(configOk_initial rules).shared, ?_, ?_, ?_, ?_⟩
  · rintro t within stack (⟨c, holds⟩ | ⟨rfl, -⟩)
    · cases holds
    · exact ⟨stageOf_initial, sequenceOf_initial⟩
  · exact fun c t owns => owns.elim
  · exact fun c d t owns => owns.elim
  · exact fun c => trivial

theorem clientsOk_of_run {trace : List (Transition (Clients P.numWords) ClientActor ClientEvent)}
    (rules : UsageRules P load cells) (run : ClientRun P load cells trace κ) : ClientsOk P load κ :=
  run.state_invariant (clientsOk_initial rules) fun _ _ _ _ stepped held =>
    clientsOk_step held rules stepped

/-! ### Fatal errors -/

/-- Some call with the thread index has or had this sequence. -/
def SequenceUsed (κ : Clients P.numWords) (t n : ℕ) : Prop :=
  n < κ.completed t ∨ (n = κ.completed t ∧ ∃ c frame rest,
    κ.clients c = .holding (convertThreadIndexToThreadId t) (frame :: rest))

/-- The activation ends in a fatal error, or in a panic. -/
def Frame.Fails {numWords : ℕ} : Frame numWords → Prop
  | .operating _ _ (.finished (.error (.fatal _))) => True
  | .operating _ _ (.returned (.error (.fatal _))) => True
  | .operating _ _ .panicked => True
  | _ => False

theorem not_fails_of_stackOk {completed : ℕ} (within : t < P.numThreads)
    (held : StackOk P load s t completed stack) (member : frame ∈ stack) : ¬ frame.Fails := by
  intro fails
  cases frame with
  | initializing => exact fails
  | helpThread => exact fails
  | operating role op pc =>
    obtain ⟨u, k, -, ok⟩ := workOk_of_mem within held member
    have position := ok.position
    cases pc with
    | panicked => exact position
    | finished result =>
      rcases position.2 with rfl | rfl <;> exact fails
    | returned result =>
      rcases result with error | value
      · cases error with
        | fatal fatal => exact position.2.1 fatal rfl
        | _ => exact fails
      · exact fails
    | _ => exact fails

theorem ClientsOk.sequenceUsed (ok : ClientsOk P load κ) (within : t < P.numThreads)
    (started : Started P κ.shared t n) : SequenceUsed κ t n := by
  by_cases called : ∃ c stack, κ.clients c = .holding (convertThreadIndexToThreadId t) stack
  · obtain ⟨c, stack, holds⟩ := called
    refine ((ok.calls t within stack (.inl ⟨c, holds⟩)).began started).imp_right ?_
    rintro ⟨rfl, busy⟩
    obtain ⟨frame, rest, rfl⟩ := List.exists_cons_of_ne_nil busy
    exact ⟨rfl, c, frame, rest, holds⟩
  · have idle : CallStack κ t [] :=
      .inr ⟨rfl, fun c stack holds => called ⟨c, stack, holds⟩⟩
    exact .inl (((ok.calls t within [] idle).began started).resolve_right fun last => last.2 rfl)

/-- No call returns a fatal error. -/
theorem ClientsOk.not_fatal (ok : ClientsOk P load κ) (rules : UsageRules P load cells)
    (stepped : clientStep P load κ actor = some (event, κ')) {error : FatalError} :
    event ≠ .calls threadId (.responded (.error (.fatal error))) := by
  rintro rfl
  unfold clientStep at stepped
  cases before : κ.clients actor.client with
  | outside =>
    simp only [before, findFrom] at stepped
    split at stepped <;> cases stepped
  | constructing i =>
    simp only [before, exchangeSlot, findFrom] at stepped
    split at stepped
    · split at stepped
      · cases stepped
      · split at stepped <;> cases stepped
    · cases stepped
  | counting i => simp [before] at stepped
  | uncounting => simp [before] at stepped
  | panicked => simp [before] at stepped
  | holding threadId stack =>
    have position := ok.client actor.client
    rw [before] at position
    obtain ⟨t, rfl⟩ := Nat.exists_eq_succ_of_ne_zero position
    simp only [before] at stepped
    split at stepped
    · cases stepped
    · obtain ⟨⟨event, shared, completed, stack'⟩, called, result⟩ :=
        Option.map_eq_some_iff.mp stepped
      simp only [Prod.mk.injEq, ClientEvent.calls.injEq] at result
      obtain ⟨⟨-, rfl⟩, -⟩ := result
      have within := (ok.owned actor.client t (Client.owns_of_holding before)).1
      have held := ok.calls t within stack (.inl ⟨actor.client, before⟩)
      obtain ⟨moves, -⟩ := threadMoves_of_callStep rules ok.shared within held called
      generalize completed t = after at moves
      cases moves with
      | respond => exact not_fails_of_stackOk within held List.mem_cons_self trivial
      | move moves =>
        cases moves with
        | init moves => cases moves
        | operate moves => cases moves

/-- Whatever the clients do, every cell holds a legal value or the marker of a
call that was made, no `kcas` and no `help_thread` comes to a fatal error, and
nothing panics: no index is out of range, no subtraction underflows. -/
theorem no_fatal_error {trace : List (Transition (Clients P.numWords) ClientActor ClientEvent)}
    (rules : UsageRules P load cells) (run : ClientRun P load cells trace κ) :
    (∀ address, P.Legal (κ.shared.cells address) ∨
      ∃ t < P.numThreads, ∃ n, SequenceUsed κ t n ∧ κ.shared.cells address = P.marker t n) ∧
    (∀ x ∈ trace, ∀ threadId error,
      x.event ≠ .calls threadId (.responded (.error (.fatal error)))) ∧
    ∀ c, κ.clients c ≠ .panicked ∧ ∀ threadId stack, κ.clients c = .holding threadId stack →
      ∀ frame ∈ stack, ¬ frame.Fails := by
  have ok := clientsOk_of_run rules run
  refine ⟨?_, ?_, ?_⟩
  · intro address
    refine (ok.shared.cell address).imp_right ?_
    rintro ⟨t, within, n, -, held, started⟩
    exact ⟨t, within, n, ok.sequenceUsed within started, held⟩
  · intro x member threadId error
    obtain ⟨front, earlier, taken, -⟩ := run.of_mem member
    exact (clientsOk_of_run rules earlier).not_fatal rules taken
  · intro c
    have position := ok.client c
    constructor
    · intro panicked
      rw [panicked] at position
      exact position
    · intro threadId stack holds frame member
      rw [holds] at position
      obtain ⟨t, rfl⟩ := Nat.exists_eq_succ_of_ne_zero position
      have within := (ok.owned c t (Client.owns_of_holding holds)).1
      exact not_fails_of_stackOk within (ok.calls t within stack (.inl ⟨c, holds⟩)) member

/-- Turns of clients that move on, and one that drops its wrapper. -/
def clientTurns (schedule : List (ℕ × ℕ)) : List ClientActor :=
  schedule.flatMap fun (client, steps) => List.replicate steps ⟨client, false, false⟩

/-- Two clients get the two thread ids and make the contended calls; a third
one gets the id of the first when that drops its wrapper. -/
def handedOnTurns : List ClientActor :=
  clientTurns [(0, 3), (1, 4), (0, 18), (1, 30), (0, 10)] ++ [⟨0, true, false⟩] ++
    clientTurns [(0, 1), (2, 3)]

/-- Both contended calls return although wrappers come and go. -/
theorem no_fatal_error_handedOn : ∃ (trace : List (Transition (Clients twoThreads.numWords)
      ClientActor ClientEvent)) (κ : Clients twoThreads.numWords),
    ClientRun twoThreads contended (fun _ => 0) trace κ ∧ κ.completed 0 = 1 ∧ κ.completed 1 = 1 ∧
      ∀ c threadId stack, κ.clients c = .holding threadId stack →
        ∀ frame ∈ stack, ¬ frame.Fails := by
  obtain ⟨trace, κ, run, first, second⟩ := exists_run_of_replay (clientStep twoThreads contended)
    (Clients.initial twoThreads fun _ => 0) handedOnTurns
    (fun _ κ => κ.completed 0 = 1 ∧ κ.completed 1 = 1) (by decide +kernel)
  exact ⟨trace, κ, run, first, second, fun c => ((no_fatal_error contended_rules run).2.2 c).2⟩

end KCas
