import KCas.Justification

/-! What the late steps of helpers touch. A helper copies pointers and values out
of a row that its owner may overwrite for the next call, and nobody waits for
it: both go wrong, and both are right as long as helpers keep to the call. -/
namespace KCas

open Labelled

variable {P : Params} {load : Workload P.numWords} {cells : ℕ → ℕ} {σ : Config P.numWords}
  {h t n w : ℕ} {role : Role} {pc : Pc} {trace front back : Trace P}
  {x : Transition (Config P.numWords) Actor Event}

/-! ### The words of another call -/

/-- A successful exchange on a target cell uses one word of the call it is made
for: its address, and the values that belong to the pass. -/
def UsesOwnWord (P : Params) (load : Workload P.numWords)
    (x : Transition (Config P.numWords) Actor Event) : Prop :=
  ∀ pass op i target expected new actual,
    x.event = .exchangeCell pass op i target expected new (.ok actual) →
    ∃ w < P.numWords, target = (load.call op.threadIndex op.sequence).target w ∧
      match pass with
      | .claim => expected = (load.call op.threadIndex op.sequence).expected w ∧
          new = P.marker op.threadIndex op.sequence
      | .set => new = (load.call op.threadIndex op.sequence).desired w
      | .revert => new = (load.call op.threadIndex op.sequence).expected w

/-- The call that an exchange on a target cell succeeds for. -/
def exchangedFor {numWords : ℕ} (x : Transition (Config numWords) Actor Event) : Option Operation :=
  match x.event with
  | .exchangeCell _ op _ _ _ _ (.ok _) => some op
  | _ => none

/-- No exchange on a target cell succeeds on behalf of a call whose row already
carries another sequence. -/
def ExchangesInTime (P : Params) (x : Transition (Config P.numWords) Actor Event) : Prop :=
  ∀ op ∈ exchangedFor x, x.before.shared.sequenceOf P op.threadIndex = op.sequence

instance (P : Params) (x : Transition (Config P.numWords) Actor Event) :
    Decidable (ExchangesInTime P x) :=
  inferInstanceAs (Decidable (∀ op ∈ exchangedFor x, _))

/-- What the exchange of a running activation uses. -/
theorem Reached.exchange (reached : Reached P load cells trace x) {pass : Pass} {op : Operation}
    {i target expected new actual : ℕ}
    (event : x.event = .exchangeCell pass op i target expected new (.ok actual)) :
    ∃ role, match pass with
      | .claim => new = op.threadAndSequence ∧ Works P x.before x.actor.thread role op.threadIndex
          op.sequence (.claimExchange i target expected) ∧
          op = P.operation op.threadIndex op.sequence
      | .set => Works P x.before x.actor.thread role op.threadIndex op.sequence
          (.setExchange i target new)
      | .revert => ∃ next, Works P x.before x.actor.thread role op.threadIndex op.sequence
          (.revertExchange i target new next) := by
  have moves := reached.moves
  rw [event] at moves
  generalize shape : x.before.threads x.actor.thread = thread at moves
  generalize x.after.threads x.actor.thread = thread' at moves
  generalize x.after.shared = s' at moves
  cases moves with
  | @move completed frame rest _ _ frames moves =>
    cases moves with
    | init moves => cases moves
    | @operate role t n pc _ _ _ moves =>
      have works : Works P x.before x.actor.thread role t n pc :=
        ⟨reached.within, by rw [shape]; exact List.mem_cons_self⟩
      cases moves with
      | claimed found => exact ⟨role, rfl, works, rfl⟩
      | setDone found => exact ⟨role, works⟩
      | reverted found => exact ⟨role, _, works⟩

/-- Helpers act only with the words of the call they help, in every run whose
exchanges on target cells succeed only while the call's row carries its sequence. -/
theorem uses_own_word (rules : UsageRules P load cells) (run : Execution P load cells trace σ)
    (inTime : ∀ x ∈ trace, ExchangesInTime P x) : ∀ x ∈ trace, UsesOwnWord P load x := by
  intro x member pass op i target expected new actual event
  obtain ⟨front, back, -, reached⟩ := reached_of_mem rules run member
  have current := inTime x member op (by simp [exchangedFor, event])
  obtain ⟨role, used⟩ := reached.exchange event
  cases pass with
  | claim =>
    obtain ⟨rfl, works, same⟩ := used
    obtain ⟨inRange, -, address, -, value⟩ := (works.ok reached.before).position
    exact ⟨i, inRange, address.2 current, value current, congrArg Operation.threadAndSequence same⟩
  | set =>
    obtain ⟨inRange, -, address, -, value⟩ := (used.ok reached.before).position
    exact ⟨i, inRange, address.2 current, value current⟩
  | revert =>
    obtain ⟨next, works⟩ := used
    obtain ⟨inRange, -, address, -, value⟩ := (works.ok reached.before).position
    exact ⟨i, inRange, address.2 current, value current⟩

/-- In the contended run both passes of both threads use their own words. -/
theorem uses_own_word_contended : ∃ (trace : Trace twoThreads) (σ : Config twoThreads.numWords),
    Execution twoThreads contended (fun _ => 0) trace σ ∧ trace.length = 58 ∧
      ∀ x ∈ trace, UsesOwnWord twoThreads contended x := by
  obtain ⟨trace, σ, run, length, inTime⟩ := exists_execution twoThreads contended (fun _ => 0)
    contendedTurns
    (fun trace _ => trace.length = 58 ∧ ∀ x ∈ trace, ExchangesInTime twoThreads x)
    (by decide +kernel)
  exact ⟨trace, σ, run, length, uses_own_word contended_rules run inTime⟩

/-- Two calls of the first thread on different cells, and one that meets the
marker of the first. -/
def reused : Workload twoThreadsOneWord.numWords := .ofCalls
  [[oneWord (onCell 0 0 1), oneWord (onCell 1 0 1)], [oneWord (onCell 0 5 6)]]

theorem reused_rules : UsageRules twoThreadsOneWord reused fun _ => 0 :=
  usageRules_of_checks (by decide +kernel)

/-- The helper of the first call stops before it loads the pointer. The first
thread returns and writes the words of its second call, whose cell the helper
then marks for the first call. -/
def reusedTurns : List (ℕ × ℕ) := [(0, 9), (1, 11), (0, 10), (1, 3)]

theorem not_uses_own_word : ¬ ∀ (P : Params) (load : Workload P.numWords) (cells : ℕ → ℕ),
    UsageRules P load cells → GlobalOrder P load → ∀ trace σ, Execution P load cells trace σ →
      ∀ x ∈ trace, UsesOwnWord P load x := by
  intro claim
  obtain ⟨trace, σ, run, x, member, event⟩ := exists_execution twoThreadsOneWord reused
    (fun _ => 0) reusedTurns
    (fun trace _ => ∃ x ∈ trace, x.event = .exchangeCell .claim
      (twoThreadsOneWord.operation 0 0) 0 16 0 (twoThreadsOneWord.marker 0 0) (.ok 0))
    (by decide +kernel)
  obtain ⟨w, inRange, address, -⟩ := claim twoThreadsOneWord reused (fun _ => 0) reused_rules
    (globalOrder_of_ascending (by decide +kernel)) trace σ run x member _ _ _ _ _ _ _ event
  obtain rfl : w = 0 := Nat.lt_one_iff.mp inRange
  exact absurd address (by decide)

/-! ### After the return -/

/-- The cell is a target of a call in progress. -/
def InUse (P : Params) (load : Workload P.numWords) (σ : Config P.numWords) (address : ℕ) : Prop :=
  ∃ t < P.numThreads, (σ.threads t).stack ≠ [] ∧
    ∃ w < P.numWords, address = (load.call t (σ.threads t).completed).target w

/-- An exchange on a target cell, successful or not, is made during the call it
is for, or on a cell of another call in progress. -/
def TouchesInTime (P : Params) (load : Workload P.numWords)
    (x : Transition (Config P.numWords) Actor Event) : Prop :=
  ∀ pass op i target expected new result,
    x.event = .exchangeCell pass op i target expected new result →
    op.sequence < (x.before.threads op.threadIndex).completed → InUse P load x.before target

/-- The activation is not in the middle of helping `op`. -/
def Frame.doneWith {numWords : ℕ} (op : Operation) : Frame numWords → Bool
  | .operating .helper _ (.returned _) => true
  | .operating .helper helped _ => decide (helped ≠ op)
  | _ => true

def Event.isResponse : Event → Bool
  | .responded _ => true
  | _ => false

/-- When a call returns, every helper of it is done. -/
def HelpersDone (P : Params) (x : Transition (Config P.numWords) Actor Event) : Prop :=
  x.event.isResponse = true → ∀ h < P.numThreads, ∀ frame ∈ (x.before.threads h).stack,
    frame.doneWith (P.operation x.actor.thread (x.before.threads x.actor.thread).completed) = true

instance (P : Params) (x : Transition (Config P.numWords) Actor Event) :
    Decidable (HelpersDone P x) :=
  inferInstanceAs (Decidable (_ → ∀ h < P.numThreads, ∀ frame ∈ (x.before.threads h).stack, _))

theorem HelpersDone.returned {result : Except Error Unit} (done : HelpersDone P x)
    (responds : Responds P x t n result) (works : Works P x.before h .helper t n pc) :
    ∃ helped, pc = .returned helped := by
  obtain ⟨rfl, rfl, event⟩ := responds
  have finished := done (by simp [Event.isResponse, event]) h works.within _ works.member
  cases pc with
  | returned helped => exact ⟨helped, rfl⟩
  | _ => simp [Frame.doneWith] at finished

theorem ConfigOk.completed_le (ok : ConfigOk P load σ) (within : t < P.numThreads) :
    (σ.threads t).completed ≤ σ.shared.sequenceOf P t := by
  have held := ok.callStacks t within
  generalize (σ.threads t).completed = completed at held
  generalize (σ.threads t).stack = stack at held
  induction stack with
  | nil => exact Nat.le_of_eq held.2.symm
  | cons frame rest ih =>
    cases rest with
    | cons caller rest => exact ih held.2.2
    | nil =>
      cases frame with
      | initializing => exact Nat.le_of_eq held.2.2.2.2.2.1.symm
      | helpThread => exact held.elim
      | operating role op pc =>
        rcases held.2.2.2.1.started with gone | ⟨same, -⟩ <;> omega

theorem Reached.completed (reached : Reached P load cells trace x) (t : ℕ) :
    (x.after.threads t).completed = (x.before.threads t).completed ∨
      ∃ result, Responds P x t (x.before.threads t).completed result ∧
        (x.after.threads t).completed = (x.before.threads t).completed + 1 := by
  cases reached.callStep t with
  | kept none completed => exact .inl completed
  | invoked action completed => exact .inl completed
  | responded responds completed => exact .inr ⟨_, responds, completed⟩

/-- A step that returns from a call counts it. -/
theorem Reached.completed_responded (reached : Reached P load cells trace x)
    (responds : Responds P x t n result) : (x.after.threads t).completed = n + 1 := by
  obtain ⟨rfl, rfl, event⟩ := responds
  have moves := reached.moves
  rw [event] at moves
  generalize x.before.threads x.actor.thread = thread at moves ⊢
  generalize x.after.threads x.actor.thread = thread' at moves ⊢
  generalize x.after.shared = s' at moves
  cases moves with
  | respond => rfl
  | move moves =>
    cases moves with
    | init moves => cases moves
    | operate moves => cases moves

/-- The helpers of a call that has returned are done. -/
def LateHelpersReturned (P : Params) (σ : Config P.numWords) : Prop :=
  ∀ h t n pc, Works P σ h .helper t n pc → n < (σ.threads t).completed →
    ∃ helped, pc = .returned helped

theorem lateHelpersReturned_step (reached : Reached P load cells trace x) (done : HelpersDone P x)
    (held : LateHelpersReturned P x.before) : LateHelpersReturned P x.after := by
  intro h t n pc works gone
  rcases reached.works works with before | ⟨rfl, arrives⟩
  · rcases reached.completed t with same | ⟨result, responds, next⟩
    · exact held h t n pc before (same ▸ gone)
    · rcases Nat.lt_or_ge n (x.before.threads t).completed with earlier | last
      · exact held h t n pc before earlier
      · obtain rfl : n = (x.before.threads t).completed := by omega
        exact done.returned responds before
  · -- nobody returns in a step that moves a helper, so the call was over before
    have gone : n < (x.before.threads t).completed := by
      rcases reached.completed t with same | ⟨result, ⟨own, -, event⟩, -⟩
      · exact same ▸ gone
      · cases arrives with
        | moved stack moves member => rw [event] at moves; cases moves
        | entered stack within fits entry silent after => cases event.symm.trans silent
        | resumed stack silent after => cases event.symm.trans silent
    cases arrives with
    | @moved _ _ _ pc _ rest frames stack moves member =>
      have mover : Works P x.before x.actor.thread .helper t n pc :=
        ⟨reached.within, stack ▸ List.mem_cons_self⟩
      obtain ⟨helped, rfl⟩ := held _ _ _ _ mover gone
      cases moves
    | @entered _ _ _ rest stack within fits entry silent after =>
      have late := Nat.lt_of_lt_of_le gone (reached.before.completed_le within)
      cases entry with
      | retired => exact ⟨_, rfl⟩
      | terminal sequence => omega
      | claiming sequence => omega
      | setting sequence => omega
      | reverting sequence => omega
    | @resumed _ _ _ helped result w target expected rest stack silent after =>
      have waiting : Works P x.before x.actor.thread .helper t n (.claimHelp w target expected) :=
        ⟨reached.within, by rw [stack]; simp⟩
      obtain ⟨helped, absurd⟩ := held _ _ _ _ waiting gone
      cases absurd

theorem Reached.touches (reached : Reached P load cells trace x) {pass : Pass} {op : Operation}
    {i target expected new : ℕ} {result : Except ℕ ℕ}
    (event : x.event = .exchangeCell pass op i target expected new result) :
    ∃ role pc, Works P x.before x.actor.thread role op.threadIndex op.sequence pc ∧
      ∀ helped, pc ≠ .returned helped := by
  have moves := reached.moves
  rw [event] at moves
  generalize shape : x.before.threads x.actor.thread = thread at moves
  generalize x.after.threads x.actor.thread = thread' at moves
  generalize x.after.shared = s' at moves
  cases moves with
  | @move completed frame rest _ _ frames moves =>
    cases moves with
    | init moves => cases moves
    | @operate role t n pc _ _ _ moves =>
      have works : Works P x.before x.actor.thread role t n pc :=
        ⟨reached.within, by rw [shape]; exact List.mem_cons_self⟩
      cases moves <;> exact ⟨role, _, works, by simp⟩

/-- A target cell is touched on behalf of a call only while that call, or
another call with that target, is in progress, in every run in which each call
finds its helpers done when it returns. -/
theorem touches_in_time (rules : UsageRules P load cells) (run : Execution P load cells trace σ)
    (done : ∀ x ∈ trace, HelpersDone P x) : ∀ x ∈ trace, TouchesInTime P load x := by
  intro x member pass op i target expected new result event gone
  obtain ⟨front, back, split, reached⟩ := reached_of_mem rules run member
  have late : LateHelpersReturned P x.before :=
    execution_invariant (HelpersDone P) (fun _ σ => LateHelpersReturned P σ) rules
      (fun h t n pc works => by cases works.member)
      (fun _ _ reached done held => lateHelpersReturned_step reached done held) reached.run
      fun y inFront => done y (split ▸ List.mem_append_left _ inFront)
  obtain ⟨role, pc, works, running⟩ := reached.touches event
  cases role with
  | originator =>
    obtain ⟨same, callNumber, -⟩ := (works.ok reached.before).own rfl
    rw [same, callNumber] at gone
    exact absurd gone (Nat.lt_irrefl _)
  | helper =>
    obtain ⟨helped, returned⟩ := late _ _ _ _ works gone
    exact absurd returned (running helped)

/-- In the contended run the helper is done when the first call returns. -/
theorem touches_in_time_contended : ∃ (trace : Trace twoThreads) (σ : Config twoThreads.numWords),
    Execution twoThreads contended (fun _ => 0) trace σ ∧ trace.length = 58 ∧
      ∀ x ∈ trace, TouchesInTime twoThreads contended x := by
  obtain ⟨trace, σ, run, length, done⟩ := exists_execution twoThreads contended (fun _ => 0)
    contendedTurns
    (fun trace _ => trace.length = 58 ∧ ∀ x ∈ trace, HelpersDone twoThreads x)
    (by decide +kernel)
  exact ⟨trace, σ, run, length, touches_in_time contended_rules run done⟩

/-- The calls have one cell in common. -/
def overlapping : Workload twoThreads.numWords := .ofCalls
  [[twoWords (onCell 0 0 1) (onCell 1 0 1)],
    [twoWords (onCell 0 0 2) (onCell 2 0 2)]]

theorem overlapping_rules : UsageRules twoThreads overlapping fun _ => 0 :=
  usageRules_of_checks (by decide +kernel)

/-- The second thread stops in front of its exchange on the other cell of the
call it helps, and makes it after that call has returned. -/
def overlappingTurns : List (ℕ × ℕ) := [(0, 12), (1, 19), (0, 12), (1, 1)]

theorem not_touches_in_time : ¬ ∀ (P : Params) (load : Workload P.numWords) (cells : ℕ → ℕ),
    UsageRules P load cells → GlobalOrder P load → ∀ trace σ, Execution P load cells trace σ →
      ∀ x ∈ trace, TouchesInTime P load x := by
  intro claim
  obtain ⟨trace, σ, run, x, member, returned, idle, callNumber, event⟩ :=
    exists_execution twoThreads overlapping (fun _ => 0) overlappingTurns
      (fun trace _ => ∃ x ∈ trace, (x.before.threads 0).completed = 1 ∧
        (x.before.threads 0).stack.isEmpty ∧ (x.before.threads 1).completed = 0 ∧
        x.event = .exchangeCell .claim (twoThreads.operation 0 0) 1 16 0 (twoThreads.marker 0 0)
          (.error 1))
      (by decide +kernel)
  obtain ⟨t, within, busy, w, inRange, address⟩ := claim twoThreads overlapping (fun _ => 0)
    overlapping_rules (globalOrder_of_ascending (by decide +kernel)) trace σ run x member
    _ _ _ _ _ _ _ event (by simp [returned])
  rcases (show t = 0 ∨ t = 1 by have : t < 2 := within; omega) with rfl | rfl
  · exact busy (List.isEmpty_iff.mp idle)
  · rw [callNumber] at address
    exact absurd address
      ((by decide : ∀ w < 2, (16 : ℕ) ≠ (overlapping.call 1 0).target w) w inRange)

end KCas
