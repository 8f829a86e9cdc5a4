import KCas.Alone

/-! Calls that name an address more than once. The second time `claim` finds the
marker of its own call, takes the branch that is meant for helpers and compares
nothing; `revert` goes downwards and writes back what the last of the words of an
address expected. -/
namespace KCas

open Labelled

variable {P : Params} {load : Workload P.numWords} {σ₀ σ : Config P.numWords} {t m f : ℕ}
  {words : KCasWords P.numWords} {c : ℕ → ℕ} {trace : Trace P} {result : Except Error Unit}

/-- The next call of the thread from its entry to its return, while no other thread
moves. -/
structure CallAlone (P : Params) (load : Workload P.numWords) (σ₀ : Config P.numWords) (t : ℕ)
    (result : Except Error Unit) (trace : Trace P) (σ : Config P.numWords) : Prop where
  run : Run (step P load) σ₀ trace σ
  alone : ∀ x ∈ trace, x.actor.thread = t
  returns : ∃ front y, trace = front ++ [y] ∧ Responds P y t (σ₀.threads t).completed result

/-- The next call of the thread, run alone from `σ₀`, returns `Ok` only if every
word expected what its target held, and leaves all cells as they were whenever it
reports that a value was not the expected one. -/
def NotMishandled (P : Params) (load : Workload P.numWords) (σ₀ : Config P.numWords) (t : ℕ) :
    Prop :=
  ∀ result trace σ, CallAlone P load σ₀ t result trace σ →
    (result = .ok () → ∀ w < P.numWords,
      σ₀.shared.cells ((load.call t (σ₀.threads t).completed).target w) =
        (load.call t (σ₀.threads t).completed).expected w) ∧
      (result = .error .valueWasNotExpectedValue → σ.shared.cells = σ₀.shared.cells)

/-- The word is the first of its address, and its target holds another value than
it expects. -/
def Stops (words : KCasWords P.numWords) (m : ℕ) (c : ℕ → ℕ) (f : ℕ) : Prop :=
  c (words.target f) ≠ words.expected f ∧ c (words.target f) ≠ m ∧
    ∀ i < f, words.target i ≠ words.target f

instance : Decidable (Stops words m c f) := inferInstanceAs (Decidable (_ ∧ _ ∧ ∀ i < f, _))

/-- All words expect what their targets hold; or some first word of an address does
not, and before the first of these words the last word of every address does. -/
def Harmless (words : KCasWords P.numWords) (m : ℕ) (c : ℕ → ℕ) : Prop :=
  (∀ w < P.numWords, c (words.target w) = words.expected w) ∨
    ∃ f < P.numWords, Stops words m c f ∧ (∀ i < f, ¬ Stops words m c i) ∧
      ∀ w < f, WritesBack words m f w → c (words.target w) = words.expected w

theorem stops_iff : Stops words m c f ↔ ¬ Passes words m c f := by
  rw [passes_iff]
  simp only [Stops, not_or, not_exists, not_and]

/-! ### Runs of one call -/

theorem completed_le_of_step {actor : Actor} {event : Event} {σ' : Config P.numWords}
    (stepped : step P load σ actor = some (event, σ')) (t : ℕ) :
    (σ.threads t).completed ≤ (σ'.threads t).completed := by
  simp only [step] at stepped
  split at stepped
  · split at stepped
    · split at stepped
      · cases stepped
        by_cases own : t = actor.thread <;> simp [own]
      · cases stepped
    · split at stepped
      · cases stepped
      · cases stepped
        by_cases own : t = actor.thread
        · subst own
          simp only [Function.update_self]
          split <;> omega
        · simp [own]
  · cases stepped

/-- A description of the next call of the thread, entered at `σ₀` while no other
thread moves: the states inside of it, and what holds when it returns. -/
structure Describes (P : Params) (load : Workload P.numWords) (σ₀ : Config P.numWords) (t : ℕ)
    (inside : Config P.numWords → Prop) (returned : Except Error Unit → Config P.numWords → Prop) :
    Prop where
  enters : ∀ spurious, ∃ σ, step P load σ₀ ⟨t, spurious⟩ = some (.invoked, σ) ∧ inside σ
  moves : ∀ σ, inside σ → ∀ spurious, ∃ event σ', step P load σ ⟨t, spurious⟩ = some (event, σ') ∧
    (((∀ result, event ≠ .responded result) ∧ inside σ') ∨ ∃ result, event = .responded result ∧
      returned result σ' ∧ (σ₀.threads t).completed < (σ'.threads t).completed)

namespace Describes

variable {inside : Config P.numWords → Prop}
  {returned : Except Error Unit → Config P.numWords → Prop}

/-- Up to its return the call is inside. -/
theorem position (describes : Describes P load σ₀ t inside returned)
    (run : Run (step P load) σ₀ trace σ) (alone : ∀ x ∈ trace, x.actor.thread = t) :
    σ = σ₀ ∨ inside σ ∨ (σ₀.threads t).completed < (σ.threads t).completed := by
  refine run.invariant (fun x => x.actor.thread = t)
    (fun _ σ => σ = σ₀ ∨ inside σ ∨ (σ₀.threads t).completed < (σ.threads t).completed) (.inl rfl)
    ?_ alone
  rintro - σ ⟨u, spurious⟩ event σ' - stepped own position
  obtain rfl : u = t := own
  rcases position with rfl | held | gone
  · obtain ⟨σ₁, entered, held⟩ := describes.enters spurious
    obtain ⟨-, rfl⟩ := Prod.mk.inj (Option.some.inj (stepped.symm.trans entered))
    exact .inr (.inl held)
  · obtain ⟨event', σ₁, moved, outcome⟩ := describes.moves σ held spurious
    obtain ⟨rfl, rfl⟩ := Prod.mk.inj (Option.some.inj (stepped.symm.trans moved))
    rcases outcome with ⟨-, held'⟩ | ⟨result, -, -, gone⟩
    · exact .inr (.inl held')
    · exact .inr (.inr gone)
  · exact .inr (.inr (Nat.lt_of_lt_of_le gone (completed_le_of_step stepped _)))

/-- What holds of a call that returned. -/
theorem of_callAlone (describes : Describes P load σ₀ t inside returned)
    (call : CallAlone P load σ₀ t result trace σ) : returned result σ := by
  obtain ⟨run, alone, front, ⟨before, ⟨u, spurious⟩, event, after⟩, rfl, rfl, count, rfl⟩ := call
  obtain ⟨earlier, stepped, rfl⟩ := run.last
  simp only at earlier stepped count
  rcases describes.position earlier (fun x member => alone x (List.mem_append_left _ member)) with
    rfl | held | gone
  · obtain ⟨σ₁, entered, -⟩ := describes.enters spurious
    cases (Prod.mk.inj (Option.some.inj (stepped.symm.trans entered))).1
  · obtain ⟨event', σ₁, moved, outcome⟩ := describes.moves before held spurious
    obtain ⟨rfl, rfl⟩ := Prod.mk.inj (Option.some.inj (stepped.symm.trans moved))
    rcases outcome with ⟨quiet, -⟩ | ⟨result', responded, holds, -⟩
    · exact absurd rfl (quiet result)
    · cases responded
      exact holds
  · exact absurd count (Nat.ne_of_gt gone)

end Describes

/-- The next call of the thread, run alone from `σ₀`, returns, whichever exchanges
fail without a reason, as long as these are finitely many. -/
def Terminates (P : Params) (load : Workload P.numWords) (σ₀ : Config P.numWords) (t : ℕ) : Prop :=
  ∀ (spurious : ℕ → Bool) (last : ℕ), (∀ i, last ≤ i → spurious i = false) →
    ReturnsAlong P load σ₀ t (σ₀.threads t).completed spurious 0

/-- A call that returns from wherever it is inside, terminates. -/
theorem terminates_of_returns {inside : Config P.numWords → Prop}
    (enters : ∀ spurious, ∃ σ, step P load σ₀ ⟨t, spurious⟩ = some (.invoked, σ) ∧ inside σ)
    (returns : ∀ (spurious : ℕ → Bool) (last : ℕ), (∀ i, last ≤ i → spurious i = false) →
      ∀ σ, inside σ → ReturnsAlong P load σ t (σ₀.threads t).completed spurious 1) :
    Terminates P load σ₀ t := by
  intro spurious last finitely
  obtain ⟨σ₁, entered, held⟩ := enters (spurious 0)
  obtain ⟨count, σ, front, y, run, actors, responds, first⟩ :=
    returns spurious last finitely σ₁ held
  refine ⟨count + 1, σ, _ :: front, y, (Run.single entered).append run, ?_, responds, ?_⟩
  · rw [List.range'_succ, List.cons_append, List.map_cons, List.map_cons, actors]
  · intro x member
    rcases List.mem_cons.mp member with rfl | later
    · simp [Responds]
    · exact first x later

/-- There is a run of a call that terminates. -/
theorem Terminates.exists_callAlone (terminates : Terminates P load σ₀ t) :
    ∃ result trace σ, CallAlone P load σ₀ t result trace σ := by
  obtain ⟨count, σ, front, y, run, actors, ⟨result, responds⟩, -⟩ :=
    terminates (fun _ => false) 0 fun _ _ => rfl
  refine ⟨result, _, σ, run, fun x member => ?_, front, y, rfl, responds⟩
  have actor : x.actor ∈ (front ++ [y]).map (·.actor) := List.mem_map_of_mem member
  rw [actors] at actor
  obtain ⟨i, -, same⟩ := List.mem_map.mp actor
  rw [← same]

/-! ### Calls that run the loops -/

section

variable (within : t < P.numThreads) (idle : (σ₀.threads t).stack = [])
  (more : (σ₀.threads t).completed < load.count t)
  (real : StopsAtReal P t (load.call t (σ₀.threads t).completed) σ₀.shared)

include within idle more

theorem entersCall (spurious : Bool) : ∃ σ, step P load σ₀ ⟨t, spurious⟩ = some (.invoked, σ) ∧
    ∃ frame, InCall P load σ₀ σ t frame := by
  obtain ⟨σ, frame, entered, inside, -⟩ := enters within idle more spurious
  exact ⟨σ, entered, frame, inside⟩

include real

theorem describes_inCall : Describes P load σ₀ t (fun σ => ∃ frame, InCall P load σ₀ σ t frame)
    fun result σ => Returned P load σ₀ σ t result where
  enters := entersCall within idle more
  moves := by
    rintro σ ⟨frame, inside⟩ spurious
    obtain ⟨event, σ', moved, ⟨-, quiet, frame', inside', -⟩ | ⟨result, responded, returned⟩⟩ :=
      inside.step within real spurious
    · exact ⟨event, σ', moved, .inl ⟨quiet, frame', inside'⟩⟩
    · refine ⟨event, σ', moved, .inr ⟨result, responded, returned, ?_⟩⟩
      simp [returned.threads]

theorem terminates_of_stopsAtReal : Terminates P load σ₀ t :=
  terminates_of_returns (entersCall within idle more)
    fun _ _ finitely _ ⟨_, inside⟩ => inside.returns within real finitely 1

end

/-- A call with repeated addresses is handled well if and only if it is harmless. -/
theorem not_mishandled_iff (idle : Idle P σ₀) (within : t < P.numThreads)
    (more : (σ₀.threads t).completed < load.count t) (legal : LegalTargets P load σ₀ t) :
    NotMishandled P load σ₀ t ↔ Harmless (load.call t (σ₀.threads t).completed)
      (P.marker t (σ₀.shared.sequenceOf P t)) σ₀.shared.cells := by
  have describes := describes_inCall within (idle t within) more legal.stopsAtReal
  constructor
  · intro handled
    obtain ⟨result, trace, σ, call⟩ := (terminates_of_stopsAtReal within (idle t within) more
      legal.stopsAtReal).exists_callAlone
    obtain ⟨succeeded, failed⟩ := handled result trace σ call
    have outcome := (describes.of_callAlone call).outcome
    generalize σ.shared.cells = cells at outcome failed
    cases outcome with
    | succeeds passed => exact .inl (succeeded rfl)
    | @fails f below passed stops =>
      refine .inr ⟨f, below, stops_iff.mpr stops, fun i earlier => ?_, ?_⟩
      · rw [stops_iff, not_not]
        exact passed i earlier
      · exact (reverted_iff passed stops).mp (failed rfl)
  · intro harmless result trace σ call
    have outcome := (describes.of_callAlone call).outcome
    generalize σ.shared.cells = cells at outcome ⊢
    cases outcome with
    | succeeds passed =>
      refine ⟨fun _ => ?_, by simp⟩
      rcases harmless with matching | ⟨f, below, stops, -⟩
      · exact matching
      · exact absurd (passed f below) (stops_iff.mp stops)
    | @fails f below passed stops =>
      refine ⟨by simp, fun _ => (reverted_iff passed stops).mpr ?_⟩
      rcases harmless with matching | ⟨k, -, stops', passed', restored⟩
      · exact absurd (passes_iff.mpr (.inl (matching f below))) stops
      · obtain rfl : k = f := by
          refine failing_unique (fun i earlier => ?_) (stops_iff.mp stops') passed stops
          exact not_not.mp (mt stops_iff.mpr (passed' i earlier))
        exact restored

/-- Both words of a call are the same cell, and expect what it holds. -/
def repeatedTarget : Workload twoThreads.numWords := .ofCalls
  [[twoWords (onCell 0 0 1) (onCell 0 0 2)]]

theorem not_mishandled_repeatedTarget :
    NotMishandled twoThreads repeatedTarget (Config.initial 2 fun _ => 0) 0 :=
  (not_mishandled_iff (fun _ _ => rfl) (by decide) (by decide)
    fun _ _ => twoThreads.legal_zero).mpr (.inl (by decide))

/-- Both words of a call are the same cell, and one of them expects another value. -/
def mismatchedTwice : Workload twoThreads.numWords := .ofCalls
  [[twoWords (onCell 0 0 1) (onCell 0 5 6)]]

/-- The call returns `Ok`, although the cell never held the 5. -/
theorem not_repeated_addresses : ¬ ∀ (P : Params) (load : Workload P.numWords)
    (σ₀ : Config P.numWords) (t : ℕ), Idle P σ₀ → t < P.numThreads →
    (σ₀.threads t).completed < load.count t → (∀ address, P.Legal (σ₀.shared.cells address)) →
    (∀ w < P.numWords, P.Legal ((load.call t (σ₀.threads t).completed).expected w) ∧
      P.Legal ((load.call t (σ₀.threads t).completed).desired w)) →
    (∃ i < P.numWords, ∃ j < i, (load.call t (σ₀.threads t).completed).target j =
      (load.call t (σ₀.threads t).completed).target i) → NotMishandled P load σ₀ t := by
  intro claim
  obtain ⟨trace, σ, run, alone, ended⟩ := exists_execution twoThreads mismatchedTwice (fun _ => 0)
    [(0, 25)]
    (fun trace _ => (∀ x ∈ trace, x.actor.thread = 0) ∧
      ∃ y ∈ trace.getLast?, Responds twoThreads y 0 0 (.ok ()))
    (by decide +kernel)
  obtain ⟨y, last, responds⟩ := ended
  obtain ⟨front, rfl⟩ := List.getLast?_eq_some_iff.mp last
  have handled := claim twoThreads mismatchedTwice (Config.initial 2 fun _ => 0) 0
    (fun _ _ => rfl) (by decide) (by decide) (fun _ => twoThreads.legal_zero) (by decide +kernel)
    (by decide)
  have matching := (handled (.ok ()) _ σ ⟨run, alone, front, y, rfl, responds⟩).1 rfl 1 (by decide)
  exact absurd matching (by decide)

end KCas
