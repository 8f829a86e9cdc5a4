import KCas.Linearizable

/-! What the cells say while calls are in progress. In an orderly run one order explains
all calls that have taken effect so far, and at every moment the cells that hold no
marker have the content that a first part of it leads to: an application that loads a
real value from a cell reads the value of that moment. -/
namespace KCas

open Labelled Linearizability

variable {P : Params} {load : Workload P.numWords} {cells : ℕ → ℕ} {σ : Config P.numWords}
  {trace : Trace P}

/-- The memory holds the content of every cell that holds no marker. -/
def AgreesWith (P : Params) (σ : Config P.numWords) (memory : ℕ → ℕ) : Prop :=
  ∀ address, isValueAKcasMarker P.usizeBits P.numThreads (σ.shared.cells address) = false →
    memory address = σ.shared.cells address

theorem agreesWith_contentOf : AgreesWith P σ (contentOf P load σ.shared) := by
  intro address unmarked
  simp [contentOf, unmarked]

/-- At this moment of a run the calls in `done` have taken effect: all that returned so
far, none that is yet to begin, and the memory they lead to is the content of the cells. -/
structure Moment (P : Params) (load : Workload P.numWords) (cells : ℕ → ℕ) (front : Trace P)
    (σ : Config P.numWords) (done : List (ℕ × ℕ)) : Prop where
  returned : ∀ call result, .respond call result ∈ front.filterMap (actionOf P) → call ∈ done
  begun : ∀ call ∈ done, .invoke call ∈ front.filterMap (actionOf P)
  content : AgreesWith P σ
    (execute (fun call => atomicKcas (load.call call.1 call.2)) done cells).2

section

variable (rules : UsageRules P load cells) (run : Execution P load cells trace σ)
  (orderly : ∀ x ∈ trace, Orderly P x)

include rules run orderly

/-- The calls in the order of their linearization points explain the run. -/
theorem completion_of_orderly :
    Completion (fun call => atomicKcas (load.call call.1 call.2)) cells (AgreesWith P σ)
      (trace.filterMap (actionOf P)) (pointsFrom (decidedCall P load trace) [] trace) := by
  have start : contentOf P load (Config.initial P.numWords cells).shared = cells :=
    funext fun address => contentOf_real (rules.cells_legal address)
  have agrees : AgreesWith P σ (contentOf P load σ.shared) := agreesWith_contentOf
  have explained := completion_of_points run (partialPoints_of_orderly rules run orderly) agrees
  rwa [start] at explained

/-- The calls decided by a moment lead to what the cells then stand for. -/
theorem execute_eq_contentOf {front back : Trace P} {middle : Config P.numWords}
    (split : trace = front ++ back) (reached : Execution P load cells front middle) :
    (execute (fun call => atomicKcas (load.call call.1 call.2))
      (pointsFrom (decidedCall P load trace) [] front) cells).2 =
        contentOf P load middle.shared := by
  subst split
  have start : contentOf P load (Config.initial P.numWords cells).shared = cells :=
    funext fun address => contentOf_real (rules.cells_legal address)
  have executed := (partialPoints_of_orderly rules run orderly).execute_front reached
  rw [start] at executed
  rw [executed]

/-- Each moment is that after the calls decided by then. -/
theorem moment_of_orderly {front back : Trace P} {middle : Config P.numWords}
    (split : trace = front ++ back) (reached : Execution P load cells front middle) :
    pointsFrom (decidedCall P load trace) [] front <+:
        pointsFrom (decidedCall P load trace) [] trace ∧
      Moment P load cells front middle (pointsFrom (decidedCall P load trace) [] front) := by
  have leads := execute_eq_contentOf rules run orderly split reached
  subst split
  have points := partialPoints_of_orderly rules run orderly
  refine ⟨?_, ?_, ?_, ?_⟩
  · rw [pointsFrom_append]
    exact List.prefix_append _ _
  · exact fun call result responded => (points.done_of_responded responded).1
  · exact fun call taken => List.mem_filterMap.mpr (points.invoked front back rfl call taken)
  · rw [leads]
    exact agreesWith_contentOf

end

/-- Every orderly run, whatever calls are in progress at its end, has one total order of
the calls that took effect. It extends their real-time order, gives the results they
returned and the content of the cells; and each moment of the run is that after a first
part of this order. -/
theorem linearizable_at_every_moment (rules : UsageRules P load cells)
    (run : Execution P load cells trace σ) (orderly : ∀ x ∈ trace, Orderly P x) :
    ∃ order, Completion (fun call => atomicKcas (load.call call.1 call.2)) cells
        (AgreesWith P σ) (trace.filterMap (actionOf P)) order ∧
      ∀ front back middle, trace = front ++ back → Execution P load cells front middle →
        ∃ done, done <+: order ∧ Moment P load cells front middle done :=
  ⟨_, completion_of_orderly rules run orderly, fun _ _ _ split reached =>
    ⟨_, moment_of_orderly rules run orderly split reached⟩⟩

/-- The first thread's call is decided, and its markers are still in the cells. -/
theorem linearizable_at_every_moment_contended : ∃ (trace : Trace twoThreads)
    (σ : Config twoThreads.numWords), Execution twoThreads contended (fun _ => 0) trace σ ∧
      trace.length = 18 ∧ isValueAKcasMarker 64 2 (σ.shared.cells 16) = true ∧
      ∃ order, Completion (fun call => atomicKcas (contended.call call.1 call.2)) (fun _ => 0)
          (AgreesWith twoThreads σ) (trace.filterMap (actionOf twoThreads)) order ∧
        ∀ front back middle, trace = front ++ back →
          Execution twoThreads contended (fun _ => 0) front middle → ∃ done, done <+: order ∧
            Moment twoThreads contended (fun _ => 0) front middle done := by
  obtain ⟨trace, σ, run, orderly, length, marked⟩ := exists_execution twoThreads contended
    (fun _ => 0) [(0, 18)]
    (fun trace σ => (∀ x ∈ trace, Orderly twoThreads x) ∧ trace.length = 18 ∧
      isValueAKcasMarker 64 2 (σ.shared.cells 16) = true) (by decide +kernel)
  exact ⟨trace, σ, run, length, marked, linearizable_at_every_moment contended_rules run orderly⟩

/-! ### What the calls keep -/

/-- A call that takes effect is one of the workload. -/
theorem counted_of_decided (rules : UsageRules P load cells)
    (run : Execution P load cells trace σ) {whole : Trace P} {call : ℕ × ℕ}
    (decided : call ∈ pointsFrom (decidedCall P load whole) [] trace) :
    call.1 < P.numThreads ∧ call.2 < load.count call.1 := by
  obtain ⟨t, n⟩ := call
  obtain ⟨front, x, back, rfl, decides⟩ := mem_points.mp decided
  have reached := reached_of_split rules run
  obtain ⟨within, sequence, claiming⟩ := decides.claiming reached rules
  have counted := (reached.before.shared.row t within (by simp [claiming])).1
  exact ⟨within, sequence ▸ counted⟩

/-- What every successful call does to the memory, whole runs do to what the cells stand
for: a relation that the writes respect holds between the first content of the cells, that
at any moment of an orderly run, and that at any later one. -/
theorem changes_respect (rules : UsageRules P load cells)
    (run : Execution P load cells trace σ) (orderly : ∀ x ∈ trace, Orderly P x)
    (related : (ℕ → ℕ) → (ℕ → ℕ) → Prop) (refl : ∀ memory, related memory memory)
    (trans : ∀ first second third, related first second → related second third →
      related first third)
    (writes : ∀ t < P.numThreads, ∀ n < load.count t, ∀ memory,
      (∀ w < P.numWords, memory ((load.call t n).target w) = (load.call t n).expected w) →
        related memory (writeDesired (load.call t n) memory))
    {front back : Trace P} {middle : Config P.numWords} (split : trace = front ++ back)
    (reached : Execution P load cells front middle) :
    related cells (contentOf P load middle.shared) ∧
      related (contentOf P load middle.shared) (contentOf P load σ.shared) := by
  have steps (call : ℕ × ℕ) (decided : call ∈ pointsFrom (decidedCall P load trace) [] trace)
      (memory : ℕ → ℕ) :
      related memory (atomicKcas (load.call call.1 call.2) memory).1 := by
    obtain ⟨within, counted⟩ := counted_of_decided rules run decided
    unfold atomicKcas
    split
    · rename_i matching
      exact writes _ within _ counted memory matching
    · exact refl memory
  obtain ⟨⟨more, whole⟩, -⟩ := moment_of_orderly rules run orderly split reached
  have first := execute_eq_contentOf rules run orderly split reached
  have last := execute_eq_contentOf rules run orderly (List.append_nil trace).symm run
  rw [← whole] at last steps
  rw [execute_append] at last
  rw [← last, ← first]
  constructor
  · exact execute_relates refl trans
      (fun call done => steps call (List.mem_append_left _ done)) cells
  · exact execute_relates refl trans
      (fun call done => steps call (List.mem_append_right _ done)) _

/-- Both contended cells stand for the same, also while only one of them is set. -/
theorem changes_respect_contended : ∃ (trace : Trace twoThreads) (σ : Config twoThreads.numWords),
    Execution twoThreads contended (fun _ => 0) trace σ ∧
      isValueAKcasMarker 64 2 (σ.shared.cells 16) = true ∧ σ.shared.cells 8 = 1 ∧
      contentOf twoThreads contended σ.shared 8 = contentOf twoThreads contended σ.shared 16 := by
  obtain ⟨trace, σ, run, orderly, marked, set⟩ := exists_execution twoThreads contended
    (fun _ => 0) [(0, 19)]
    (fun trace σ => (∀ x ∈ trace, Orderly twoThreads x) ∧
      isValueAKcasMarker 64 2 (σ.shared.cells 16) = true ∧ σ.shared.cells 8 = 1)
    (by decide +kernel)
  have same (t : ℕ) (within : t < 2) (n : ℕ) (counted : n < contended.count t) (memory : ℕ → ℕ) :
      writeDesired (contended.call t n) memory 8 = writeDesired (contended.call t n) memory 16 := by
    have both : ∀ t < 2, ∀ n < contended.count t,
        (wordAt (contended.call t n) 8).map (contended.call t n).desired = some (t + 1) ∧
          (wordAt (contended.call t n) 16).map (contended.call t n).desired = some (t + 1) := by
      decide +kernel
    obtain ⟨first, second⟩ := both t within n counted
    obtain ⟨i, found, value⟩ := Option.map_eq_some_iff.mp first
    obtain ⟨j, found', value'⟩ := Option.map_eq_some_iff.mp second
    simp only [writeDesired, found, found', value, value']
  have related := changes_respect contended_rules run orderly
    (fun first second => first 8 = first 16 → second 8 = second 16)
    (fun _ equal => equal) (fun _ _ _ one two equal => two (one equal))
    (fun t within n counted memory _ _ => same t within n counted memory)
    (List.append_nil trace).symm run
  exact ⟨trace, σ, run, marked, set, related.1 rfl⟩

end KCas
