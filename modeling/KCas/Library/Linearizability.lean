import Mathlib.Data.List.Induction
import Mathlib.Data.List.Nodup
import KCas.Library.Run

/-! Linearizability of a history of overlapping calls on an object with a
sequential specification, and the rule that proves it for the runs of a system:
give every call one step of the run, between its invocation and its response,
at which the abstract state changes as the specification says. -/
namespace Linearizability

open Labelled

variable {ι ρ μ : Type}

/-- What a client sees: calls named by `ι` begin, and return a result. -/
inductive Action (ι ρ : Type) where
  | invoke (call : ι)
  | respond (call : ι) (result : ρ)
  deriving DecidableEq

/-- The calls executed one at a time: their results, and the state at the end. -/
def execute (apply : ι → μ → μ × ρ) : List ι → μ → List (ι × ρ) × μ
  | [], state => ([], state)
  | call :: rest, state =>
    let (after, result) := apply call state
    let (results, last) := execute apply rest after
    ((call, result) :: results, last)

/-- An order of calls that explains a history: executing the calls in it gives the
results they returned and an allowed final state. -/
structure Explanation (apply : ι → μ → μ × ρ) (start : μ) (final : μ → Prop)
    (history : List (Action ι ρ)) (order : List ι) : Prop where
  nodup : order.Nodup
  results : ∀ call result, .respond call result ∈ history →
    (call, result) ∈ (execute apply order start).1
  ends : final (execute apply order start).2

/-- A total order of the calls of a history that explains it and extends the real-time
order. -/
structure Linearization (apply : ι → μ → μ × ρ) (start : μ) (final : μ → Prop)
    (history : List (Action ι ρ)) (order : List ι) : Prop
    extends Explanation apply start final history order where
  complete : ∀ call, call ∈ order ↔ .invoke call ∈ history
  realTime : ∀ first result second,
    List.Sublist [.respond first result, .invoke second] history →
    List.Sublist [first, second] order

/-- A total order of the calls that took effect in a history whose last calls may still
be in progress: of these it may have some, and it has every call that returned. -/
structure Completion (apply : ι → μ → μ × ρ) (start : μ) (final : μ → Prop)
    (history : List (Action ι ρ)) (order : List ι) : Prop
    extends Explanation apply start final history order where
  invoked : ∀ call ∈ order, .invoke call ∈ history
  realTime : ∀ first result second,
    List.Sublist [.respond first result, .invoke second] history → second ∈ order →
    List.Sublist [first, second] order

def Linearizable (apply : ι → μ → μ × ρ) (start : μ) (final : μ → Prop)
    (history : List (Action ι ρ)) : Prop :=
  ∃ order, Linearization apply start final history order

theorem execute_append (apply : ι → μ → μ × ρ) (first second : List ι) (state : μ) :
    execute apply (first ++ second) state =
      ((execute apply first state).1 ++ (execute apply second (execute apply first state).2).1,
        (execute apply second (execute apply first state).2).2) := by
  induction first generalizing state with
  | nil => rfl
  | cons call rest ih => simp [execute, ih]

/-- What holds between the state before and after each call holds between the first and
the last one. -/
theorem execute_relates {apply : ι → μ → μ × ρ} {related : μ → μ → Prop}
    (refl : ∀ state, related state state)
    (trans : ∀ first second third, related first second → related second third →
      related first third) {order : List ι}
    (steps : ∀ call ∈ order, ∀ state, related state (apply call state).1) (state : μ) :
    related state (execute apply order state).2 := by
  induction order generalizing state with
  | nil => exact refl state
  | cons call rest ih =>
    have first := steps call List.mem_cons_self state
    have later := ih (fun call member => steps call (List.mem_cons_of_mem _ member))
      (apply call state).1
    exact trans _ _ _ first later

/-! ### Linearization points -/

section Points

variable {σ α ε : Type} {step : System σ α ε} {start finish : σ}
  {trace front back : List (Transition σ α ε)} {x : Transition σ α ε}
  (point : List (Transition σ α ε) → Transition σ α ε → Option ι)

/-- The calls in the order of their points. A point is recognised by the step
and the steps before it. -/
def pointsFrom (front : List (Transition σ α ε)) : List (Transition σ α ε) → List ι
  | [] => []
  | x :: rest => (point front x).toList ++ pointsFrom (front ++ [x]) rest

theorem pointsFrom_append (first second : List (Transition σ α ε)) :
    pointsFrom point front (first ++ second) =
      pointsFrom point front first ++ pointsFrom point (front ++ first) second := by
  induction first generalizing front with
  | nil => simp [pointsFrom]
  | cons x rest ih => simp [pointsFrom, ih]

theorem mem_pointsFrom {call : ι} : call ∈ pointsFrom point front trace ↔
    ∃ before x after, trace = before ++ x :: after ∧ point (front ++ before) x = some call := by
  induction trace generalizing front with
  | nil => simp [pointsFrom]
  | cons x rest ih =>
    rw [pointsFrom, List.mem_append, ih, Option.mem_toList]
    constructor
    · rintro (here | ⟨before, y, after, rfl, later⟩)
      · exact ⟨[], x, rest, rfl, by simpa using here⟩
      · exact ⟨x :: before, y, after, rfl, by simpa using later⟩
    · rintro ⟨before, y, after, split, at_⟩
      cases before with
      | nil =>
        obtain ⟨rfl, rfl⟩ := (List.cons.injEq ..).mp split
        exact .inl (by simpa using at_)
      | cons z before =>
        obtain ⟨rfl, rfl⟩ := (List.cons.injEq ..).mp split
        exact .inr ⟨before, y, after, rfl, by simpa using at_⟩

variable {point}

/-- Executing the calls in the order of their points follows the run, if a step
that is no point keeps the abstract state and a point does what its call does. -/
theorem execute_points {apply : ι → μ → μ × ρ} {abstract : σ → μ} {result : ι → ρ}
    (run : Run step start trace finish)
    (quiet : ∀ front x back, trace = front ++ x :: back → point front x = none →
      abstract x.after = abstract x.before)
    (acts : ∀ front x back call, trace = front ++ x :: back → point front x = some call →
      apply call (abstract x.before) = (abstract x.after, result call)) :
    execute apply (pointsFrom point [] trace) (abstract start) =
      ((pointsFrom point [] trace).map fun call => (call, result call), abstract finish) := by
  induction run with
  | refl => rfl
  | @snoc trace middle actor event finish earlier stepped ih =>
    have before := ih
      (fun front x back split =>
        quiet front x (back ++ [⟨middle, actor, event, finish⟩]) (by simp [split]))
      (fun front x back call split =>
        acts front x (back ++ [⟨middle, actor, event, finish⟩]) call (by simp [split]))
    rw [pointsFrom_append, execute_append, before, List.nil_append]
    cases here : point trace ⟨middle, actor, event, finish⟩ with
    | none =>
      have last := quiet trace _ [] rfl here
      simp [pointsFrom, here, execute, last]
    | some call =>
      have last := acts trace _ [] call rfl here
      simp [pointsFrom, here, execute, last]

theorem exists_split_of_sublist {β : Type} {f : Transition σ α ε → Option β} {first second : β}
    (sublist : List.Sublist [first, second] (trace.filterMap f)) :
    ∃ front x mid y back, trace = front ++ x :: mid ++ y :: back ∧ f x = some first ∧
      f y = some second := by
  induction trace with
  | nil => cases sublist
  | cons z rest ih =>
    cases here : f z with
    | none =>
      rw [List.filterMap_cons_none here] at sublist
      obtain ⟨front, x, mid, y, back, rfl, atX, atY⟩ := ih sublist
      exact ⟨z :: front, x, mid, y, back, rfl, atX, atY⟩
    | some value =>
      rw [List.filterMap_cons_some here] at sublist
      cases sublist with
      | cons _ later =>
        obtain ⟨front, x, mid, y, back, rfl, atX, atY⟩ := ih later
        exact ⟨z :: front, x, mid, y, back, rfl, atX, atY⟩
      | cons_cons _ later =>
        obtain ⟨y, member, atY⟩ := List.mem_filterMap.mp (List.singleton_sublist.mp later)
        obtain ⟨mid, back, rfl⟩ := List.append_of_mem member
        exact ⟨[], z, mid, y, back, rfl, here, atY⟩

theorem nodup_pointsFrom (once : ∀ front x back call, trace = front ++ x :: back →
    point front x = some call → call ∉ pointsFrom point [] front) :
    (pointsFrom point [] trace).Nodup := by
  induction trace using List.reverseRecOn with
  | nil => exact List.nodup_nil
  | append_singleton rest x ih =>
    rw [pointsFrom_append]
    have before := ih fun front y back call split =>
      once front y (back ++ [x]) call (by simp [split])
    cases here : point rest x with
    | none => simpa [pointsFrom, here] using before
    | some call =>
      have fresh := once rest x [] call rfl here
      simp only [pointsFrom, List.nil_append, here, Option.toList_some, List.append_nil]
      exact List.nodup_append.mpr ⟨before, List.nodup_singleton _, fun a inFront b isCall => by
        obtain rfl := List.mem_singleton.mp isCall
        rintro rfl
        exact fresh inFront⟩

/-- Points of a run: what a choice of one step for each call that took effect must
satisfy. The run may end inside calls: those that have no point yet have not taken effect.
`action` is what a client sees of a step. -/
structure PartialPoints (apply : ι → μ → μ × ρ) (abstract : σ → μ) (result : ι → ρ)
    (point : List (Transition σ α ε) → Transition σ α ε → Option ι)
    (action : Transition σ α ε → Option (Action ι ρ)) (trace : List (Transition σ α ε)) : Prop where
  quiet : ∀ front x back, trace = front ++ x :: back → point front x = none →
    abstract x.after = abstract x.before
  acts : ∀ front x back call, trace = front ++ x :: back → point front x = some call →
    apply call (abstract x.before) = (abstract x.after, result call)
  once : ∀ front x back call, trace = front ++ x :: back → point front x = some call →
    call ∉ pointsFrom point [] front
  afterInvocation : ∀ front x back call, trace = front ++ x :: back →
    action x = some (.invoke call) → call ∉ pointsFrom point [] front
  beforeResponse : ∀ front x back call returned, trace = front ++ x :: back →
    action x = some (.respond call returned) →
    call ∈ pointsFrom point [] front ∧ returned = result call
  invoked : ∀ front back, trace = front ++ back → ∀ call ∈ pointsFrom point [] front,
    ∃ x ∈ front, action x = some (.invoke call)

/-- Linearization points: every call of the run has one. -/
structure LinearizationPoints (apply : ι → μ → μ × ρ) (abstract : σ → μ) (result : ι → ρ)
    (point : List (Transition σ α ε) → Transition σ α ε → Option ι)
    (action : Transition σ α ε → Option (Action ι ρ)) (trace : List (Transition σ α ε)) : Prop
    extends PartialPoints apply abstract result point action trace where
  complete : ∀ call, (∃ x ∈ trace, action x = some (.invoke call)) →
    call ∈ pointsFrom point [] trace

variable {apply : ι → μ → μ × ρ} {abstract : σ → μ} {result : ι → ρ}
  {action : Transition σ α ε → Option (Action ι ρ)} {final : μ → Prop}

/-- At every moment of the run the calls with a point so far lead to its state. -/
theorem PartialPoints.execute_front {middle : σ}
    (points : PartialPoints apply abstract result point action (front ++ back))
    (reached : Run step start front middle) :
    execute apply (pointsFrom point [] front) (abstract start) =
      ((pointsFrom point [] front).map fun call => (call, result call), abstract middle) := by
  refine execute_points reached ?_ ?_
  · rintro before x after rfl
    exact points.quiet before x (after ++ back) (by simp)
  · rintro before x after call rfl
    exact points.acts before x (after ++ back) call (by simp)

theorem PartialPoints.done_of_responded {call : ι} {returned : ρ}
    (points : PartialPoints apply abstract result point action (front ++ back))
    (responded : .respond call returned ∈ front.filterMap action) :
    call ∈ pointsFrom point [] front ∧ returned = result call := by
  obtain ⟨x, inTrace, atX⟩ := List.mem_filterMap.mp responded
  obtain ⟨before, after, rfl⟩ := List.append_of_mem inTrace
  obtain ⟨done, same⟩ :=
    points.beforeResponse before x (after ++ back) call returned (by simp) atX
  refine ⟨?_, same⟩
  rw [pointsFrom_append]
  exact List.mem_append_left _ done

/-- Points of a run that may end inside calls explain the calls that took effect. -/
theorem completion_of_points (run : Run step start trace finish)
    (points : PartialPoints apply abstract result point action trace)
    (ends : final (abstract finish)) :
    Completion apply (abstract start) final (trace.filterMap action)
      (pointsFrom point [] trace) := by
  rw [← List.append_nil trace] at points
  refine ⟨⟨nodup_pointsFrom (by simpa using points.once), ?_, ?_⟩, ?_, ?_⟩
  · intro call returned responded
    obtain ⟨done, rfl⟩ := points.done_of_responded responded
    rw [points.execute_front run]
    exact List.mem_map.mpr ⟨call, done, rfl⟩
  · rw [points.execute_front run]
    exact ends
  · intro call taken
    exact List.mem_filterMap.mpr (points.invoked trace [] rfl call taken)
  · intro first returned second sublist taken
    rw [List.append_nil] at points
    obtain ⟨front, x, mid, y, back, rfl, atX, atY⟩ := exists_split_of_sublist sublist
    have done := (points.beforeResponse front x (mid ++ y :: back) first returned (by simp) atX).1
    have notYet := points.afterInvocation (front ++ x :: mid) y back second rfl atY
    have early : first ∈ pointsFrom point [] (front ++ x :: mid) := by
      rw [pointsFrom_append]
      exact List.mem_append_left _ done
    rw [pointsFrom_append] at taken ⊢
    have late := (List.mem_append.mp taken).resolve_left notYet
    exact (List.singleton_sublist.mpr early).append (List.singleton_sublist.mpr late)

/-- Linearization points make a run's history linearizable. -/
theorem linearizable_of_points (run : Run step start trace finish)
    (points : LinearizationPoints apply abstract result point action trace)
    (ends : final (abstract finish)) :
    Linearizable apply (abstract start) final (trace.filterMap action) := by
  have explained := completion_of_points run points.toPartialPoints ends
  have complete (call : ι) (invoked : .invoke call ∈ trace.filterMap action) :
      call ∈ pointsFrom point [] trace :=
    points.complete call (List.mem_filterMap.mp invoked)
  refine ⟨_, explained.toExplanation, fun call => ⟨explained.invoked call, complete call⟩, ?_⟩
  intro first returned second sublist
  have invoked := sublist.subset (List.mem_cons_of_mem _ (List.mem_singleton.mpr rfl))
  exact explained.realTime first returned second sublist (complete second invoked)

end Points

end Linearizability
