import KCas.Library.Run
import KCas.Program

/-! The system of all threads on one `State`. Each thread id makes its calls one
after another; a run interleaves the atomic accesses of all of them in any
order. -/
namespace KCas

open Labelled

/-- The calls each thread id makes: how many, and the words of the `n`-th one.
A run fixes the arguments of at most that many calls, so a statement about every
workload covers every choice of arguments, whatever it depends on. -/
structure Workload (numWords : ℕ) where
  count : ℕ → ℕ
  call : ℕ → ℕ → KCasWords numWords

/-- A thread id: the calls that have returned, and the stack of the one in
progress with the running activation first. -/
structure Thread (numWords : ℕ) where
  completed : ℕ
  stack : List (Frame numWords)

structure Config (numWords : ℕ) where
  shared : Shared
  threads : ℕ → Thread numWords

/-- Who moves next, and whether a weak exchange fails without a reason. -/
structure Actor where
  thread : ℕ
  spurious : Bool
  deriving DecidableEq

/-- `State::new()` and cells with the given content; nobody has called yet. -/
def Config.initial (numWords : ℕ) (cells : ℕ → ℕ) : Config numWords where
  shared := ⟨cells, State.new⟩
  threads := fun _ => ⟨0, []⟩

/-- One step of one thread: it enters its next call, or moves in the current. -/
def step (P : Params) (load : Workload P.numWords) : System (Config P.numWords) Actor Event :=
  fun σ actor =>
    let t := actor.thread
    let thread := σ.threads t
    if t < P.numThreads then
      match thread.stack with
      | [] =>
        if thread.completed < load.count t then
          let words := load.call t thread.completed
          some (.invoked, { σ with
            threads := Function.update σ.threads t
              ⟨thread.completed, [kcas P (convertThreadIndexToThreadId t) words]⟩ })
        else none
      | frame :: rest =>
        match stackStep P σ.shared actor.spurious (frame :: rest) with
        | none => none
        | some outcome =>
          let completed :=
            if outcome.frames.isEmpty then thread.completed + 1 else thread.completed
          some (outcome.event,
            { shared := outcome.shared
              threads := Function.update σ.threads t ⟨completed, outcome.frames⟩ })
    else none

/-- The runs of a workload from cells with the given content. -/
abbrev Execution (P : Params) (load : Workload P.numWords) (cells : ℕ → ℕ) :=
  Run (step P load) (Config.initial P.numWords cells)

/-! ### Systems given by lists -/

/-- Turns of threads without spurious failures: who moves, and how many steps. -/
def turns (schedule : List (ℕ × ℕ)) : List Actor :=
  schedule.flatMap fun (thread, steps) => List.replicate steps ⟨thread, false⟩

instance {numWords : ℕ} : Inhabited (KCasWords numWords) :=
  ⟨fun _ => ⟨1, 0, 0, Nat.one_ne_zero⟩⟩

/-- The calls of each thread id, given as lists. -/
def Workload.ofCalls {numWords : ℕ} (calls : List (List (KCasWords numWords))) :
    Workload numWords where
  count t := (calls.getD t []).length
  call t n := (calls.getD t []).getD n default

/-- A schedule that can be taken to a checked end is a run to there. -/
theorem exists_execution (P : Params) (load : Workload P.numWords) (cells : ℕ → ℕ)
    (schedule : List (ℕ × ℕ))
    (check : List (Transition (Config P.numWords) Actor Event) → Config P.numWords → Prop)
    [∀ trace σ, Decidable (check trace σ)]
    (passed : (replay (step P load) (Config.initial P.numWords cells) (turns schedule)).any
      (fun ended => check ended.1 ended.2) = true) :
    ∃ trace σ, Execution P load cells trace σ ∧ check trace σ :=
  exists_run_of_replay _ _ _ check passed

end KCas
