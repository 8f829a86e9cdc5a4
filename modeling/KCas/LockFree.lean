import KCas.Progress

/-! Lock-freedom. What a thread that moves alone uses up is weighed by one number, and
so are the stages that all calls have yet to go through. A step of any thread lowers
the sum, unless a call returns with it: as long as no call returns, the others can
only be held up by a bounded number of steps, whatever the schedule. Each return is one
call less to come, and so all calls together are over after a bounded number of steps. -/
namespace KCas

open Labelled

variable {P : Params} {load : Workload P.numWords} {cells : ℕ → ℕ} {s s' : Shared}
  {σ σ' : Config P.numWords} {h t n completed : ℕ} {role : Role} {pc : Pc} {event : Event}
  {frame : Frame P.numWords} {stack rest : List (Frame P.numWords)} {trace steps : Trace P}
  {x : Transition (Config P.numWords) Actor Event}

/-! ### The weight of a call stack -/

/-- More accesses than an activation makes before it changes a stage or helps. -/
def accessBound (P : Params) : ℕ := 14 * P.numWords + 6

/-- The cells not yet waited at, and the accesses of the running activation. -/
def weighCells (P : Params) (rest : ℕ × ℕ) : ℕ := rest.1 * accessBound P + rest.2

/-- Before them, the helped calls that are over. -/
def weighSpent (P : Params) (load : Workload P.numWords) (rest : ℕ × ℕ × ℕ) : ℕ :=
  rest.1 * (((targetAddresses P load).card + 1) * accessBound P) + weighCells P rest.2

/-- What a thread can use up before a stage changes. -/
def stackWeight (P : Params) (load : Workload P.numWords) (s : Shared)
    (stack : List (Frame P.numWords)) : ℕ :=
  weighSpent P load (potential P load s stack).2

/-- A bound for it: help is nested no deeper than there are addresses. -/
def stackBound (P : Params) (load : Workload P.numWords) : ℕ :=
  (2 * (targetAddresses P load).card + 3) *
    (((targetAddresses P load).card + 1) * accessBound P)

theorem spent_le (frame : Frame P.numWords) : frame.spent P s ≤ 2 := by
  have call (t n : ℕ) : spentCall P s t n ≤ 1 := by
    unfold spentCall
    split <;> omega
  have marker (value : ℕ) : spentMarker P s value ≤ 1 := by
    unfold spentMarker
    split
    · exact call _ _
    · exact Nat.zero_le 1
  cases frame with
  | initializing => exact Nat.zero_le 2
  | helpThread value => exact (marker value).trans (Nat.le_succ 1)
  | operating role op pc =>
    refine Nat.add_le_add (show _ ≤ 1 from ?_) (show _ ≤ 1 from ?_)
    · cases role with
      | originator => exact Nat.zero_le 1
      | helper => exact call _ _
    · cases pc with
      | claimVerify => exact marker _
      | _ => exact Nat.zero_le 1

theorem sum_spent_le (stack : List (Frame P.numWords)) :
    (stack.map (Frame.spent P s)).sum ≤ 2 * stack.length := by
  induction stack with
  | nil => exact Nat.le_refl 0
  | cons frame rest ih =>
    have one := spent_le (s := s) frame
    simp only [List.map_cons, List.sum_cons, List.length_cons]
    omega

/-- All activations but the one at the bottom help. -/
theorem length_le_nesting (held : StackOk P load s t n stack) :
    stack.length ≤ nesting stack + 1 := by
  induction stack with
  | nil => exact Nat.zero_le 1
  | cons frame rest ih =>
    cases rest with
    | nil => exact Nat.le_add_left 1 _
    | cons caller rest =>
      obtain ⟨helper, -, below⟩ := held
      have one : nesting [frame] = 1 := by
        cases frame with
        | initializing => exact helper.elim
        | helpThread => rfl
        | operating =>
          obtain ⟨-, -, rfl, -⟩ := helper
          rfl
      rw [nesting_cons, one, List.length_cons]
      have deep := ih below
      omega

theorem remaining_of_pcOk (position : PcOk P load s role t n pc) :
    pc.remaining P.numWords < accessBound P := by
  have closure (next : RevertNext) : next.remaining P.numWords ≤ 3 * P.numWords + 2 := by
    cases next <;> simp only [RevertNext.remaining, Stage.remaining] <;> omega
  unfold accessBound
  cases pc with
  | changeStage current desired next =>
    cases current <;> simp only [Pc.remaining, Stage.remaining] <;> omega
  | revertLoadTarget w next | revertLoadExpected w _ next | revertExchange w _ _ next =>
    have after := closure next
    have inRange := position.1
    simp only [Pc.remaining]
    omega
  | _ =>
    simp only [Pc.remaining, Stage.remaining]
    omega

theorem remaining_lt (within : h < P.numThreads)
    (held : StackOk P load s h completed (frame :: rest)) :
    frame.remaining P.numWords < accessBound P := by
  cases frame with
  | helpThread => exact Nat.lt_succ_self _
  | initializing u v words pc =>
    unfold accessBound
    cases pc <;> simp only [Frame.remaining, InitPc.remaining] <;> omega
  | operating role op pc =>
    obtain ⟨t, n, -, ok⟩ := workOk_of_mem within held List.mem_cons_self
    exact remaining_of_pcOk ok.position

theorem weighCells_lt {after before : ℕ × ℕ} (lower : Prod.Lex (· < ·) (· < ·) after before)
    (bounded : after.2 < accessBound P) : weighCells P after < weighCells P before :=
  weighed_lt (fun accesses => accesses) lower (fun less => less) bounded

/-- The accesses and the cells of a stack are bounded together. -/
theorem weighCells_bounded (accesses : (potential P load s stack).2.2.2 < accessBound P) :
    weighCells P (potential P load s stack).2.2 <
      ((targetAddresses P load).card + 1) * accessBound P := by
  have cells : (potential P load s stack).2.2.1 ≤ (targetAddresses P load).card :=
    Nat.sub_le _ _
  calc weighCells P (potential P load s stack).2.2
      < (potential P load s stack).2.2.1 * accessBound P + accessBound P :=
        Nat.add_lt_add_left accesses _
    _ = ((potential P load s stack).2.2.1 + 1) * accessBound P := (Nat.succ_mul _ _).symm
    _ ≤ ((targetAddresses P load).card + 1) * accessBound P :=
        Nat.mul_le_mul_right _ (Nat.succ_le_succ cells)

theorem accesses_lt (within : h < P.numThreads) (held : StackOk P load s h completed stack) :
    (potential P load s stack).2.2.2 < accessBound P := by
  cases stack with
  | nil => exact Nat.succ_pos _
  | cons frame rest => exact remaining_lt within held

/-- A thread that uses something up, and no stage, weighs less. -/
theorem stackWeight_lt {stack' : List (Frame P.numWords)} (within : h < P.numThreads)
    (held : StackOk P load s' h completed stack')
    (lower : Prod.Lex (· < ·) (Prod.Lex (· < ·) (· < ·)) (potential P load s' stack').2
      (potential P load s stack).2) :
    stackWeight P load s' stack' < stackWeight P load s stack := by
  have accesses := accesses_lt within held
  exact weighed_lt (weighCells P) lower (fun less => weighCells_lt less accesses)
    (weighCells_bounded accesses)

theorem stackWeight_lt_bound (within : h < P.numThreads)
    (held : StackOk P load s h completed stack)
    (nested : nesting stack ≤ (targetAddresses P load).card) :
    stackWeight P load s stack < stackBound P load := by
  have cells : weighCells P (potential P load s stack).2.2 <
      ((targetAddresses P load).card + 1) * accessBound P :=
    weighCells_bounded (accesses_lt within held)
  have spent : (potential P load s stack).2.1 ≤ 2 * (targetAddresses P load).card + 2 := by
    have sum := sum_spent_le (s := s) stack
    have length := length_le_nesting held
    exact sum.trans (by omega)
  have scaled := Nat.mul_le_mul_right
    (((targetAddresses P load).card + 1) * accessBound P) spent
  calc stackWeight P load s stack
      < (potential P load s stack).2.1 * (((targetAddresses P load).card + 1) * accessBound P) +
          ((targetAddresses P load).card + 1) * accessBound P := Nat.add_lt_add_left cells _
    _ ≤ (2 * (targetAddresses P load).card + 2) *
          (((targetAddresses P load).card + 1) * accessBound P) +
          ((targetAddresses P load).card + 1) * accessBound P := Nat.add_le_add_right scaled _
    _ = stackBound P load := (Nat.succ_mul _ _).symm

/-! ### Stages -/

/-- The stage exchanges a thread's next call will bring, before it is published. -/
def entering {numWords : ℕ} : List (Frame numWords) → ℕ
  | [] => 4
  | frame :: rest => ((frame :: rest).map Frame.unpublished).sum

/-- The stages and the calls that are still to be gone through. -/
def stagesAhead (P : Params) (σ : Config P.numWords) : ℕ :=
  pendingStages P σ.shared + ∑ t ∈ Finset.range P.numThreads, entering (σ.threads t).stack

theorem unpublished_le (held : StackOk P load s t n stack) :
    (stack.map Frame.unpublished).sum ≤ 3 := by
  induction stack with
  | nil => exact Nat.zero_le 3
  | cons frame rest ih =>
    cases rest with
    | nil => cases frame <;> simp [Frame.unpublished]
    | cons caller rest =>
      obtain ⟨helper, -, below⟩ := held
      have none : frame.unpublished = 0 := by
        cases frame with
        | initializing => exact helper.elim
        | _ => rfl
      rw [List.map_cons, List.sum_cons, none, Nat.zero_add]
      exact ih below

theorem stagesAhead_le (ok : ConfigOk P load σ) : stagesAhead P σ ≤ 6 * P.numThreads := by
  rw [stagesAhead, pendingStages, ← Finset.sum_add_distrib]
  refine (Finset.sum_le_card_nsmul _ _ 6 ?_).trans (by simp [Nat.mul_comm])
  intro t member
  have stages : (σ.shared.stageOf P t).pending ≤ 2 := by
    cases σ.shared.stageOf P t <;> simp [Stage.pending]
  have calls : entering (σ.threads t).stack ≤ 4 := by
    have held := unpublished_le (ok.callStacks t (Finset.mem_range.mp member))
    generalize (σ.threads t).stack = stack at held
    cases stack with
    | nil => exact Nat.le_refl 4
    | cons frame rest => exact held.trans (Nat.le_succ 3)
  exact Nat.add_le_add stages calls

theorem spentCall_of_pending (none : (s.stageOf P t).pending = 0) : spentCall P s t n = 1 := by
  rw [spentCall, if_neg]
  rintro ⟨-, more⟩
  omega

/-- The store that prepares the next operation uses a stage up, or it leaves a call
that was over already. -/
theorem prepared_stages (within : t < P.numThreads) (fits : n + 1 < 2 ^ P.stageSequenceBits) :
    pendingStages P (s.storeStage t (P.stageWord .inactive (n + 1))) < pendingStages P s ∨
      ∀ u k, spentCall P (s.storeStage t (P.stageWord .inactive (n + 1))) u k =
        spentCall P s u k := by
  have total := pendingStages_storeStage s .inactive within fits
  have none : Stage.inactive.pending = 0 := rfl
  by_cases done : (s.stageOf P t).pending = 0
  · right
    intro u k
    by_cases own : u = t
    · subst own
      rw [spentCall_of_pending done, spentCall_of_pending]
      rw [Shared.stageOf_storeStage_self fits, none]
    · refine if_congr ?_ rfl rfl
      rw [CanBeHelped, CanBeHelped, Shared.stageOf_storeStage_ne own,
        Shared.sequenceOf_storeStage_ne own]
  · left
    omega

/-- A step uses up a stage, or it leaves every call as far as it was. -/
theorem Reached.stages_lt_or (reached : Reached P load cells trace x)
    (rules : UsageRules P load cells) (busy : (x.before.threads x.actor.thread).stack ≠ []) :
    pendingStages P x.after.shared +
        ((x.after.threads x.actor.thread).stack.map Frame.unpublished).sum <
      pendingStages P x.before.shared +
        ((x.before.threads x.actor.thread).stack.map Frame.unpublished).sum ∨
    ∀ t n, spentCall P x.after.shared t n = spentCall P x.before.shared t n := by
  have moves := reached.moves
  have held := reached.before.callStacks _ reached.within
  generalize x.before.threads x.actor.thread = thread at moves held busy ⊢
  generalize x.after.threads x.actor.thread = thread' at moves ⊢
  generalize x.event = event at moves
  generalize x.before.shared = s at moves held ⊢
  generalize x.after.shared = s' at moves ⊢
  cases moves with
  | invoke => exact absurd rfl busy
  | respond => exact .inr fun _ _ => rfl
  | helpReturned => exact .inr fun _ _ => rfl
  | @move completed frame rest _ _ frames moves =>
    cases moves with
    | help => exact .inr fun _ _ => rfl
    | @init u words pc _ _ _ moves =>
      cases rest with
      | cons caller rest => exact held.1.elim
      | nil =>
        obtain ⟨-, rfl, -, counted, inactive, sequence, position⟩ := held
        cases moves with
        | storeStage =>
          obtain ⟨rfl, -⟩ := position
          subst sequence
          have total := pendingStages_storeStage s .claiming reached.within
            (rules.stage_lt reached.within (Nat.le_of_lt counted))
          rw [inactive] at total
          simp only [Stage.pending] at total
          left
          simp only [List.append_nil, List.map_cons, List.map_nil, List.sum_cons, List.sum_nil,
            Frame.unpublished]
          omega
        | _ => exact .inr fun t n => SameRows.spentCall fun _ => ⟨rfl, rfl⟩
    | @operate role t n pc _ _ _ moves =>
      obtain ⟨u, k, same, ok⟩ := workOk_of_mem reached.within held List.mem_cons_self
      obtain ⟨rfl, rfl, -⟩ := (Operation.mk.injEq ..).mp same
      have fits : n + 1 < 2 ^ P.stageSequenceBits := rules.stage_lt ok.call.within ok.call.counted
      cases moves with
      | @stageChanged current desired next sequence stage edge =>
        have total := pendingStages_storeStage s desired ok.call.within (Nat.lt_of_succ_lt fits)
        have less := edge.pending_lt
        rw [stage] at total
        left
        simp only [List.cons_append, List.nil_append, List.map_cons, List.sum_cons,
          Frame.unpublished]
        omega
      | prepared => exact (prepared_stages ok.call.within fits).imp_left fun less =>
          Nat.add_lt_add_right less _
      | _ => exact .inr fun t n => SameRows.spentCall fun _ => ⟨rfl, rfl⟩

/-- The weight of a stack depends on the stages only through the calls that are over. -/
theorem stackWeight_congr (same : ∀ t n, spentCall P s' t n = spentCall P s t n) :
    stackWeight P load s' stack = stackWeight P load s stack := by
  have spent : Frame.spent P s' = Frame.spent P s := by
    funext frame
    cases frame with
    | initializing => rfl
    | helpThread marker => simp only [Frame.spent, spentMarker, same]
    | operating role op pc =>
      cases role <;> cases pc <;> simp only [Frame.spent, spentMarker, same]
  rw [stackWeight, stackWeight, potential, potential, spent]

/-! ### The weight of the system -/

/-- What all threads together can use up. -/
def systemWeight (P : Params) (load : Workload P.numWords) (σ : Config P.numWords) : ℕ :=
  stagesAhead P σ * (P.numThreads * stackBound P load + 1) +
    ∑ t ∈ Finset.range P.numThreads, stackWeight P load σ.shared (σ.threads t).stack

/-- The steps that all threads together can make before a call returns. -/
def responseBound (P : Params) (load : Workload P.numWords) : ℕ :=
  6 * P.numThreads * (P.numThreads * stackBound P load + 1) + P.numThreads * stackBound P load

/-- Nobody helps deeper than there are addresses. -/
def NestedWithin (P : Params) (load : Workload P.numWords) (σ : Config P.numWords) : Prop :=
  ∀ t < P.numThreads, nesting (σ.threads t).stack ≤ (targetAddresses P load).card

theorem stackWeights_le (ok : ConfigOk P load σ) (nested : NestedWithin P load σ) :
    ∑ t ∈ Finset.range P.numThreads, stackWeight P load σ.shared (σ.threads t).stack ≤
      P.numThreads * stackBound P load := by
  refine (Finset.sum_le_card_nsmul _ _ (stackBound P load) ?_).trans (by simp)
  intro t member
  have within := Finset.mem_range.mp member
  exact Nat.le_of_lt (stackWeight_lt_bound within (ok.callStacks t within) (nested t within))

theorem systemWeight_le (ok : ConfigOk P load σ) (nested : NestedWithin P load σ) :
    systemWeight P load σ ≤ responseBound P load :=
  Nat.add_le_add (Nat.mul_le_mul_right _ (stagesAhead_le ok)) (stackWeights_le ok nested)

/-- A stage counts for more than all stacks together. -/
theorem systemWeight_lt_of_stages (ok : ConfigOk P load σ') (nested : NestedWithin P load σ')
    (stages : stagesAhead P σ' < stagesAhead P σ) :
    systemWeight P load σ' < systemWeight P load σ :=
  weighed_lt (fun weight => weight) (.left _ _ stages) (fun less => less)
    (Nat.lt_succ_of_le (stackWeights_le ok nested))

/-- The sum after one of its terms changed. -/
theorem sum_lt_of_one {f g : ℕ → ℕ} {count : ℕ} (within : t < count) (less : f t < g t)
    (others : ∀ u < count, u ≠ t → f u = g u) :
    ∑ u ∈ Finset.range count, f u < ∑ u ∈ Finset.range count, g u := by
  refine Finset.sum_lt_sum (fun u member => ?_) ⟨t, Finset.mem_range.mpr within, less⟩
  by_cases own : u = t
  · exact own ▸ Nat.le_of_lt less
  · exact Nat.le_of_eq (others u (Finset.mem_range.mp member) own)

/-- The stages ahead of the system and of the thread that moves. -/
theorem Reached.stagesAhead_eq (reached : Reached P load cells trace x) : ∃ rest,
    stagesAhead P x.before = pendingStages P x.before.shared +
      entering (x.before.threads x.actor.thread).stack + rest ∧
    stagesAhead P x.after = pendingStages P x.after.shared +
      entering (x.after.threads x.actor.thread).stack + rest := by
  have member := Finset.mem_range.mpr reached.within
  have others : ∑ t ∈ (Finset.range P.numThreads).erase x.actor.thread,
        entering (x.after.threads t).stack =
      ∑ t ∈ (Finset.range P.numThreads).erase x.actor.thread,
        entering (x.before.threads t).stack :=
    Finset.sum_congr rfl fun t other => by rw [reached.others t (Finset.ne_of_mem_erase other)]
  refine ⟨∑ t ∈ (Finset.range P.numThreads).erase x.actor.thread,
    entering (x.before.threads t).stack, ?_, ?_⟩
  · rw [stagesAhead, ← Finset.add_sum_erase _ _ member, Nat.add_assoc]
  · rw [stagesAhead, ← Finset.add_sum_erase _ _ member, Nat.add_assoc, others]

/-- A step that uses up no stage changes the weight of one stack. -/
theorem Reached.systemWeight_lt_of_stack (reached : Reached P load cells trace x)
    (stages : stagesAhead P x.after = stagesAhead P x.before)
    (same : ∀ t n, spentCall P x.after.shared t n = spentCall P x.before.shared t n)
    (less : stackWeight P load x.after.shared (x.after.threads x.actor.thread).stack <
      stackWeight P load x.before.shared (x.before.threads x.actor.thread).stack) :
    systemWeight P load x.after < systemWeight P load x.before := by
  rw [systemWeight, systemWeight, stages]
  refine Nat.add_lt_add_left (sum_lt_of_one reached.within less fun t _ other => ?_) _
  rw [reached.others t other, stackWeight_congr same]

theorem Reached.keepsBusy (reached : Reached P load cells trace x)
    (busy : (x.before.threads x.actor.thread).stack ≠ [])
    (calm : ∀ result, x.event ≠ .responded result) :
    (x.after.threads x.actor.thread).stack ≠ [] := by
  cases reached.callStep x.actor.thread with
  | kept none same stack => exact fun ended => busy (stack.mp ended)
  | invoked action same idle => exact absurd idle busy
  | responded responds => exact absurd responds.2.2 (calm _)

theorem entering_of_busy (busy : stack ≠ []) :
    entering stack = (stack.map Frame.unpublished).sum := by
  cases stack with
  | nil => exact absurd rfl busy
  | cons => rfl

/-- Every step lowers the weight of the system, unless a call returns with it. -/
theorem systemWeight_lt (reached : Reached P load cells trace x) (rules : UsageRules P load cells)
    (marks : MarksOk P load x.before.shared) (firm : Firm x.event)
    (nested : NestedWithin P load x.after) (calm : ∀ result, x.event ≠ .responded result) :
    systemWeight P load x.after < systemWeight P load x.before := by
  obtain ⟨rest, before, after⟩ := reached.stagesAhead_eq
  have ofStages (less : pendingStages P x.after.shared +
        entering (x.after.threads x.actor.thread).stack <
      pendingStages P x.before.shared + entering (x.before.threads x.actor.thread).stack) :
      systemWeight P load x.after < systemWeight P load x.before :=
    systemWeight_lt_of_stages reached.after nested (by omega)
  by_cases busy : (x.before.threads x.actor.thread).stack = []
  · refine ofStages ?_
    have moves := reached.moves
    generalize x.before.threads x.actor.thread = thread at moves busy ⊢
    generalize x.after.threads x.actor.thread = thread' at moves ⊢
    generalize x.event = event at moves
    generalize x.after.shared = s' at moves ⊢
    cases moves with
    | invoke => simp [entering, Frame.unpublished]
    | respond | helpReturned | move => cases busy
  · have onward := reached.keepsBusy busy calm
    rw [entering_of_busy onward] at after ofStages
    rw [entering_of_busy busy] at before ofStages
    rcases reached.stages_lt_or rules busy with less | same
    · exact ofStages less
    · rcases lower_of_step reached rules marks firm busy (nested _ reached.within) with
        ⟨result, responds⟩ | lower
      · exact absurd responds.2.2 (calm result)
      · rcases Prod.lex_def.mp lower with less | ⟨stages, lower⟩
        · exact ofStages less
        · have held := reached.after.callStacks _ reached.within
          simp only [potential] at stages
          exact reached.systemWeight_lt_of_stack (by omega) same
            (stackWeight_lt reached.within held lower)

/-! ### Lock-freedom -/

/-- The steps of a run in which helpers are not late and no weak exchange fails without a
reason. -/
structure Steady (P : Params) (steps : Trace P) : Prop where
  orderly : ∀ x ∈ steps, Orderly P x
  firm : ∀ x ∈ steps, x.actor.spurious = false

/-- A step of an orderly run is held up by nobody: it lowers the weight, or a call returns. -/
theorem Reached.weight_lt_of_calm (reached : Reached P load cells trace x)
    (rules : UsageRules P load cells) (ordered : GlobalOrder P load)
    (orderly : ∀ y ∈ trace, Orderly P y) (strong : x.actor.spurious = false)
    (calm : ∀ result, x.event ≠ .responded result) :
    systemWeight P load x.after < systemWeight P load x.before :=
  systemWeight_lt reached rules (marksOk_of_orderly rules reached.run orderly).2
    (reached.firm strong)
    (fun _ within => nesting_bounded rules ordered (reached.run.snoc reached.taken) within) calm

/-- Whatever the schedule, a call returns before the threads together have made
`responseBound` steps, and no thread with a call in progress is ever stuck. -/
theorem lock_free (rules : UsageRules P load cells) (ordered : GlobalOrder P load)
    (run : Execution P load cells trace σ) (orderly : ∀ x ∈ trace, Orderly P x)
    (onward : Run (step P load) σ steps σ') (steady : Steady P steps)
    (calm : ∀ x ∈ steps, ∀ result, x.event ≠ .responded result) :
    steps.length ≤ responseBound P load ∧ ∀ t < P.numThreads, (σ'.threads t).stack ≠ [] →
      ∀ spurious, ∃ event σ'', step P load σ' ⟨t, spurious⟩ = some (event, σ'') := by
  have whole := run.append onward
  constructor
  · have lowers : ∀ x ∈ steps, systemWeight P load x.after < systemWeight P load x.before := by
      intro x member
      obtain ⟨front, back, rfl⟩ := List.append_of_mem member
      have reached : Reached P load cells (trace ++ front) x :=
        reached_of_split rules (by simpa using whole)
      refine reached.weight_lt_of_calm rules ordered ?_ (steady.firm x member) (calm x member)
      intro y before
      rcases List.mem_append.mp before with earlier | inFront
      · exact orderly y earlier
      · exact steady.orderly y (List.mem_append_left _ inFront)
    have few := onward.length_le_of_lowers (systemWeight P load) lowers
    have most := systemWeight_le (configOk_of_execution rules run)
      fun t within => nesting_bounded rules ordered run within
    omega
  · exact fun t within busy spurious => exists_step (configOk_of_execution rules whole)
      (awake_of_execution rules whole) within busy spurious

/-- The second thread has begun to help the first one, and nobody has returned. -/
theorem lock_free_contended : ∃ (steps : Trace twoThreads) (σ : Config twoThreads.numWords),
    Execution twoThreads contended (fun _ => 0) steps σ ∧ nesting (σ.threads 1).stack = 1 ∧
      steps.length ≤ responseBound twoThreads contended ∧ ∀ t < 2, (σ.threads t).stack ≠ [] →
        ∀ spurious, ∃ event σ', step twoThreads contended σ ⟨t, spurious⟩ = some (event, σ') := by
  obtain ⟨steps, σ, run, orderly, firm, calm, helping⟩ := exists_execution twoThreads contended
    (fun _ => 0) [(0, 18), (1, 16)]
    (fun steps σ => (∀ x ∈ steps, Orderly twoThreads x) ∧ (∀ x ∈ steps, x.actor.spurious = false) ∧
      (∀ x ∈ steps, x.event.isResponse = false) ∧ nesting (σ.threads 1).stack = 1)
    (by decide +kernel)
  refine ⟨steps, σ, run, helping, lock_free contended_rules
    (globalOrder_of_ascending (by decide +kernel)) .refl (by simp) run ⟨orderly, firm⟩ ?_⟩
  intro x member result responded
  have none := calm x member
  rw [responded] at none
  cases none

/-! ### All calls return -/

/-- The calls that have yet to return. -/
def callsAhead (P : Params) (load : Workload P.numWords) (σ : Config P.numWords) : ℕ :=
  ∑ t ∈ Finset.range P.numThreads, (load.count t - (σ.threads t).completed)

/-- What all threads together can use up until the last call has returned. -/
def workAhead (P : Params) (load : Workload P.numWords) (σ : Config P.numWords) : ℕ :=
  callsAhead P load σ * (responseBound P load + 1) + systemWeight P load σ

/-- The steps that all threads together can make, by the number of calls. -/
def workBound (P : Params) (load : Workload P.numWords) : ℕ :=
  ((∑ t ∈ Finset.range P.numThreads, load.count t) + 1) * (responseBound P load + 1)

theorem Reached.callsAhead_lt {result : Except Error Unit}
    (reached : Reached P load cells trace x) (responds : x.event = .responded result) :
    callsAhead P load x.after < callsAhead P load x.before := by
  refine sum_lt_of_one reached.within ?_ fun t _ other => by rw [reached.others t other]
  have next := reached.completed_responded ⟨rfl, rfl, responds⟩
  have few := (reached.after.completed_le reached.within).trans
    (reached.after.shared.bound _ reached.within)
  omega

/-- Only a call that returns is no longer ahead. -/
theorem Reached.callsAhead_eq (reached : Reached P load cells trace x)
    (calm : ∀ result, x.event ≠ .responded result) :
    callsAhead P load x.after = callsAhead P load x.before := by
  refine Finset.sum_congr rfl fun t _ => ?_
  rcases reached.completed t with same | ⟨result, ⟨-, -, responds⟩, -⟩
  · rw [same]
  · exact absurd responds (calm result)

/-- A call that returns makes up for all that the others can use up anew. -/
theorem Reached.workAhead_lt (reached : Reached P load cells trace x)
    (rules : UsageRules P load cells) (ordered : GlobalOrder P load)
    (orderly : ∀ y ∈ trace, Orderly P y) (strong : x.actor.spurious = false) :
    workAhead P load x.after < workAhead P load x.before := by
  have lower : Prod.Lex (· < ·) (· < ·) (callsAhead P load x.after, systemWeight P load x.after)
      (callsAhead P load x.before, systemWeight P load x.before) := by
    by_cases calm : ∀ result, x.event ≠ .responded result
    · rw [reached.callsAhead_eq calm]
      exact .right _ (reached.weight_lt_of_calm rules ordered orderly strong calm)
    · push Not at calm
      obtain ⟨result, responds⟩ := calm
      exact .left _ _ (reached.callsAhead_lt responds)
  have most := systemWeight_le reached.after
    fun _ within => nesting_bounded rules ordered (reached.run.snoc reached.taken) within
  exact weighed_lt (fun weight => weight) lower (fun less => less) (Nat.lt_succ_of_le most)

/-- A thread that cannot move has no calls left. -/
theorem idle_of_stuck (rules : UsageRules P load cells) (run : Execution P load cells trace σ)
    (within : t < P.numThreads) {spurious : Bool} (stuck : step P load σ ⟨t, spurious⟩ = none) :
    (σ.threads t).stack = [] ∧ load.count t ≤ (σ.threads t).completed := by
  have idle : (σ.threads t).stack = [] := by
    by_contra busy
    obtain ⟨event, σ', stepped⟩ := exists_step (configOk_of_execution rules run)
      (awake_of_execution rules run) within busy spurious
    rw [stepped] at stuck
    cases stuck
  refine ⟨idle, Nat.le_of_not_lt fun more => ?_⟩
  simp [step, within, idle, more] at stuck

/-- No schedule keeps the threads busy forever: together they make fewer than `workBound`
steps, and one that cannot make another has returned from each of its calls. -/
theorem all_calls_return (rules : UsageRules P load cells) (ordered : GlobalOrder P load)
    (run : Execution P load cells trace σ) (steady : Steady P trace) :
    trace.length < workBound P load ∧ ∀ t < P.numThreads, ∀ spurious,
      step P load σ ⟨t, spurious⟩ = none → (σ.threads t).stack = [] ∧
        ∀ n < load.count t, ∃ x ∈ trace, ∃ result, Responds P x t n result := by
  constructor
  · have lowers : ∀ x ∈ trace, workAhead P load x.after < workAhead P load x.before := by
      intro x member
      obtain ⟨front, back, rfl, reached⟩ := reached_of_mem rules run member
      exact reached.workAhead_lt rules ordered
        (fun y before => steady.orderly y (List.mem_append_left _ before)) (steady.firm x member)
    have few := run.length_le_of_lowers (workAhead P load) lowers
    have most := systemWeight_le (configOk_of_execution rules (.refl : Execution P load cells _ _))
      fun _ within => nesting_bounded rules ordered (.refl : Execution P load cells _ _) within
    calc trace.length
        ≤ workAhead P load (Config.initial P.numWords cells) := Nat.le_of_add_right_le few
      _ < callsAhead P load (Config.initial P.numWords cells) * (responseBound P load + 1) +
            (responseBound P load + 1) := Nat.add_lt_add_left (Nat.lt_succ_of_le most) _
      _ = workBound P load := (Nat.succ_mul _ _).symm
  · intro t within spurious stuck
    obtain ⟨idle, all⟩ := idle_of_stuck rules run within stuck
    exact ⟨idle, fun n counted =>
      (callHistory_of_execution rules run t).responded n (Nat.lt_of_lt_of_le counted all)⟩

/-- Two calls on the same cells: the threads come to a stop, and both have returned. -/
theorem all_calls_return_contended :
    ∃ (trace : Trace twoThreads) (σ : Config twoThreads.numWords),
      Execution twoThreads contended (fun _ => 0) trace σ ∧ trace.length = 58 ∧
        trace.length < workBound twoThreads contended ∧ ∀ t < 2,
          ∃ x ∈ trace, ∃ result, Responds twoThreads x t 0 result := by
  obtain ⟨trace, σ, run, orderly, firm, length, stuck⟩ := exists_execution twoThreads contended
    (fun _ => 0) contendedTurns
    (fun trace σ => (∀ x ∈ trace, Orderly twoThreads x) ∧
      (∀ x ∈ trace, x.actor.spurious = false) ∧ trace.length = 58 ∧
      ∀ t ∈ List.range 2, (step twoThreads contended σ ⟨t, false⟩).isNone = true)
    (by decide +kernel)
  obtain ⟨few, returned⟩ := all_calls_return contended_rules
    (globalOrder_of_ascending (by decide +kernel)) run ⟨orderly, firm⟩
  exact ⟨trace, σ, run, length, few, fun t within =>
    (returned t within false (Option.isNone_iff_eq_none.mp
      (stuck t (List.mem_range.mpr within)))).2 0 (by decide +revert)⟩

end KCas
