import KCas.Progress

/-! Help that is over. When `help_thread` returns, the call it was entered for is decided
and its marker is in no cell, for good, whoever did the work; so the thread that helped
does not come to that marker again. It enters help for one call twice only while the first
help is still underway, further down its call stack. -/
namespace KCas

open Labelled

variable {P : Params} {load : Workload P.numWords} {cells : ℕ → ℕ} {s s' : Shared}
  {σ : Config P.numWords} {owner h t n value address completed : ℕ} {role : Role} {pc : Pc}
  {op : Operation} {event : Event} {frame : Frame P.numWords}
  {frames stack rest : List (Frame P.numWords)} {trace front back : Trace P}
  {x : Transition (Config P.numWords) Actor Event}

/-- The marker that a step enters `help_thread` for. -/
def entersHelp (x : Transition (Config P.numWords) Actor Event) : Option ℕ :=
  match (x.after.threads x.actor.thread).stack with
  | .helpThread marker :: _ => some marker
  | _ => none

/-- The operation for which a step returns from `help_thread`. -/
def leavesHelp (x : Transition (Config P.numWords) Actor Event) : Option Operation :=
  match (x.before.threads x.actor.thread).stack with
  | .operating .helper op (.returned _) :: _ => some op
  | _ => none

/-- Thread index `h` returns from its help for call `n` of thread index `t`. -/
def HelpReturns (P : Params) (x : Transition (Config P.numWords) Actor Event) (h t n : ℕ) : Prop :=
  x.actor.thread = h ∧ leavesHelp x = some (P.operation t n)

instance : Decidable (HelpReturns P x h t n) := inferInstanceAs (Decidable (_ ∧ _))

/-- How often thread index `h` entered `help_thread` for call `n` of thread index `t`. -/
def helpEntries (P : Params) (trace : Trace P) (h t n : ℕ) : ℕ :=
  trace.countP fun x => x.actor.thread = h ∧ entersHelp x = some (P.marker t n)

/-! ### Calls that are over -/

/-- The call whose marker is in a cell can be helped. -/
theorem MarksOk.canBeHelped (marks : MarksOk P load s) (shared : SharedOk P load s)
    (rules : UsageRules P load cells) (within : t < P.numThreads) (counted : n < load.count t)
    (held : s.cells address = P.marker t n) : CanBeHelped P s t n := by
  have unspent := marks.spentMarker_cell shared rules address
  rw [held, spentMarker_marker within (rules.marker_lt within counted), spentCall] at unspent
  by_contra done
  rw [if_neg done] at unspent
  cases unspent

/-- A call that is over stays so. -/
theorem CanBeHelped.earlier (evo : Evolves P load owner s s') (call : CallOk P load s t n)
    (later : CanBeHelped P s' t n) : CanBeHelped P s t n := by
  obtain ⟨current, more⟩ := later
  obtain ⟨same, -, kept | edge⟩ := evo.current_back call.within call.started current
  · exact ⟨same, kept ▸ more⟩
  · exact ⟨same, more.trans edge.pending_lt⟩

/-- The activation neither helps for the marker next nor is it looking at it. -/
def Frame.ClearOf {numWords : ℕ} (marker : ℕ) : Frame numWords → Prop
  | .helpThread value => value ≠ marker
  | .operating _ _ (.claimVerify _ _ _ value) => value ≠ marker
  | _ => True

theorem clearOf_of_calm (calm : pc.Calm) :
    (.operating role op pc : Frame P.numWords).ClearOf value := by
  cases pc <;> trivial

theorem clearOf_of_waiting (waiting : Waiting P frame) : frame.ClearOf value := by
  cases frame with
  | initializing => exact waiting.elim
  | helpThread => exact waiting.elim
  | operating role op pc =>
    cases pc with
    | claimVerify => exact waiting.elim
    | _ => trivial

/-- All activations but the running one wait. -/
theorem StackOk.waiting (held : StackOk P load s t n (frame :: rest)) :
    ∀ caller ∈ rest, Waiting P caller := by
  induction rest generalizing frame with
  | nil => simp
  | cons caller rest ih =>
    obtain ⟨-, waiting, below⟩ := held
    exact List.forall_mem_cons.mpr ⟨waiting, ih below⟩

/-- A marker that is in no cell is not met. -/
theorem clearOf_of_threadMoves {thread thread' : Thread P.numWords} (within : h < P.numThreads)
    (held : StackOk P load s h thread.completed thread.stack)
    (moves : ThreadMoves P load s h thread event s' thread')
    (absent : ∀ address, s.cells address ≠ value)
    (clear : ∀ frame ∈ thread.stack, frame.ClearOf value) :
    ∀ frame ∈ thread'.stack, frame.ClearOf value := by
  cases moves with
  | invoke => simp [Frame.ClearOf]
  | respond => simp
  | helpReturned =>
    obtain ⟨-, below⟩ := List.forall_mem_cons.mp clear
    obtain ⟨-, below⟩ := List.forall_mem_cons.mp below
    exact List.forall_mem_cons.mpr ⟨trivial, below⟩
  | @move completed frame rest _ _ frames moves =>
    obtain ⟨here, below⟩ := List.forall_mem_cons.mp clear
    refine List.forall_mem_append.mpr ⟨?_, below⟩
    cases moves with
    | init moves =>
      cases moves with
      | storeStage => simpa using clearOf_of_calm turn_claimFrom.calm
      | _ => simp [Frame.ClearOf]
    | help helpee fits entry => simpa using clearOf_of_calm (turn_of_helpEntry entry).calm
    | operate moves =>
      obtain ⟨u, k, same, ok⟩ := workOk_of_mem within held List.mem_cons_self
      obtain ⟨rfl, rfl, -⟩ := (Operation.mk.injEq ..).mp same
      rcases moves.calm_or ok.position with ⟨pc', rfl, calm⟩ |
        ⟨w, target, expected, rfl, rfl, -, -, rfl⟩ |
        ⟨w, target, expected, actual, rfl, rfl, -, -, -, rfl⟩
      · simpa using clearOf_of_calm calm
      · simpa [Frame.ClearOf] using absent target
      · simpa [Frame.ClearOf] using here

/-- The call is over, and the thread with this call stack comes to its marker no more. -/
structure HelpOver (P : Params) (load : Workload P.numWords) (s : Shared) (t n : ℕ)
    (stack : List (Frame P.numWords)) : Prop where
  call : CallOk P load s t n
  done : ¬ CanBeHelped P s t n
  clear : ∀ frame ∈ stack, frame.ClearOf (P.marker t n)

theorem HelpOver.absent (helpOver : HelpOver P load s t n stack) (marks : MarksOk P load s)
    (shared : SharedOk P load s) (rules : UsageRules P load cells) (address : ℕ) :
    s.cells address ≠ P.marker t n := fun held =>
  helpOver.done
    (marks.canBeHelped shared rules helpOver.call.within helpOver.call.counted held)

theorem HelpOver.not_enters (helpOver : HelpOver P load s t n (x.after.threads h).stack)
    (own : x.actor.thread = h) : entersHelp x ≠ some (P.marker t n) := by
  subst own
  intro enters
  have clear := helpOver.clear
  unfold entersHelp at enters
  split at enters
  · rename_i top
    rw [top] at clear
    exact clear _ List.mem_cons_self (Option.some.inj enters)
  · cases enters

theorem helpOver_step (reached : Reached P load cells trace x) (rules : UsageRules P load cells)
    (marks : MarksOk P load x.before.shared)
    (helpOver : HelpOver P load x.before.shared t n (x.before.threads h).stack) :
    HelpOver P load x.after.shared t n (x.after.threads h).stack := by
  refine ⟨reached.evolves.callOk helpOver.call,
    mt (CanBeHelped.earlier reached.evolves helpOver.call) helpOver.done, ?_⟩
  by_cases own : h = x.actor.thread
  · subst own
    exact clearOf_of_threadMoves reached.within (reached.before.callStacks _ reached.within)
      reached.moves (helpOver.absent marks reached.before.shared rules) helpOver.clear
  · rw [reached.others h own]
    exact helpOver.clear

/-- A helper leaves only when its call is over. -/
theorem Reached.helpOver_of_returns (reached : Reached P load cells trace x)
    (returns : HelpReturns P x h t n) :
    HelpOver P load x.before.shared t n (x.before.threads h).stack := by
  obtain ⟨rfl, leaves⟩ := returns
  have held := reached.before.callStacks _ reached.within
  unfold leavesHelp at leaves
  split at leaves
  · rename_i top
    obtain rfl := Option.some.inj leaves
    rw [top] at held ⊢
    obtain ⟨u, k, same, ok⟩ := workOk_of_mem reached.within held List.mem_cons_self
    obtain ⟨rfl, rfl, -⟩ := (Operation.mk.injEq ..).mp same
    refine ⟨ok.call, fun more => ?_, List.forall_mem_cons.mpr ⟨trivial, fun caller member =>
      clearOf_of_waiting (held.waiting caller member)⟩⟩
    have spent := spentCall_of_returned ok.position
    rw [spentCall, if_pos more] at spent
    cases spent
  · cases leaves

theorem helpOver_of_orderly (rules : UsageRules P load cells)
    (run : Execution P load cells trace σ) (orderly : ∀ x ∈ trace, Orderly P x)
    (member : x ∈ trace) (returns : HelpReturns P x h t n) :
    HelpOver P load σ.shared t n (σ.threads h).stack := by
  refine orderly_invariant (fun trace σ => ∀ x ∈ trace, HelpReturns P x h t n →
    HelpOver P load σ.shared t n (σ.threads h).stack) rules (by simp) ?_ run orderly x member
    returns
  intro trace y reached earlier now held x member returns
  refine helpOver_step reached rules (marksOk_of_orderly rules reached.run earlier).2 ?_
  rcases List.mem_append.mp member with before | last
  · exact held x before returns
  · obtain rfl := List.mem_singleton.mp last
    exact reached.helpOver_of_returns returns

/-- Once a thread has returned from its help for a call, that call can be helped no more,
its marker is in no cell, and the thread never enters help for it again. -/
theorem help_not_repeated (rules : UsageRules P load cells)
    (run : Execution P load cells (front ++ x :: back) σ)
    (orderly : ∀ y ∈ front ++ x :: back, Orderly P y) (returns : HelpReturns P x h t n) :
    ¬ CanBeHelped P σ.shared t n ∧ (∀ address, σ.shared.cells address ≠ P.marker t n) ∧
      ∀ y ∈ back, y.actor.thread = h → entersHelp y ≠ some (P.marker t n) := by
  have helpOver := helpOver_of_orderly rules run orderly (by simp) returns
  refine ⟨helpOver.done, helpOver.absent (marksOk_of_orderly rules run orderly).2
    (configOk_of_execution rules run).shared rules, ?_⟩
  intro y member own
  obtain ⟨first, later, rfl⟩ := List.append_of_mem member
  have reached : Reached P load cells (front ++ x :: first) y :=
    reached_of_split rules (by simpa using run)
  have earlier : ∀ z ∈ front ++ x :: first, Orderly P z := fun z before =>
    orderly z (by simpa using (List.mem_append_left (y :: later) before))
  have marks := (marksOk_of_orderly rules reached.run earlier).2
  exact (helpOver_step reached rules marks
    (helpOver_of_orderly rules reached.run earlier (by simp) returns)).not_enters own

/-- In the contended run the second thread returns from its help for the first one. -/
theorem help_not_repeated_contended : ∃ (front back : Trace twoThreads)
    (x : Transition (Config twoThreads.numWords) Actor Event) (σ : Config twoThreads.numWords),
    Execution twoThreads contended (fun _ => 0) (front ++ x :: back) σ ∧
      HelpReturns twoThreads x 1 0 0 ∧ (front ++ x :: back).length = 58 ∧
      ∀ address, σ.shared.cells address ≠ twoThreads.marker 0 0 := by
  obtain ⟨trace, σ, run, orderly, length, x, member, returns⟩ := exists_execution twoThreads
    contended (fun _ => 0) contendedTurns
    (fun trace _ => (∀ x ∈ trace, Orderly twoThreads x) ∧ trace.length = 58 ∧
      ∃ x ∈ trace, HelpReturns twoThreads x 1 0 0) (by decide +kernel)
  obtain ⟨front, back, rfl⟩ := List.append_of_mem member
  exact ⟨front, back, x, σ, run, returns, length,
    (help_not_repeated contended_rules run orderly returns).2.1⟩

/-! ### How often help is entered -/

/-- The marker that an activation helps for. -/
def Frame.helpedMarker {numWords : ℕ} : Frame numWords → Option ℕ
  | .helpThread marker => some marker
  | .operating .helper op _ => some op.threadAndSequence
  | _ => none

/-- How often help for a marker is underway on a call stack. -/
def underway (stack : List (Frame P.numWords)) (marker : ℕ) : ℕ :=
  stack.countP fun frame => frame.helpedMarker = some marker

theorem underway_cons : underway (frame :: rest) value =
    underway rest value + if frame.helpedMarker = some value then 1 else 0 := by
  simp [underway, List.countP_cons]

theorem underway_le : underway stack value ≤ nesting stack := by
  refine List.countP_mono_left fun frame _ helps => ?_
  cases frame with
  | initializing => simp [Frame.helpedMarker] at helps
  | helpThread => rfl
  | operating role op pc =>
    cases role with
    | originator => simp [Frame.helpedMarker] at helps
    | helper => rfl

theorem helpEntries_snoc : helpEntries P (trace ++ [x]) h t n = helpEntries P trace h t n +
    if x.actor.thread = h ∧ entersHelp x = some (P.marker t n) then 1 else 0 := by
  simp [helpEntries, List.countP_append, List.countP_singleton]

/-- A step that does not return from the help for a call enters it as often as it adds to
what is underway. -/
theorem Reached.underway_eq (reached : Reached P load cells trace x)
    (rules : UsageRules P load cells) (within : t < P.numThreads) (counted : n < load.count t)
    (stays : ¬ HelpReturns P x h t n) :
    underway (x.after.threads h).stack (P.marker t n) =
      underway (x.before.threads h).stack (P.marker t n) +
        if x.actor.thread = h ∧ entersHelp x = some (P.marker t n) then 1 else 0 := by
  by_cases own : x.actor.thread = h
  · subst own
    have held := reached.before.callStacks _ reached.within
    have moves := reached.moves
    simp only [HelpReturns, leavesHelp, true_and] at stays
    simp only [entersHelp, true_and]
    generalize x.before.threads x.actor.thread = thread at held moves stays ⊢
    generalize x.after.threads x.actor.thread = thread' at moves ⊢
    generalize x.event = event at moves
    generalize x.before.shared = s at held moves
    generalize x.after.shared = s' at moves
    cases moves with
    | invoke => simp [underway_cons, Frame.helpedMarker]
    | respond => simp [underway_cons, Frame.helpedMarker]
    | @helpReturned completed role op w target expected helped result rest =>
      obtain ⟨u, k, rfl, ok⟩ := workOk_of_mem reached.within held List.mem_cons_self
      have other : P.marker u k ≠ P.marker t n := fun same => by
        obtain ⟨rfl, rfl⟩ := rules.marker_inj ok.call.within ok.call.counted within counted same
        exact stays rfl
      cases role <;> simp [underway_cons, Frame.helpedMarker, other]
    | @move completed frame rest _ _ frames moves =>
      cases moves with
      | init moves => cases moves <;> simp [underway_cons, Frame.helpedMarker]
      | help => simp [underway_cons, Frame.helpedMarker]
      | @operate role u k pc _ _ _ moves =>
        obtain ⟨v, m, same, ok⟩ := workOk_of_mem reached.within held List.mem_cons_self
        obtain ⟨rfl, rfl, -⟩ := (Operation.mk.injEq ..).mp same
        rcases moves.calm_or ok.position with ⟨pc', rfl, -⟩ |
          ⟨w, target, expected, -, -, -, -, rfl⟩ |
          ⟨w, target, expected, actual, -, -, -, -, -, rfl⟩
        · cases role <;> simp [underway_cons, Frame.helpedMarker]
        · cases role <;> simp [underway_cons, Frame.helpedMarker]
        · cases role <;> simp [underway_cons, Frame.helpedMarker]
  · rw [reached.others h (Ne.symm own), if_neg (fun both => own both.1), Nat.add_zero]

/-- A thread enters help for a call again only while its first help for it is underway,
and so no more often than helpers can be nested. -/
theorem help_entries_le (rules : UsageRules P load cells) (ordered : GlobalOrder P load)
    (run : Execution P load cells trace σ) (orderly : ∀ x ∈ trace, Orderly P x)
    (within : t < P.numThreads) (counted : n < load.count t) :
    helpEntries P trace h t n ≤ (targetAddresses P load).card := by
  refine (orderly_invariant (fun trace σ =>
    helpEntries P trace h t n ≤ (targetAddresses P load).card ∧
      ((∀ x ∈ trace, ¬ HelpReturns P x h t n) →
        helpEntries P trace h t n = underway (σ.threads h).stack (P.marker t n)))
    rules ⟨Nat.zero_le _, fun _ => rfl⟩ ?_ run orderly).1
  rintro trace x reached earlier now ⟨few, first⟩
  by_cases left : ∃ y ∈ trace ++ [x], HelpReturns P y h t n
  · -- nothing is entered any more
    obtain ⟨y, member, returns⟩ := left
    have marks := (marksOk_of_orderly rules reached.run earlier).2
    have helpOver : HelpOver P load x.before.shared t n (x.before.threads h).stack := by
      rcases List.mem_append.mp member with before | last
      · exact helpOver_of_orderly rules reached.run earlier before returns
      · obtain rfl := List.mem_singleton.mp last
        exact reached.helpOver_of_returns returns
    have quiet : ¬ (x.actor.thread = h ∧ entersHelp x = some (P.marker t n)) := fun enters =>
      (helpOver_step reached rules marks helpOver).not_enters enters.1 enters.2
    rw [helpEntries_snoc, if_neg quiet]
    exact ⟨few, fun none => absurd returns (none y member)⟩
  · -- all that was entered is underway
    push Not at left
    have added := reached.underway_eq rules within counted (left x (by simp))
    have all : helpEntries P (trace ++ [x]) h t n =
        underway (x.after.threads h).stack (P.marker t n) := by
      rw [helpEntries_snoc, added, first fun y before => left y (List.mem_append_left _ before)]
    refine ⟨?_, fun _ => all⟩
    by_cases own : x.actor.thread = h
    · have nested := nesting_bounded rules ordered (reached.run.snoc reached.taken)
        (own ▸ reached.within)
      exact all.trans_le (underway_le.trans nested)
    · rw [helpEntries_snoc, if_neg fun enters => own enters.1]
      exact few

/-- In the contended run the second thread helps the first one once. -/
theorem help_entries_le_contended : ∃ (trace : Trace twoThreads) (σ : Config twoThreads.numWords),
    Execution twoThreads contended (fun _ => 0) trace σ ∧ trace.length = 58 ∧
      helpEntries twoThreads trace 1 0 0 = 1 ∧
        helpEntries twoThreads trace 1 0 0 ≤ (targetAddresses twoThreads contended).card := by
  obtain ⟨trace, σ, run, orderly, length, once⟩ := exists_execution twoThreads contended
    (fun _ => 0) contendedTurns
    (fun trace _ => (∀ x ∈ trace, Orderly twoThreads x) ∧ trace.length = 58 ∧
      helpEntries twoThreads trace 1 0 0 = 1) (by decide +kernel)
  exact ⟨trace, σ, run, length, once, help_entries_le contended_rules
    (globalOrder_of_ascending (by decide +kernel)) run orderly (by decide) (by decide)⟩

end KCas
