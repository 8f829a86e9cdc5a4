import KCas.Slots

/-! The rows of `State`, whatever the cells hold and whatever the calls come to. A call
works with the sequence that its row has, and is helped only once it has published
that. Only `prepare_for_next_operation` gives a sequence up and makes the row Inactive;
the returns with a fatal error leave it out. -/
namespace KCas

open Labelled

variable {P : Params} {load : Workload P.numWords} {cells : ℕ → ℕ} {κ κ' : Clients P.numWords}
  {s s' : Shared} {c t u n : ℕ} {role : Role} {op : Operation} {pc : Pc} {stage : Stage}
  {stack stack' : List (Frame P.numWords)} {frame : Frame P.numWords} {event : Event}
  {trace : ClientTrace P}

/-- Fewer calls with each thread id than the sequence bits of a marker and of a stage
word can number. -/
def FewCalls (P : Params) (load : Workload P.numWords) : Prop :=
  ∀ t < P.numThreads,
    load.count t < 2 ^ P.markerSequenceBits ∧ load.count t < 2 ^ P.stageSequenceBits

instance : Decidable (FewCalls P load) :=
  inferInstanceAs (Decidable (∀ t < P.numThreads, _))

/-- A row whose word is packed as it should be. -/
def WellPacked (P : Params) (s : Shared) (t : ℕ) : Prop :=
  s.state.stageAndSequenceNumbers t = P.stageWord (s.stageOf P t) (s.sequenceOf P t) ∧
    s.sequenceOf P t < 2 ^ P.stageSequenceBits

theorem row_of_word (word : s.state.stageAndSequenceNumbers t = P.stageWord stage n)
    (fits : n < 2 ^ P.stageSequenceBits) : s.stageOf P t = stage ∧ s.sequenceOf P t = n := by
  simp only [Shared.stageOf, Shared.sequenceOf, word, Params.extractStage_stageWord fits,
    Params.extractSequence_stageWord fits, and_self]

theorem wellPacked_of_word (word : s.state.stageAndSequenceNumbers t = P.stageWord stage n)
    (fits : n < 2 ^ P.stageSequenceBits) : WellPacked P s t := by
  obtain ⟨stages, sequences⟩ := row_of_word word fits
  rw [WellPacked, stages, sequences]
  exact ⟨word, fits⟩

theorem wellPacked_storeStage (fits : n < 2 ^ P.stageSequenceBits) :
    WellPacked P (s.storeStage t (P.stageWord stage n)) t := by
  have word : (s.storeStage t (P.stageWord stage n)).state.stageAndSequenceNumbers t =
      P.stageWord stage n := by
    simp [Shared.storeStage]
  exact wellPacked_of_word word fits

/-- The row stays packed, keeps its sequence, and is Inactive if and only if it was. -/
structure KeepsRow (P : Params) (s s' : Shared) (t : ℕ) : Prop where
  packed : WellPacked P s t → WellPacked P s' t
  sequence : s'.sequenceOf P t = s.sequenceOf P t
  inactive : s'.stageOf P t = .inactive ↔ s.stageOf P t = .inactive

theorem keepsRow_of_word
    (same : s'.state.stageAndSequenceNumbers t = s.state.stageAndSequenceNumbers t) :
    KeepsRow P s s' t := by
  refine ⟨fun packed => ?_, Shared.sequenceOf_congr same, by rw [Shared.stageOf_congr same]⟩
  rw [WellPacked, Shared.stageOf_congr same, Shared.sequenceOf_congr same, same]
  exact packed

theorem KeepsRow.started (keeps : KeepsRow P s s' t) (begun : Started P s t n) :
    Started P s' t n := by
  rw [Started, keeps.sequence, Ne, keeps.inactive]
  exact begun

theorem StageNext.Fits.active {numWords : ℕ} {current desired : Stage} {next : StageNext}
    (fits : next.Fits numWords role current desired) :
    current ≠ .inactive ∧ desired ≠ .inactive := by
  cases fits <;> simp

/-- An exchange keeps the row, if no later sequence than the row's is exchanged. -/
theorem keepsRow_of_exchange {current desired : Stage} {next : StageNext} {numWords : ℕ}
    (packed : WellPacked P s u) (le : n ≤ s.sequenceOf P t)
    (fits : next.Fits numWords role current desired)
    (word : s.state.stageAndSequenceNumbers t = P.stageWord current n) :
    KeepsRow P s (s.storeStage t (P.stageWord desired n)) u := by
  by_cases own : u = t
  · subst own
    have inBits := Nat.lt_of_le_of_lt le packed.2
    obtain ⟨stages, sequences⟩ := row_of_word word inBits
    refine ⟨fun _ => wellPacked_storeStage inBits, ?_, ?_⟩
    · rw [Shared.sequenceOf_storeStage_self inBits, sequences]
    · rw [Shared.stageOf_storeStage_self inBits, stages]
      exact iff_of_false fits.active.2 fits.active.1
  · exact keepsRow_of_word (by simp [Shared.storeStage, own])

/-! ### What the activations know -/

/-- What an activation of thread index `t` knows of the row that it works on. A call
that is about to return has left its own row Inactive unless it failed fatally. -/
def Frame.OnRow (P : Params) (s : Shared) (t : ℕ) : Frame P.numWords → Prop
  | .initializing _ _ _ (.storeStage n) => n = s.sequenceOf P t
  | .operating .originator op pc =>
    (pc.Going → op.sequence = s.sequenceOf P t ∧ s.stageOf P t ≠ .inactive) ∧
      ∀ result, pc = .finished result → (s.stageOf P t = .inactive ↔ NotFatal result)
  | .operating .helper op pc =>
    pc.Going → op.threadIndex < P.numThreads ∧ Started P s op.threadIndex op.sequence
  | _ => True

/-- An operation that goes on knows its row wherever it goes to. -/
theorem onRow_goesOn {pc' : Pc} (on : (Frame.operating role op pc).OnRow P s t)
    (going : pc.Going) (fits : pc'.Fits P.numWords role) :
    (Frame.operating role op pc').OnRow P s t := by
  cases role with
  | helper => exact fun _ => on going
  | originator =>
    refine ⟨fun _ => on.1 going, ?_⟩
    rintro result rfl
    exact iff_of_false (on.1 going).2 fits.2

/-- An activation knows its row as long as that is kept. -/
theorem Frame.OnRow.kept (on : frame.OnRow P s t)
    (started : ∀ u < P.numThreads, ∀ n, Started P s u n → Started P s' u n)
    (keeps : KeepsRow P s s' t) : frame.OnRow P s' t := by
  cases frame with
  | helpThread => trivial
  | initializing threadId threadIndex words pc =>
    cases pc with
    | storeStage n => exact Eq.trans on keeps.sequence.symm
    | _ => trivial
  | operating role op pc =>
    cases role with
    | originator =>
      refine ⟨fun going => ?_, fun result ends => ?_⟩
      · obtain ⟨same, busy⟩ := on.1 going
        exact ⟨same.trans keeps.sequence.symm, fun idle => busy (keeps.inactive.mp idle)⟩
      · exact keeps.inactive.trans (on.2 result ends)
    | helper =>
      intro going
      obtain ⟨within, begun⟩ := on going
      exact ⟨within, started _ within _ begun⟩

theorem Frame.OnRow.congr
    (same : s'.state.stageAndSequenceNumbers = s.state.stageAndSequenceNumbers)
    (on : frame.OnRow P s t) : frame.OnRow P s' t := by
  have keeps (u : ℕ) : KeepsRow P s s' u := keepsRow_of_word (congrFun same u)
  exact on.kept (fun u _ n begun => (keeps u).started begun) (keeps t)

/-- A helper goes on only for a call that its helpee is at. -/
theorem current_of_going_helpThreadAt
    (going : (helpThreadAt P op (s.state.stageAndSequenceNumbers op.threadIndex)).Going) :
    s.sequenceOf P op.threadIndex = op.sequence ∧ s.stageOf P op.threadIndex ≠ .inactive := by
  unfold helpThreadAt at going
  split at going
  · exact going.elim
  · rename_i stage decoded
    have stages : s.stageOf P op.threadIndex = stage := by
      rw [Shared.stageOf, decoded]
    simp only at going
    split at going
    · exact going.elim
    · rename_i same
      refine ⟨not_not.mp same, ?_⟩
      rw [stages]
      rintro rfl
      exact going

theorem started_of_going_helpThreadAt
    (going : (helpThreadAt P op (s.state.stageAndSequenceNumbers op.threadIndex)).Going) :
    Started P s op.threadIndex op.sequence :=
  .inr (current_of_going_helpThreadAt going)

/-- The running operation has no later sequence than its row. -/
theorem sequence_le_of_onRow {rest : List (Frame P.numWords)}
    (fits : StackFits P t (.operating role op pc :: rest))
    (on : (Frame.operating role op pc).OnRow P s t) (going : pc.Going) :
    op.sequence ≤ s.sequenceOf P op.threadIndex := by
  cases role with
  | originator =>
    cases rest with
    | nil =>
      rw [fits.2.1]
      exact Nat.le_of_eq (on.1 going).1
    | cons caller rest => cases fits.1.1
  | helper =>
    rcases (on going).2 with gone | ⟨same, -⟩
    · exact Nat.le_of_lt gone
    · exact Nat.le_of_eq same.symm

theorem inRange_of_claimHelp {w target expected : ℕ} {rest : List (Frame P.numWords)}
    (fits : StackFits P t (.operating role op (.claimHelp w target expected) :: rest)) :
    w < P.numWords := by
  cases rest with
  | nil =>
    rcases fits.2.2 with inRange | ⟨result, ⟨⟩⟩
    exact inRange
  | cons caller rest => exact fits.1.2.2.2.2

/-! ### Steps of a call -/

/-- What one step of a call of thread index `t` does to the rows: it publishes the
call, retires it, or keeps them all. -/
inductive RowsEffect (P : Params) (t : ℕ) (s : Shared) (stack : List (Frame P.numWords))
    (s' : Shared) (stack' : List (Frame P.numWords)) : Prop where
  | published {words : KCasWords P.numWords} {pc : Pc} :
      stack = [.initializing (t + 1) t words (.storeStage (s.sequenceOf P t))] →
      stack' = [.operating .originator (P.operation t (s.sequenceOf P t)) pc] →
      pc.Fits P.numWords .originator →
      s' = s.storeStage t (P.stageWord .claiming (s.sequenceOf P t)) →
      RowsEffect P t s stack s' stack'
  | prepared {op : Operation} {result : Except Error Unit} :
      stack = [.operating .originator op (.prepare result)] →
      stack' = [.operating .originator op (.finished result)] → NotFatal result →
      s.stageOf P t ≠ .inactive → s.sequenceOf P t + 1 < 2 ^ P.stageSequenceBits →
      s' = s.storeStage t (P.stageWord .inactive (s.sequenceOf P t + 1)) →
      RowsEffect P t s stack s' stack'
  | kept : (∀ frame ∈ stack', frame.OnRow P s t) → (∀ u < P.numThreads, KeepsRow P s s' u) →
      RowsEffect P t s stack s' stack'

/-- The step of a call seen from the rows. A row is given up by `prepare` alone. -/
theorem CallEffect.rows (effect : CallEffect P t s stack event s' stack')
    (fits : StackFits P t stack) (on : ∀ frame ∈ stack, frame.OnRow P s t)
    (packed : ∀ u < P.numThreads, WellPacked P s u)
    (room : ∀ op result, stack = [.operating .originator op (.prepare result)] →
      s.sequenceOf P t + 1 < 2 ^ P.stageSequenceBits) : RowsEffect P t s stack s' stack' := by
  have same (u : ℕ) (_ : u < P.numThreads) : KeepsRow P s s u := keepsRow_of_word rfl
  cases effect with
  | @init words pc event s' frames moves =>
    cases moves with
    | @storeStage n =>
      obtain rfl : n = s.sequenceOf P t := on _ List.mem_cons_self
      exact .published rfl rfl fits_claimFrom rfl
    | loadStage => exact .kept (by simp [Frame.OnRow]) same
    | storeTarget =>
      exact .kept (by simp [Frame.OnRow]) fun u _ => keepsRow_of_word rfl
    | storeExpected =>
      exact .kept (by simp [Frame.OnRow]) fun u _ => keepsRow_of_word rfl
    | storeDesired =>
      refine .kept ?_ fun u _ => keepsRow_of_word rfl
      split <;> simp [Frame.OnRow]
  | @help u n rest inRange =>
    refine .kept (List.forall_mem_cons.mpr ⟨?_, fun frame below => ?_⟩) same
    · exact fun going => ⟨inRange, started_of_going_helpThreadAt going⟩
    · exact on frame (List.mem_cons_of_mem _ below)
  | @operate role op pc _ _ frames rest going effect =>
    obtain ⟨running, below⟩ := List.forall_mem_cons.mp on
    cases effect with
    | moved position =>
      refine .kept (List.forall_mem_cons.mpr ⟨onRow_goesOn running going position, below⟩) ?_
      exact fun u _ => keepsRow_of_word rfl
    | helps inRange =>
      refine .kept (List.forall_mem_cons.mpr ⟨trivial, List.forall_mem_cons.mpr ⟨?_, below⟩⟩) same
      exact onRow_goesOn running going inRange
    | exchanged next word =>
      have le := sequence_le_of_onRow fits running going
      refine .kept (List.forall_mem_cons.mpr ⟨?_, below⟩) fun u within =>
        keepsRow_of_exchange (packed u within) le next word
      exact onRow_goesOn running going (fits_afterStageChanged next)
    | @prepared result own notFatal =>
      subst own
      cases rest with
      | cons caller rest => cases fits.1.1
      | nil =>
        have more := room op result rfl
        obtain ⟨sequences, active⟩ := running.1 trivial
        have index : op.threadIndex = t := by
          rw [fits.2.1]
          rfl
        have wide : 2 ^ P.stageSequenceBits ≤ 2 ^ P.usizeBits :=
          Nat.pow_le_pow_right (by omega) (Nat.sub_le _ _)
        have bits := P.markerSequenceBits_add
        simp only [Params.threadBits] at bits
        have next : nextSequence P.usizeBits P.numThreads op.sequence = s.sequenceOf P t + 1 := by
          rw [nextSequence_eq (by omega) (by omega), sequences]
        exact .prepared rfl rfl notFatal active more (by rw [next, index])
  | @helpReturned helped op role w target expected result rest =>
    obtain ⟨-, below⟩ := List.forall_mem_cons.mp on
    obtain ⟨waiting, below⟩ := List.forall_mem_cons.mp below
    refine .kept (List.forall_mem_cons.mpr ⟨?_, below⟩) same
    exact onRow_goesOn waiting trivial (fits_afterHelp (inRange_of_claimHelp fits.2.2))
  | respond => exact .kept (by simp) same

/-- The rows of the others are kept. -/
theorem RowsEffect.other (taken : RowsEffect P t s stack s' stack') (within : u < P.numThreads)
    (other : u ≠ t) : KeepsRow P s s' u := by
  cases taken with
  | published _ _ _ stored =>
    subst stored
    exact keepsRow_of_word (by simp [Shared.storeStage, other])
  | prepared _ _ _ _ _ stored =>
    subst stored
    exact keepsRow_of_word (by simp [Shared.storeStage, other])
  | kept _ keeps => exact keeps u within

section Effects

variable (taken : RowsEffect P t s stack s' stack')
  (packed : ∀ u < P.numThreads, WellPacked P s u)

include taken packed

theorem RowsEffect.wellPacked (within : u < P.numThreads) : WellPacked P s' u := by
  by_cases own : u = t
  · subst own
    cases taken with
    | published _ _ _ stored =>
      subst stored
      exact wellPacked_storeStage (packed u within).2
    | prepared _ _ _ _ room stored =>
      subst stored
      exact wellPacked_storeStage room
    | kept _ keeps => exact (keeps u within).packed (packed u within)
  · exact (taken.other within own).packed (packed u within)

/-- A row keeps its sequence, unless its call retires. -/
theorem RowsEffect.sequence (within : u < P.numThreads) :
    s'.sequenceOf P u = s.sequenceOf P u ∨
      (u = t ∧ (∃ op result, stack' = [.operating .originator op (.finished result)]) ∧
        s'.sequenceOf P u = s.sequenceOf P u + 1) := by
  by_cases own : u = t
  · subst own
    cases taken with
    | published _ _ _ stored =>
      subst stored
      exact .inl (Shared.sequenceOf_storeStage_self (packed u within).2)
    | prepared _ after _ _ room stored =>
      subst stored
      exact .inr ⟨rfl, ⟨_, _, after⟩, Shared.sequenceOf_storeStage_self room⟩
    | kept _ keeps => exact .inl (keeps u within).sequence
  · exact .inl (taken.other within own).sequence

/-- A row that is busy after a step was so before, or the step published its call. -/
theorem RowsEffect.busy (within : u < P.numThreads) (active : s'.stageOf P u ≠ .inactive) :
    s'.sequenceOf P u = s.sequenceOf P u ∧
      (s.stageOf P u ≠ .inactive ∨ (u = t ∧ ∃ words,
        stack = [.initializing (t + 1) t words (.storeStage (s.sequenceOf P t))])) := by
  have kept (keeps : KeepsRow P s s' u) : s'.sequenceOf P u = s.sequenceOf P u ∧
      s.stageOf P u ≠ .inactive :=
    ⟨keeps.sequence, fun idle => active (keeps.inactive.mpr idle)⟩
  by_cases own : u = t
  · subst own
    cases taken with
    | published before _ _ stored =>
      subst stored
      exact ⟨Shared.sequenceOf_storeStage_self (packed u within).2, .inr ⟨rfl, _, before⟩⟩
    | prepared _ _ _ _ room stored =>
      subst stored
      exact absurd (Shared.stageOf_storeStage_self room) active
    | kept _ keeps => exact (kept (keeps u within)).imp_right .inl
  · exact (kept (taken.other within own)).imp_right .inl

/-- A call that was published stays so. -/
theorem RowsEffect.started (within : u < P.numThreads) (begun : Started P s u n) :
    Started P s' u n := by
  by_cases own : u = t
  · subst own
    cases taken with
    | published _ _ _ stored =>
      subst stored
      have fits := (packed u within).2
      rw [Started, Shared.sequenceOf_storeStage_self fits, Shared.stageOf_storeStage_self fits]
      exact begun.imp_right fun at_ => ⟨at_.1, by simp⟩
    | prepared _ _ _ _ room stored =>
      subst stored
      rw [Started, Shared.sequenceOf_storeStage_self room]
      rcases begun with gone | ⟨current, -⟩
      · exact .inl (Nat.lt_succ_of_lt gone)
      · exact .inl (Nat.lt_succ_of_le (Nat.le_of_eq current.symm))
    | kept _ keeps => exact (keeps u within).started begun
  · exact (taken.other within own).started begun

/-- The activations of the call know their rows after its step. -/
theorem RowsEffect.onRow (within : t < P.numThreads) :
    ∀ frame ∈ stack', frame.OnRow P s' t := by
  have started (u : ℕ) (within : u < P.numThreads) (n : ℕ) (begun : Started P s u n) :=
    taken.started packed within begun
  cases taken with
  | published _ after position stored =>
    subst after stored
    have fits := (packed t within).2
    simp only [List.mem_singleton, forall_eq]
    refine ⟨fun _ => ⟨(Shared.sequenceOf_storeStage_self fits).symm, ?_⟩, ?_⟩
    · rw [Shared.stageOf_storeStage_self fits]
      simp
    · rintro result rfl
      rw [Shared.stageOf_storeStage_self fits]
      exact iff_of_false (by simp) position.2
  | prepared _ after notFatal _ room stored =>
    subst after stored
    simp only [List.mem_singleton, forall_eq]
    refine ⟨fun going => going.elim, ?_⟩
    rintro result ⟨⟩
    rw [Shared.stageOf_storeStage_self room]
    exact iff_of_true rfl notFatal
  | kept known keeps =>
    exact fun frame member => (known frame member).kept started (keeps t within)

end Effects

/-! ### The invariant -/

/-- The rows and the calls that have been made. A row is at most one sequence ahead of
its calls, and so only in a call that is about to return. -/
structure RowsOk (P : Params) (load : Workload P.numWords) (κ : Clients P.numWords) : Prop where
  packed : ∀ t < P.numThreads, WellPacked P κ.shared t
  counted : ∀ t < P.numThreads, κ.completed t ≤ load.count t
  used : ∀ t < P.numThreads, κ.shared.sequenceOf P t ≤ κ.completed t ∨
    (κ.shared.sequenceOf P t = κ.completed t + 1 ∧ ∃ c op result,
      κ.clients c = .holding (convertThreadIndexToThreadId t)
        [.operating .originator op (.finished result)])
  more : ∀ c t frame rest, κ.clients c = .holding (convertThreadIndexToThreadId t) (frame :: rest) →
    κ.completed t < load.count t
  calls : ∀ c t stack, κ.clients c = .holding (convertThreadIndexToThreadId t) stack →
    ∀ frame ∈ stack, frame.OnRow P κ.shared t

/-- A client that is in no call before it moves, and in none that is on its way after. -/
theorem RowsOk.keep (rows : RowsOk P load κ) {shared : Shared} {client : Client P.numWords}
    (same : shared.state.stageAndSequenceNumbers = κ.shared.state.stageAndSequenceNumbers)
    (before : ∀ threadId frame rest, κ.clients c ≠ .holding threadId (frame :: rest))
    (after : ∀ t frame rest, client = .holding (convertThreadIndexToThreadId t) (frame :: rest) →
      κ.completed t < load.count t ∧ ∀ frame' ∈ frame :: rest, frame'.OnRow P κ.shared t) :
    RowsOk P load (κ.moveTo c shared κ.completed client) := by
  have keeps (u : ℕ) : KeepsRow P κ.shared shared u := keepsRow_of_word (congrFun same u)
  refine ⟨fun t within => (keeps t).packed (rows.packed t within), rows.counted, ?_, ?_, ?_⟩
  · intro t within
    have sequences := (keeps t).sequence
    apply (rows.used t within).imp sequences.trans_le
    rintro ⟨ahead, d, op, result, holds⟩
    have other : d ≠ c := by
      rintro rfl
      exact before _ _ _ holds
    exact ⟨sequences.trans ahead, d, op, result, by rwa [Clients.moveTo_other other]⟩
  · intro d t frame rest holds
    by_cases own : d = c
    · subst own
      rw [Clients.moveTo_self] at holds
      exact (after t frame rest holds).1
    · rw [Clients.moveTo_other own] at holds
      exact rows.more d t frame rest holds
  · intro d t stack holds frame member
    apply Frame.OnRow.congr (s := κ.shared) same
    by_cases own : d = c
    · subst own
      rw [Clients.moveTo_self] at holds
      cases stack with
      | nil => cases member
      | cons first rest => exact (after t first rest holds).2 frame member
    · rw [Clients.moveTo_other own] at holds
      exact rows.calls d t stack holds frame member

/-- Until the call is about to return its row is not ahead. -/
theorem RowsOk.sequence_le (rows : RowsOk P load κ) (ok : PoolOk P κ)
    (holds : κ.clients c = .holding (convertThreadIndexToThreadId t) stack)
    (unfinished : ∀ op result, stack ≠ [.operating .originator op (.finished result)]) :
    κ.shared.sequenceOf P t ≤ κ.completed t := by
  have owns := Client.owns_of_holding holds
  rcases rows.used t (ok.owned c t owns).1 with le | ⟨-, d, op, result, holds'⟩
  · exact le
  · obtain rfl := ok.exclusive d c t (Client.owns_of_holding holds') owns
    rw [holds] at holds'
    exact absurd ((Client.holding.injEq ..).mp holds').2 (unfinished op result)

/-- What a call's step does to the rows, which have room for the next sequence. -/
theorem RowsOk.effect (rows : RowsOk P load κ) (ok : PoolOk P κ) (few : FewCalls P load)
    (holds : κ.clients c = .holding (convertThreadIndexToThreadId t) stack)
    (effect : CallEffect P t κ.shared stack event s' stack') :
    RowsEffect P t κ.shared stack s' stack' := by
  apply effect.rows (ok.calls c t stack holds) (rows.calls c t stack holds) rows.packed
  intro op result prepares
  have le := rows.sequence_le ok holds (by simp [prepares])
  have more := rows.more c t _ _ (prepares ▸ holds)
  have bound := (few t (ok.owned c t (Client.owns_of_holding holds)).1).2
  omega

theorem CallEffect.stack_ne_nil (effect : CallEffect P t s stack event s' stack') :
    ∃ frame rest, stack = frame :: rest := by
  cases effect <;> exact ⟨_, _, rfl⟩

/-- A call returns from its one last position. -/
theorem CallEffect.returns (effect : CallEffect P t s stack event s' stack') :
    (stack' = [] ∧ s' = s ∧ ∃ op result, stack = [.operating .originator op (.finished result)]) ∨
      (stack' ≠ [] ∧ ∀ op result, stack ≠ [.operating .originator op (.finished result)]) := by
  cases effect with
  | respond => exact .inl ⟨rfl, rfl, _, _, rfl⟩
  | init moves => exact .inr ⟨by cases moves <;> simp, by simp⟩
  | help => exact .inr ⟨by simp, by simp⟩
  | helpReturned => exact .inr ⟨by simp, by simp⟩
  | operate going effect =>
    refine .inr ⟨by simp [effect.frames_ne_nil], ?_⟩
    rintro op result same
    obtain ⟨⟨⟩, -⟩ := List.cons.inj same
    exact going

/-- A call returns. -/
theorem RowsOk.respond (rows : RowsOk P load κ) (ok : PoolOk P κ)
    {op : Operation} {result : Except Error Unit}
    (holds : κ.clients c = .holding (convertThreadIndexToThreadId t)
      [.operating .originator op (.finished result)]) :
    RowsOk P load (κ.moveTo c κ.shared (Function.update κ.completed t (κ.completed t + 1))
      (.holding (convertThreadIndexToThreadId t) [])) := by
  have owns := Client.owns_of_holding holds
  have other {d u : ℕ} {frame : Frame P.numWords} {rest : List (Frame P.numWords)}
      (busy : (κ.moveTo c κ.shared (Function.update κ.completed t (κ.completed t + 1))
        (.holding (convertThreadIndexToThreadId t) [])).clients d =
          .holding (convertThreadIndexToThreadId u) (frame :: rest)) :
      u ≠ t ∧ κ.clients d = .holding (convertThreadIndexToThreadId u) (frame :: rest) := by
    have apart : d ≠ c := by
      rintro rfl
      rw [Clients.moveTo_self] at busy
      simp at busy
    rw [Clients.moveTo_other apart] at busy
    refine ⟨?_, busy⟩
    rintro rfl
    exact apart (ok.exclusive d c u (Client.owns_of_holding busy) owns)
  refine ⟨rows.packed, ?_, ?_, ?_, ?_⟩
  · intro u within
    by_cases own : u = t
    · subst own
      simpa [Clients.moveTo, Nat.succ_le_iff] using rows.more c u _ _ holds
    · simpa [Clients.moveTo, own] using rows.counted u within
  · intro u within
    by_cases own : u = t
    · subst own
      simp only [Clients.moveTo, Function.update_self]
      rcases rows.used u within with le | ⟨ahead, -⟩
      · exact .inl (Nat.le_succ_of_le le)
      · exact .inl (Nat.le_of_eq ahead)
    · simp only [Clients.moveTo, Function.update_of_ne own]
      apply (rows.used u within).imp_right
      rintro ⟨ahead, d, op', result', holds'⟩
      have apart : d ≠ c := by
        rintro rfl
        rw [holds] at holds'
        exact own (Client.index_of_holding holds').symm
      exact ⟨ahead, d, op', result', by rwa [Function.update_of_ne apart]⟩
  · intro d u frame rest busy
    obtain ⟨apart, before⟩ := other busy
    simpa [Clients.moveTo, apart] using rows.more d u frame rest before
  · intro d u stack busy frame member
    cases stack with
    | nil => cases member
    | cons first rest => exact rows.calls d u _ (other busy).2 frame member

/-- A call goes on. -/
theorem RowsOk.goesOn (rows : RowsOk P load κ) (ok : PoolOk P κ) (few : FewCalls P load)
    (holds : κ.clients c = .holding (convertThreadIndexToThreadId t) stack)
    (effect : CallEffect P t κ.shared stack event s' stack')
    (unfinished : ∀ op result, stack ≠ [.operating .originator op (.finished result)]) :
    RowsOk P load (κ.moveTo c s' κ.completed
      (.holding (convertThreadIndexToThreadId t) stack')) := by
  have owns := Client.owns_of_holding holds
  have le := rows.sequence_le ok holds unfinished
  have taken := rows.effect ok few holds effect
  refine ⟨fun u within => taken.wellPacked rows.packed within, rows.counted, ?_, ?_, ?_⟩
  · intro u within
    rcases taken.sequence rows.packed within with
      sequences | ⟨rfl, ⟨op, result, rfl⟩, sequences⟩
    · apply (rows.used u within).imp sequences.trans_le
      rintro ⟨ahead, d, op, result, holds'⟩
      have apart : d ≠ c := by
        rintro rfl
        rw [holds] at holds'
        exact unfinished op result ((Client.holding.injEq ..).mp holds').2
      exact ⟨sequences.trans ahead, d, op, result, by rwa [Clients.moveTo_other apart]⟩
    · rcases Nat.lt_or_eq_of_le le with less | same
      · exact .inl (sequences.trans_le less)
      · refine .inr ⟨sequences.trans (congrArg (· + 1) same), c, op, result, ?_⟩
        rw [Clients.moveTo_self]
  · intro d u frame rest busy
    by_cases own : d = c
    · subst own
      rw [Clients.moveTo_self] at busy
      obtain rfl := Client.index_of_holding busy
      obtain ⟨first, rest', rfl⟩ := effect.stack_ne_nil
      exact rows.more d t first rest' holds
    · rw [Clients.moveTo_other own] at busy
      exact rows.more d u frame rest busy
  · intro d u stack'' busy frame member
    by_cases own : d = c
    · subst own
      rw [Clients.moveTo_self] at busy
      obtain rfl := Client.index_of_holding busy
      obtain ⟨-, rfl⟩ := (Client.holding.injEq ..).mp busy
      exact taken.onRow rows.packed (ok.owned d t owns).1 frame member
    · rw [Clients.moveTo_other own] at busy
      have ownsD := Client.owns_of_holding busy
      have other : u ≠ t := by
        rintro rfl
        exact own (ok.exclusive d c u ownsD owns)
      exact (rows.calls d u stack'' busy frame member).kept
        (fun u within _ => taken.started rows.packed within)
        (taken.other (ok.owned d u ownsD).1 other)

theorem rowsOk_step (few : FewCalls P load) (ok : PoolOk P κ) (rows : RowsOk P load κ)
    {event : ClientEvent} (moves : ClientMoves P load κ c event κ') : RowsOk P load κ' := by
  cases moves with
  | @enters t before more =>
    apply rows.keep rfl (by simp [before])
    intro u frame rest holds
    obtain rfl := Client.index_of_holding holds
    obtain ⟨rfl, rfl⟩ := List.cons.inj ((Client.holding.injEq ..).mp holds).2
    refine ⟨more, ?_⟩
    simp only [List.mem_singleton, forall_eq]
    split <;> trivial
  | @calls t stack stack' event shared before effect =>
    rcases effect.returns with ⟨rfl, rfl, op, result, rfl⟩ | ⟨more, unfinished⟩
    · exact rows.respond ok before
    · simpa [more] using rows.goesOn ok few before effect unfinished
  | _ => exact rows.keep rfl (by simp [*]) (by simp)

theorem rowsOk_initial : RowsOk P load (Clients.initial P cells) := by
  have word (t : ℕ) : (Clients.initial P cells).shared.state.stageAndSequenceNumbers t =
      P.stageWord .inactive 0 :=
    P.stageWord_inactive_zero.symm
  refine ⟨?_, ?_, ?_, ?_, ?_⟩
  · exact fun t _ => wellPacked_of_word (word t) (Nat.two_pow_pos _)
  · exact fun t _ => Nat.zero_le _
  · exact fun t _ => .inl (Nat.le_of_eq (row_of_word (word t) (Nat.two_pow_pos _)).2)
  · intro c t frame rest holds
    cases holds
  · intro c t stack holds
    cases holds

theorem rowsOk_of_run (few : FewCalls P load) (run : ClientRun P load cells trace κ) :
    PoolOk P κ ∧ RowsOk P load κ := by
  refine run.invariant (fun _ => True) (fun _ κ => PoolOk P κ ∧ RowsOk P load κ)
    ⟨poolOk_initial, rowsOk_initial⟩ ?_ (fun _ _ => trivial)
  rintro - before actor event after - stepped - ⟨ok, rows⟩
  have moves := clientMoves_of_step ok stepped
  exact ⟨poolOk_step ok moves, rowsOk_step few ok rows moves⟩

theorem RowsOk.sequence_le_count (rows : RowsOk P load κ) (within : t < P.numThreads) :
    κ.shared.sequenceOf P t ≤ load.count t := by
  rcases rows.used t within with le | ⟨ahead, c, op, result, holds⟩
  · exact le.trans (rows.counted t within)
  · exact ahead.trans_le (rows.more c t _ _ holds)

theorem started_step (few : FewCalls P load) (ok : PoolOk P κ) (rows : RowsOk P load κ)
    {event : ClientEvent} (moves : ClientMoves P load κ c event κ') (within : t < P.numThreads)
    (begun : Started P κ.shared t n) : Started P κ'.shared t n := by
  cases moves with
  | calls before effect =>
    exact (rows.effect ok few before effect).started rows.packed within begun
  | _ => exact begun

/-- A call that was published stays so to the end of any run. -/
theorem started_of_run (few : FewCalls P load) (ok : PoolOk P κ) (rows : RowsOk P load κ)
    (run : Run (clientStep P load) κ trace κ') (within : t < P.numThreads)
    (begun : Started P κ.shared t n) :
    PoolOk P κ' ∧ RowsOk P load κ' ∧ Started P κ'.shared t n := by
  refine run.invariant (fun _ => True)
    (fun _ κ' => PoolOk P κ' ∧ RowsOk P load κ' ∧ Started P κ'.shared t n) ⟨ok, rows, begun⟩ ?_
    (fun _ _ => trivial)
  rintro - before actor event after - stepped - ⟨ok, rows, begun⟩
  have moves := clientMoves_of_step ok stepped
  exact ⟨poolOk_step ok moves, rowsOk_step few ok rows moves,
    started_step few ok rows moves within begun⟩

end KCas
