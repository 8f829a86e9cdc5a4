import KCas.Inversion

/-! The invariant of `KCas.Invariant` holds in every configuration that a run
under the usage rules reaches. -/
namespace KCas

open Labelled

variable {P : Params} {load : Workload P.numWords} {cells : ℕ → ℕ} {s s' : Shared}
  {owner t n w target expected desired : ℕ} {role : Role} {pc : Pc} {event : Event}
  {frames : List (Frame P.numWords)}

/-! ### How the shared memory evolves -/

theorem Evolves.refl (P : Params) (load : Workload P.numWords) (owner : ℕ) (s : Shared) :
    Evolves P load owner s s where
  sequence_le := fun _ _ => Nat.le_refl _
  retires := fun _ _ _ => rfl
  forward := fun _ _ _ => .inl rfl
  rows := fun _ _ _ => ⟨rfl, rfl, rfl⟩
  quiet := .inr fun _ _ _ => rfl
  marks := fun _ _ _ _ _ _ _ _ _ held => held

/-- The content of a cell is not a marker of a call that is still at Claiming. -/
def Overwritable (P : Params) (s : Shared) (target : ℕ) : Prop :=
  ∀ u < P.numThreads, s.stageOf P u = .claiming →
    s.cells target ≠ P.marker u (s.sequenceOf P u)

theorem Evolves.setCell {value : ℕ} (free : Overwritable P s target) :
    Evolves P load owner s (s.setCell target value) where
  sequence_le := fun _ _ => Nat.le_refl _
  retires := fun _ _ _ => rfl
  forward := fun _ _ _ => .inl rfl
  rows := fun _ _ _ => ⟨rfl, rfl, rfl⟩
  quiet := .inr fun _ _ _ => rfl
  marks := by
    rintro u within k - rfl claiming - - address held
    have other : address ≠ target := by
      rintro rfl
      exact free u within claiming held
    simpa [Shared.setCell, other] using held

theorem overwritable_of_legal (shared : SharedOk P load s) (rules : UsageRules P load cells)
    (real : P.Legal (s.cells target)) : Overwritable P s target := by
  intro u within claiming held
  have counted := (shared.row u within (by simp [claiming])).1
  exact rules.marker_not_legal within counted (held ▸ real)

theorem overwritable_of_decided (shared : SharedOk P load s) (rules : UsageRules P load cells)
    (call : CallOk P load s t n) (held : s.cells target = P.marker t n)
    (decided : s.sequenceOf P t = n → s.stageOf P t ≠ .claiming) : Overwritable P s target := by
  intro u within claiming same
  have counted := (shared.row u within (by simp [claiming])).1
  obtain ⟨rfl, sequence⟩ := rules.marker_inj call.within call.counted within counted
    (held.symm.trans same)
  exact decided sequence.symm claiming

theorem Within.not_claiming {stages : List Stage} (held : Within P s t n stages)
    (without : Stage.claiming ∉ stages) (current : s.sequenceOf P t = n) :
    s.stageOf P t ≠ .claiming := by
  intro claiming
  exact without (claiming ▸ held current)

theorem NextOk.not_claiming {next : RevertNext} (held : NextOk P s role t n next)
    (current : s.sequenceOf P t = n) : s.stageOf P t ≠ .claiming := by
  cases next with
  | prepare result =>
    rcases held.2 with ⟨-, stage⟩ | ⟨-, stage⟩ <;>
      exact stage.not_claiming (by simp) current
  | fail error => exact held.elim
  | changeToReverted => exact held.2.not_claiming (by simp) current
  | helpReturn result =>
    rcases held.2 with ⟨-, stage⟩ | ⟨-, gone⟩
    · exact stage.not_claiming (by simp) current
    · omega

theorem Evolves.stageChanged {current desired : Stage} (rules : UsageRules P load cells)
    (call : CallOk P load s t n) (sequence : s.sequenceOf P t = n)
    (stage : s.stageOf P t = current) (edge : StageEdge current desired)
    (helped : 0 < P.numWords ∨ owner = t) :
    Evolves P load owner s (s.storeStage t (P.stageWord desired n)) := by
  have fits := rules.stage_lt call.within (Nat.le_of_lt call.counted)
  have sequences (u : ℕ) : (s.storeStage t (P.stageWord desired n)).sequenceOf P u =
      s.sequenceOf P u := by
    by_cases same : u = t
    · subst same
      rw [Shared.sequenceOf_storeStage_self fits, sequence]
    · rw [Shared.sequenceOf_storeStage_ne same]
  refine ⟨fun u _ => Nat.le_of_eq (sequences u).symm, fun u _ _ => sequences u, ?_,
    fun _ _ _ => ⟨rfl, rfl, rfl⟩, ?_, ?_⟩
  · intro u _ _
    by_cases same : u = t
    · subst same
      rw [Shared.stageOf_storeStage_self fits, stage]
      exact .inr (.inr edge)
    · exact .inl (Shared.stageOf_storeStage_ne same)
  · refine helped.imp_right ?_
    rintro rfl u _ other
    exact Shared.stageOf_storeStage_ne other
  · intro u _ k _ _ _ _ claiming address held
    exact held

theorem Evolves.prepared (rules : UsageRules P load cells) (call : CallOk P load s t n)
    (sequence : s.sequenceOf P t = n) :
    Evolves P load t s (s.storeStage t (P.stageWord .inactive (n + 1))) := by
  have fits : n + 1 < 2 ^ P.stageSequenceBits := rules.stage_lt call.within call.counted
  refine ⟨?_, fun u _ other => Shared.sequenceOf_storeStage_ne other, ?_,
    fun _ _ _ => ⟨rfl, rfl, rfl⟩, .inr fun u _ other => Shared.stageOf_storeStage_ne other,
    fun u _ k _ _ _ _ _ address held => held⟩
  · intro u _
    by_cases same : u = t
    · subst same
      rw [Shared.sequenceOf_storeStage_self fits]
      omega
    · exact Nat.le_of_eq (Shared.sequenceOf_storeStage_ne same).symm
  · intro u _ kept
    by_cases same : u = t
    · subst same
      rw [Shared.sequenceOf_storeStage_self fits] at kept
      omega
    · exact .inl (Shared.stageOf_storeStage_ne same)

/-- The moves of an operation: a helper's disturb nobody's own row, and an
originator's only its own. -/
theorem evolves_of_operationMoves (shared : SharedOk P load s) (rules : UsageRules P load cells)
    (call : CallOk P load s t n) (position : PcOk P load s role t n pc)
    (own : role = .originator → RowAt P s t n pc)
    (owns : (role = .helper ∧ 0 < P.numWords) ∨ owner = t)
    (moves : OperationMoves P s role t n pc event s' frames) : Evolves P load owner s s' := by
  cases moves with
  | claimed found =>
    exact .setCell (overwritable_of_legal shared rules (found ▸ position.2.2.2.1))
  | setDone found =>
    exact .setCell (overwritable_of_decided shared rules call found
      (position.2.1.not_claiming (by simp)))
  | reverted found =>
    exact .setCell (overwritable_of_decided shared rules call found position.2.1.not_claiming)
  | stageChanged sequence stage edge =>
    exact .stageChanged rules call sequence stage edge (owns.imp_left And.right)
  | prepared =>
    obtain rfl : owner = t := owns.resolve_left fun helper => by
      simp [position.1] at helper
    exact .prepared rules call (own position.1).2
  | _ => exact .refl P load owner s

theorem Evolves.storeRow (inactive : s.stageOf P t = .inactive)
    (kept : s'.cells = s.cells)
    (stages : s'.state.stageAndSequenceNumbers = s.state.stageAndSequenceNumbers)
    (rows : ∀ u, u ≠ t → s'.state.targetAddresses u = s.state.targetAddresses u ∧
      s'.state.expectedValues u = s.state.expectedValues u ∧
      s'.state.desiredValues u = s.state.desiredValues u) : Evolves P load t s s' := by
  have sequences (u : ℕ) : s'.sequenceOf P u = s.sequenceOf P u := by
    simp [Shared.sequenceOf, stages]
  have stage (u : ℕ) : s'.stageOf P u = s.stageOf P u := by simp [Shared.stageOf, stages]
  refine ⟨fun u _ => Nat.le_of_eq (sequences u).symm, fun u _ _ => sequences u,
    fun u _ _ => .inl (stage u), ?_, .inr fun u _ _ => stage u, ?_⟩
  · intro u _ untouched
    refine rows u (untouched.elim id ?_)
    rintro active rfl
    exact active inactive
  · intro u _ k _ _ _ _ _ address held
    rw [kept]
    exact held

theorem Evolves.published (rules : UsageRules P load cells) (within : t < P.numThreads)
    (counted : n ≤ load.count t) (inactive : s.stageOf P t = .inactive)
    (sequence : s.sequenceOf P t = n) :
    Evolves P load t s (s.storeStage t (P.stageWord .claiming n)) := by
  have fits := rules.stage_lt within counted
  have sequences (u : ℕ) : (s.storeStage t (P.stageWord .claiming n)).sequenceOf P u =
      s.sequenceOf P u := by
    by_cases same : u = t
    · subst same
      rw [Shared.sequenceOf_storeStage_self fits, sequence]
    · rw [Shared.sequenceOf_storeStage_ne same]
  refine ⟨fun u _ => Nat.le_of_eq (sequences u).symm, fun u _ _ => sequences u, ?_,
    fun _ _ _ => ⟨rfl, rfl, rfl⟩, .inr fun u _ other => Shared.stageOf_storeStage_ne other,
    fun u _ k _ _ _ _ _ address held => held⟩
  intro u _ _
  by_cases same : u = t
  · subst same
    exact .inr (.inl ⟨rfl, inactive⟩)
  · exact .inl (Shared.stageOf_storeStage_ne same)

theorem evolves_of_initMoves (rules : UsageRules P load cells) (within : t < P.numThreads)
    {words : KCasWords P.numWords} {pc : InitPc} (counted : n < load.count t)
    (inactive : s.stageOf P t = .inactive) (sequence : s.sequenceOf P t = n)
    (position : InitOk P s t words pc)
    (moves : InitMoves P s t words pc event s' frames) : Evolves P load t s s' := by
  cases moves with
  | loadStage => exact .refl P load t s
  | storeStage =>
    obtain ⟨rfl, -⟩ := position
    exact .published rules within (sequence ▸ Nat.le_of_lt counted) inactive rfl
  | _ =>
    refine .storeRow inactive rfl rfl fun u other => ?_
    simp [Shared.storeTarget, Shared.storeExpected, Shared.storeDesired, other]

/-! ### The shared memory -/

theorem SharedOk.setCell {value : ℕ} (shared : SharedOk P load s)
    (free : Overwritable P s target) (stored : ValueOk P load s value)
    (fresh : ∀ u < P.numThreads, s.stageOf P u = .claiming →
      value = P.marker u (s.sequenceOf P u) →
      ∃ w < P.numWords, target = (load.call u (s.sequenceOf P u)).target w ∧
        ∀ i < w, Marked P load s u (s.sequenceOf P u) i) :
    SharedOk P load (s.setCell target value) := by
  have keeps {u i : ℕ} (within : u < P.numThreads) (claiming : s.stageOf P u = .claiming)
      (held : Marked P load s u (s.sequenceOf P u) i) :
      Marked P load (s.setCell target value) u (s.sequenceOf P u) i := by
    have other : (load.call u (s.sequenceOf P u)).target i ≠ target := by
      intro same
      exact free u within claiming (same ▸ held)
    simpa [Marked, Shared.setCell, other] using held
  refine ⟨shared.word, shared.bound, shared.row, shared.filled, shared.values, ?_, ?_⟩
  · intro address
    by_cases same : address = target
    · subst same
      rw [Shared.setCell_self]
      exact stored
    · rw [Shared.setCell_of_ne s same]
      exact shared.cell address
  · intro u within claiming address held
    by_cases same : address = target
    · subst same
      rw [Shared.setCell_self] at held
      obtain ⟨w, inRange, own, below⟩ := fresh u within claiming held
      exact ⟨w, inRange, own, fun i lt => keeps within claiming (below i lt)⟩
    · rw [Shared.setCell_of_ne s same] at held
      obtain ⟨w, inRange, own, below⟩ := shared.claimed u within claiming address held
      exact ⟨w, inRange, own, fun i lt => keeps within claiming (below i lt)⟩

/-- A store to a stage word: what it must establish for its own row. -/
theorem SharedOk.storeStage {stage : Stage} (shared : SharedOk P load s)
    (evo : Evolves P load t s (s.storeStage t (P.stageWord stage n)))
    (within : t < P.numThreads) (fits : n < 2 ^ P.stageSequenceBits)
    (bound : n ≤ load.count t)
    (row : stage ≠ .inactive → n < load.count t ∧ Stored P s t (load.call t n) P.numWords)
    (filled : stage ≠ .inactive → ∀ w < P.numWords, s.state.targetAddresses t w ≠ 0)
    (earlier : ∀ k < n, Started P s t k)
    (claimed : stage = .claiming → ∀ address, s.cells address ≠ P.marker t n) :
    SharedOk P load (s.storeStage t (P.stageWord stage n)) := by
  have own : (s.storeStage t (P.stageWord stage n)).stageOf P t = stage :=
    Shared.stageOf_storeStage_self fits
  have ownSequence : (s.storeStage t (P.stageWord stage n)).sequenceOf P t = n :=
    Shared.sequenceOf_storeStage_self fits
  have stages {u : ℕ} (other : u ≠ t) :
      (s.storeStage t (P.stageWord stage n)).stageOf P u = s.stageOf P u :=
    Shared.stageOf_storeStage_ne other
  have sequences {u : ℕ} (other : u ≠ t) :
      (s.storeStage t (P.stageWord stage n)).sequenceOf P u = s.sequenceOf P u :=
    Shared.sequenceOf_storeStage_ne other
  refine ⟨?_, ?_, ?_, ?_, shared.values, fun address => evo.valueOk (shared.cell address), ?_⟩
  · intro u inRange
    by_cases same : u = t
    · subst same
      rw [own, ownSequence]
      simp [Shared.storeStage]
    · rw [stages same, sequences same, ← shared.word u inRange]
      simp [Shared.storeStage, same]
  · intro u inRange
    by_cases same : u = t
    · subst same
      rw [ownSequence]
      exact bound
    · rw [sequences same]
      exact shared.bound u inRange
  · intro u inRange active
    by_cases same : u = t
    · subst same
      rw [ownSequence]
      exact row (own ▸ active)
    · rw [sequences same]
      exact shared.row u inRange (stages same ▸ active)
  · intro u inRange k started
    by_cases same : u = t
    · subst same
      rcases started with gone | ⟨current, active⟩
      · exact shared.filled u within k (earlier k (ownSequence ▸ gone))
      · exact filled (own ▸ active)
    · refine shared.filled u inRange k ?_
      simpa only [Started, stages same, sequences same] using started
  · intro u inRange claiming address held
    by_cases same : u = t
    · subst same
      rw [ownSequence] at held
      exact absurd held (claimed (own ▸ claiming) address)
    · rw [sequences same] at held ⊢
      exact shared.claimed u inRange (stages same ▸ claiming) address held

theorem sharedOk_of_operationMoves (shared : SharedOk P load s) (rules : UsageRules P load cells)
    (call : CallOk P load s t n) (position : PcOk P load s role t n pc)
    (own : role = .originator → RowAt P s t n pc)
    (moves : OperationMoves P s role t n pc event s' frames) : SharedOk P load s' := by
  have evo : Evolves P load t s s' :=
    evolves_of_operationMoves shared rules call position own (.inr rfl) moves
  cases moves with
  | @claimed w target expected found =>
    obtain ⟨inRange, below, address, real, -⟩ := position
    refine shared.setCell (overwritable_of_legal shared rules (found ▸ real))
      (.inr ⟨t, call.within, n, call.counted, rfl, call.started⟩) ?_
    intro u within claiming same
    obtain ⟨rfl, sequence⟩ := rules.marker_inj call.within call.counted within
      (shared.row u within (by simp [claiming])).1 same
    rw [← sequence]
    exact ⟨w, inRange, address.2 sequence.symm, below sequence.symm claiming⟩
  | @setDone w target desired found =>
    obtain ⟨inRange, stage, address, real, -⟩ := position
    refine shared.setCell (overwritable_of_decided shared rules call found
      (stage.not_claiming (by simp))) (.inl real) ?_
    intro u within claiming same
    exact absurd (same ▸ real) (rules.marker_not_legal within
      (shared.row u within (by simp [claiming])).1)
  | @reverted w target expected next found =>
    obtain ⟨inRange, pending, address, real, -⟩ := position
    refine shared.setCell (overwritable_of_decided shared rules call found
      pending.not_claiming) (.inl real) ?_
    intro u within claiming same
    exact absurd (same ▸ real) (rules.marker_not_legal within
      (shared.row u within (by simp [claiming])).1)
  | stageChanged sequence stage edge =>
    have active := call.started.active sequence
    have row := shared.row t call.within active
    rw [sequence] at row
    refine shared.storeStage evo call.within
      (rules.stage_lt call.within (Nat.le_of_lt call.counted)) (Nat.le_of_lt call.counted)
      (fun _ => row) (fun _ => shared.filled t call.within n call.started)
      (fun k below => .inl (by omega)) fun claiming => absurd claiming edge.target_ne_claiming
  | prepared =>
    have sequence := (own position.1).2
    refine shared.storeStage evo call.within (rules.stage_lt call.within call.counted)
      call.counted (by simp) (by simp) ?_ (by simp)
    intro k below
    rcases Nat.lt_succ_iff_lt_or_eq.mp below with earlier | rfl
    · exact .inl (sequence ▸ earlier)
    · exact call.started
  | _ => exact shared

theorem SharedOk.storeRow (shared : SharedOk P load s) (inactive : s.stageOf P t = .inactive)
    (evo : Evolves P load t s s')
    (stages : s'.state.stageAndSequenceNumbers = s.state.stageAndSequenceNumbers)
    (filled : ∀ w < P.numWords, s.state.targetAddresses t w ≠ 0 → s'.state.targetAddresses t w ≠ 0)
    (values : ∀ w < P.numWords,
      P.Legal (s'.state.expectedValues t w) ∧ P.Legal (s'.state.desiredValues t w))
    (kept : s'.cells = s.cells) : SharedOk P load s' := by
  have sequences (u : ℕ) : s'.sequenceOf P u = s.sequenceOf P u := by
    simp [Shared.sequenceOf, stages]
  have stage (u : ℕ) : s'.stageOf P u = s.stageOf P u := by simp [Shared.stageOf, stages]
  have rows {u : ℕ} (within : u < P.numThreads) (other : u ≠ t) := evo.rows u within (.inl other)
  refine ⟨?_, ?_, ?_, ?_, ?_, ?_, ?_⟩
  · intro u within
    rw [stages, stage, sequences]
    exact shared.word u within
  · intro u within
    rw [sequences]
    exact shared.bound u within
  · intro u within active
    rw [stage] at active
    obtain ⟨counted, stored⟩ := shared.row u within active
    rw [sequences]
    exact ⟨counted, evo.stored within (.inr active) stored⟩
  · intro u within k started w inRange
    rw [Started, sequences, stage] at started
    have before := shared.filled u within k started w inRange
    by_cases same : u = t
    · subst same
      exact filled w inRange before
    · rw [(rows within same).1]
      exact before
  · intro u within w inRange
    by_cases same : u = t
    · subst same
      exact values w inRange
    · rw [(rows within same).2.1, (rows within same).2.2]
      exact shared.values u within w inRange
  · intro address
    rw [kept]
    exact evo.valueOk (shared.cell address)
  · intro u within claiming address held
    rw [stage] at claiming
    rw [kept, sequences] at held
    obtain ⟨w, inRange, own, below⟩ := shared.claimed u within claiming address held
    rw [sequences]
    refine ⟨w, inRange, own, fun i lt => ?_⟩
    rw [Marked, kept]
    exact below i lt

/-- No cell holds the marker of a call that is not published yet. -/
theorem SharedOk.unpublished (shared : SharedOk P load s) (rules : UsageRules P load cells)
    (within : t < P.numThreads) (counted : n < load.count t) (not : ¬ Started P s t n)
    (address : ℕ) : s.cells address ≠ P.marker t n := by
  intro held
  rcases shared.cell address with real | ⟨u, inRange, k, countedK, same, started⟩
  · exact rules.marker_not_legal within counted (held ▸ real)
  · obtain ⟨rfl, rfl⟩ := rules.marker_inj within counted inRange countedK (held.symm.trans same)
    exact not started

theorem sharedOk_of_initMoves (shared : SharedOk P load s) (rules : UsageRules P load cells)
    (within : t < P.numThreads) {pc : InitPc} (counted : n < load.count t)
    (inactive : s.stageOf P t = .inactive) (sequence : s.sequenceOf P t = n)
    (position : InitOk P s t (load.call t n) pc)
    (moves : InitMoves P s t (load.call t n) pc event s' frames) : SharedOk P load s' := by
  have evo : Evolves P load t s s' :=
    evolves_of_initMoves rules within counted inactive sequence position moves
  cases moves with
  | @storeTarget w inRange =>
    refine shared.storeRow inactive evo rfl ?_ (shared.values t within) rfl
    intro i inRange' nonNull
    by_cases same : i = w
    · subst same
      simpa [Shared.storeTarget] using (load.call t n).target_ne_zero inRange
    · simpa [Shared.storeTarget, same] using nonNull
  | @storeExpected w inRange =>
    refine shared.storeRow inactive evo rfl (fun _ _ nonNull => nonNull) ?_ rfl
    intro i inRange'
    refine ⟨?_, (shared.values t within i inRange').2⟩
    by_cases same : i = w
    · subst same
      simpa [Shared.storeExpected] using rules.expected_legal t within n counted i inRange
    · simpa [Shared.storeExpected, same] using (shared.values t within i inRange').1
  | @storeDesired w inRange =>
    refine shared.storeRow inactive evo rfl (fun _ _ nonNull => nonNull) ?_ rfl
    intro i inRange'
    refine ⟨(shared.values t within i inRange').1, ?_⟩
    by_cases same : i = w
    · subst same
      simpa [Shared.storeDesired] using rules.desired_legal t within n counted i inRange
    · simpa [Shared.storeDesired, same] using (shared.values t within i inRange').2
  | loadStage => exact shared
  | storeStage =>
    obtain ⟨rfl, stored⟩ := position
    subst sequence
    refine shared.storeStage evo within (rules.stage_lt within (Nat.le_of_lt counted))
      (Nat.le_of_lt counted) (fun _ => ⟨counted, stored⟩) ?_ (fun k below => .inl below) ?_
    · intro _ w inRange
      rw [(stored w inRange).1]
      exact (load.call t _).target_ne_zero inRange
    · intro _ address
      refine shared.unpublished rules within counted ?_ address
      rintro (gone | ⟨-, active⟩)
      · exact absurd gone (Nat.lt_irrefl _)
      · exact active inactive

/-! ### The activation that moved -/

theorem pcOk_setFrom (stage : Within P s t n [.setting, .successful]) :
    PcOk P load s role t n (setFrom P role w) := by
  unfold setFrom
  split
  · rename_i more
    exact ⟨more, stage⟩
  · cases role with
    | originator => exact ⟨rfl, .inl ⟨rfl, stage⟩⟩
    | helper => exact .inr (.inr (.inl ⟨rfl, rfl, rfl, rfl, stage⟩))

theorem pcOk_claimFrom {op : Operation} (atMost : w ≤ P.numWords)
    (below : ClaimedBelow P load s t n w) :
    PcOk P load s role t n (claimFrom P role op w) := by
  unfold claimFrom
  split
  · rename_i more
    exact ⟨more, below⟩
  · obtain rfl : w = P.numWords := by omega
    cases role <;> exact .inl ⟨rfl, rfl, rfl, below⟩

theorem pcOk_revertAllWords {next : RevertNext} (words : 0 < P.numWords)
    (pending : NextOk P s role t n next) :
    PcOk P load s role t n (revertAllWords P next) := by
  rw [revertAllWords, if_neg (by omega)]
  exact ⟨by omega, pending⟩

theorem pcOk_revertBelow {next : RevertNext} (inRange : w < P.numWords)
    (pending : NextOk P s role t n next) :
    PcOk P load s role t n (revertBelow role next w) := by
  cases w with
  | zero =>
    cases next with
    | prepare result =>
      refine ⟨pending.1, pending.2.imp_left (.imp_right fun stage current => ?_)⟩
      have := stage current
      simp_all
    | fail error => exact pending.elim
    | changeToReverted =>
      obtain ⟨rfl, stage⟩ := pending
      exact .inr (.inr (.inr ⟨rfl, rfl, rfl, rfl, stage⟩))
    | helpReturn result =>
      obtain ⟨rfl, ⟨rfl, stage⟩ | ⟨⟨id, original, actual, rfl⟩, gone⟩⟩ := pending
      · exact ⟨rfl, by simp, stage⟩
      · exact ⟨rfl, by simp, fun current => absurd current (by omega)⟩
  | succ w => exact ⟨by omega, pending⟩

/-- How an operation goes on that finds its row at another stage than its
function looked for. -/
inductive GoesOn (P : Params) (s : Shared) (role : Role) (t n : ℕ) : Pc → Prop where
  | set : s.sequenceOf P t = n → s.stageOf P t = .setting → GoesOn P s role t n (setFrom P role 0)
  | revert {next : RevertNext} : NextOk P s role t n next →
      GoesOn P s role t n (revertAllWords P next)

theorem Diverted.goesOn {wanted : Stage} (diverted : Diverted P s role t n wanted pc)
    (decided : s.sequenceOf P t = n → s.stageOf P t ≠ wanted → s.stageOf P t ≠ .claiming) :
    GoesOn P s role t n pc := by
  cases diverted with
  | retired helper gone => exact .revert ⟨helper, .inr ⟨⟨_, _, _, rfl⟩, gone⟩⟩
  | @stage actual current stage moved active =>
    have decided := decided current (stage ▸ moved)
    have among {stages : List Stage} (member : actual ∈ stages) : Within P s t n stages :=
      fun _ => stage ▸ member
    cases role with
    | originator =>
      cases actual with
      | inactive => exact absurd rfl active
      | claiming => exact absurd stage decided
      | setting => exact .set current stage
      | successful => exact .revert ⟨rfl, .inl ⟨rfl, among (by simp)⟩⟩
      | reverting => exact .revert ⟨rfl, .inr ⟨rfl, among (by simp)⟩⟩
      | reverted => exact .revert ⟨rfl, .inr ⟨rfl, among (by simp)⟩⟩
    | helper =>
      cases actual with
      | inactive => exact absurd rfl active
      | claiming => exact absurd stage decided
      | setting => exact .set current stage
      | successful => exact .revert ⟨rfl, .inl ⟨rfl, among (by simp)⟩⟩
      | reverting => exact .revert ⟨rfl, among (by simp)⟩
      | reverted => exact .revert ⟨rfl, .inl ⟨rfl, among (by simp)⟩⟩

theorem pcOk_of_goesOn (words : 0 < P.numWords) (goes : GoesOn P s role t n pc) :
    PcOk P load s role t n pc := by
  cases goes with
  | set current setting => exact pcOk_setFrom fun _ => by simp [setting]
  | revert pending => exact pcOk_revertAllWords words pending

/-- A row that still carries a published call's sequence holds its words. -/
theorem SharedOk.words (shared : SharedOk P load s) (call : CallOk P load s t n)
    (inRange : w < P.numWords) (current : s.sequenceOf P t = n) :
    s.state.targetAddresses t w = (load.call t n).target w ∧
      s.state.expectedValues t w = (load.call t n).expected w ∧
      s.state.desiredValues t w = (load.call t n).desired w := by
  have row := (shared.row t call.within (call.started.active current)).2
  rw [current] at row
  exact row w inRange

theorem SharedOk.targetOk (shared : SharedOk P load s) (call : CallOk P load s t n)
    (inRange : w < P.numWords) : TargetOk P load s t n w (s.state.targetAddresses t w) :=
  ⟨shared.filled t call.within n call.started w inRange,
    fun current => (shared.words call inRange current).1⟩

/-- What the functions after a successful stage exchange start with. -/
theorem pcOk_afterStageChanged {current desired : Stage} {next : StageNext}
    (position : PcOk P load s role t n (.changeStage current desired next))
    (stage : s'.stageOf P t = desired) :
    PcOk P load s' role t n (afterStageChanged P role next) := by
  rcases position with ⟨-, rfl, rfl, -⟩ | ⟨w, inRange, -, rfl, rfl, -⟩ | ⟨rfl, -, rfl, rfl, -⟩ |
    ⟨rfl, -, rfl, rfl, -⟩
  · exact pcOk_setFrom fun _ => by simp [stage]
  · have reverting : Within P s' t n [.reverting, .reverted] := fun _ => by simp [stage]
    cases role with
    | originator => exact ⟨inRange, rfl, .inr ⟨rfl, reverting⟩⟩
    | helper => exact ⟨inRange, rfl, reverting⟩
  · exact ⟨rfl, by simp, fun _ => by simp [stage]⟩
  · exact ⟨rfl, by simp, fun _ => by simp [stage]⟩

/-- A stage exchange is refused only where somebody can help. -/
theorem words_of_refused {current : Stage} {desired : Stage} {next : StageNext}
    (owns : (role = .helper ∧ 0 < P.numWords) ∨
      RowAt P s t n (.changeStage current desired next))
    (diverted : Diverted P s role t n current pc) : 0 < P.numWords := by
  rcases owns with ⟨-, words⟩ | ⟨-, sequence, words | stage⟩
  · exact words
  · exact words
  · cases diverted with
    | stage _ same moved _ => exact absurd (same ▸ stage) moved
    | retired _ gone => omega

/-- A refused stage exchange did not find the row at Claiming unless it looked
for it there. -/
theorem PcOk.not_claiming {current desired : Stage} {next : StageNext}
    (position : PcOk P load s role t n (.changeStage current desired next))
    (sequence : s.sequenceOf P t = n) (moved : s.stageOf P t ≠ current) :
    s.stageOf P t ≠ .claiming := by
  intro claiming
  rcases position with ⟨rfl, -⟩ | ⟨w, -, rfl, -⟩ | ⟨-, -, -, -, stage⟩ | ⟨-, -, -, -, stage⟩
  · exact moved claiming
  · exact moved claiming
  · exact stage.not_claiming (by simp) sequence claiming
  · exact stage.not_claiming (by simp) sequence claiming

theorem goesOn_of_claimDiverted (diverted : Diverted P s role t n .claiming pc) :
    GoesOn P s role t n pc :=
  diverted.goesOn fun _ moved => moved

theorem goesOn_of_stageRefused {current desired : Stage} {next : StageNext}
    (position : PcOk P load s role t n (.changeStage current desired next))
    (diverted : Diverted P s role t n current pc) : GoesOn P s role t n pc :=
  diverted.goesOn position.not_claiming

theorem goesOn_of_setDiverted (stage : Within P s t n [.setting, .successful])
    (diverted : Diverted P s role t n .setting pc) : GoesOn P s role t n pc :=
  diverted.goesOn fun current _ => stage.not_claiming (by simp) current

/-- What replaces the activation of an operation that moved. -/
inductive Onward (P : Params) (load : Workload P.numWords) (s : Shared) (role : Role) (t n : ℕ) :
    List (Frame P.numWords) → Prop where
  | stays {pc : Pc} : PcOk P load s role t n pc →
      Onward P load s role t n [.operating role (P.operation t n) pc]
  | helps {marker w target expected : ℕ} : HelperOk P load s (.helpThread marker) →
      PcOk P load s role t n (.claimHelp w target expected) →
      Onward P load s role t n
        [.helpThread marker, .operating role (P.operation t n) (.claimHelp w target expected)]

theorem onward_of_operationMoves (shared : SharedOk P load s) (rules : UsageRules P load cells)
    (call : CallOk P load s t n) (position : PcOk P load s role t n pc)
    (owns : (role = .helper ∧ 0 < P.numWords) ∨ (role = .originator ∧ RowAt P s t n pc))
    (moves : OperationMoves P s role t n pc event s' frames) :
    Onward P load s' role t n frames := by
  have own : role = .originator → RowAt P s t n pc := by
    rintro rfl
    simpa using owns
  have evo : Evolves P load t s s' :=
    evolves_of_operationMoves shared rules call position own (.inr rfl) moves
  cases moves with
  | claimLoadTarget =>
    exact .stays ⟨position.1, position.2, shared.targetOk call position.1⟩
  | claimLoadExpected =>
    obtain ⟨inRange, below, address⟩ := position
    exact .stays ⟨inRange, below, address, (shared.values t call.within _ inRange).1,
      fun current => (shared.words call inRange current).2.1⟩
  | @claimed w target expected found =>
    obtain ⟨inRange, below, address, -, -⟩ := position
    refine .stays (pcOk_claimFrom inRange ?_)
    intro current claiming i lt
    rcases Nat.lt_succ_iff_lt_or_eq.mp lt with earlier | rfl
    · exact evo.claimedBelow call below current claiming i earlier
    · rw [Marked, ← address.2 current]
      simp [Shared.setCell]
  | claimSpurious => exact .stays position
  | @claimFoundOwn w target expected found =>
    obtain ⟨inRange, below, address, -, -⟩ := position
    refine .stays (pcOk_claimFrom inRange ?_)
    intro current claiming i lt
    rcases Nat.lt_succ_iff_lt_or_eq.mp lt with earlier | rfl
    · exact below current claiming i earlier
    · rw [Marked, ← address.2 current, found]
  | claimFoundOther other foreign =>
    exact .stays ⟨position, other, foreign, shared.cell _⟩
  | @verifiedReal w target expected actual current claiming real =>
    obtain ⟨⟨inRange, below, -⟩, -⟩ := position
    exact .stays (.inr (.inl ⟨w, inRange, rfl, rfl, rfl, below⟩))
  | @verifiedMarker w target expected u k current claiming within foreign =>
    obtain ⟨waits, -, -, value⟩ := position
    refine .helps ?_ waits
    rcases value with real | ⟨v, helpee, m, counted, same, started⟩
    · exact absurd real foreign
    · exact ⟨v, m, same, ⟨helpee, counted, started⟩, by have := waits.1; omega⟩
  | claimDiverted diverted =>
    have inRange := position.1.1
    exact .stays (pcOk_of_goesOn (by omega) (goesOn_of_claimDiverted diverted))
  | @stageChanged current desired next sequence stage edge =>
    exact .stays (pcOk_afterStageChanged position (Shared.stageOf_storeStage_self
      (rules.stage_lt call.within (Nat.le_of_lt call.counted))))
  | @stageRefused current desired next pc diverted =>
    exact .stays (pcOk_of_goesOn (words_of_refused (owns.imp_right And.right) diverted)
      (goesOn_of_stageRefused position diverted))
  | setLoadTarget => exact .stays ⟨position.1, position.2, shared.targetOk call position.1⟩
  | setLoadDesired =>
    obtain ⟨inRange, stage, address⟩ := position
    exact .stays ⟨inRange, stage, address, (shared.values t call.within _ inRange).2,
      fun current => (shared.words call inRange current).2.2⟩
  | setDone found =>
    exact .stays (pcOk_setFrom (evo.inStages call Evolves.closed_setting position.2.1))
  | setMissed missed => exact .stays ⟨position.1, position.2.1⟩
  | setVerified current setting => exact .stays (pcOk_setFrom position.2)
  | setDiverted diverted =>
    obtain ⟨inRange, stage⟩ := position
    exact .stays (pcOk_of_goesOn (by omega) (goesOn_of_setDiverted stage diverted))
  | revertLoadTarget => exact .stays ⟨position.1, position.2, shared.targetOk call position.1⟩
  | revertLoadExpected =>
    obtain ⟨inRange, pending, address⟩ := position
    exact .stays ⟨inRange, pending, address, (shared.values t call.within _ inRange).1,
      fun current => (shared.words call inRange current).2.1⟩
  | reverted found =>
    exact .stays (pcOk_revertBelow position.1 (evo.nextOk call position.2.1))
  | revertMissed missed => exact .stays (pcOk_revertBelow position.1 position.2.1)
  | prepared =>
    refine .stays ⟨position.1, ?_⟩
    rcases position.2 with ⟨rfl, -⟩ | ⟨rfl, -⟩
    · exact .inl rfl
    · exact .inr rfl

end KCas
