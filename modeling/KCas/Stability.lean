import KCas.Invariant

/-! What an activation relies on survives everything that others can do to the
shared memory. -/
namespace KCas

variable {P : Params} {load : Workload P.numWords} {s s' : Shared} {owner t n w target : ℕ}
  {role : Role} {stages : List Stage}

theorem StageEdge.target_ne_inactive {a b : Stage} (edge : StageEdge a b) : b ≠ .inactive := by
  cases edge <;> simp

theorem StageEdge.target_ne_claiming {a b : Stage} (edge : StageEdge a b) : b ≠ .claiming := by
  cases edge <;> simp

namespace Evolves

/-- A row that still carries a published call's sequence carried it before, at
the same stage or one exchange earlier. -/
theorem current_back (evo : Evolves P load owner s s') (within : t < P.numThreads)
    (started : Started P s t n) (current : s'.sequenceOf P t = n) :
    s.sequenceOf P t = n ∧ s.stageOf P t ≠ .inactive ∧
      (s'.stageOf P t = s.stageOf P t ∨ StageEdge (s.stageOf P t) (s'.stageOf P t)) := by
  have le := evo.sequence_le t within
  rcases started with gone | ⟨same, active⟩
  · omega
  · have forward := evo.forward t within (current.trans same.symm)
    refine ⟨same, active, ?_⟩
    rcases forward with kept | ⟨-, idle⟩ | edge
    · exact .inl kept
    · exact absurd idle active
    · exact .inr edge

theorem started (evo : Evolves P load owner s s') (within : t < P.numThreads)
    (started : Started P s t n) : Started P s' t n := by
  have le := evo.sequence_le t within
  by_cases current : s'.sequenceOf P t = n
  · obtain ⟨-, active, kept | edge⟩ := evo.current_back within started current
    · exact .inr ⟨current, kept ▸ active⟩
    · exact .inr ⟨current, edge.target_ne_inactive⟩
  · rcases started with gone | ⟨same, -⟩
    · exact .inl (by omega)
    · exact .inl (by omega)

theorem callOk (evo : Evolves P load owner s s') (ok : CallOk P load s t n) :
    CallOk P load s' t n :=
  ⟨ok.within, ok.counted, evo.started ok.within ok.started⟩

/-- What holds while the row carries the sequence keeps holding so. -/
theorem whileCurrent {fact : Prop} (evo : Evolves P load owner s s') (ok : CallOk P load s t n)
    (held : s.sequenceOf P t = n → fact) : s'.sequenceOf P t = n → fact :=
  fun current => held (evo.current_back ok.within ok.started current).1

theorem targetOk (evo : Evolves P load owner s s') (ok : CallOk P load s t n)
    (held : TargetOk P load s t n w target) : TargetOk P load s' t n w target :=
  ⟨held.1, evo.whileCurrent ok held.2⟩

theorem claimedBelow (evo : Evolves P load owner s s') (ok : CallOk P load s t n)
    (held : ClaimedBelow P load s t n w) : ClaimedBelow P load s' t n w := by
  intro current claiming i below
  obtain ⟨same, -, kept | edge⟩ := evo.current_back ok.within ok.started current
  · have before : s.stageOf P t = .claiming := kept ▸ claiming
    exact evo.marks t ok.within n ok.counted same before current claiming _
      (held same before i below)
  · exact absurd claiming edge.target_ne_claiming

/-- A set of stages that no exchange leaves. -/
def Closed (stages : List Stage) : Prop := ∀ a ∈ stages, ∀ b, StageEdge a b → b ∈ stages

theorem inStages (evo : Evolves P load owner s s') (ok : CallOk P load s t n)
    (closed : Closed stages) (held : Within P s t n stages) : Within P s' t n stages := by
  intro current
  obtain ⟨same, -, kept | edge⟩ := evo.current_back ok.within ok.started current
  · exact kept ▸ held same
  · exact closed _ (held same) _ edge

theorem closed_setting : Closed [.setting, .successful] := by
  intro a member b edge
  cases edge <;> simp_all

theorem closed_successful : Closed [.successful] := by
  intro a member b edge
  cases edge <;> simp_all

theorem closed_reverting : Closed [.reverting, .reverted] := by
  intro a member b edge
  cases edge <;> simp_all

theorem closed_terminal : Closed [.successful, .reverted] := by
  intro a member b edge
  cases edge <;> simp_all

theorem preparedOk {result : Except Error Unit} (evo : Evolves P load owner s s')
    (ok : CallOk P load s t n) (closed : Closed stages)
    (held : PreparedOk P s t n stages result) : PreparedOk P s' t n stages result :=
  held.imp (.imp_right (evo.inStages ok closed)) (.imp_right (evo.inStages ok closed_reverting))

theorem valueOk {value : ℕ} (evo : Evolves P load owner s s')
    (held : ValueOk P load s value) : ValueOk P load s' value := by
  rcases held with real | ⟨t, within, n, counted, rfl, started⟩
  · exact .inl real
  · exact .inr ⟨t, within, n, counted, rfl, evo.started within started⟩

theorem nextOk {next : RevertNext} (evo : Evolves P load owner s s') (ok : CallOk P load s t n)
    (held : NextOk P s role t n next) : NextOk P s' role t n next := by
  cases next with
  | prepare result => exact ⟨held.1, evo.preparedOk ok closed_successful held.2⟩
  | fail error => exact held
  | changeToReverted => exact ⟨held.1, evo.inStages ok closed_reverting held.2⟩
  | helpReturn result =>
    refine ⟨held.1, held.2.imp (.imp_right (evo.inStages ok closed_terminal)) (.imp_right ?_)⟩
    exact fun gone => Nat.lt_of_lt_of_le gone (evo.sequence_le t ok.within)

theorem pcOk {pc : Pc} (evo : Evolves P load owner s s') (ok : CallOk P load s t n)
    (held : PcOk P load s role t n pc) : PcOk P load s' role t n pc := by
  cases pc with
  | claimLoadTarget w => exact ⟨held.1, evo.claimedBelow ok held.2⟩
  | claimLoadExpected w target =>
    exact ⟨held.1, evo.claimedBelow ok held.2.1, evo.targetOk ok held.2.2⟩
  | claimExchange w target expected =>
    obtain ⟨inRange, below, address, real, own⟩ := held
    exact ⟨inRange, evo.claimedBelow ok below, evo.targetOk ok address, real,
      evo.whileCurrent ok own⟩
  | claimVerify w target expected actual =>
    obtain ⟨⟨inRange, below, address, real, own⟩, other, foreign, value⟩ := held
    exact ⟨⟨inRange, evo.claimedBelow ok below, evo.targetOk ok address, real,
      evo.whileCurrent ok own⟩, other, foreign, evo.valueOk value⟩
  | claimHelp w target expected =>
    obtain ⟨inRange, below, address, real, own⟩ := held
    exact ⟨inRange, evo.claimedBelow ok below, evo.targetOk ok address, real,
      evo.whileCurrent ok own⟩
  | changeStage current desired next =>
    rcases held with ⟨h₁, h₂, h₃, below⟩ | ⟨w, inRange, h₁, h₂, h₃, below⟩ |
      ⟨h₁, h₂, h₃, h₄, stage⟩ | ⟨h₁, h₂, h₃, h₄, stage⟩
    · exact .inl ⟨h₁, h₂, h₃, evo.claimedBelow ok below⟩
    · exact .inr (.inl ⟨w, inRange, h₁, h₂, h₃, evo.claimedBelow ok below⟩)
    · exact .inr (.inr (.inl ⟨h₁, h₂, h₃, h₄, evo.inStages ok closed_setting stage⟩))
    · exact .inr (.inr (.inr ⟨h₁, h₂, h₃, h₄, evo.inStages ok closed_reverting stage⟩))
  | setLoadTarget w => exact ⟨held.1, evo.inStages ok closed_setting held.2⟩
  | setLoadDesired w target =>
    exact ⟨held.1, evo.inStages ok closed_setting held.2.1, evo.targetOk ok held.2.2⟩
  | setExchange w target desired =>
    obtain ⟨inRange, stage, address, real, own⟩ := held
    exact ⟨inRange, evo.inStages ok closed_setting stage, evo.targetOk ok address, real,
      evo.whileCurrent ok own⟩
  | setVerify w => exact ⟨held.1, evo.inStages ok closed_setting held.2⟩
  | revertLoadTarget w next => exact ⟨held.1, evo.nextOk ok held.2⟩
  | revertLoadExpected w target next =>
    exact ⟨held.1, evo.nextOk ok held.2.1, evo.targetOk ok held.2.2⟩
  | revertExchange w target expected next =>
    obtain ⟨inRange, pending, address, real, own⟩ := held
    exact ⟨inRange, evo.nextOk ok pending, evo.targetOk ok address, real,
      evo.whileCurrent ok own⟩
  | prepare result => exact ⟨held.1, evo.preparedOk ok closed_setting held.2⟩
  | finished result => exact held
  | returned result => exact ⟨held.1, held.2.1, evo.inStages ok closed_terminal held.2.2⟩
  | panicked => exact held

theorem helperOk {frame : Frame P.numWords} (evo : Evolves P load owner s s')
    (held : HelperOk P load s frame) : HelperOk P load s' frame := by
  cases frame with
  | initializing => exact held
  | helpThread marker =>
    obtain ⟨t, n, rfl, ok, words⟩ := held
    exact ⟨t, n, rfl, evo.callOk ok, words⟩
  | operating role op pc =>
    obtain ⟨t, n, rfl, rfl, ok, words, position⟩ := held
    exact ⟨t, n, rfl, rfl, evo.callOk ok, words, evo.pcOk ok position⟩

/-- A row that is not the owner's stays idle, and stays at its call. -/
theorem idle (evo : Evolves P load owner s s') (within : t < P.numThreads) (other : t ≠ owner)
    (inactive : s.stageOf P t = .inactive) :
    s'.stageOf P t = .inactive ∧ s'.sequenceOf P t = s.sequenceOf P t := by
  have same := evo.retires t within other
  refine ⟨?_, same⟩
  rcases evo.forward t within same with kept | ⟨own, -⟩ | edge
  · exact kept ▸ inactive
  · exact absurd own other
  · rw [inactive] at edge
    cases edge

theorem active (evo : Evolves P load owner s s') (within : t < P.numThreads) (other : t ≠ owner)
    (active : s.stageOf P t ≠ .inactive) : s'.stageOf P t ≠ .inactive := by
  rcases evo.forward t within (evo.retires t within other) with kept | ⟨-, idle⟩ | edge
  · exact kept ▸ active
  · exact absurd idle active
  · exact edge.target_ne_inactive

theorem stored {words : KCasWords P.numWords} {count : ℕ} (evo : Evolves P load owner s s')
    (within : t < P.numThreads) (untouched : t ≠ owner ∨ s.stageOf P t ≠ .inactive)
    (held : Stored P s t words count) : Stored P s' t words count := by
  obtain ⟨targets, expecteds, desireds⟩ := evo.rows t within untouched
  intro w below
  rw [targets, expecteds, desireds]
  exact held w below

theorem rowAt {pc : Pc} (evo : Evolves P load owner s s') (within : t < P.numThreads)
    (other : t ≠ owner) (held : RowAt P s t n pc) : RowAt P s' t n pc := by
  have same := evo.retires t within other
  cases pc with
  | finished result =>
    have idle := evo.idle within other held.1
    exact ⟨idle.1, idle.2.trans held.2⟩
  | changeStage current desired next =>
    refine ⟨evo.active within other held.1, same.trans held.2.1, ?_⟩
    rcases evo.quiet with words | quiet
    · exact .inl words
    · exact held.2.2.imp_right (quiet t within other).trans
  | _ => exact ⟨evo.active within other held.1, same.trans held.2⟩

theorem initOk {words : KCasWords P.numWords} {pc : InitPc} (evo : Evolves P load owner s s')
    (within : t < P.numThreads) (other : t ≠ owner) (held : InitOk P s t words pc) :
    InitOk P s' t words pc := by
  obtain ⟨targets, expecteds, desireds⟩ := evo.rows t within (.inl other)
  cases pc with
  | storeTarget w => exact ⟨held.1, evo.stored within (.inl other) held.2⟩
  | storeExpected w =>
    exact ⟨held.1, evo.stored within (.inl other) held.2.1, by rw [targets]; exact held.2.2⟩
  | storeDesired w =>
    exact ⟨held.1, evo.stored within (.inl other) held.2.1, by rw [targets]; exact held.2.2.1,
      by rw [expecteds]; exact held.2.2.2⟩
  | loadStage => exact evo.stored within (.inl other) held
  | storeStage n =>
    exact ⟨held.1.trans (evo.retires t within other).symm, evo.stored within (.inl other) held.2⟩

end Evolves

/-- The call an originator works for is published. -/
theorem RowAt.started {pc : Pc} (row : RowAt P s t n pc) : Started P s t n := by
  cases pc with
  | finished result => exact .inl (by rw [row.2]; omega)
  | changeStage current desired next => exact .inr ⟨row.2.1, row.1⟩
  | _ => exact .inr ⟨row.2, row.1⟩

theorem Evolves.originatorOk {frame : Frame P.numWords} (evo : Evolves P load owner s s')
    (within : t < P.numThreads) (other : t ≠ owner)
    (held : OriginatorOk P load s t n frame) : OriginatorOk P load s' t n frame := by
  cases frame with
  | initializing threadId threadIndex words pc =>
    obtain ⟨rfl, rfl, rfl, counted, inactive, sequence, position⟩ := held
    have idle := evo.idle within other inactive
    exact ⟨rfl, rfl, rfl, counted, idle.1, idle.2.trans sequence,
      evo.initOk within other position⟩
  | helpThread marker => exact held
  | operating role op pc =>
    obtain ⟨rfl, rfl, counted, row, position⟩ := held
    exact ⟨rfl, rfl, counted, evo.rowAt within other row,
      evo.pcOk ⟨within, counted, row.started⟩ position⟩

/-- The stacks of the other threads, and the activations that wait below a
running helper, keep what they rely on. -/
theorem Evolves.stackOk {stack : List (Frame P.numWords)} (evo : Evolves P load owner s s')
    (within : t < P.numThreads) (other : t ≠ owner)
    (held : StackOk P load s t n stack) : StackOk P load s' t n stack := by
  induction stack with
  | nil =>
    have idle := evo.idle within other held.1
    exact ⟨idle.1, idle.2.trans held.2⟩
  | cons frame rest ih =>
    cases rest with
    | nil => exact evo.originatorOk within other held
    | cons caller rest => exact ⟨evo.helperOk held.1, held.2.1, ih held.2.2⟩

end KCas
