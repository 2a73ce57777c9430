import LineCalculator.Proofs.Grammar.Watching
import Mathlib.Data.List.Chain

/-!
# Rules are entered further on

While a text is read, a rule is entered either as a part of the rule around it,
or because a parenthesis, a caret or another round of a sum or product opens the
grammar again. The parts of a rule come below it in a fixed order. The grammar
is opened again only behind a token, so then less text remains than wherever one
of the rules around it was entered.
-/

namespace LineCalculator

namespace Grammar

/-! ## Orderly paths -/

namespace Place

/-- Whether the grammar is opened again when one rule enters another: a sum
between parentheses, the exponent of a power or one more round. -/
def reopens : Place → Place → Bool
  | .group, .sum | .call, .sum => true
  | .factor, .factor => true
  | .sum, .termRound | .termRound, .termRound => true
  | .product, .factorRound | .factorRound, .factorRound => true
  | _, _ => false

/-- The order in which rules are parts of one another. -/
def rank : Place → Nat
  | .sum => 6
  | .termRound => 5
  | .product => 4
  | .factorRound => 3
  | .factor => 2
  | .operand | .function => 1
  | .group | .stepBefore | .stepAfter | .call => 0

end Place

/-- A visit within another one. It is further on where it opens the grammar
again, and a part of the other one elsewhere. -/
structure Visit.Follows (visit parent : Visit) : Prop where
  suffix : visit.rest <:+ parent.rest
  shorter : parent.place.reopens visit.place = true →
    visit.rest.length < parent.rest.length
  below : parent.place.reopens visit.place = false →
    visit.place.rank < parent.place.rank

/-- Every visit of a path follows on the one around it. -/
def Orderly (path : List Visit) : Prop :=
  path.IsChain Visit.Follows

/-- The number of factors that are being read in a path. -/
def factorDepth (path : List Visit) : Nat :=
  path.countP fun visit => visit.place = .factor

@[simp] theorem factorDepth_nil : factorDepth [] = 0 := rfl

theorem factorDepth_cons (visit : Visit) (around : List Visit) :
    factorDepth (visit :: around) =
      factorDepth around + if visit.place = .factor then 1 else 0 := by
  simp only [factorDepth, List.countP_cons, decide_eq_true_eq]

variable {visit parent : Visit} {path around : List Visit}

/-- What remains at a visit remains in part of what remains at those around
it. -/
theorem Orderly.suffix
    (orderly : Orderly (visit :: around)) :
    ∀ outer ∈ around, visit.rest <:+ outer.rest := by
  induction around generalizing visit with
  | nil => simp
  | cons next around aroundHypothesis =>
      obtain ⟨follows, outward⟩ := List.isChain_cons_cons.mp orderly
      rw [List.forall_mem_cons]
      exact ⟨follows.suffix, fun outer member =>
        follows.suffix.trans (aroundHypothesis outward outer member)⟩

/-- Where the grammar is opened again, less text remains than at all visits
around. -/
theorem Orderly.shorter
    (orderly : Orderly (visit :: parent :: around))
    (reopens : parent.place.reopens visit.place = true) :
    ∀ outer ∈ parent :: around, visit.rest.length < outer.rest.length := by
  obtain ⟨follows, outward⟩ := List.isChain_cons_cons.mp orderly
  have shorter := follows.shorter reopens
  rw [List.forall_mem_cons]
  refine ⟨shorter, fun outer member => ?_⟩
  exact Nat.lt_of_lt_of_le shorter (Orderly.suffix outward outer member).length_le

/-- Between two factors of a path the grammar is opened again, so there are no
more factors than characters between the text and the innermost visit, and one
more where that visit is a factor or a part of one. -/
theorem Orderly.factorDepth_le
    {length : Nat}
    (orderly : Orderly (visit :: around))
    (within : ∀ outer ∈ visit :: around, outer.rest.length ≤ length) :
    factorDepth (visit :: around) + visit.rest.length ≤
      length + if visit.place.rank ≤ Place.rank .factor then 1 else 0 := by
  induction around generalizing visit with
  | nil =>
      have here := within visit List.mem_cons_self
      by_cases isFactor : visit.place = .factor
      · simpa [factorDepth_cons, isFactor, Place.rank, Nat.add_comm] using here
      · simp only [factorDepth_cons, if_neg isFactor, factorDepth_nil]
        omega
  | cons next around aroundHypothesis =>
      obtain ⟨follows, outward⟩ := List.isChain_cons_cons.mp orderly
      have outer := aroundHypothesis outward (List.forall_mem_cons.mp within).2
      have later := follows.suffix.length_le
      rw [factorDepth_cons]
      by_cases isFactor : visit.place = .factor
      · rw [if_pos isFactor, if_pos (Nat.le_of_eq (congrArg Place.rank isFactor))]
        rcases reopens : next.place.reopens visit.place with _ | _
        · have below := follows.below reopens
          rw [isFactor] at below
          rw [if_neg (Nat.not_le.mpr below)] at outer
          omega
        · have shorter := follows.shorter reopens
          split at outer <;> omega
      · rw [if_neg isFactor]
        rcases reopens : next.place.reopens visit.place with _ | _
        · have below := follows.below reopens
          split at outer
          · next outerRank =>
              rw [if_pos (Nat.le_trans (Nat.le_of_lt below) outerRank)]
              omega
          · omega
        · have shorter := follows.shorter reopens
          split at outer <;> omega

/-! ## Runs along a path -/

/-- What can be noted while a state is read on: an orderly path of visits that
were there before or are made in the text that remains. -/
structure Noted (start : State (Journal σ)) (path : List Visit) : Prop where
  orderly : Orderly path
  within : ∀ visit ∈ path,
    visit ∈ start.steps.path ∨ visit.rest <:+ start.rest

/-- What a run along a path leaves: no more text than before, the path, and
further notes behind the earlier ones. -/
structure Recorded
    (start : State (Journal σ))
    (result : Option α × State (Journal σ)) : Prop where
  suffix : result.2.rest <:+ start.rest
  path : result.2.steps.path = start.steps.path
  visits : ∃ added, result.2.steps.visits = start.steps.visits ++ added ∧
    ∀ path ∈ added, Noted start path

/-- A rule makes orderly notes from states with a given property. -/
def Rule.Records
    (rule : Rule (Journal σ) α)
    (Start : State (Journal σ) → Prop) : Prop :=
  ∀ start, Start start → Recorded start (rule.run start)

/-- A property of states that lasts while more text is taken along the same
path. -/
def Lasts (Start : State (Journal σ) → Prop) : Prop :=
  ∀ start finish, finish.rest <:+ start.rest →
    finish.steps.path = start.steps.path → Start start → Start finish

/-- A rule can be entered: the visit follows on the path. -/
def CanEnter (place : Place) (state : State (Journal σ)) : Prop :=
  Orderly (⟨place, state.rest⟩ :: state.steps.path)

/-- A rule is being read. -/
def Inside (place : Place) (state : State (Journal σ)) : Prop :=
  ∃ rest around, state.steps.path = ⟨place, rest⟩ :: around ∧
    Orderly state.steps.path ∧ state.rest <:+ rest

/-- A rule is being read and has taken text. -/
def Beyond (place : Place) (state : State (Journal σ)) : Prop :=
  ∃ rest around, state.steps.path = ⟨place, rest⟩ :: around ∧
    Orderly state.steps.path ∧ state.rest <:+ rest ∧
    state.rest.length < rest.length

variable
  {scope : Scope σ}
  {place inner : Place}
  {Start : State (Journal σ) → Prop}
  {start : State (Journal σ)}

/-- What can be entered can still be entered when more text is taken along the
same path. -/
theorem lasts_canEnter : Lasts (σ := σ) (CanEnter place) := by
  intro start finish suffix same orderly
  unfold CanEnter at orderly ⊢
  rw [same]
  generalize start.steps.path = path at orderly ⊢
  cases path with
  | nil => exact List.isChain_singleton _
  | cons parent around =>
      obtain ⟨follows, outward⟩ := List.isChain_cons_cons.mp orderly
      refine List.isChain_cons_cons.mpr ⟨⟨?_, ?_, follows.below⟩, outward⟩
      · exact suffix.trans follows.suffix
      · exact fun reopens =>
          Nat.lt_of_le_of_lt suffix.length_le (follows.shorter reopens)

theorem lasts_inside : Lasts (σ := σ) (Inside place) := by
  rintro start finish suffix same ⟨rest, around, path, orderly, taken⟩
  rw [Inside, same]
  exact ⟨rest, around, path, orderly, suffix.trans taken⟩

theorem lasts_beyond : Lasts (σ := σ) (Beyond place) := by
  rintro start finish suffix same ⟨rest, around, path, orderly, taken, shorter⟩
  rw [Beyond, same]
  exact ⟨rest, around, path, orderly, suffix.trans taken,
    Nat.lt_of_le_of_lt suffix.length_le shorter⟩

/-- Beyond the place of a visit the rule is still inside the visit. -/
theorem Beyond.inside (beyond : Beyond place start) : Inside place start := by
  obtain ⟨rest, around, path, orderly, taken, -⟩ := beyond
  exact ⟨rest, around, path, orderly, taken⟩

/-- Behind a token that a rule has taken it has taken text. -/
theorem Inside.beyond
    {finish : State (Journal σ)}
    (inside : Inside place start)
    (same : finish.steps.path = start.steps.path)
    (suffix : finish.rest <:+ start.rest)
    (shorter : finish.rest.length < start.rest.length) :
    Beyond place finish := by
  obtain ⟨rest, around, path, orderly, taken⟩ := inside
  rw [Beyond, same]
  exact ⟨rest, around, path, orderly, suffix.trans taken,
    Nat.lt_of_lt_of_le shorter taken.length_le⟩

/-- What follows on the visit in which a rule is being read can be entered. -/
theorem canEnter_of_follows
    {rest : List Char}
    {around : List Visit}
    (path : start.steps.path = ⟨place, rest⟩ :: around)
    (orderly : Orderly start.steps.path)
    (follows : Visit.Follows ⟨inner, start.rest⟩ ⟨place, rest⟩) :
    CanEnter inner start := by
  rw [path] at orderly
  rw [CanEnter, path]
  exact List.isChain_cons_cons.mpr ⟨follows, orderly⟩

/-- A part of a rule can be entered wherever the rule is being read. -/
theorem Inside.canEnter
    (inside : Inside place start)
    (noReopening : place.reopens inner = false)
    (below : inner.rank < place.rank) :
    CanEnter inner start := by
  obtain ⟨rest, around, path, orderly, taken⟩ := inside
  exact canEnter_of_follows path orderly
    ⟨taken, by simp [noReopening], fun _ => below⟩

/-- The grammar can be opened again once text has been taken. -/
theorem Beyond.canEnter
    (beyond : Beyond place start)
    (reopens : place.reopens inner = true) :
    CanEnter inner start := by
  obtain ⟨rest, around, path, orderly, taken, shorter⟩ := beyond
  exact canEnter_of_follows path orderly
    ⟨taken, fun _ => shorter, by simp [reopens]⟩

theorem Recorded.refl
    (start : State (Journal σ))
    (value? : Option α) :
    Recorded start (value?, start) :=
  ⟨List.suffix_rfl, rfl, [], (List.append_nil _).symm, by simp⟩

/-- Records of two runs in a row are one record. -/
theorem Recorded.trans
    {middle : State (Journal σ)}
    {value? : Option α}
    {result : Option β × State (Journal σ)}
    (first : Recorded start (value?, middle))
    (second : Recorded middle result) :
    Recorded start result := by
  obtain ⟨added, visits, noted⟩ := first.visits
  obtain ⟨later, laterVisits, laterNoted⟩ := second.visits
  refine ⟨second.suffix.trans first.suffix, second.path.trans first.path,
    added ++ later, ?_, fun path member => ?_⟩
  · rw [laterVisits, visits, List.append_assoc]
  · rcases List.mem_append.mp member with isAdded | isLater
    · exact noted path isAdded
    · obtain ⟨orderly, within⟩ := laterNoted path isLater
      refine ⟨orderly, fun visit member => ?_⟩
      rw [← first.path]
      exact (within visit member).imp_right fun suffix =>
        suffix.trans first.suffix

theorem records_pure (value : α) : (pure value : Rule (Journal σ) α).Records Start :=
  fun start _ => .refl start (some value)

theorem records_failure : (failure : Rule (Journal σ) α).Records Start :=
  fun start _ => .refl start none

/-- A token makes no notes. -/
theorem records_token
    {reader : Token.Reader α}
    (consumes : Token.Consumes reader) :
    (token reader).Records Start := by
  intro start _
  rw [run_token]
  rcases found : reader start.rest with _ | ⟨value, rest⟩
  · exact .refl start none
  · have leaves := consumes start.rest value rest found
    exact ⟨leaves.suffix, rfl, [], (List.append_nil _).symm, by simp⟩

namespace Rule.Records

variable {rule first second : Rule (Journal σ) α}

theorem mono
    {Other : State (Journal σ) → Prop}
    (records : rule.Records Other)
    (imp : ∀ start, Start start → Other start) :
    rule.Records Start :=
  fun start holds => records start (imp start holds)

/-- What follows a value is run from the state that the value leaves. -/
theorem bind_of
    {next : α → Rule (Journal σ) β}
    {Middle : α → State (Journal σ) → Prop}
    (records : first.Records Start)
    (link : ∀ start value finish, Start start →
      first.run start = (some value, finish) →
        Recorded start (some value, finish) → Middle value finish)
    (later : ∀ value, (next value).Records (Middle value)) :
    (first >>= next).Records Start := by
  intro start holds
  have recorded := records start holds
  have link := link start
  rw [Rule.run_bind]
  rcases outcome : first.run start with ⟨_ | value, state⟩
  · rw [outcome] at recorded
    exact ⟨recorded.suffix, recorded.path, recorded.visits⟩
  · rw [outcome] at recorded
    have middle := link value state holds outcome recorded
    exact recorded.trans (later value state middle)

/-- Two rules in a row make orderly notes when both of them do. -/
theorem bind
    {next : α → Rule (Journal σ) β}
    (records : first.Records Start)
    (lasts : Lasts Start)
    (later : ∀ value, (next value).Records Start) :
    (first >>= next).Records Start :=
  records.bind_of
    (fun start _ finish holds _ recorded =>
      lasts start finish recorded.suffix recorded.path holds) later

/-- Behind a rule that takes text the rule around it has taken text. -/
theorem bind_beyond
    {next : α → Rule (Journal σ) β}
    (records : first.Records (Inside place))
    (takes : ∀ start value finish, first.run start = (some value, finish) →
      finish.rest.length < start.rest.length)
    (later : ∀ value, (next value).Records (Beyond place)) :
    (first >>= next).Records (Inside place) :=
  records.bind_of
    (fun start value finish inside outcome recorded =>
      inside.beyond recorded.path recorded.suffix
        (takes start value finish outcome)) later

theorem bind_token
    {reader : Token.Reader α}
    {next : α → Rule (Journal σ) β}
    (consumes : Token.Consumes reader)
    (later : ∀ value, (next value).Records (Beyond place)) :
    (token reader >>= next).Records (Inside place) := by
  refine (records_token consumes).bind_beyond ?_ later
  intro start value finish outcome
  rw [run_token] at outcome
  split at outcome
  · next found =>
      obtain ⟨-, rfl⟩ := Prod.mk.inj outcome
      exact (consumes start.rest _ _ found).shorter
  · simp at outcome

/-- A choice makes orderly notes when both of its rules do. -/
theorem orElse
    (records : first.Records Start)
    (lasts : Lasts Start)
    (other : second.Records Start) :
    (first <|> second).Records Start := by
  intro start holds
  have recorded := records start holds
  rw [Rule.run_orElse]
  rcases outcome : first.run start with ⟨_ | value, state⟩
  · rw [outcome] at recorded
    exact recorded.trans
      (other state (lasts start state recorded.suffix recorded.path holds))
  · rwa [outcome] at recorded

theorem map
    (records : rule.Records Start)
    (change : α → β) :
    (change <$> rule).Records Start := by
  intro start holds
  rw [Rule.run_map]
  exact ⟨(records start holds).suffix, (records start holds).path,
    (records start holds).visits⟩

theorem optional (records : rule.Records Start) :
    (optional rule).Records Start := by
  intro start holds
  rw [Rule.run_optional]
  exact ⟨(records start holds).suffix, (records start holds).path,
    (records start holds).visits⟩

/-- A failed attempt goes back in the text and keeps its notes. -/
theorem attempt (records : rule.Records Start) :
    (attempt scope.journaled rule).Records Start := by
  intro start holds
  have recorded := records start holds
  rw [run_attempt]
  rcases outcome : rule.run start with ⟨_ | value, state⟩
  · rw [outcome] at recorded
    exact ⟨List.suffix_rfl, recorded.path, recorded.visits⟩
  · rwa [outcome] at recorded

/-- A visit is noted with the path around it, and the path is the same again
when it is over. -/
theorem visiting (records : rule.Records (Inside place)) :
    (visiting place rule).Records (CanEnter place) := by
  intro start canEnter
  have inside : Inside place (start.entering place) :=
    ⟨start.rest, start.steps.path, rfl, canEnter, List.suffix_rfl⟩
  have recorded := records (start.entering place) inside
  obtain ⟨added, visits, noted⟩ := recorded.visits
  have within : ∀ visit ∈ (start.entering place).steps.path,
      visit ∈ start.steps.path ∨ visit.rest <:+ start.rest :=
    List.forall_mem_cons.mpr ⟨.inr List.suffix_rfl, fun _ => .inl⟩
  refine ⟨recorded.suffix, rfl,
    (⟨place, start.rest⟩ :: start.steps.path) :: added, ?_, ?_⟩
  · refine visits.trans ?_
    simp [State.entering]
  · refine List.forall_mem_cons.mpr ⟨⟨canEnter, within⟩, fun path member => ?_⟩
    obtain ⟨orderly, pathWithin⟩ := noted path member
    exact ⟨orderly, fun visit member =>
      (pathWithin visit member).elim (within visit) .inr⟩

/-- A part of a rule is entered in it. -/
theorem within
    (records : rule.Records (CanEnter inner))
    (noReopening : place.reopens inner = false)
    (below : inner.rank < place.rank) :
    rule.Records (Inside place) :=
  records.mono fun _ inside => inside.canEnter noReopening below

/-- A rule that opens the grammar again is entered behind a token. -/
theorem behind
    (records : rule.Records (CanEnter inner))
    (reopens : place.reopens inner = true) :
    rule.Records (Beyond place) :=
  records.mono fun _ beyond => beyond.canEnter reopens

end Rule.Records

/-- A rule has taken text behind an optional token that is found. -/
theorem records_bind_optional_token
    {reader : Token.Reader α}
    {next : Option α → Rule (Journal σ) β}
    (consumes : Token.Consumes reader)
    (missing : (next none).Records (Inside place))
    (found : ∀ value, (next (some value)).Records (Beyond place)) :
    (optional (token reader) >>= next).Records (Inside place) := by
  have later (value? : Option α) : (next value?).Records
      (if value?.isSome then Beyond place else Inside place) := by
    cases value? with
    | none => exact missing
    | some value => exact found value
  refine (records_token consumes).optional.bind_of ?_ later
  intro start value? finish inside outcome recorded
  rw [Rule.run_optional, run_token] at outcome
  rcases read : reader start.rest with _ | ⟨value, rest⟩
  · rw [read] at outcome
    obtain ⟨found, rfl⟩ := Prod.mk.inj outcome
    rw [← Option.some.inj found]
    exact inside
  · rw [read] at outcome
    obtain ⟨found, rfl⟩ := Prod.mk.inj outcome
    rw [← Option.some.inj found]
    have leaves := consumes start.rest value rest read
    exact inside.beyond rfl leaves.suffix leaves.shorter

end Grammar

end LineCalculator
