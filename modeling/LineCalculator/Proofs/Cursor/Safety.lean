import Mathlib.Data.List.Induction
import LineCalculator.Proofs.Cursor.Reading
import LineCalculator.Proofs.Cursor.Slices

/-!
# Runs of cursors

Whatever is done with cursors on several texts, every cursor stays in its text.
Only a mark of another text can bring a cursor inside a character: where every
mark is given to cursors on the text that it was taken on, all positions are on
boundaries of characters and every reading answers.
-/

namespace LineCalculator

namespace Cursor

variable
  {cursor : Cursor}
  {action : Action}

/-- A mark leads no further than to the end of the text. -/
theorem reset_position_le (cursor : Cursor) (mark : Mark) :
    (cursor.reset mark).position ≤ (cursor.reset mark).text.utf8ByteSize :=
  Nat.min_le_right _ _

/-- The mark of a place in the same text leads to that place. -/
theorem reset_mark
    {place : Cursor}
    (onBoundary : place.OnBoundary)
    (sameText : place.text = cursor.text) :
    cursor.reset place.mark = place := by
  rcases place with ⟨text, position⟩
  obtain rfl : text = cursor.text := sameText
  have inText : position ≤ cursor.text.utf8ByteSize := onBoundary.position_le
  simp only [reset, mark, Nat.min_eq_left inText]

namespace Bench

/-! ## One action -/

/-- What an action with one of the cursors answers and leaves. -/
inductive Step
    (bench : Bench)
    (index : Nat)
    (cursor : Cursor) : Action → Answer → Bench → Prop
  | mark :
      Step bench index cursor .mark (.count bench.marks.length)
        { bench with marks := bench.marks ++ [cursor.mark] }
  | reset {slot : Nat} {mark : Mark} (marked : bench.marks[slot]? = some mark) :
      Step bench index cursor (.reset slot) .done
        { bench with cursors := bench.cursors.set index (cursor.reset mark) }
  | read
      {action : Action}
      {answer : Answer}
      {moved : Cursor}
      (noMark : action ≠ .mark)
      (reading : cursor.Reading action answer moved) :
      Step bench index cursor action answer
        { bench with cursors := bench.cursors.set index moved }

variable
  {bench after : Bench}
  {index : Nat}
  {answer : Answer}
  {texts marked : List String}
  {run : List (Nat × Action)}

/-- An action that reads sets the cursor it reads with. -/
theorem exists_read_of_act
    {reads : Option (Answer × Cursor)}
    (acted : (do
      let (answer, cursor) ← reads
      pure (answer, { bench with cursors := bench.cursors.set index cursor })) =
        some (answer, after)) :
    ∃ moved, reads = some (answer, moved) ∧
      after = { bench with cursors := bench.cursors.set index moved } := by
  rcases reads with _ | ⟨found, moved⟩
  · exact nomatch acted
  · obtain ⟨rfl, rfl⟩ := Prod.mk.inj (Option.some.inj acted)
    exact ⟨moved, rfl, rfl⟩

/-- Every action with an answer is a step of one of the cursors. -/
theorem step_of_act
    (isCursor : bench.cursors[index]? = some cursor)
    (acted : bench.act index action = some (answer, after)) :
    bench.Step index cursor action answer after := by
  simp only [act, isCursor, Option.bind_eq_bind, Option.bind_some] at acted
  cases action with
  | mark =>
      obtain ⟨rfl, rfl⟩ := Prod.mk.inj (Option.some.inj acted)
      exact .mark
  | reset slot =>
      rcases marked : bench.marks[slot]? with _ | mark
      · simp [marked] at acted
      · simp only [marked, Option.bind_some] at acted
        obtain ⟨rfl, rfl⟩ := Prod.mk.inj (Option.some.inj acted)
        exact .reset marked
  | _ =>
      obtain ⟨moved, read, rfl⟩ := exists_read_of_act acted
      exact .read nofun (reading_of_readAnswer read)

/-- An action that answers is a step of one of the cursors. -/
theorem exists_step_of_act
    (acted : bench.act index action = some (answer, after)) :
    ∃ cursor, bench.cursors[index]? = some cursor ∧
      bench.Step index cursor action answer after := by
  rcases isCursor : bench.cursors[index]? with _ | cursor
  · simp [act, isCursor] at acted
  · exact ⟨cursor, rfl, step_of_act isCursor acted⟩

/-- What holds of all cursors still holds of them after a step when a reading
and a reset of the step's cursor keep it. -/
theorem Step.forall_cursors
    {Good : Cursor → Prop}
    (step : bench.Step index cursor action answer after)
    (good : ∀ place ∈ bench.cursors, Good place)
    (reads : ∀ moved, cursor.Reading action answer moved → Good moved)
    (resets : ∀ slot mark, action = .reset slot →
      bench.marks[slot]? = some mark → Good (cursor.reset mark)) :
    ∀ place ∈ after.cursors, Good place := by
  have replaced {moved : Cursor} (goodMoved : Good moved) :
      ∀ place ∈ bench.cursors.set index moved, Good place := by
    intro place member
    rcases List.mem_or_eq_of_mem_set member with before | rfl
    · exact good place before
    · exact goodMoved
  cases step with
  | mark => exact good
  | reset marked => exact replaced (resets _ _ rfl marked)
  | read noMark reading => exact replaced (reads _ reading)

theorem set_eq_self
    {places : List α}
    {place : α}
    (isPlace : places[index]? = some place) :
    places.set index place = places := by
  obtain ⟨bound, rfl⟩ := List.getElem?_eq_some_iff.mp isPlace
  exact List.set_getElem_self bound

/-- A step changes no text. -/
theorem Step.map_text
    (step : bench.Step index cursor action answer after)
    (isCursor : bench.cursors[index]? = some cursor) :
    after.cursors.map Cursor.text = bench.cursors.map Cursor.text := by
  have replaced {moved : Cursor} (sameText : moved.text = cursor.text) :
      (bench.cursors.set index moved).map Cursor.text =
        bench.cursors.map Cursor.text := by
    rw [List.map_set]
    apply set_eq_self
    rw [List.getElem?_map, isCursor, sameText, Option.map_some]
  cases step with
  | mark => rfl
  | reset marked => exact replaced rfl
  | read noMark reading => exact replaced reading.text_eq

/-! ## Runs -/

/-- Do one thing after another, each with the cursor of an index. An action
without an answer changes nothing. -/
def actAll (bench : Bench) (run : List (Nat × Action)) : Bench :=
  run.foldl
    (fun bench (index, action) =>
      ((bench.act index action).map Prod.snd).getD bench)
    bench

/-- The text of the cursor that a mark is taken on. -/
def markedText? (texts : List String) : Nat × Action → Option String
  | (index, .mark) => texts[index]?
  | _ => none

/-- The texts of the marks that are taken in a run, in order. -/
def markedTexts (texts : List String) (run : List (Nat × Action)) : List String :=
  run.filterMap (markedText? texts)

/-- Every reset of a run uses a mark that was taken on the text of the cursor
that is reset. -/
def ResetsWithinTexts (texts : List String) (run : List (Nat × Action)) : Prop :=
  ∀ before index slot later, run = before ++ (index, .reset slot) :: later →
    ∀ marked text, (markedTexts texts before)[slot]? = some marked →
      texts[index]? = some text → marked = text

/-- The resets of a shorter run stay in their texts as well. -/
theorem ResetsWithinTexts.of_append
    {later : List (Nat × Action)}
    (within : ResetsWithinTexts texts (run ++ later)) :
    ResetsWithinTexts texts run := by
  intro before index slot between split
  apply within before index slot (between ++ later)
  rw [split, List.append_assoc, List.cons_append]

/-- The last action of a run acts on the bench that the others leave. -/
theorem actAll_append_singleton
    (bench : Bench)
    (run : List (Nat × Action))
    (index : Nat)
    (action : Action) :
    bench.actAll (run ++ [(index, action)]) =
      (((bench.actAll run).act index action).map Prod.snd).getD
        (bench.actAll run) :=
  List.foldl_append

/-- The cursors of a bench are in texts, one in each. -/
structure InTexts (texts : List String) (bench : Bench) : Prop where
  map_text : bench.cursors.map Cursor.text = texts
  position_le : ∀ cursor ∈ bench.cursors,
    cursor.position ≤ cursor.text.utf8ByteSize

/-- A cursor is in the text that has its index. -/
theorem InTexts.getElem?_texts
    (inTexts : InTexts texts bench)
    (index : Nat) :
    texts[index]? = bench.cursors[index]?.map Cursor.text := by
  rw [← inTexts.map_text, List.getElem?_map]

/-- A step keeps the texts of all cursors and of all marks. -/
theorem Step.inTexts
    (step : bench.Step index cursor action answer after)
    (isCursor : bench.cursors[index]? = some cursor)
    (inTexts : InTexts texts bench) :
    InTexts texts after where
  map_text := (step.map_text isCursor).trans inTexts.map_text
  position_le := by
    have inText := inTexts.position_le cursor (List.mem_of_getElem? isCursor)
    apply step.forall_cursors inTexts.position_le
    · exact fun moved reading => reading.position_le inText
    · exact fun slot mark _ _ => reset_position_le cursor mark

/-- Cursors stay in their texts. -/
theorem inTexts_actAll (texts : List String) (run : List (Nat × Action)) :
    InTexts texts ((start texts).actAll run) := by
  induction run using List.reverseRecOn with
  | nil =>
      refine ⟨?_, ?_⟩
      · simp [actAll, start, Function.comp_def, Cursor.start]
      · simp [actAll, start, Cursor.start]
  | append_singleton run step runHypothesis =>
      obtain ⟨index, action⟩ := step
      rw [actAll_append_singleton]
      rcases acted : ((start texts).actAll run).act index action with
        _ | ⟨answer, after⟩
      · exact runHypothesis
      · obtain ⟨cursor, isCursor, step⟩ := exists_step_of_act acted
        exact step.inTexts isCursor runHypothesis

/-- The cursors and the marks of a bench are on boundaries, each mark of the
text that it was taken on. -/
structure OnBoundaries (marked : List String) (bench : Bench) : Prop where
  cursors : ∀ cursor ∈ bench.cursors, cursor.OnBoundary
  marks : ∃ places : List Cursor, places.map Cursor.text = marked ∧
    places.map Cursor.mark = bench.marks ∧ ∀ place ∈ places, place.OnBoundary

theorem onBoundaries_start (texts : List String) :
    OnBoundaries [] (start texts) := by
  refine ⟨?_, [], rfl, rfl, nofun⟩
  intro cursor member
  obtain ⟨text, -, rfl⟩ := List.mem_map.mp member
  exact onBoundary_start text

/-- A step keeps all positions on boundaries, as long as a reset uses a mark of
the same text. -/
theorem Step.onBoundaries
    (step : bench.Step index cursor action answer after)
    (isCursor : bench.cursors[index]? = some cursor)
    (inTexts : InTexts texts bench)
    (onBoundaries : OnBoundaries marked bench)
    (sameText : ∀ slot text, action = .reset slot →
      marked[slot]? = some text → text = cursor.text) :
    OnBoundaries (marked ++ (markedText? texts (index, action)).toList) after := by
  obtain ⟨cursors, places, ofTexts, ofMarks, marks⟩ := onBoundaries
  have onBoundary := cursors cursor (List.mem_of_getElem? isCursor)
  refine ⟨step.forall_cursors cursors ?_ ?_, ?_⟩
  · exact fun moved reading => reading.onBoundary onBoundary
  · intro slot mark isReset isMark
    rw [← ofMarks, List.getElem?_map, Option.map_eq_some_iff] at isMark
    obtain ⟨place, isPlace, rfl⟩ := isMark
    have onPlace := marks place (List.mem_of_getElem? isPlace)
    have same := sameText slot place.text isReset (by
      rw [← ofTexts, List.getElem?_map, isPlace, Option.map_some])
    rw [reset_mark onPlace same]
    exact onPlace
  · cases step with
    | mark =>
        have isText : texts[index]? = some cursor.text := by
          rw [inTexts.getElem?_texts, isCursor, Option.map_some]
        refine ⟨places ++ [cursor], ?_, ?_, ?_⟩
        · simp [ofTexts, markedText?, isText]
        · simp [ofMarks]
        · exact List.forall_mem_append.mpr
            ⟨marks, List.forall_mem_singleton.mpr onBoundary⟩
    | reset isMark =>
        exact ⟨places, by simp [ofTexts, markedText?], ofMarks, marks⟩
    | read noMark reading =>
        have noText : markedText? texts (index, action) = none := by
          cases action <;> first | rfl | exact absurd rfl noMark
        exact ⟨places, by simp [ofTexts, noText], ofMarks, marks⟩

/-- An action without an answer takes no mark. -/
theorem markedText?_of_act_eq_none
    (inTexts : InTexts texts bench)
    (noAnswer : bench.act index action = none) :
    markedText? texts (index, action) = none := by
  cases action with
  | mark =>
      rw [markedText?, inTexts.getElem?_texts]
      rcases isCursor : bench.cursors[index]? with _ | cursor
      · rfl
      · simp [act, isCursor] at noAnswer
  | _ => rfl

/-- All positions are on boundaries where resets use marks of their own texts.
The last action is taken apart first, since a reset looks back at all marks
before it. -/
theorem onBoundaries_actAll (within : ResetsWithinTexts texts run) :
    OnBoundaries (markedTexts texts run) ((start texts).actAll run) := by
  induction run using List.reverseRecOn with
  | nil => exact onBoundaries_start texts
  | append_singleton run step runHypothesis =>
      obtain ⟨index, action⟩ := step
      have onBoundaries := runHypothesis within.of_append
      have inTexts := inTexts_actAll texts run
      have marked : markedTexts texts (run ++ [(index, action)]) =
          markedTexts texts run ++ (markedText? texts (index, action)).toList := by
        rw [markedTexts, List.filterMap_append]
        rcases isMarked : markedText? texts (index, action) with _ | text <;>
          simp [isMarked, markedTexts]
      rw [actAll_append_singleton, marked]
      rcases acted : ((start texts).actAll run).act index action with
        _ | ⟨answer, after⟩
      · rw [markedText?_of_act_eq_none inTexts acted, Option.toList_none,
          List.append_nil]
        exact onBoundaries
      · obtain ⟨cursor, isCursor, step⟩ := exists_step_of_act acted
        refine step.onBoundaries isCursor inTexts onBoundaries ?_
        rintro slot text rfl isMarked
        apply within run index slot [] rfl text cursor.text isMarked
        rw [inTexts.getElem?_texts, isCursor, Option.map_some]

/-- A search with a cursor that there is has an answer. -/
theorem exists_act_of_searches
    (isCursor : bench.cursors[index]? = some cursor)
    (searches : action.Searches) :
    ∃ answer after, bench.act index action = some (answer, after) := by
  cases action with
  | atEnd | position | mark | reset slot => exact searches.elim
  | _ => simp [act, isCursor, readAnswer]

/-- A step with an error changes nothing, and its cursor is inside a
character. -/
theorem Step.of_error
    {error : Error}
    (step : bench.Step index cursor action (.error error) after)
    (isCursor : bench.cursors[index]? = some cursor) :
    ¬ cursor.OnBoundary ∧ after = bench := by
  cases step with
  | read noMark reading =>
      obtain ⟨inside, rfl⟩ := reading.of_error
      rw [set_eq_self isCursor]
      exact ⟨inside, rfl⟩

/-- A step that searches fails inside a character, misses or passes a token. -/
theorem Step.of_searches
    (step : bench.Step index cursor action answer after)
    (isCursor : bench.cursors[index]? = some cursor)
    (searches : action.Searches) :
    (answer = .error .insideCharacter ∧ ¬ cursor.OnBoundary ∧ after = bench) ∨
      (action.Misses answer ∧ cursor.FindsNothing action ∧ after = bench) ∨
      ∃ passage : cursor.Passage,
        action.Takes passage.token passage.rest answer ∧
          after =
            { bench with
              cursors := bench.cursors.set index passage.after } := by
  have same : { bench with cursors := bench.cursors.set index cursor } =
      bench := by
    rw [set_eq_self isCursor]
  cases step with
  | mark => exact searches.elim
  | reset marked => exact searches.elim
  | read noMark reading =>
      cases reading with
      | stuck inside => exact .inl ⟨rfl, inside, same⟩
      | missed nothing misses => exact .inr (.inl ⟨misses, nothing, same⟩)
      | matched passage takes => exact .inr (.inr ⟨passage, takes, rfl⟩)
      | looked noSearch noError => exact absurd searches noSearch

/-- After any run, there is a cursor on each of the texts, with a position in it.
A search then fails, misses or takes a token. It fails only inside a character and
leaves everything as it is. It misses only where there is nothing to take, and
leaves everything as it is, too. Taking a token moves the cursor forward over the
bytes of all the blanks at its position and of the token, and does nothing else.
No slice but the first one that is cut for it can be out of bounds. As long as
resets use marks of their own texts only, all positions are on boundaries, and no
action fails. -/
theorem reading_is_safe (texts : List String) (run : List (Nat × Action)) :
    let bench := (start texts).actAll run
    bench.cursors.map Cursor.text = texts ∧
    (∀ cursor ∈ bench.cursors,
      cursor.position ≤ cursor.text.utf8ByteSize) ∧
    (∀ (index : Nat) (cursor : Cursor) action error after,
      bench.cursors[index]? = some cursor →
      bench.act index action = some (.error error, after) →
      ¬ cursor.OnBoundary ∧ after = bench) ∧
    (∀ (index : Nat) (cursor : Cursor) (action : Action),
      bench.cursors[index]? = some cursor → action.Searches →
      ∃ answer after, bench.act index action = some (answer, after) ∧
        (answer = .error .insideCharacter ∨
          (action.Misses answer ∧ cursor.FindsNothing action ∧
            after = bench) ∨
          ∃ passage : cursor.Passage,
            action.Takes passage.token passage.rest answer ∧
            cursor.position < passage.after.position ∧
            after =
              { bench with
                cursors := bench.cursors.set index passage.after })) ∧
    (∀ cursor action, sliceAnswer cursor action = readAnswer cursor action) ∧
    (ResetsWithinTexts texts run →
      ∀ before later, run = before ++ later →
        let bench := (start texts).actAll before
        (∀ cursor ∈ bench.cursors, cursor.OnBoundary) ∧
          ∀ index action error after,
            bench.act index action ≠ some (.error error, after)) := by
  intro bench
  have inTexts : InTexts texts bench := inTexts_actAll texts run
  refine ⟨inTexts.map_text, inTexts.position_le, ?_, ?_,
    sliceAnswer_eq_readAnswer, ?_⟩
  · intro index cursor action error after isCursor acted
    exact (step_of_act isCursor acted).of_error isCursor
  · intro index cursor action isCursor searches
    obtain ⟨answer, after, acted⟩ := exists_act_of_searches isCursor searches
    refine ⟨answer, after, acted, ?_⟩
    rcases (step_of_act isCursor acted).of_searches isCursor searches with
      ⟨failed, -⟩ | missed | ⟨passage, takes, moved⟩
    · exact .inl failed
    · exact .inr (.inl missed)
    · exact .inr (.inr ⟨passage, takes, passage.position_lt, moved⟩)
  · rintro within before later rfl earlier
    have onBoundaries := onBoundaries_actAll within.of_append
    refine ⟨onBoundaries.cursors, ?_⟩
    intro index action error after acted
    obtain ⟨cursor, isCursor, step⟩ := exists_step_of_act acted
    have onBoundary :=
      onBoundaries.cursors cursor (List.mem_of_getElem? isCursor)
    exact (step.of_error isCursor).1 onBoundary

/-- A cursor in front of a letter of two bytes is led back there by its own mark.
The mark of a cursor on another text leads it inside the letter, where it
stays. -/
theorem reading_is_safe_around_letter_of_two_bytes :
    let texts := ["ä1", "x"]
    let run : List (Nat × Action) :=
      [(0, .mark), (0, .character 'ä'), (1, .identifier), (1, .mark),
        (0, .reset 0)]
    let bench := (start texts).actAll run
    let inside := (start texts).actAll (run ++ [(0, .reset 1)])
    ResetsWithinTexts texts run ∧
      bench.cursors = [⟨"ä1", 0⟩, ⟨"x", 1⟩] ∧
      (∀ index action error after,
        bench.act index action ≠ some (.error error, after)) ∧
      inside.cursors = [⟨"ä1", 1⟩, ⟨"x", 1⟩] ∧
      inside.act 0 .number = some (.error .insideCharacter, inside) ∧
      ¬ (⟨"ä1", 1⟩ : Cursor).OnBoundary := by
  intro texts run bench inside
  have within : ResetsWithinTexts texts run := by
    intro before index slot later split marked text isMarked isText
    have atEnd :
        before = run.dropLast ∧ (index = 0 ∧ slot = 0) ∧ later = [] := by
      simpa [run, List.cons_eq_append_iff] using split
    obtain ⟨rfl, ⟨rfl, rfl⟩, -⟩ := atEnd
    exact Option.some.inj (isMarked.symm.trans isText)
  have led : bench = ⟨[⟨"ä1", 0⟩, ⟨"x", 1⟩], [⟨0⟩, ⟨1⟩]⟩ := rfl
  have astray : inside = ⟨[⟨"ä1", 1⟩, ⟨"x", 1⟩], [⟨0⟩, ⟨1⟩]⟩ := rfl
  have isCursor : inside.cursors[0]? = some ⟨"ä1", 1⟩ := by
    rw [astray]
    rfl
  have stuck : inside.act 0 .number =
      some (.error .insideCharacter, inside) := by
    rw [astray]
    rfl
  obtain ⟨-, -, -, -, -, safe⟩ := reading_is_safe texts run
  obtain ⟨-, -, fails, -⟩ := reading_is_safe texts (run ++ [(0, .reset 1)])
  refine ⟨within, congrArg cursors led,
    (safe within run [] (List.append_nil run).symm).2, congrArg cursors astray,
    stuck, ?_⟩
  exact (fails 0 ⟨"ä1", 1⟩ .number .insideCharacter inside isCursor stuck).1

end Bench

end Cursor

end LineCalculator
