import LineCalculator.Proofs.Console.Modes
import LineCalculator.Proofs.Text.Bytes

/-!
# Framing lines

The same lines can be written as input in several ways: each line with either of
two ends, the last one also without an end, and behind the last end nothing more
or an empty line and anything at all. A dialogue hears the same lines in all of
them, so a run of the program does not depend on which one is chosen.
-/

namespace LineCalculator

namespace Console

/-- How a line ends. -/
inductive LineEnd
  | lineFeed
  | carriageReturn
  deriving DecidableEq

/-- The bytes behind a line that ends in a given way. -/
def LineEnd.bytes : LineEnd → List UInt8
  | .lineFeed => [Console.lineFeed]
  | .carriageReturn => [Console.carriageReturn, Console.lineFeed]

/-- The inputs that frame given lines. Each line ends in its own way, and the
last one may end with the input. Behind lines that all have an end the input
ends, or an empty line follows and whatever bytes stand behind it. -/
inductive Framing : List (List UInt8) → List UInt8 → Prop
  | endOfInput : Framing [] []
  | emptyLine (ending : LineEnd) (unheard : List UInt8) :
      Framing [] (ending.bytes ++ unheard)
  | unended (line : List UInt8) : Framing [line] line
  | ended (line : List UInt8) (ending : LineEnd) {others input}
      (framing : Framing others input) :
      Framing (line :: others) (line ++ (ending.bytes ++ input))

/-- A line that can be framed: it is not empty, has no line feed in it and does
not end with a carriage return. -/
structure Framable (line : List UInt8) : Prop where
  nonempty : line ≠ []
  noLineFeed : lineFeed ∉ line
  noReturn : line.getLast? ≠ some carriageReturn

variable {line bytes input input' : List UInt8}

/-- A line ends at the first line feed. -/
theorem rawLines_append_lineFeed
    (noLineFeed : lineFeed ∉ bytes)
    (rest : List UInt8) :
    rawLines (bytes ++ lineFeed :: rest) =
      (bytes ++ [lineFeed]) :: rawLines rest := by
  induction bytes with
  | nil => rfl
  | cons byte bytes bytesHypothesis =>
      simp only [List.mem_cons, not_or] at noLineFeed
      have different : byte ≠ lineFeed := fun equal => noLineFeed.1 equal.symm
      rw [List.cons_append, rawLines, if_neg different,
        bytesHypothesis noLineFeed.2]
      rfl

/-- Bytes without a line feed are one line. -/
theorem rawLines_of_not_mem
    (nonempty : bytes ≠ [])
    (noLineFeed : lineFeed ∉ bytes) :
    rawLines bytes = [bytes] := by
  induction bytes with
  | nil => exact absurd rfl nonempty
  | cons byte bytes bytesHypothesis =>
      simp only [List.mem_cons, not_or] at noLineFeed
      have different : byte ≠ lineFeed := fun equal => noLineFeed.1 equal.symm
      rw [rawLines, if_neg different]
      cases bytes with
      | nil => rfl
      | cons next bytes =>
          rw [bytesHypothesis (List.cons_ne_nil next bytes) noLineFeed.2]

/-- Nothing is taken from bytes without a line feed. -/
theorem lineContent_of_not_mem (noLineFeed : lineFeed ∉ bytes) :
    lineContent bytes = bytes := by
  induction bytes with
  | nil => rfl
  | cons byte bytes bytesHypothesis =>
      obtain ⟨different, later⟩ := List.ne_and_not_mem_of_not_mem_cons noLineFeed
      cases bytes with
      | nil => rw [lineContent, if_neg different.symm]
      | cons next bytes =>
          have nextDifferent := List.ne_of_not_mem_cons later
          rw [lineContent, if_neg fun atEnd => nextDifferent atEnd.2.1.symm,
            bytesHypothesis later]

/-- A line feed and a carriage return in front of it are no part of the line. -/
theorem lineContent_append_return (line : List UInt8) :
    lineContent (line ++ [carriageReturn, lineFeed]) = line := by
  induction line with
  | nil => rfl
  | cons byte line lineHypothesis =>
      rcases rest_eq : line ++ [carriageReturn, lineFeed] with _ | ⟨next, rest⟩
      · simp at rest_eq
      · -- At least two bytes follow, so the end of the line is not reached.
        have longer : rest ≠ [] := by
          rintro rfl
          simpa using congrArg List.length rest_eq
        rw [List.cons_append, rest_eq, lineContent, if_neg (by simp [longer]),
          ← rest_eq, lineHypothesis]

/-- Behind a line that does not end in a return, only the line feed is cut
off. -/
theorem lineContent_append_lineFeed
    (noReturn : line.getLast? ≠ some carriageReturn) :
    lineContent (line ++ [lineFeed]) = line := by
  induction line with
  | nil => rfl
  | cons byte line lineHypothesis =>
      cases line with
      | nil =>
          have different : byte ≠ carriageReturn := by simpa using noReturn
          simp [lineContent, different]
      | cons next line =>
          rw [List.getLast?_cons_cons] at noReturn
          rw [List.cons_append, List.cons_append, lineContent,
            if_neg (by simp), ← List.cons_append, lineHypothesis noReturn]

/-- Behind the end of a line the other lines follow. -/
theorem lines_append_end
    (noLineFeed : lineFeed ∉ line)
    (noReturn : line.getLast? ≠ some carriageReturn)
    (ending : LineEnd)
    (input : List UInt8) :
    lines (line ++ (ending.bytes ++ input)) = line :: lines input := by
  cases ending with
  | lineFeed =>
      have raw := rawLines_append_lineFeed noLineFeed input
      have content := lineContent_append_lineFeed noReturn
      rw [lines, LineEnd.bytes, List.singleton_append, raw, List.map_cons,
        content, lines]
  | carriageReturn =>
      have noLineFeed' : lineFeed ∉ line ++ [carriageReturn] := by
        simpa using ⟨noLineFeed, by decide⟩
      have raw := rawLines_append_lineFeed noLineFeed' input
      have content := lineContent_append_return line
      simp only [List.append_assoc, List.cons_append, List.nil_append] at raw
      rw [lines, LineEnd.bytes, List.cons_append, List.singleton_append, raw,
        List.map_cons, content, lines]

/-- The lines that are heard from a framed input are the lines framed in it. -/
theorem Framing.heardLines_eq
    {framed : List (List UInt8)}
    (framing : Framing framed input)
    (framable : ∀ line ∈ framed, Framable line) :
    heardLines (lines input) = framed := by
  induction framing with
  | endOfInput => rfl
  | emptyLine ending unheard =>
      have first : lines (ending.bytes ++ unheard) = [] :: lines unheard :=
        lines_append_end List.not_mem_nil nofun ending unheard
      rw [first]
      rfl
  | unended line =>
      obtain ⟨nonempty, noLineFeed, -⟩ :=
        framable line (List.mem_singleton_self line)
      rw [lines, rawLines_of_not_mem nonempty noLineFeed, List.map_singleton,
        lineContent_of_not_mem noLineFeed]
      simp [heardLines, nonempty]
  | ended line ending framing framingHypothesis =>
      obtain ⟨here, later⟩ := List.forall_mem_cons.mp framable
      rw [lines_append_end here.noLineFeed here.noReturn,
        heardLines, List.takeWhile_cons_of_pos (by simpa using here.nonempty)]
      exact congrArg (line :: ·) (framingHypothesis later)

/-- A dialogue depends on the lines that are heard only. -/
theorem converse_congr
    (same : heardLines (lines input) = heardLines (lines input'))
    (mode : Mode) :
    converse mode input = converse mode input' := by
  cases mode with
  | batch => simp only [converse_batch, same]
  | interactive showTree => simp only [converse_interactive, same]

/-- A run reads its input in a dialogue or not at all. -/
theorem run_congr
    (same : ∀ mode, converse mode input = converse mode input')
    (arguments : List String)
    (directory : Directory) :
    run arguments input directory = run arguments input' directory := by
  rw [run, run]
  cases Request.ofArguments arguments with
  | showVersion => rfl
  | showHelp => rfl
  | refuse misuse => rfl
  | calculate options =>
      rw [respond, respond, calculate, calculate]
      cases options.file with
      | none => exact same options.mode
      | some path => rfl

/-- Exactly the lines that are framed in an input are heard, and inputs that
frame the same lines give the same exit code, output and errors in both modes,
with whatever arguments the program is run. -/
theorem framing_does_not_matter
    (framed : List (List UInt8))
    (framable : ∀ line ∈ framed, Framable line)
    {input input' : List UInt8}
    (framing : Framing framed input)
    (framing' : Framing framed input') :
    heardLines (lines input) = framed ∧
    (∀ mode, converse mode input = converse mode input') ∧
    ∀ arguments directory,
      run arguments input directory = run arguments input' directory := by
  have heard := framing.heardLines_eq framable
  have heard' := framing'.heardLines_eq framable
  have same := converse_congr (heard.trans heard'.symm)
  exact ⟨heard, same, run_congr same⟩

/-- The lines `x = 2` and `x ^ 3`, the second one without an end, and the same
lines with an empty line, a byte that is no text and another statement behind
them. -/
theorem framing_does_not_matter_behind_empty_line :
    let first := utf8Bytes "x = 2".toList
    let second := utf8Bytes "x ^ 3".toList
    let input := first ++ ([0x0D, 0x0A] ++ second)
    let input' := first ++ ([0x0A] ++ (second ++ ([0x0D, 0x0A] ++
      ([0x0D, 0x0A] ++ (0xFF :: utf8Bytes "\nx = 5".toList)))))
    (∀ line ∈ [first, second], Framable line) ∧
      Framing [first, second] input ∧ Framing [first, second] input' ∧
      run [] input ⟨[]⟩ = ⟨0, "Enter expressions: (x=2)\n", ""⟩ ∧
      run [] input' ⟨[]⟩ = ⟨0, "Enter expressions: (x=2)\n", ""⟩ := by
  intro first second input input'
  have framable : ∀ line ∈ [first, second], Framable line := by
    have firstFramable : Framable first :=
      ⟨by decide, by decide, by decide⟩
    have secondFramable : Framable second :=
      ⟨by decide, by decide, by decide⟩
    simpa using ⟨firstFramable, secondFramable⟩
  have framing : Framing [first, second] input :=
    .ended first .carriageReturn (.unended second)
  have framing' : Framing [first, second] input' :=
    .ended first .lineFeed (.ended second .carriageReturn
      (.emptyLine .carriageReturn _))
  have shown : run [] input ⟨[]⟩ = ⟨0, "Enter expressions: (x=2)\n", ""⟩ := by
    decide +kernel
  have same := (framing_does_not_matter _ framable framing framing').2.2 [] ⟨[]⟩
  exact ⟨framable, framing, framing', shown, same.symm.trans shown⟩

end Console

end LineCalculator
