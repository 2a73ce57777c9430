import LineCalculator.Proofs.Environment.Recording
import LineCalculator.Proofs.Environment.SameMap
import LineCalculator.Proofs.Token.KnownName

/-!
# Environments in closed form

What recordings make of the empty environment can be said without going through
them one by one. The names are those that are recorded, in order of their first
recordings, and each is bound to the value of its last one. The names by length
are these names in a stable order: names of equal length stay in order of first
recording.
-/

namespace LineCalculator

namespace Environment

variable {environment : Environment}

/-- When names are distinct, the bindings are told by the names and their
values. -/
theorem Distinct.bindings_eq (distinct : environment.Distinct) :
    environment.bindings = environment.names.filterMap fun name =>
      (environment.get? name).map (Binding.mk name) := by
  have bound : ∀ binding ∈ environment.bindings, some binding =
      (environment.get? binding.name).map (Binding.mk binding.name) := by
    intro binding member
    rw [distinct.get?_eq_some_iff.mpr member, Option.map_some]
  calc
    environment.bindings = environment.bindings.filterMap some :=
      List.filterMap_some.symm
    _ = environment.bindings.filterMap fun binding =>
          (environment.get? binding.name).map (Binding.mk binding.name) :=
      List.filterMap_congr bound
    _ = environment.names.filterMap fun name =>
          (environment.get? name).map (Binding.mk name) := by
      rw [names, List.filterMap_map]
      rfl

/-- Recordings never bind a name twice. -/
theorem distinct_recordAll_empty (recordings : List Binding) :
    (empty.recordAll recordings).Distinct := by
  have distinct : empty.Distinct := List.nodup_nil
  exact distinct.recordAll recordings

/-- The names stand in the order of their first recordings. -/
theorem names_recordAll_empty (recordings : List Binding) :
    (empty.recordAll recordings).names =
      (recordings.map Binding.name).eraseDups := by
  rw [names_recordAll, show empty.names = [] from rfl]
  simp

/-- A name has the value of its last recording. -/
theorem get?_recordAll_empty (recordings : List Binding) (name : String) :
    (empty.recordAll recordings).get? name =
      (lastRecording? recordings name).map Binding.value := by
  rw [get?_recordAll, get?_empty, Option.or_none]

/-- The bindings are the last recordings of the names, in order of their first
recordings. -/
theorem bindings_recordAll_empty (recordings : List Binding) :
    (empty.recordAll recordings).bindings =
      (recordings.map Binding.name).eraseDups.filterMap
        (lastRecording? recordings) := by
  rw [(distinct_recordAll_empty recordings).bindings_eq, names_recordAll_empty]
  refine List.filterMap_congr fun name _ => ?_
  rw [get?_recordAll_empty]
  rcases last : lastRecording? recordings name with _ | ⟨_, value⟩
  · rfl
  · obtain rfl := name_of_lastRecording? last
    rfl

/-- The names by length are the names. -/
theorem perm_namesByLength (environment : Environment) :
    environment.namesByLength.Perm environment.names :=
  List.mergeSort_perm environment.names _

/-- Sorting the names leaves those of one length in their order. -/
theorem filter_namesByLength (environment : Environment) (size : Nat) :
    (environment.namesByLength.filter fun name => name.utf8ByteSize = size) =
      environment.names.filter fun name => name.utf8ByteSize = size := by
  have sorted : (environment.names.filter fun name =>
      name.utf8ByteSize = size).Pairwise
        fun name other => decide (NotShorter name other) = true := by
    apply List.pairwise_of_forall_mem_list
    intro name member other otherMember
    simp only [List.mem_filter, decide_eq_true_eq] at member otherMember ⊢
    exact Nat.le_of_eq (otherMember.2.trans member.2.symm)
  have inOrder : (environment.names.filter fun name =>
      name.utf8ByteSize = size).Sublist environment.namesByLength :=
    List.sublist_mergeSort (by simpa using fun _ _ _ => trans_of NotShorter)
      (by simpa using total_of NotShorter) sorted List.filter_sublist
  have kept := inOrder.filter fun name => name.utf8ByteSize = size
  have same := (perm_namesByLength environment).filter
    fun name => name.utf8ByteSize = size
  rw [List.filter_filter] at kept
  simp only [Bool.and_self] at kept
  exact (kept.eq_of_length same.length_eq.symm).symm

/-- Recordings into the empty environment bind each recorded name once, in order
of the first recordings, to the value of its last recording. Looking up a name
finds that value, and nothing or zero when the name is not recorded. There are
as many bindings as there are recorded names. The names by length are the
recorded names rearranged, no name longer than a name before it, and those of
one length in order of their first recordings. -/
theorem recordings_in_closed_form (recordings : List Binding) :
    let environment := empty.recordAll recordings
    let names := (recordings.map Binding.name).eraseDups
    environment.names = names ∧
    environment.bindings = names.filterMap (lastRecording? recordings) ∧
    (∀ name ∈ names, ∃ value,
      lastRecording? recordings name = some ⟨name, value⟩ ∧
        environment.get? name = some value ∧
        environment.lookup name = value) ∧
    (∀ name, name ∉ names →
      environment.get? name = none ∧ environment.lookup name = 0.0) ∧
    environment.size = names.length ∧
    environment.namesByLength.Perm names ∧
    LongestFirst environment.namesByLength ∧
    ∀ size, (environment.namesByLength.filter fun name =>
        name.utf8ByteSize = size) =
      names.filter fun name => name.utf8ByteSize = size := by
  intro environment names
  have names_eq : environment.names = names := names_recordAll_empty recordings
  have recorded_iff (name : String) :
      name ∈ names ↔ name ∈ recordings.map Binding.name :=
    List.mem_eraseDups
  refine ⟨names_eq, bindings_recordAll_empty recordings, ?_, ?_, ?_,
    names_eq ▸ perm_namesByLength environment,
    longestFirst_namesByLength environment,
    fun size => names_eq ▸ filter_namesByLength environment size⟩
  · intro name member
    have isRecorded : lastRecording? recordings name ≠ none := fun never =>
      lastRecording?_eq_none_iff.mp never ((recorded_iff name).mp member)
    obtain ⟨⟨other, value⟩, last⟩ := Option.ne_none_iff_exists'.mp isRecorded
    obtain rfl : other = name := name_of_lastRecording? last
    have found : environment.get? other = some value := by
      rw [get?_recordAll_empty, last, Option.map_some]
    refine ⟨value, last, found, ?_⟩
    rw [lookup, found, Option.getD_some]
  · intro name notRecorded
    have never : lastRecording? recordings name = none :=
      lastRecording?_eq_none_iff.mpr (mt (recorded_iff name).mpr notRecorded)
    have missing : environment.get? name = none := by
      rw [get?_recordAll_empty, never, Option.map_none]
    refine ⟨missing, ?_⟩
    rw [lookup, missing, Option.getD_none]
  · rw [← names_eq, Environment.names, List.length_map, size]

/-- The names `ab` and `ü` have two bytes each, and `ab` is recorded first. The
last recording of `b` is its third one. -/
theorem recordings_in_closed_form_with_equal_lengths :
    let recordings : List Binding :=
      [⟨"b", 1.0⟩, ⟨"ab", 2.0⟩, ⟨"b", 3.0⟩, ⟨"ü", 4.0⟩, ⟨"abc", 5.0⟩,
        ⟨"ab", 6.0⟩, ⟨"b", 7.0⟩]
    let environment := empty.recordAll recordings
    "b" ∈ (recordings.map Binding.name).eraseDups ∧
      "u" ∉ (recordings.map Binding.name).eraseDups ∧
      environment.bindings =
        [⟨"b", 7.0⟩, ⟨"ab", 6.0⟩, ⟨"ü", 4.0⟩, ⟨"abc", 5.0⟩] ∧
      environment.get? "b" = some 7.0 ∧ environment.lookup "u" = 0.0 ∧
      environment.namesByLength = ["abc", "ab", "ü", "b"] ∧
      (environment.namesByLength.filter fun name => name.utf8ByteSize = 2) =
        ["ab", "ü"] := by
  intro recordings environment
  obtain ⟨-, bindings, bound, unbound, -, -, -, stable⟩ :=
    recordings_in_closed_form recordings
  have recorded : "b" ∈ (recordings.map Binding.name).eraseDups := by decide
  have notRecorded : "u" ∉ (recordings.map Binding.name).eraseDups := by decide
  have isLast : lastRecording? recordings "b" = some ⟨"b", 7.0⟩ := by decide
  have sorted : environment.namesByLength = ["abc", "ab", "ü", "b"] := by
    change ["b", "ab", "ü", "abc"].mergeSort _ = _
    simp +decide [List.mergeSort]
  obtain ⟨value, last, found, -⟩ := bound "b" recorded
  obtain ⟨-, rfl⟩ := Binding.mk.inj (Option.some.inj (isLast.symm.trans last))
  exact ⟨recorded, notRecorded, bindings.trans (by decide), found,
    (unbound "u" notRecorded).2, sorted, (stable 2).trans (by decide)⟩

end Environment

end LineCalculator
