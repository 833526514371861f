import Lox.Conformance.Suite
import Lox.Proofs.Lines
import Mathlib.Data.List.TakeDrop

/-!
# Comparing a stream place by place

A comparison looks at one place of the two lists after the other: what it finds at a place depends on
the two lines there and on nothing before them.  So its failures are those of the places where the
lists differ, in the order of the places; and they are the same if the lines of the stream are taken
one by one against a queue of what is still expected.
-/

namespace Lox.Conformance

/-! ### One place -/

/-- What is wrong at a place with these two lines, where either list may have ended. -/
def mismatch? : Option String → Option String → Option Mismatch
  | some want, some line => if want = line then none else some (.different want line)
  | some want, none => some (.notFound want)
  | none, some line => some (.unexpected line)
  | none, none => none

theorem mismatch?_eq_none_iff {want line : Option String} :
    mismatch? want line = none ↔ want = line := by
  cases want <;> cases line <;> simp [mismatch?]

theorem mismatches_nil : mismatches [] [] = [] := by rw [mismatches]

/-- The first place is looked at, and then the lists without it. -/
theorem mismatches_step (expected actual : List String) :
    mismatches expected actual
      = (mismatch? expected.head? actual.head?).toList ++ mismatches expected.tail actual.tail := by
  fun_cases mismatches expected actual with
  | case1 => simp [mismatch?, mismatches_nil]
  | case2 want expected => rfl
  | case3 line actual => rfl
  | case4 want expected line actual same => simp [mismatch?, eq_of_beq same]
  | case5 want expected line actual different =>
    have apart : want ≠ line := by simpa using different
    simp [mismatch?, apart]

/-! ### Place after place -/

/-- A comparison can be cut at any place: what comes after it is compared as if it stood alone. -/
theorem mismatches_take_drop (k : Nat) (expected actual : List String) :
    mismatches expected actual
      = mismatches (expected.take k) (actual.take k)
        ++ mismatches (expected.drop k) (actual.drop k) := by
  induction k generalizing expected actual with
  | zero => simp [mismatches_nil]
  | succ k ih =>
    have front (s : List String) : (s.take (k + 1)).head? = s.head? := by simp [List.head?_take]
    have later (s : List String) : (s.take (k + 1)).tail = s.tail.take k := by
      simp [List.tail_take_eq_take_tail]
    have first := mismatches_step (expected.take (k + 1)) (actual.take (k + 1))
    rw [front, front, later, later] at first
    rw [mismatches_step, ih, first, List.append_assoc, List.drop_tail, List.drop_tail]

/-- The mismatches are those of the places up to the end of both lists. -/
theorem mismatches_eq_filterMap {n : Nat} {expected actual : List String}
    (asked : expected.length ≤ n) (shown : actual.length ≤ n) :
    mismatches expected actual
      = (List.range n).filterMap fun i => mismatch? expected[i]? actual[i]? := by
  induction n generalizing expected actual with
  | zero =>
    rw [List.eq_nil_of_length_eq_zero (Nat.le_zero.mp asked),
      List.eq_nil_of_length_eq_zero (Nat.le_zero.mp shown), mismatches_nil]
    rfl
  | succ n ih =>
    have later := ih (show expected.tail.length ≤ n by simpa) (show actual.tail.length ≤ n by simpa)
    simp only [List.getElem?_tail] at later
    rw [mismatches_step, later, List.range_succ_eq_map, List.filterMap_cons, List.filterMap_map,
      List.head?_eq_getElem?, List.head?_eq_getElem?]
    cases mismatch? expected[0]? actual[0]? <;> rfl

/-! ### The failures with their places -/

/-- The failure to report for place `i`, if the lists do not have the same line there. -/
inductive FailsAt (name : String) (expected actual : List String) (i : Nat) : String → Prop
  | different {want line} (asked : expected[i]? = some want) (shown : actual[i]? = some line)
      (apart : want ≠ line) :
      FailsAt name expected actual i (name ++ ": Expected: " ++ want ++ ", Actual: " ++ line)
  | unexpected {line} (asked : expected[i]? = none) (shown : actual[i]? = some line) :
      FailsAt name expected actual i (name ++ ": Unexpected output: " ++ line)
  | notFound {want} (asked : expected[i]? = some want) (shown : actual[i]? = none) :
      FailsAt name expected actual i (name ++ ": Expected, not found: " ++ want)

theorem message_stream (name : String) (m : Mismatch) :
    (Complaint.stream name m).message = match m with
      | .different want line => name ++ ": Expected: " ++ want ++ ", Actual: " ++ line
      | .unexpected line => name ++ ": Unexpected output: " ++ line
      | .notFound want => name ++ ": Expected, not found: " ++ want := by
  cases m with
  | different want line =>
    have begun : ": Expected: " = ": " ++ "Expected: " := rfl
    show name ++ ": " ++ ("Expected: " ++ want ++ ", Actual: " ++ line) = _
    simp only [begun, String.append_assoc]
  | unexpected line =>
    have begun : ": Unexpected output: " = ": " ++ "Unexpected output: " := rfl
    show name ++ ": " ++ ("Unexpected output: " ++ line) = _
    simp only [begun, String.append_assoc]
  | notFound want =>
    have begun : ": Expected, not found: " = ": " ++ "Expected, not found: " := rfl
    show name ++ ": " ++ ("Expected, not found: " ++ want) = _
    simp only [begun, String.append_assoc]

theorem failsAt_of_mismatch? {name : String} {expected actual : List String} {i : Nat} {m : Mismatch}
    (h : mismatch? expected[i]? actual[i]? = some m) :
    FailsAt name expected actual i (Complaint.stream name m).message := by
  rw [message_stream]
  unfold mismatch? at h
  split at h
  · next want line asked shown =>
    obtain ⟨apart, same⟩ := Option.ite_none_left_eq_some.mp h
    obtain rfl := Option.some.inj same
    exact .different asked shown apart
  · next want asked shown =>
    obtain rfl := Option.some.inj h
    exact .notFound asked shown
  · next line asked shown =>
    obtain rfl := Option.some.inj h
    exact .unexpected asked shown
  · contradiction

/-- Failures with the places they are about: one for each place at which one list at least has a line,
unless both have the same one there. -/
structure Located (name : String) (expected actual : List String) (found : List (Nat × Complaint)) :
    Prop where
  ordered : (found.map Prod.fst).Pairwise (· < ·)
  places : ∀ i, i ∈ found.map Prod.fst ↔ i < max expected.length actual.length
    ∧ ¬ ∃ line, expected[i]? = some line ∧ actual[i]? = some line
  messages : ∀ failure ∈ found, FailsAt name expected actual failure.1 failure.2.message

def placedFailures (name : String) (expected actual : List String) : List (Nat × Complaint) :=
  (List.range (max expected.length actual.length)).filterMap fun i =>
    (mismatch? expected[i]? actual[i]?).map fun m => (i, .stream name m)

theorem mem_placedFailures {name : String} {expected actual : List String} {failure : Nat × Complaint} :
    failure ∈ placedFailures name expected actual ↔ failure.1 < max expected.length actual.length
      ∧ ∃ m, mismatch? expected[failure.1]? actual[failure.1]? = some m
        ∧ failure.2 = .stream name m := by
  obtain ⟨i, c⟩ := failure
  rw [placedFailures, List.mem_filterMap]
  constructor
  · intro found
    obtain ⟨j, inside, value⟩ := found
    obtain ⟨m, wrong, same⟩ := Option.map_eq_some_iff.mp value
    obtain ⟨rfl, rfl⟩ := Prod.mk.inj same
    exact ⟨List.mem_range.mp inside, m, wrong, rfl⟩
  · intro fails
    obtain ⟨inside, m, wrong, rfl⟩ := fails
    exact ⟨i, List.mem_range.mpr inside, Option.map_eq_some_iff.mpr ⟨m, wrong, rfl⟩⟩

theorem map_snd_placedFailures (name : String) (expected actual : List String) :
    (placedFailures name expected actual).map Prod.snd
      = (mismatches expected actual).map (.stream name) := by
  rw [placedFailures, mismatches_eq_filterMap (Nat.le_max_left _ _) (Nat.le_max_right _ _),
    List.map_filterMap, List.map_filterMap]
  simp only [Option.map_map, Function.comp_def]

theorem same_line_iff {expected actual : List String} {i : Nat}
    (inside : i < max expected.length actual.length) :
    (∃ line, expected[i]? = some line ∧ actual[i]? = some line) ↔ expected[i]? = actual[i]? := by
  constructor
  · intro same
    obtain ⟨line, asked, shown⟩ := same
    rw [asked, shown]
  · intro same
    cases shown : actual[i]? with
    | some line => exact ⟨line, same.trans shown, rfl⟩
    | none =>
      -- both lists have ended here, which no place before the end of the longer one allows
      have asked := List.getElem?_eq_none_iff.mp (same.trans shown)
      have ended := List.getElem?_eq_none_iff.mp shown
      omega

theorem located_placedFailures (name : String) (expected actual : List String) :
    Located name expected actual (placedFailures name expected actual) where
  ordered := by
    rw [List.pairwise_map]
    apply List.Pairwise.filterMap _ _ List.pairwise_lt_range
    intro i j less a found b found'
    obtain ⟨m, -, rfl⟩ := Option.map_eq_some_iff.mp found
    obtain ⟨m', -, rfl⟩ := Option.map_eq_some_iff.mp found'
    exact less
  places := by
    intro i
    rw [List.mem_map]
    constructor
    · intro placed
      obtain ⟨failure, mem, rfl⟩ := placed
      obtain ⟨inside, m, wrong, -⟩ := mem_placedFailures.mp mem
      refine ⟨inside, fun same => ?_⟩
      rw [mismatch?_eq_none_iff.mpr ((same_line_iff inside).mp same)] at wrong
      contradiction
    · intro unlike
      obtain ⟨inside, differ⟩ := unlike
      have wrong := mt (mismatch?_eq_none_iff.trans (same_line_iff inside).symm).mp differ
      obtain ⟨m, found⟩ := Option.ne_none_iff_exists'.mp wrong
      exact ⟨(i, .stream name m), mem_placedFailures.mpr ⟨inside, m, found, rfl⟩, rfl⟩
  messages := by
    intro failure mem
    obtain ⟨-, m, wrong, same⟩ := mem_placedFailures.mp mem
    rw [same]
    exact failsAt_of_mismatch? wrong

/-! ### Line by line against a queue -/

/-- Takes the line that the stream has next and the one that is expected next.  What is still expected
and what has failed so far are carried along. -/
def compareLine (name : String) :
    List String × List Complaint → String → List String × List Complaint
  | ([], made), line => ([], made ++ [.stream name (.unexpected line)])
  | (want :: queue, made), line =>
    if want == line then (queue, made) else (queue, made ++ [.stream name (.different want line)])

/-- At the end of the stream all that is still expected is missing. -/
def reportMissed (name : String) : List String × List Complaint → List Complaint
  | (queue, made) => made ++ queue.map fun want => .stream name (.notFound want)

theorem compareStream_take_drop (k : Nat) (name : String) (expected actual : List String)
    (made : List Complaint) :
    compareStream name expected actual made
      = compareStream name (expected.drop k) (actual.drop k)
          (compareStream name (expected.take k) (actual.take k) made) := by
  unfold compareStream
  rw [mismatches_take_drop k expected actual, List.map_append, List.append_assoc]

theorem compareLine_eq (name : String) (expected : List String) (made : List Complaint)
    (line : String) :
    compareLine name (expected, made) line
      = (expected.drop 1, compareStream name (expected.take 1) [line] made) := by
  cases expected with
  | nil => simp [compareLine, compareStream, mismatches]
  | cons want queue =>
    by_cases same : want = line
    · simp [compareLine, compareStream, mismatches, same]
    · simp [compareLine, compareStream, mismatches, same]

theorem foldl_compareLine (name : String) (expected actual : List String) (made : List Complaint) :
    actual.foldl (compareLine name) (expected, made)
      = (expected.drop actual.length,
        compareStream name (expected.take actual.length) actual made) := by
  induction actual generalizing expected made with
  | nil => simp [compareStream, mismatches_nil]
  | cons line actual ih =>
    -- what the walk owes to its first line is what the comparison makes of the first place
    have first := compareStream_take_drop 1 name (expected.take (actual.length + 1)) (line :: actual)
      made
    rw [List.drop_take, List.take_take] at first
    rw [List.foldl_cons, compareLine_eq, ih, List.drop_drop, List.length_cons, first]
    simp [Nat.add_comm]

theorem mismatches_ended (expected : List String) :
    mismatches expected [] = expected.map .notFound := by
  induction expected with
  | nil => exact mismatches_nil
  | cons want expected ih => rw [mismatches, ih, List.map_cons]

/-- The comparison is a walk along the stream with a queue, and then a look at what is left in it. -/
theorem compareStream_eq_foldl (name : String) (expected actual : List String)
    (made : List Complaint) :
    compareStream name expected actual made
      = reportMissed name (actual.foldl (compareLine name) (expected, made)) := by
  rw [foldl_compareLine, compareStream_take_drop actual.length, List.drop_length, List.take_length]
  unfold reportMissed
  generalize compareStream name (expected.take actual.length) actual made = walked
  rw [compareStream, mismatches_ended, List.map_map]
  rfl

/-! ### A whole stream -/

/-- What a comparison makes of the failures made before it. -/
structure Compared (name : String) (expected actual : List String)
    (made result : List Complaint) : Prop where
  located : ∃ found, Located name expected actual found ∧ result = made ++ found.map Prod.snd
  unchanged : result = made ↔ expected = actual
  unshifted : ∀ k, result = compareStream name (expected.drop k) (actual.drop k)
    (compareStream name (expected.take k) (actual.take k) made)
  queued : result = reportMissed name (actual.foldl (compareLine name) (expected, made))

theorem compareStream_eq_self_iff {name : String} {expected actual : List String}
    {made : List Complaint} :
    compareStream name expected actual made = made ↔ expected = actual := by
  rw [compareStream, List.append_right_eq_self, List.map_eq_nil_iff, mismatches_eq_nil_iff]

/-- A stream that shows this text is compared with what is expected on it place by place: for each place
where the lines differ one failure is added, and what was found before stays. -/
theorem compareStream_lines (name : String) (expected : List String) (text : String)
    (made : List Complaint) :
    Text.ReadAs text (Text.lines text)
      ∧ Compared name expected (Text.lines text) made
          (compareStream name expected (Text.lines text) made) := by
  refine ⟨Text.readAs_iff.mpr rfl, ?_, compareStream_eq_self_iff, ?_, ?_⟩
  · refine ⟨_, located_placedFailures name expected (Text.lines text), ?_⟩
    rw [map_snd_placedFailures, compareStream]
  · exact fun k => compareStream_take_drop k name expected (Text.lines text) made
  · exact compareStream_eq_foldl name expected (Text.lines text) made

example : (compareStream "stdout" ["a", "b", "c"] ["a", "x"] []).map Complaint.message
    = ["stdout: Expected: b, Actual: x", "stdout: Expected, not found: c"] := by
  rw [compareStream_eq_foldl]
  decide +kernel

end Lox.Conformance
