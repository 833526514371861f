import Lox.Proofs.LineJoin
import Lox.Proofs.Lines
import Lox.Proofs.ScriptRun

/-!
# What an interactive run shows

The program takes up one line after another until something stops it.  Up to there it shows for
each line, after the prompt, what running a script with the line in it would show; the console tells
at every prompt of no report.
-/

namespace Lox

open Lexical (scan scan_reports line_of_mem_reportsFrom lineAfter_eq texts_segments)
open Text (encode IsUtf8 Lines Trimmed)

/-! ### Sources of one line -/

theorem Lexical.line_of_newline_notMem {source : String} (h : '\n' ∉ source.toList) {r : Report}
    (reported : r ∈ (scan source).reports) : r.line = 1 := by
  rw [scan_reports] at reported
  obtain ⟨before, after, cut, reached⟩ := line_of_mem_reportsFrom reported
  have whole := texts_segments source.toList
  rw [cut, List.flatMap_append] at whole
  have none : newlines (before.flatMap Segment.text) = 0 := by
    apply List.count_eq_zero.mpr
    intro inside
    exact h (whole ▸ List.mem_append_left _ inside)
  rw [reached, lineAfter_eq, none]
  rfl

namespace Command

/-! ### What is typed -/

/-- The line holds this text, and after it what ends a line. -/
def Typed (line : List UInt8) (text : String) : Prop :=
  ∃ characters, encode (String.ofList characters) = line ∧ Trimmed characters text.toList

theorem typed_iff {line : List UInt8} {text : String} :
    Typed line text
      ↔ ∃ characters, Text.decode line = .ok characters
        ∧ String.ofList (Text.trimEnd characters) = text := by
  apply exists_congr
  intro characters
  rw [Text.decode_eq_ok_iff, Text.trimmed_iff, ← String.toList_inj, String.toList_ofList]

/-- The line is listed when the program comes to it. -/
structure Entered (line : List UInt8) (text : String) : Prop where
  typed : Typed line text
  other : text ≠ "exit"

/-- Why the lines are not taken up, and whether that is a failure. -/
inductive Stops : List (List UInt8) → Bool → Prop
  | ended : Stops [] false
  | left {line later} (typed : Typed line "exit") : Stops (line :: later) false
  | noText {line later} (invalid : ¬ IsUtf8 line) : Stops (line :: later) true

theorem newline_notMem_of_typed {line : List UInt8} {text : String} (h : Typed line text)
    (solid : newlineByte ∉ line.dropLast) : '\n' ∉ text.toList := by
  obtain ⟨characters, rfl, trimmed⟩ := h
  obtain ⟨tail, _, rfl⟩ := trimmed.ends
  have kept := trimmed.kept
  intro inside
  -- a newline in the text would not be its last character, so something follows it in the line
  rcases List.eq_nil_or_concat' text.toList with empty | ⟨before, last, text_eq⟩
  · rw [empty] at inside
    contradiction
  · rw [text_eq, List.getLast?_concat] at kept
    rw [text_eq, Text.encode_ofList, List.flatMap_append, List.flatMap_append,
      List.flatMap_singleton, List.append_assoc] at solid
    rw [text_eq, List.mem_append, List.mem_singleton] at inside
    have earlier : '\n' ∈ before := inside.resolve_right (kept last rfl).2.symm
    have filled : String.utf8EncodeChar last ++ tail.flatMap String.utf8EncodeChar ≠ [] :=
      List.append_ne_nil_of_left_ne_nil String.utf8EncodeChar_ne_nil _
    rw [List.dropLast_append_of_ne_nil filled] at solid
    have byte : newlineByte ∈ String.utf8EncodeChar '\n' := by decide
    exact solid (List.mem_append_left _ (List.mem_flatMap.mpr ⟨'\n', earlier, byte⟩))

/-! ### One reply -/

section Reply

variable {debug : Bool} {line : List UInt8} {text : String}

theorem reply_noText (c : Console) (h : ¬ IsUtf8 line) :
    reply debug c line = .fail .invalidText := by
  obtain ⟨fault, refused⟩ := Text.not_isUtf8_iff.mp h
  rw [reply, refused]

theorem reply_exit (c : Console) (h : Typed line "exit") : reply debug c line = .stop := by
  obtain ⟨characters, decoded, trimmed⟩ := typed_iff.mp h
  simp only [reply, decoded, trimmed]
  rfl

/-- The console comes to the next prompt without a report to remember. -/
theorem reply_entered (stream : String) (h : Entered line text) :
    reply debug ⟨stream, false, false⟩ line
      = .listed (listing (scan text).tokens)
        ⟨stream ++ errorText "<repl>" debug text, false, false⟩ := by
  obtain ⟨characters, decoded, trimmed⟩ := typed_iff.mp h.typed
  have other : (text == "exit") = false := by simpa using h.other
  simp only [reply, decoded, trimmed, other, listOn_eq]
  rfl

end Reply

/-! ### The lines in order -/

theorem exists_stops (lines : List (List UInt8)) :
    ∃ listed texts rest failed, lines = listed ++ rest ∧ List.Forall₂ Entered listed texts
      ∧ Stops rest failed := by
  induction lines with
  | nil => exact ⟨[], [], [], false, rfl, .nil, .ended⟩
  | cons line later ih =>
    cases decoded : Text.decode line with
    | error fault =>
      have invalid : ¬ IsUtf8 line := Text.not_isUtf8_iff.mpr ⟨fault, decoded⟩
      exact ⟨[], [], line :: later, true, rfl, .nil, .noText invalid⟩
    | ok characters =>
      have typed : Typed line (String.ofList (Text.trimEnd characters)) :=
        typed_iff.mpr ⟨characters, decoded, rfl⟩
      by_cases left : String.ofList (Text.trimEnd characters) = "exit"
      · exact ⟨[], [], line :: later, false, rfl, .nil, .left (left ▸ typed)⟩
      · obtain ⟨listed, texts, rest, failed, rfl, entered, stops⟩ := ih
        exact ⟨line :: listed, _ :: texts, rest, failed, rfl, .cons ⟨typed, left⟩ entered, stops⟩

theorem converse_stops {debug : Bool} {rest : List (List UInt8)} {failed : Bool} (stream : String)
    (h : Stops rest failed) :
    converse debug ⟨stream, false, false⟩ rest
      = if failed then Failure.invalidText.outcome "> " stream
        else ⟨.success, "> ", stream⟩ := by
  cases h with
  | ended => rfl
  | left typed =>
    rw [converse, reply_exit _ typed]
    rfl
  | noText invalid =>
    rw [converse, reply_noText _ invalid]
    rfl

/-- Adds what the listed texts put out before the rest of a run. -/
def afterListing (texts : List String) (o : Outcome) : Outcome :=
  { o with
    stdout := String.join (texts.map fun t => "> " ++ listing (scan t).tokens) ++ o.stdout }

theorem converse_append {debug : Bool} {listed : List (List UInt8)} {texts : List String}
    (h : List.Forall₂ Entered listed texts) (stream : String) (rest : List (List UInt8)) :
    converse debug ⟨stream, false, false⟩ (listed ++ rest)
      = afterListing texts
        (converse debug
          ⟨stream ++ String.join (texts.map (errorText "<repl>" debug)), false, false⟩ rest) := by
  induction h generalizing stream with
  | nil => simp [afterListing]
  | cons entered later ih =>
    rw [List.cons_append, converse, reply_entered stream entered]
    simp only [ih, prompt, afterListing, List.map_cons, String.join_cons, String.append_assoc]

theorem Stops.other {stop : List UInt8} {unread : List (List UInt8)} {failed : Bool}
    (h : Stops (stop :: unread) failed) (unread' : List (List UInt8)) :
    Stops (stop :: unread') failed := by
  cases h with
  | left typed => exact .left typed
  | noText invalid => exact .noText invalid

/-- The outcome tells nothing of the lines not taken up but whether they are a failure. -/
theorem runInteractive_of_lines {debug : Bool} {input : List UInt8}
    {listed rest : List (List UInt8)} {texts : List String} {failed : Bool}
    (lines : Lines newlineByte input (listed ++ rest)) (entered : List.Forall₂ Entered listed texts)
    (stops : Stops rest failed) :
    runInteractive debug input
      = afterListing texts
        (if failed then
          Failure.invalidText.outcome "> " (String.join (texts.map (errorText "<repl>" debug)))
        else ⟨.success, "> ", String.join (texts.map (errorText "<repl>" debug))⟩) := by
  have started : converse debug {} (listed ++ rest) = _ := converse_append entered "" rest
  rw [runInteractive, Text.lines_iff.mp lines, started, converse_stops _ stops, String.empty_append]

/-! ### The whole run -/

/-- What running a script with the text in it shows. -/
def typedScript (debug : Bool) (text : String) : Outcome :=
  runScript "<repl>" debug (.ok (encode text))

theorem typedScript_eq (debug : Bool) (text : String) :
    typedScript debug text = listSource "<repl>" debug text :=
  runScript_encode "<repl>" debug text

theorem stdout_typedScript (debug : Bool) (text : String) :
    (typedScript debug text).stdout = listing (scan text).tokens := by
  rw [typedScript_eq, listSource_eq]

theorem stderr_typedScript (debug : Bool) (text : String) :
    (typedScript debug text).stderr = errorText "<repl>" debug text := by
  rw [typedScript_eq, listSource_eq]

theorem invalidText_line :
    "Error: Error \x7b kind: InvalidData, message: \"stream did not contain valid UTF-8\" \x7d\n"
      = "Error: " ++ Failure.invalidText.message ++ "\n" := by decide +kernel

/-- An input cut into lines: some are listed and the rest is not taken up. -/
structure Conversation (debug : Bool) (input : List UInt8) (listed : List (List UInt8))
    (texts : List String) (rest : List (List UInt8)) (failed : Bool) (o : Outcome) : Prop where
  lines : Lines newlineByte input (listed ++ rest)
  entered : List.Forall₂ Entered listed texts
  stops : Stops rest failed
  stdout : o.stdout
    = String.join (texts.map fun t => "> " ++ (typedScript debug t).stdout) ++ "> "
  stderr : o.stderr = String.join (texts.map fun t => (typedScript debug t).stderr)
    ++ if failed then
      "Error: Error \x7b kind: InvalidData, message: \"stream did not contain valid UTF-8\" \x7d\n"
      else ""
  code : o.status.code = if failed then 1 else 0
  /-- Each text is told of by itself, whatever came before it. -/
  shows : ∀ t ∈ texts, Shows "<repl>" debug (encode t) (typedScript debug t)
  line : ∀ t ∈ texts, ∀ r ∈ (scan t).reports, r.line = 1

theorem newline_notMem_of_entered {listed : List (List UInt8)} {texts : List String}
    (solid : ∀ line ∈ listed, newlineByte ∉ line.dropLast)
    (entered : List.Forall₂ Entered listed texts) : ∀ t ∈ texts, '\n' ∉ t.toList := by
  induction entered with
  | nil => exact nofun
  | cons entered later ih =>
    obtain ⟨here, there⟩ := List.forall_mem_cons.mp solid
    exact List.forall_mem_cons.mpr ⟨newline_notMem_of_typed entered.typed here, ih there⟩

theorem conversation_of_lines {debug : Bool} {input : List UInt8} {listed rest : List (List UInt8)}
    {texts : List String} {failed : Bool} (lines : Lines newlineByte input (listed ++ rest))
    (entered : List.Forall₂ Entered listed texts) (stops : Stops rest failed) :
    Conversation debug input listed texts rest failed (runInteractive debug input) where
  lines := lines
  entered := entered
  stops := stops
  stdout := by
    rw [runInteractive_of_lines lines entered stops]
    cases failed <;> simp only [afterListing, stdout_typedScript] <;> rfl
  stderr := by
    rw [runInteractive_of_lines lines entered stops]
    simp only [afterListing, stderr_typedScript]
    cases failed
    · exact String.append_empty.symm
    · rw [if_pos rfl, Failure.outcome, if_pos rfl, invalidText_line]
      simp only [String.append_assoc]
  code := by
    rw [runInteractive_of_lines lines entered stops]
    cases failed <;> rfl
  shows := by
    intro t _
    exact shows_runScript "<repl>" debug (encode t)
  line := by
    have solid : ∀ line ∈ listed, newlineByte ∉ line.dropLast := by
      intro line mem
      exact lines.newline_notMem_dropLast line (List.mem_append_left rest mem)
    intro t mem r reported
    exact Lexical.line_of_newline_notMem (newline_notMem_of_entered solid entered t mem) reported

/-- Started without a script, the program lists one line of its input after another until one of
them, or the end, stops it; what comes after that line makes no difference. -/
theorem runProgram_interactive {arguments : List String} {debug : Bool}
    (asked : Request.ofArguments arguments = .interactive debug)
    (read : String → Except FileError (List UInt8)) (input : List UInt8) :
    ∃ listed texts rest failed,
      Conversation debug input listed texts rest failed (runProgram arguments read input)
        ∧ ∀ stop unread unread' input', rest = stop :: unread
          → Lines newlineByte input' (listed ++ stop :: unread')
          → runProgram arguments read input' = runProgram arguments read input := by
  have run (input : List UInt8) : runProgram arguments read input = runInteractive debug input := by
    rw [runProgram, asked]
  obtain ⟨listed, texts, rest, failed, cut, entered, stops⟩ :=
    exists_stops (Text.cut newlineByte input)
  have lines : Lines newlineByte input (listed ++ rest) := Text.lines_iff.mpr cut
  refine ⟨listed, texts, rest, failed, ?_, ?_⟩
  · rw [run]
    exact conversation_of_lines lines entered stops
  · intro stop unread unread' input' here lines'
    subst here
    rw [run, run, runInteractive_of_lines lines entered stops,
      runInteractive_of_lines lines' entered (stops.other unread')]

/-- An unexpected character with a carriage return too many, an empty line, and the end. -/
theorem runProgram_interactive_unended :
    Request.ofArguments ["--debug"] = .interactive true
      ∧ ∃ listed texts rest failed,
        Conversation true "@\r\r\n\nexit\n1".toUTF8.data.toList listed texts rest failed
          (runProgram ["--debug"] (Directory.read ⟨[]⟩) "@\r\r\n\nexit\n1".toUTF8.data.toList) := by
  have asked : Request.ofArguments ["--debug"] = .interactive true := by decide +kernel
  obtain ⟨listed, texts, rest, failed, conversation, _⟩ :=
    runProgram_interactive asked (Directory.read ⟨[]⟩) "@\r\r\n\nexit\n1".toUTF8.data.toList
  exact ⟨asked, listed, texts, rest, failed, conversation⟩

end Command

end Lox
