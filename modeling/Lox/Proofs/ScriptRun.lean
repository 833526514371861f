import Lox.Command.Directory
import Lox.Command.Program
import Lox.Proofs.Decoding
import Lox.Proofs.Sessions

/-!
# What running a script shows

A script is decoded as a whole before anything is scanned.  If that works, every token is listed,
every report is written and the exit code tells whether there was a report; if not, there is one
line that says where the decoding failed, and nothing else.
-/

namespace Lox

open Lexical (scan scanInto_eq)
open Text (encode IsUtf8 LongestValid)

namespace Command

/-! ### The texts that are shown -/

/-- The text of a token: its kind, and after a blank each its lexeme, unless that is empty, and its
value, if it has one. -/
def tokenText (t : Token) : String :=
  t.kind.name ++ (if t.lexeme = "" then "" else " " ++ t.lexeme)
    ++ match t.literal with
      | none => ""
      | some (.text value) => " " ++ value
      | some (.number x) => " " ++ x.text

/-- What a source leaves on the output stream: its tokens, each on a line of its own. -/
def outputText (source : String) : String :=
  String.join ((scan source).tokens.map fun t => tokenText t ++ "\n")

/-- What a source leaves on the error stream: its reports, and with the debug flag one more line. -/
def errorText (name : String) (debug : Bool) (source : String) : String :=
  String.join ((scan source).reports.map fun r =>
      "[line " ++ Nat.repr r.line.toNat ++ "] Error: " ++ r.message ++ "\n")
    ++ if debug then
      "[debug] " ++ name ++ ": " ++ Nat.repr (scan source).tokens.length ++ " tokens, errors: "
        ++ (if (scan source).reports = [] then "false" else "true") ++ "\n"
      else ""

theorem render_eq_tokenText (t : Token) : t.render = tokenText t := by
  have filled : t.lexeme.isEmpty = true ↔ t.lexeme = "" := String.isEmpty_iff
  rw [Token.render, tokenText]
  congr 1
  · simp only [filled]
  · cases t.literal with
    | none => rfl
    | some value => cases value <;> rfl

theorem listing_scan_eq_outputText (source : String) :
    listing (scan source).tokens = outputText source := by
  simp only [listing, outputText, render_eq_tokenText]

theorem errorText_eq (name : String) (debug : Bool) (source : String) :
    errorText name debug source = String.join ((scan source).reports.map Report.render)
      ++ if debug then debugLine name (scan source).tokens.length (!(scan source).reports.isEmpty)
        else "" := by
  rw [errorText, debugLine]
  cases (scan source).reports <;> rfl

/-! ### Listing on a console -/

theorem reported_eq (reports : List Report) (stream : String) :
    reports.foldl Sink.report (⟨stream, false, false⟩ : Console)
      = ⟨stream ++ String.join (reports.map Report.render), false, !reports.isEmpty⟩ := by
  have written := Console.stream_foldl_report reports ⟨stream, false, false⟩
  have fails := Console.fails_foldl_report reports ⟨stream, false, false⟩
  have hadError := Console.hadError_foldl_report reports ⟨stream, false, false⟩
  generalize reports.foldl Sink.report (⟨stream, false, false⟩ : Console) = c at *
  obtain ⟨_, _, _⟩ := c
  simp_all

/-- On a console that works and remembers no report, the stream and the memory tell of this source
alone. -/
theorem listOn_eq (stream name : String) (debug : Bool) (source : String) :
    listOn ⟨stream, false, false⟩ name debug source
      = (listing (scan source).tokens,
        ⟨stream ++ errorText name debug source, false, !(scan source).reports.isEmpty⟩) := by
  rw [listOn, scanInto_eq, reported_eq, errorText_eq]
  cases debug
  · simp
  · simp [Console.write, String.append_assoc]

/-! ### Errors of one line -/

theorem notMem_toDigits {n : Nat} {c : Char} (hc : c.isDigit = false) : c ∉ Nat.toDigits 10 n := by
  intro mem
  have digit := Nat.isDigit_of_mem_toDigits (by decide) (by decide) mem
  rw [hc] at digit
  contradiction

theorem newline_notMem_repr (n : Nat) : '\n' ∉ (Nat.repr n).toList := by
  rw [Nat.toList_repr]
  exact notMem_toDigits rfl

theorem newline_notMem_intercalate {between : String} {texts : List String}
    (hbetween : '\n' ∉ between.toList) (htexts : ∀ t ∈ texts, '\n' ∉ t.toList) :
    '\n' ∉ (between.intercalate texts).toList := by
  induction texts with
  | nil => simp
  | cons t rest ih =>
    obtain ⟨here, later⟩ := List.forall_mem_cons.mp htexts
    cases rest with
    | nil => simpa using here
    | cons u rest =>
      rw [String.intercalate_cons_cons, String.toList_append, String.toList_append,
        List.mem_append, List.mem_append, not_or, not_or]
      exact ⟨⟨here, hbetween⟩, ih later⟩

theorem faultLength_cases (fault : Text.HeadFault) :
    Failure.faultLength fault = "None"
      ∨ ∃ n, Failure.faultLength fault = "Some(" ++ Nat.repr n ++ ")" := by
  cases fault with
  | incomplete => exact .inl rfl
  | malformed length => exact .inr ⟨length, rfl⟩

theorem newline_notMem_faultLength (fault : Text.HeadFault) :
    '\n' ∉ (Failure.faultLength fault).toList := by
  cases fault with
  | incomplete => decide
  | malformed length =>
    have number := newline_notMem_repr length
    simpa [Failure.faultLength] using number

theorem message_undecodable (bytes : List UInt8) (fault : Text.Utf8Fault) :
    (Failure.undecodable bytes fault).message
      = "FromUtf8Error \x7b bytes: [" ++ ", ".intercalate (bytes.map fun b => Nat.repr b.toNat)
        ++ "], error: Utf8Error \x7b valid_up_to: " ++ Nat.repr fault.validUpTo
        ++ ", error_len: " ++ Failure.faultLength fault.head ++ " \x7d \x7d" := rfl

theorem newline_notMem_message (failure : Failure) : '\n' ∉ failure.message.toList := by
  cases failure with
  | unreadable error => cases error <;> decide +kernel
  | undecodable bytes fault =>
    have all : '\n' ∉ (", ".intercalate (bytes.map fun b => Nat.repr b.toNat)).toList := by
      apply newline_notMem_intercalate (by decide)
      intro t mem
      obtain ⟨b, _, rfl⟩ := List.mem_map.mp mem
      exact newline_notMem_repr b.toNat
    have upTo := newline_notMem_repr fault.validUpTo
    have length := newline_notMem_faultLength fault.head
    rw [message_undecodable]
    simp only [String.toList_append, List.mem_append, not_or]
    exact ⟨⟨⟨⟨⟨⟨by decide +kernel, all⟩, by decide +kernel⟩, upTo⟩, by decide +kernel⟩, length⟩,
      by decide +kernel⟩
  | invalidText => decide +kernel

/-! ### The two ways a script can go -/

theorem listSource_eq (name : String) (debug : Bool) (source : String) :
    listSource name debug source
      = ⟨if (scan source).reports.isEmpty then .success else .dataError,
        listing (scan source).tokens, errorText name debug source⟩ := by
  have shown : listOn {} name debug source = _ := listOn_eq "" name debug source
  rw [listSource, shown, String.empty_append]
  cases (scan source).reports.isEmpty <;> rfl

theorem runScript_encode (name : String) (debug : Bool) (source : String) :
    runScript name debug (.ok (encode source)) = listSource name debug source := by
  rw [runScript, Text.decode_encode_text]
  exact congrArg (listSource name debug) source.ofList_toList

theorem runScript_not_isUtf8 {bytes : List UInt8} (name : String) (debug : Bool)
    (h : ¬ IsUtf8 bytes) :
    ∃ fault, LongestValid bytes fault.validUpTo
      ∧ runScript name debug (.ok bytes) = (Failure.undecodable bytes fault).outcome "" "" := by
  obtain ⟨fault, refused⟩ := Text.not_isUtf8_iff.mp h
  refine ⟨fault, Text.longestValid_of_decode refused, ?_⟩
  rw [runScript, refused]

/-- What a script with these bytes in it shows. -/
structure Shows (name : String) (debug : Bool) (bytes : List UInt8) (o : Outcome) : Prop where
  text : ∀ source, encode source = bytes → o.stdout = outputText source
    ∧ o.stderr = errorText name debug source
    ∧ o.status.code = if (scan source).reports = [] then 0 else 65
  /-- One line that holds all the bytes and says how many of them are valid. -/
  noText : ¬ IsUtf8 bytes → o.stdout = "" ∧ o.status.code = 1
    ∧ ∃ (upTo : Nat) (faultLength line : String), LongestValid bytes upTo
      ∧ (faultLength = "None" ∨ ∃ n, faultLength = "Some(" ++ Nat.repr n ++ ")")
      ∧ line = "Error: FromUtf8Error \x7b bytes: ["
        ++ ", ".intercalate (bytes.map fun b => Nat.repr b.toNat)
        ++ "], error: Utf8Error \x7b valid_up_to: " ++ Nat.repr upTo
        ++ ", error_len: " ++ faultLength ++ " \x7d \x7d"
      ∧ '\n' ∉ line.toList ∧ o.stderr = line ++ "\n"

theorem shows_runScript (name : String) (debug : Bool) (bytes : List UInt8) :
    Shows name debug bytes (runScript name debug (.ok bytes)) where
  text := by
    intro source encoded
    rw [← encoded, runScript_encode, listSource_eq]
    refine ⟨listing_scan_eq_outputText source, rfl, ?_⟩
    cases (scan source).reports <;> rfl
  noText := by
    intro h
    obtain ⟨fault, longest, outcome⟩ := runScript_not_isUtf8 name debug h
    have one := newline_notMem_message (.undecodable bytes fault)
    rw [outcome]
    refine ⟨rfl, rfl, fault.validUpTo, Failure.faultLength fault.head,
      "Error: " ++ (Failure.undecodable bytes fault).message, longest, faultLength_cases fault.head,
      ?_, ?_, ?_⟩
    · simp only [message_undecodable, ← String.append_assoc]
      rfl
    · rw [String.toList_append, List.mem_append, not_or]
      exact ⟨by decide +kernel, one⟩
    · rfl

/-- Asked to run a script that is there, the program shows what the bytes in it say. -/
theorem runProgram_script {arguments : List String} {name : String} {debug : Bool}
    {read : String → Except FileError (List UInt8)} {bytes : List UInt8}
    (asked : Request.ofArguments arguments = .script name debug) (held : read name = .ok bytes)
    (input : List UInt8) : Shows name debug bytes (runProgram arguments read input) := by
  rw [runProgram, asked]
  show Shows name debug bytes (runScript name debug (read name))
  rw [held]
  exact shows_runScript name debug bytes

/-- A script with a report, and one that ends in a byte that no character begins with. -/
theorem runProgram_script_reported :
    Request.ofArguments ["a.lox", "--debug"] = .script "a.lox" true
      ∧ Directory.read ⟨[("a.lox", .file (encode "@\n1.50 \"\""))]⟩ "a.lox"
        = .ok (encode "@\n1.50 \"\"")
      ∧ Shows "a.lox" true (encode "@\n1.50 \"\"") (runProgram ["a.lox", "--debug"]
        (Directory.read ⟨[("a.lox", .file (encode "@\n1.50 \"\""))]⟩) [])
      ∧ outputText "@\n1.50 \"\"" = "NUMBER 1.50 1.5\nSTRING \"\" \nEOF\n"
      ∧ errorText "a.lox" true "@\n1.50 \"\""
        = "[line 1] Error: Unexpected character '@'\n[debug] a.lox: 3 tokens, errors: true\n"
      ∧ Request.ofArguments ["-d", "b.lox"] = .script "b.lox" true
      ∧ Directory.read ⟨[("b.lox", .file [64, 10, 255])]⟩ "b.lox" = .ok [64, 10, 255]
      ∧ Shows "b.lox" true [64, 10, 255]
        (runProgram ["-d", "b.lox"] (Directory.read ⟨[("b.lox", .file [64, 10, 255])]⟩) []) := by
  have asked : Request.ofArguments ["a.lox", "--debug"] = .script "a.lox" true := by decide +kernel
  have held : Directory.read ⟨[("a.lox", .file (encode "@\n1.50 \"\""))]⟩ "a.lox"
      = .ok (encode "@\n1.50 \"\"") := by
    decide +kernel
  have output : outputText "@\n1.50 \"\"" = "NUMBER 1.50 1.5\nSTRING \"\" \nEOF\n" := by
    decide +kernel
  have errors : errorText "a.lox" true "@\n1.50 \"\""
      = "[line 1] Error: Unexpected character '@'\n[debug] a.lox: 3 tokens, errors: true\n" := by
    decide +kernel
  have asked' : Request.ofArguments ["-d", "b.lox"] = .script "b.lox" true := by decide +kernel
  have held' : Directory.read ⟨[("b.lox", .file [64, 10, 255])]⟩ "b.lox" = .ok [64, 10, 255] := by
    decide +kernel
  exact ⟨asked, held, runProgram_script asked held [], output, errors, asked', held',
    runProgram_script asked' held' []⟩

end Command

end Lox
