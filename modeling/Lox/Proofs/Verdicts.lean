import Lox.Conformance.Suite
import Lox.Proofs.Captures
import Lox.Proofs.ScriptRun

/-!
# What a suite says of its scripts

A script passes if running it shows what its annotations ask for.  A suite goes through its entries in
the byte order of their names, prints of each script what depends on that script alone, and fails if
one of them does.  An entry that is no text ends it right after the name has been printed.
-/

namespace Lox.Conformance

open Command

/-! ### One script -/

def pathOf (name : String) : String := "./test/" ++ name

/-- What the program shows if it is asked for the path and finds the source there. -/
def shownAt (path source : String) : Outcome :=
  runProgram [path] (fun _ => .ok (Text.encode source)) []

def Passes (name source : String) : Prop :=
  Wants source (Text.lines (shownAt (pathOf name) source).stdout)
    (Text.lines (shownAt (pathOf name) source).stderr) (shownAt (pathOf name) source).status.code

def report (name source : String) : String := announcement name ++ verdict (complaints name source)

/-- The verdict on a script tells whether it passes, with a line for each failure if it does not. -/
structure Judged (name source : String) : Prop where
  pass : Passes name source → report name source = "Running test: " ++ name ++ " ... pass!\n"
  fail : ¬ Passes name source → ∃ failures : List String, failures ≠ []
    ∧ report name source = "Running test: " ++ name ++ " ... \x1b[0;31mfail!\x1b[0m\n"
      ++ String.join (failures.map fun failure => failure ++ "\n")

theorem ofArguments_pathOf (name : String) :
    Request.ofArguments [pathOf name] = .script (pathOf name) false := by
  have path : (pathOf name).toList = '.' :: "/test/".toList ++ name.toList := by
    rw [pathOf, String.toList_append]
    rfl
  have marked : ¬ (pathOf name == "--") = true := by
    intro same
    rw [eq_of_beq same] at path
    contradiction
  have taken : ({} : Options).take (pathOf name) = .ok ⟨some (pathOf name), false⟩ := by
    simp only [Options.take, path]
    rfl
  simp only [Request.ofArguments, Options.takeAll, if_neg marked, taken]
  rfl

/-- Without the debug flag it does not matter by what name a script is known. -/
theorem shownAt_pathOf (name source : String) :
    shownAt (pathOf name) source = listSource name false source := by
  rw [shownAt, runProgram, ofArguments_pathOf]
  show runScript (pathOf name) false (.ok (Text.encode source)) = _
  rw [runScript_encode, listSource_eq, listSource_eq]
  rfl

theorem complaints_eq_nil_iff {name source : String} :
    complaints name source = [] ↔ Passes name source := by
  rw [Passes, wants_iff, shownAt_pathOf]
  generalize wanted : expectation source = e
  obtain ⟨output, errors, exit⟩ := e
  rw [Expectation.mk.injEq]
  unfold complaints compareStream
  simp only [wanted, List.nil_append]
  split
  · next same =>
    rw [List.append_eq_nil_iff, List.map_eq_nil_iff, List.map_eq_nil_iff, mismatches_eq_nil_iff,
      mismatches_eq_nil_iff]
    simp only [same, and_true]
  · next other =>
    apply iff_of_false
    · simp
    · exact fun same => other same.2.2.symm

theorem announced (name rest : String) :
    announcement name ++ rest = "Running test: " ++ name ++ (" ... " ++ rest) :=
  String.append_assoc

theorem judged_report (name source : String) : Judged name source where
  pass := by
    intro passes
    rw [report, complaints_eq_nil_iff.mpr passes, announced]
    rfl
  fail := by
    intro fails
    have found := mt complaints_eq_nil_iff.mp fails
    refine ⟨(complaints name source).map Complaint.message, by simpa using found, ?_⟩
    have failed : ¬ (complaints name source).isEmpty = true := by simpa using found
    have colour : " ... \x1b[0;31mfail!\x1b[0m\n" = " ... " ++ "\x1b[0;31mfail!\x1b[0m\n" := rfl
    rw [report, verdict, if_neg failed, announced, colour, List.map_map, String.append_assoc,
      String.append_assoc]
    rfl

/-! ### The entries in turn -/

def textEntry (file : String × String) : String × Entry := (file.1, .file (Text.encode file.2))

theorem entryText_encode (source : String) :
    entryText (.file (Text.encode source)) = .ok source := by
  simp only [entryText, Entry.read, Text.decode_encode_text, String.ofList_toList]

theorem exists_failure {e : Entry} (noText : ∀ source, e ≠ .file (Text.encode source)) :
    ∃ failure, entryText e = .error failure := by
  cases e with
  | folder => exact ⟨_, rfl⟩
  | file bytes =>
    have invalid : ¬ Text.IsUtf8 bytes := by
      intro valid
      obtain ⟨source, rfl⟩ := valid
      exact noText source rfl
    obtain ⟨fault, refused⟩ := Text.not_isUtf8_iff.mp invalid
    refine ⟨.invalidText, ?_⟩
    simp only [entryText, Entry.read, refused]

/-- Entries are all texts, or there is a first one among them that is none. -/
theorem exists_texts (order : List (String × Entry)) :
    (∃ files : List (String × String), order = files.map textEntry)
      ∨ ∃ (files : List (String × String)) (name : String) (entry : Entry)
        (later : List (String × Entry)), order = files.map textEntry ++ (name, entry) :: later
          ∧ ∀ source, entry ≠ .file (Text.encode source) := by
  induction order with
  | nil => exact .inl ⟨[], rfl⟩
  | cons first rest ih =>
    obtain ⟨name, entry⟩ := first
    by_cases text : ∃ source, entry = .file (Text.encode source)
    · obtain ⟨source, rfl⟩ := text
      rcases ih with ⟨files, rfl⟩ | ⟨files, name', entry', later, rfl, noText⟩
      · exact .inl ⟨(name, source) :: files, rfl⟩
      · exact .inr ⟨(name, source) :: files, name', entry', later, rfl, noText⟩
    · exact .inr ⟨[], name, entry, rest, rfl, not_exists.mp text⟩

theorem runEntries_text (failed : Bool) (file : String × String) (later : List (String × Entry)) :
    runEntries failed (textEntry file :: later)
      = let rest := runEntries (failed || !(complaints file.1 file.2).isEmpty) later
        { rest with stdout := report file.1 file.2 ++ rest.stdout } := by
  simp only [textEntry, runEntries, entryText_encode]
  rfl

def anyFails (files : List (String × String)) : Bool :=
  files.any fun file => !(complaints file.1 file.2).isEmpty

theorem anyFails_iff {files : List (String × String)} :
    anyFails files = true ↔ ∃ file ∈ files, ¬ Passes file.1 file.2 := by
  simp only [anyFails, List.any_eq_true, ← complaints_eq_nil_iff, Bool.not_eq_true',
    List.isEmpty_eq_false_iff, ne_eq]

def reports (files : List (String × String)) : String :=
  String.join (files.map fun file => report file.1 file.2)

/-- What texts leave behind does not change with what comes after them. -/
theorem runEntries_texts (failed : Bool) (files : List (String × String))
    (later : List (String × Entry)) :
    runEntries failed (files.map textEntry ++ later)
      = let rest := runEntries (failed || anyFails files) later
        { rest with stdout := reports files ++ rest.stdout } := by
  induction files generalizing failed with
  | nil => simp [anyFails, reports]
  | cons file files ih =>
    rw [List.map_cons, List.cons_append, runEntries_text, ih]
    simp [anyFails, reports, Bool.or_assoc, String.append_assoc]

/-! ### A whole suite -/

/-- How the entries of a suite come out, taken in this order. -/
inductive Verdicts (order : List (String × Entry)) (o : Outcome) : Prop
  | whole (files : List (String × String)) (texts : order = files.map textEntry)
      (judged : ∀ file ∈ files, Judged file.1 file.2) (shown : o.stdout = reports files)
      (failure : o.status.code = 1 ↔ ∃ file ∈ files, ¬ Passes file.1 file.2)
      (success : o.status.code = 0 ↔ ∀ file ∈ files, Passes file.1 file.2)
  | broken (files : List (String × String)) (name : String) (entry : Entry)
      (later : List (String × Entry)) (texts : order = files.map textEntry ++ (name, entry) :: later)
      (noText : ∀ source, entry ≠ .file (Text.encode source))
      (judged : ∀ file ∈ files, Judged file.1 file.2)
      (shown : o.stdout = reports files ++ ("Running test: " ++ name ++ " ... "))
      (failure : o.status.code = 1)

theorem verdicts_runEntries (order : List (String × Entry)) :
    Verdicts order (runEntries false order) := by
  have judged (files : List (String × String)) : ∀ file ∈ files, Judged file.1 file.2 :=
    fun file _ => judged_report file.1 file.2
  rcases exists_texts order with ⟨files, rfl⟩ | ⟨files, name, entry, later, rfl, noText⟩
  · have run := runEntries_texts false files []
    rw [List.append_nil] at run
    rw [run]
    refine .whole files rfl (judged files) (String.append_empty ..) ?_ ?_
    · rw [← anyFails_iff]
      cases anyFails files <;> simp [runEntries, Status.code]
    · have none : (∀ file ∈ files, Passes file.1 file.2) ↔ ¬ anyFails files = true := by
        rw [anyFails_iff]
        simp
      rw [none]
      cases anyFails files <;> simp [runEntries, Status.code]
  · obtain ⟨failure, refused⟩ := exists_failure noText
    rw [runEntries_texts, runEntries, refused]
    exact .broken files name entry later rfl noText (judged files) rfl rfl

/-- One name comes before another in the order of their bytes. -/
def Before (a b : String) : Prop := List.Lex (· < ·) (Text.encode a) (Text.encode b)

theorem before_or_eq {a b : String} (h : bytesLE a b) : Before a b ∨ a = b := by
  rcases List.le_iff_lt_or_eq.mp (of_decide_eq_true h) with less | same
  · exact .inl less
  · have read : Text.decode (Text.encode a) = Text.decode (Text.encode b) := congrArg _ same
    rw [Text.decode_encode_text, Text.decode_encode_text] at read
    exact .inr (String.toList_inj.mp (Except.ok.inj read))

theorem pairwise_inOrder (d : Directory) :
    (inOrder d).Pairwise fun a b => Before a.1 b.1 ∨ a.1 = b.1 := by
  have total (a b : String) : (bytesLE a b || bytesLE b a) = true := by
    rw [bytesLE, bytesLE, Bool.or_eq_true, decide_eq_true_eq, decide_eq_true_eq]
    exact List.le_total _ _
  have trans (a b c : String) (first : bytesLE a b) (second : bytesLE b c) : bytesLE a c := by
    rw [bytesLE, decide_eq_true_eq] at *
    exact List.le_trans first second
  have sorted : (inOrder d).Pairwise fun a b => bytesLE a.1 b.1 :=
    List.pairwise_mergeSort (fun a b c => trans a.1 b.1 c.1) (fun a b => total a.1 b.1) d.entries
  exact sorted.imp before_or_eq

/-- The entries of a suite are run once each in the byte order of their names, and what is printed of
a script, pass or failures, depends on that script alone. -/
theorem runSuite_verdicts (d : Directory) :
    ∃ order : List (String × Entry), order.Perm d.entries
      ∧ (order.Pairwise fun a b => Before a.1 b.1 ∨ a.1 = b.1)
      ∧ Verdicts order (runSuite (some d)) :=
  ⟨inOrder d, List.mergeSort_perm _ _, pairwise_inOrder d, verdicts_runEntries (inOrder d)⟩

end Lox.Conformance
