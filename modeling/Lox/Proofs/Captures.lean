import Lox.Conformance.Suite
import Lox.Proofs.Boundary
import Lox.Proofs.Lines

/-!
# What annotations capture

An annotation is looked for as a search for a pattern does it: at the leftmost place in a line where
the pattern fits, which is a mark and a run of characters of one sort, as long as it can be.
`Captures` says so without searching, and `Collected` gathers what the lines of a script have in them.
-/

namespace Lox.Conformance

/-! ### Patterns -/

/-- A mark, and after it a run of allowed characters, at least so many of them. -/
structure Pattern where
  mark : String
  allowed : Char → Bool
  least : Nat

def expectPattern : Pattern := ⟨"// expect: ", fun c => c != '\n', 0⟩

def errorPattern : Pattern := ⟨"// error: ", fun c => c != '\n', 0⟩

def exitPattern : Pattern := ⟨"// exit: ", Text.isDecimalDigit, 1⟩

namespace Pattern

/-- The text begins with the pattern, and this is the run of characters in it. -/
structure Fits (p : Pattern) (text run : List Char) : Prop where
  begins : ∃ rest, text = p.mark.toList ++ (run ++ rest) ∧ ∀ c ∈ rest.head?, p.allowed c = false
  allowed : ∀ c ∈ run, p.allowed c
  long : p.least ≤ run.length

/-- The pattern fits some part of the line, and none that begins further left. -/
structure Captures (p : Pattern) (line run : String) : Prop where
  found : ∃ text, text <:+ line.toList ∧ p.Fits text run.toList
    ∧ ∀ other run', other <:+ line.toList → p.Fits other run' → other.length ≤ text.length

end Pattern

/-- What the relation finds in the members of a list, one thing at most in each of them. -/
inductive Collected {α β : Type} (R : α → β → Prop) : List α → List β → Prop
  | nil : Collected R [] []
  | found {a b as bs} (h : R a b) (later : Collected R as bs) : Collected R (a :: as) (b :: bs)
  | missed {a as bs} (h : ∀ b, ¬ R a b) (later : Collected R as bs) : Collected R (a :: as) bs

section Collected

variable {α β : Type} {R : α → β → Prop} {f : α → Option β} {as : List α} {bs : List β}

theorem collected_filterMap (h : ∀ a ∈ as, ∀ b, f a = some b ↔ R a b) :
    Collected R as (as.filterMap f) := by
  induction as with
  | nil => exact .nil
  | cons a as ih =>
    obtain ⟨here, later⟩ := List.forall_mem_cons.mp h
    cases value : f a with
    | none =>
      have nothing : ∀ b, ¬ R a b := by
        intro b found
        rw [(here b).mpr found] at value
        contradiction
      rw [List.filterMap_cons_none value]
      exact .missed nothing (ih later)
    | some b =>
      rw [List.filterMap_cons_some value]
      exact .found ((here b).mp value) (ih later)

theorem Collected.eq_filterMap (collected : Collected R as bs)
    (h : ∀ a ∈ as, ∀ b, f a = some b ↔ R a b) : as.filterMap f = bs := by
  induction collected with
  | nil => rfl
  | found found _ ih =>
    obtain ⟨here, later⟩ := List.forall_mem_cons.mp h
    rw [List.filterMap_cons_some ((here _).mpr found), ih later]
  | @missed a as bs nothing _ ih =>
    obtain ⟨here, later⟩ := List.forall_mem_cons.mp h
    have value : f a = none := by
      by_contra some
      obtain ⟨b, value⟩ := Option.ne_none_iff_exists'.mp some
      exact nothing b ((here b).mp value)
    rw [List.filterMap_cons_none value, ih later]

theorem collected_iff (h : ∀ a ∈ as, ∀ b, f a = some b ↔ R a b) :
    Collected R as bs ↔ as.filterMap f = bs := by
  constructor
  · intro collected
    exact collected.eq_filterMap h
  · rintro rfl
    exact collected_filterMap h

end Collected

/-! ### The first match -/

section FirstMatch

variable {α : Type} {pattern : List Char → Option α} {text : List Char} {found : α}

theorem firstMatch_eq_none_iff :
    firstMatch pattern text = none ↔ ∀ other, other <:+ text → pattern other = none := by
  induction text with
  | nil => simp [firstMatch]
  | cons c cs ih =>
    simp only [List.suffix_cons_iff, forall_eq_or_imp, ← ih, firstMatch]
    cases pattern (c :: cs) <;> simp

theorem firstMatch_of_some (h : pattern text = some found) : firstMatch pattern text = some found := by
  cases text with
  | nil => exact h
  | cons c cs => simp only [firstMatch, h]

theorem firstMatch_eq_some_iff :
    firstMatch pattern text = some found ↔ ∃ rest, rest <:+ text ∧ pattern rest = some found
      ∧ ∀ other, other <:+ text → rest.length < other.length → pattern other = none := by
  induction text with
  | nil =>
    constructor
    · intro h
      refine ⟨[], List.suffix_rfl, h, ?_⟩
      intro other within longer
      rw [List.suffix_nil.mp within] at longer
      contradiction
    · intro matched
      obtain ⟨rest, within, h, _⟩ := matched
      rwa [List.suffix_nil.mp within] at h
  | cons c cs ih =>
    cases here : pattern (c :: cs) with
    | some value =>
      rw [firstMatch_of_some here]
      constructor
      · rintro ⟨⟩
        refine ⟨c :: cs, List.suffix_rfl, here, ?_⟩
        intro other within longer
        exact absurd within.length_le (Nat.not_le.mpr longer)
      · intro matched
        obtain ⟨rest, within, h, leftmost⟩ := matched
        rcases List.suffix_cons_iff.mp within with rfl | later
        · exact here.symm.trans h
        · have none := leftmost _ List.suffix_rfl (Nat.lt_succ_of_le later.length_le)
          rw [none] at here
          contradiction
    | none =>
      have next : firstMatch pattern (c :: cs) = firstMatch pattern cs := by
        simp only [firstMatch, here]
      rw [next, ih]
      constructor
      · intro matched
        obtain ⟨rest, within, h, leftmost⟩ := matched
        refine ⟨rest, within.trans (List.suffix_cons c cs), h, ?_⟩
        intro other within longer
        rcases List.suffix_cons_iff.mp within with rfl | later
        · exact here
        · exact leftmost other later longer
      · intro matched
        obtain ⟨rest, within, h, leftmost⟩ := matched
        rcases List.suffix_cons_iff.mp within with rfl | later
        · rw [here] at h
          contradiction
        · refine ⟨rest, later, h, ?_⟩
          intro other within longer
          exact leftmost other (within.trans (List.suffix_cons c cs)) longer

end FirstMatch

/-! ### Searching for the patterns -/

theorem afterMark_eq_some_iff {mark text rest : List Char} :
    afterMark mark text = some rest ↔ text = mark ++ rest := by
  unfold afterMark
  split
  · next begins =>
    obtain ⟨tail, rfl⟩ := List.isPrefixOf_iff_prefix.mp begins
    rw [List.drop_left, Option.some.injEq, List.append_cancel_left_eq]
  · next other =>
    apply iff_of_false nofun
    rintro rfl
    exact other (List.isPrefixOf_iff_prefix.mpr (List.prefix_append mark rest))

/-- On a single line the run after the mark is all that is left. -/
theorem fits_line {mark : String} {text run : List Char} (single : '\n' ∉ text) :
    (Pattern.mk mark (fun c => c != '\n') 0).Fits text run ↔ afterMark mark.toList text = some run := by
  rw [afterMark_eq_some_iff]
  constructor
  · intro fits
    obtain ⟨⟨rest, rfl, stops⟩, _, _⟩ := fits
    cases rest with
    | nil => rw [List.append_nil]
    | cons c rest =>
      have newline : c = '\n' := by simpa using stops c rfl
      simp [newline] at single
  · rintro rfl
    refine ⟨⟨[], by rw [List.append_nil], nofun⟩, ?_, Nat.zero_le _⟩
    intro c mem
    have other : c ≠ '\n' := fun same => single (same ▸ List.mem_append_right _ mem)
    simpa using other

theorem exitDigits?_mark (rest : List Char) :
    exitDigits? (exitMark.toList ++ rest)
      = if (rest.takeWhile Text.isDecimalDigit).isEmpty then none
        else some (rest.takeWhile Text.isDecimalDigit) := by
  have marked : afterMark exitMark.toList (exitMark.toList ++ rest) = some rest :=
    afterMark_eq_some_iff.mpr rfl
  simp only [exitDigits?, marked]

theorem exists_rest_of_exitDigits? {text run : List Char} (h : exitDigits? text = some run) :
    ∃ rest, text = exitMark.toList ++ rest := by
  unfold exitDigits? at h
  split at h
  · contradiction
  · next rest marked => exact ⟨rest, afterMark_eq_some_iff.mp marked⟩

theorem fits_exit {text run : List Char} :
    exitPattern.Fits text run ↔ exitDigits? text = some run := by
  constructor
  · intro fits
    obtain ⟨⟨rest, rfl, stops⟩, digits, long⟩ := fits
    have filled : run ≠ [] := List.length_pos_iff.mp long
    have taken : (run ++ rest).takeWhile Text.isDecimalDigit = run :=
      Lexical.takeWhile_run digits stops
    show exitDigits? (exitMark.toList ++ (run ++ rest)) = some run
    rw [exitDigits?_mark, taken, if_neg (by simpa using filled)]
  · intro h
    obtain ⟨rest, rfl⟩ := exists_rest_of_exitDigits? h
    rw [exitDigits?_mark] at h
    split at h
    · contradiction
    · next filled =>
      obtain rfl := Option.some.inj h
      have parts := List.takeWhile_append_dropWhile (p := Text.isDecimalDigit) (l := rest)
      refine ⟨⟨rest.dropWhile Text.isDecimalDigit, ?_, Lexical.head?_dropWhile_run⟩, ?_, ?_⟩
      · rw [parts]
        rfl
      · exact List.all_eq_true.mp List.all_takeWhile
      · exact List.length_pos_iff.mpr (by simpa using filled)

/-- A search finds the run just where the pattern captures it, for what fits it is what is read. -/
theorem captures_iff {p : Pattern} {read : List Char → Option (List Char)} {line run : String}
    (fits : ∀ text run, text <:+ line.toList → (p.Fits text run ↔ read text = some run)) :
    p.Captures line run ↔ firstMatch read line.toList = some run.toList := by
  rw [firstMatch_eq_some_iff]
  constructor
  · intro captured
    obtain ⟨text, within, found, leftmost⟩ := captured
    refine ⟨text, within, (fits _ _ within).mp found, ?_⟩
    intro other inside longer
    by_contra some
    obtain ⟨run', value⟩ := Option.ne_none_iff_exists'.mp some
    have shorter := leftmost other run' inside ((fits _ _ inside).mpr value)
    omega
  · intro matched
    obtain ⟨text, within, found, leftmost⟩ := matched
    refine ⟨text, within, (fits _ _ within).mpr found, ?_⟩
    intro other run' inside found'
    by_contra longer
    have none := leftmost other inside (Nat.not_le.mp longer)
    rw [(fits _ _ inside).mp found'] at none
    contradiction

theorem map_ofList_eq_some_iff {o : Option (List Char)} {run : String} :
    o.map String.ofList = some run ↔ o = some run.toList := by
  rw [Option.map_eq_some_iff]
  constructor
  · intro same
    obtain ⟨cs, rfl, rfl⟩ := same
    rw [String.toList_ofList]
  · rintro rfl
    exact ⟨run.toList, rfl, run.ofList_toList⟩

theorem remark?_eq_some_iff {mark line run : String} (single : '\n' ∉ line.toList) :
    remark? mark line = some run
      ↔ (Pattern.mk mark (fun c => c != '\n') 0).Captures line run := by
  rw [remark?, map_ofList_eq_some_iff, captures_iff]
  intro text run within
  exact fits_line fun inside => single (within.subset inside)

theorem exitRemark?_eq_some_iff {line run : String} :
    (exitRemark? line).map String.ofList = some run ↔ exitPattern.Captures line run := by
  rw [exitRemark?, map_ofList_eq_some_iff, captures_iff]
  exact fun text run _ => fits_exit

/-! ### What a script asks for -/

/-- The code that digits stand for, if it is one that a process can have. -/
structure Stands (digits : String) (code : Nat) : Prop where
  ascii : ∀ c ∈ digits.toList, '0' ≤ c ∧ c ≤ '9'
  value : code = Nat.ofDigitChars 10 digits.toList 0
  small : code < 2147483648

/-- The last of the captured codes counts; without one, or if it stands for none, zero is asked for. -/
inductive Asks : List String → Nat → Prop
  | last {before digits code} (h : Stands digits code) : Asks (before ++ [digits]) code
  | zero {codes} (h : ∀ before digits code, codes = before ++ [digits] → ¬ Stands digits code) :
      Asks codes 0

theorem exitCode?_eq_some_iff {digits : String} {code : Nat} :
    exitCode? digits.toList = some code ↔ Stands digits code := by
  have ascii : digits.toList.all Char.isDigit ↔ ∀ c ∈ digits.toList, '0' ≤ c ∧ c ≤ '9' := by
    simp only [List.all_eq_true, Lexical.isDigit_iff]
  unfold exitCode?
  split
  · next all =>
    dsimp only
    split
    · next small =>
      constructor
      · rintro ⟨⟩
        exact ⟨ascii.mp all, rfl, Nat.lt_succ_of_le small⟩
      · intro stands
        obtain ⟨_, rfl, _⟩ := stands
        rfl
    · next large =>
      apply iff_of_false nofun
      intro stands
      obtain ⟨_, rfl, small⟩ := stands
      exact large (Nat.le_of_lt_succ small)
  · next other => exact iff_of_false nofun fun stands => other (ascii.mpr stands.ascii)

theorem Asks.eq_getLast {codes : List String} {code : Nat} (h : Asks codes code) :
    code = (codes.getLast?.bind fun digits => exitCode? digits.toList).getD 0 := by
  cases h with
  | last h => rw [List.getLast?_concat, Option.bind_some, exitCode?_eq_some_iff.mpr h, Option.getD_some]
  | zero h =>
    have none : codes.getLast?.bind (fun digits => exitCode? digits.toList) = none := by
      by_contra some
      obtain ⟨code, value⟩ := Option.ne_none_iff_exists'.mp some
      obtain ⟨digits, last, stands⟩ := Option.bind_eq_some_iff.mp value
      obtain ⟨before, rfl⟩ := List.getLast?_eq_some_iff.mp last
      exact h before digits code rfl (exitCode?_eq_some_iff.mp stands)
    rw [none, Option.getD_none]

theorem asks_getLast (codes : List String) :
    Asks codes ((codes.getLast?.bind fun digits => exitCode? digits.toList).getD 0) := by
  cases last : codes.getLast?.bind fun digits => exitCode? digits.toList with
  | none =>
    refine .zero ?_
    rintro before digits code rfl stands
    rw [List.getLast?_concat, Option.bind_some, exitCode?_eq_some_iff.mpr stands] at last
    contradiction
  | some code =>
    obtain ⟨digits, final, stands⟩ := Option.bind_eq_some_iff.mp last
    obtain ⟨before, rfl⟩ := List.getLast?_eq_some_iff.mp final
    exact .last (exitCode?_eq_some_iff.mp stands)

/-- What the annotations of a script ask for: the lines of the two streams, and the exit code. -/
structure Wants (source : String) (output errors : List String) (exit : Nat) : Prop where
  output : Collected expectPattern.Captures (Text.lines source) output
  errors : Collected errorPattern.Captures (Text.lines source) errors
  exit : ∃ codes, Collected exitPattern.Captures (Text.lines source) codes ∧ Asks codes exit

theorem collected_remarks_iff {source : String} {mark : String} {remarks : List String} :
    Collected (Pattern.mk mark (fun c => c != '\n') 0).Captures (Text.lines source) remarks
      ↔ (Text.lines source).filterMap (remark? mark) = remarks := by
  apply collected_iff
  intro line mem run
  exact remark?_eq_some_iff (Text.newline_notMem_of_mem_lines mem)

theorem collected_codes_iff {source : String} {codes : List String} :
    Collected exitPattern.Captures (Text.lines source) codes
      ↔ (Text.lines source).filterMap (fun line => (exitRemark? line).map String.ofList) = codes :=
  collected_iff fun _ _ _ => exitRemark?_eq_some_iff

theorem exit_expectation (source : String) :
    (expectation source).exit
      = ((((Text.lines source).filterMap fun line => (exitRemark? line).map String.ofList).getLast?).bind
        fun digits => exitCode? digits.toList).getD 0 := by
  have codes : (Text.lines source).filterMap (fun line => (exitRemark? line).map String.ofList)
      = ((Text.lines source).filterMap exitRemark?).map String.ofList := by
    rw [List.map_filterMap]
  rw [codes, List.getLast?_map, Option.bind_map]
  simp only [expectation, Function.comp_def, String.toList_ofList]

theorem wants_iff {source : String} {output errors : List String} {exit : Nat} :
    Wants source output errors exit ↔ expectation source = ⟨output, errors, exit⟩ := by
  constructor
  · intro wants
    obtain ⟨output, errors, codes, found, asks⟩ := wants
    have code := exit_expectation source
    rw [collected_codes_iff.mp found, ← asks.eq_getLast] at code
    rw [← code, ← collected_remarks_iff.mp output, ← collected_remarks_iff.mp errors]
    rfl
  · intro same
    have code := exit_expectation source
    rw [same] at code
    refine ⟨?_, ?_, _, collected_codes_iff.mpr rfl, ?_⟩
    · exact collected_remarks_iff.mpr (congrArg Expectation.output same)
    · exact collected_remarks_iff.mpr (congrArg Expectation.errors same)
    · rw [show exit = _ from code]
      exact asks_getLast _

end Lox.Conformance
