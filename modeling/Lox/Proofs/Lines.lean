import Lox.Proofs.Decoding
import Lox.Text.Lines
import Mathlib.Data.List.DropRight
import Mathlib.Data.List.Forall2

/-!
# Cutting into lines and trimming them

`Lines` says what the lines of a sequence are, without saying how they are found; `cut` finds them
(`lines_iff`).  Since no other character has the byte of a newline in its encoding, the lines of an
encoded text are the encoded lines of the text (`cut_encode`).
-/

namespace Lox.Text

/-! ### The lines of a sequence -/

section Cutting

variable {α : Type} {newline : α}

/-- The sequence falls into these lines.  Each ends right after a newline; the last may lack it. -/
inductive Lines (newline : α) : List α → List (List α) → Prop
  | nil : Lines newline [] []
  | last {line} (filled : line ≠ []) (unended : newline ∉ line) : Lines newline line [line]
  | line {body rest lines} (solid : newline ∉ body) (later : Lines newline rest lines) :
      Lines newline (body ++ newline :: rest) ((body ++ [newline]) :: lines)

theorem Lines.newline_notMem_dropLast {s : List α} {lines : List (List α)}
    (h : Lines newline s lines) : ∀ line ∈ lines, newline ∉ line.dropLast := by
  induction h with
  | nil => exact nofun
  | last filled unended =>
    intro line mem
    obtain rfl := List.mem_singleton.mp mem
    exact fun inside => unended (List.dropLast_subset _ inside)
  | line solid later ih =>
    intro line mem
    cases List.mem_cons.mp mem with
    | inl here =>
      rw [here, List.dropLast_concat]
      exact solid
    | inr there => exact ih line there

variable [BEq α]

theorem cut_cons (a : α) (s : List α) :
    cut newline (a :: s) = cutBefore newline a (cut newline s) := rfl

variable [LawfulBEq α]

theorem cutBefore_self (later : List (List α)) :
    cutBefore newline newline later = [newline] :: later := if_pos (BEq.refl newline)

theorem cutBefore_nil {a : α} (differs : newline ≠ a) : cutBefore newline a [] = [[a]] :=
  if_neg (by simpa using Ne.symm differs)

theorem cutBefore_line {a : α} (differs : newline ≠ a) (line : List α) (later : List (List α)) :
    cutBefore newline a (line :: later) = (a :: line) :: later :=
  if_neg (by simpa using Ne.symm differs)

theorem cut_line {body : List α} (solid : newline ∉ body) (rest : List α) :
    cut newline (body ++ newline :: rest) = (body ++ [newline]) :: cut newline rest := by
  induction body with
  | nil => exact cutBefore_self (cut newline rest)
  | cons a body ih =>
    obtain ⟨differs, later⟩ := not_or.mp (mt List.mem_cons.mpr solid)
    rw [List.cons_append, cut_cons, ih later, cutBefore_line differs]
    rfl

theorem cut_last {line : List α} (filled : line ≠ []) (unended : newline ∉ line) :
    cut newline line = [line] := by
  induction line with
  | nil => contradiction
  | cons a line ih =>
    obtain ⟨differs, later⟩ := not_or.mp (mt List.mem_cons.mpr unended)
    cases line with
    | nil => exact cutBefore_nil differs
    | cons b line => rw [cut_cons, ih (List.cons_ne_nil b line) later, cutBefore_line differs]

theorem lines_cut (s : List α) : Lines newline s (cut newline s) := by
  by_cases inside : newline ∈ s
  · obtain ⟨body, rest, rfl, solid⟩ := List.eq_append_cons_of_mem inside
    rw [cut_line solid]
    exact .line solid (lines_cut rest)
  · by_cases filled : s = []
    · rw [filled]
      exact .nil
    · rw [cut_last filled inside]
      exact .last filled inside
termination_by s.length

theorem lines_iff {s : List α} {lines : List (List α)} :
    Lines newline s lines ↔ cut newline s = lines := by
  constructor
  · intro h
    induction h with
    | nil => rfl
    | last filled unended => exact cut_last filled unended
    | line solid later ih => rw [cut_line solid, ih]
  · intro h
    rw [← h]
    exact lines_cut s

theorem splitOn_line {body : List α} (solid : newline ∉ body) (rest : List α) :
    (body ++ newline :: rest).splitOn newline = body :: rest.splitOn newline := by
  rw [List.splitOn_append_cons_self, List.splitOn_eq_singleton solid]
  rfl

/-- A line is what stands between two newlines, with the one after it. -/
theorem Lines.exists_part {s : List α} {lines : List (List α)} (h : Lines newline s lines) :
    ∀ line ∈ lines, ∃ part ∈ s.splitOn newline,
      newline ∉ part ∧ (line = part ∨ line = part ++ [newline]) := by
  induction h with
  | nil => exact nofun
  | @last line filled unended =>
    rw [List.splitOn_eq_singleton unended]
    exact List.forall_mem_singleton.mpr ⟨line, List.mem_singleton_self line, unended, .inl rfl⟩
  | @line body rest lines solid later ih =>
    rw [splitOn_line solid]
    intro line mem
    rcases List.mem_cons.mp mem with here | there
    · exact ⟨body, List.mem_cons_self, solid, .inr here⟩
    · obtain ⟨part, found, rest⟩ := ih line there
      exact ⟨part, List.mem_cons_of_mem body found, rest⟩

end Cutting

/-! ### The lines of an encoded text -/

theorem ofNat_ne_newline {n : Nat} (low : 0x80 ≤ n) (byte : n < 256) :
    (10 : UInt8) ≠ UInt8.ofNat n := by
  intro same
  have number : 10 = (UInt8.ofNat n).toNat := congrArg UInt8.toNat same
  rw [UInt8.toNat_ofNat_of_lt' byte] at number
  omega

theorem eq_newline_of_mem_encodeNumber {n : Nat} (mem : (10 : UInt8) ∈ encodeNumber n) :
    n = 10 := by
  unfold encodeNumber at mem
  -- in a character of more than one byte, every byte is above the newline
  split at mem
  · have number : 10 = (UInt8.ofNat n).toNat := congrArg UInt8.toNat (List.mem_singleton.mp mem)
    rw [UInt8.toNat_ofNat_of_lt' (show n < 256 by omega)] at number
    exact number.symm
  · have follower (k : Nat) : (10 : UInt8) ≠ UInt8.ofNat (k % 64 + 0x80) :=
      ofNat_ne_newline (by omega) (by omega)
    have two : (10 : UInt8) ≠ UInt8.ofNat (n / 64 % 32 + 0xC0) :=
      ofNat_ne_newline (by omega) (by omega)
    have three : (10 : UInt8) ≠ UInt8.ofNat (n / 4096 % 16 + 0xE0) :=
      ofNat_ne_newline (by omega) (by omega)
    have four : (10 : UInt8) ≠ UInt8.ofNat (n / 262144 % 8 + 0xF0) :=
      ofNat_ne_newline (by omega) (by omega)
    split at mem
    · simp only [List.mem_cons, List.not_mem_nil, two, follower, or_false] at mem
    · split at mem
      · simp only [List.mem_cons, List.not_mem_nil, three, follower, or_false] at mem
      · simp only [List.mem_cons, List.not_mem_nil, four, follower, or_false] at mem

theorem newline_notMem_encode {cs : List Char} (h : '\n' ∉ cs) :
    (10 : UInt8) ∉ cs.flatMap String.utf8EncodeChar := by
  intro mem
  obtain ⟨c, inside, byte⟩ := List.mem_flatMap.mp mem
  rw [utf8EncodeChar_eq] at byte
  have same : c = '\n' := Char.toNat_inj.mp (eq_newline_of_mem_encodeNumber byte)
  exact h (same ▸ inside)

theorem encodeChar_newline : String.utf8EncodeChar '\n' = [10] := by decide

theorem Lines.encode {cs : List Char} {lines : List (List Char)} (h : Lines '\n' cs lines) :
    Lines (10 : UInt8) (cs.flatMap String.utf8EncodeChar)
      (lines.map (·.flatMap String.utf8EncodeChar)) := by
  induction h with
  | nil => exact .nil
  | @last line filled unended =>
    refine .last ?_ (newline_notMem_encode unended)
    intro empty
    obtain ⟨c, inside⟩ := List.exists_mem_of_ne_nil line filled
    have none := List.flatMap_eq_nil_iff.mp empty c inside
    exact String.utf8EncodeChar_ne_nil none
  | line solid later ih =>
    rw [List.flatMap_append, List.flatMap_cons, encodeChar_newline, List.map_cons,
      List.flatMap_append, List.flatMap_singleton, encodeChar_newline]
    exact .line (newline_notMem_encode solid) ih

theorem cut_encode (cs : List Char) :
    cut (10 : UInt8) (cs.flatMap String.utf8EncodeChar)
      = (cut '\n' cs).map (·.flatMap String.utf8EncodeChar) :=
  lines_iff.mp (lines_cut cs).encode

/-! ### Trimming a line -/

/-- What is left of a line without all the line ends and carriage returns at its end. -/
structure Trimmed (line body : List Char) : Prop where
  ends : ∃ tail, (∀ c ∈ tail, c = '\r' ∨ c = '\n') ∧ body ++ tail = line
  kept : ∀ c ∈ body.getLast?, c ≠ '\r' ∧ c ≠ '\n'

theorem trimEnd_eq (s : List Char) :
    trimEnd s = s.rdropWhile fun c => c == '\r' || c == '\n' := rfl

theorem trimEnd_append {tail : List Char} (h : ∀ c ∈ tail, c = '\r' ∨ c = '\n')
    (body : List Char) : trimEnd (body ++ tail) = trimEnd body := by
  have ends : ∀ c ∈ tail.reverse, (c == '\r' || c == '\n') = true := by simpa using h
  rw [trimEnd, List.reverse_append, List.dropWhile_append_of_pos ends]
  rfl

theorem trimEnd_eq_self {body : List Char} (kept : ∀ c ∈ body.getLast?, c ≠ '\r' ∧ c ≠ '\n') :
    trimEnd body = body := by
  have stays := List.rdropWhile_eq_self_iff (p := fun c => c == '\r' || c == '\n') (l := body)
  apply stays.mpr
  intro filled
  have last := kept _ (List.getLast?_eq_some_getLast filled)
  simpa using last

theorem trimmed_trimEnd (line : List Char) : Trimmed line (trimEnd line) where
  ends := by
    refine ⟨line.rtakeWhile fun c => c == '\r' || c == '\n', ?_, List.rdropWhile_append_rtakeWhile⟩
    intro c mem
    simpa using List.mem_rtakeWhile_imp mem
  kept := by
    intro c last
    rw [trimEnd_eq] at last
    obtain ⟨filled, rfl⟩ := List.mem_getLast?_eq_getLast last
    have stays := List.rdropWhile_last_not (fun c => c == '\r' || c == '\n') line filled
    simpa using stays

theorem trimmed_iff {line body : List Char} : Trimmed line body ↔ trimEnd line = body := by
  constructor
  · intro h
    obtain ⟨tail, ends, rfl⟩ := h.ends
    rw [trimEnd_append ends, trimEnd_eq_self h.kept]
  · intro h
    rw [← h]
    exact trimmed_trimEnd line

theorem trimEnd_of_newline_notMem {s : List Char} (h : '\n' ∉ s) :
    trimEnd s = s.rdropWhile (· == '\r') := by
  rw [trimEnd_eq]
  induction s using List.reverseRecOn with
  | nil => rfl
  | append_singleton s c ih =>
    rw [List.mem_append, List.mem_singleton, not_or] at h
    rw [List.rdropWhile_concat, List.rdropWhile_concat, ih h.1]
    simp [Ne.symm h.2]

/-! ### Lines without their ends -/

theorem dropLastChar?_eq_some_iff {last : Char} {s body : List Char} :
    dropLastChar? last s = some body ↔ s = body ++ [last] := by
  unfold dropLastChar?
  split
  · next same =>
    obtain ⟨front, rfl⟩ := List.getLast?_eq_some_iff.mp (eq_of_beq same)
    rw [List.dropLast_concat, Option.some.injEq, List.append_cancel_right_eq]
  · next other =>
    apply iff_of_false (by simp)
    intro same
    rw [same, List.getLast?_concat] at other
    exact other (BEq.refl _)

theorem dropLastChar?_of_notMem {last : Char} {s : List Char} (h : last ∉ s) :
    dropLastChar? last s = none := by
  apply if_neg
  intro same
  have found : s.getLast? = some last := eq_of_beq same
  exact h (List.mem_of_getLast? found)

theorem withoutEnd_newline (body : List Char) :
    withoutEnd (body ++ ['\n']) = (dropLastChar? '\r' body).getD body := by
  have ended : dropLastChar? '\n' (body ++ ['\n']) = some body := dropLastChar?_eq_some_iff.mpr rfl
  simp only [withoutEnd, ended]

theorem withoutEnd_crlf (body : List Char) : withoutEnd (body ++ ['\r', '\n']) = body := by
  have ends := withoutEnd_newline (body ++ ['\r'])
  rw [List.append_assoc, dropLastChar?_eq_some_iff.mpr rfl] at ends
  exact ends

theorem withoutEnd_of_notMem {line : List Char} (h : '\n' ∉ line) : withoutEnd line = line := by
  simp only [withoutEnd, dropLastChar?_of_notMem h]

theorem withoutEnd_newline_prefix_body (body : List Char) : withoutEnd (body ++ ['\n']) <+: body := by
  rw [withoutEnd_newline]
  cases returned : dropLastChar? '\r' body with
  | none => exact List.prefix_rfl
  | some rest =>
    rw [dropLastChar?_eq_some_iff.mp returned]
    exact List.prefix_append rest ['\r']

theorem lines_newline {body : List Char} (solid : '\n' ∉ body) (rest : List Char) :
    lines (String.ofList (body ++ '\n' :: rest))
      = String.ofList (withoutEnd (body ++ ['\n'])) :: lines (String.ofList rest) := by
  simp only [lines, String.toList_ofList, cut_line solid, List.map_cons]

theorem lines_last {line : List Char} (filled : line ≠ []) (unended : '\n' ∉ line) :
    lines (String.ofList line) = [String.ofList line] := by
  simp only [lines, String.toList_ofList, cut_last filled unended, List.map_singleton,
    withoutEnd_of_notMem unended]

/-- A text is empty, or one line without its end, or a line and then a shorter text. -/
theorem lines_induction {P : List Char → Prop} (nil : P [])
    (last : ∀ line, line ≠ [] → '\n' ∉ line → P line)
    (line : ∀ body rest, '\n' ∉ body → P rest → P (body ++ '\n' :: rest)) (s : List Char) : P s := by
  have falls : Lines '\n' s (cut '\n' s) := lines_cut s
  generalize cut '\n' s = ls at falls
  induction falls with
  | nil => exact nil
  | last filled unended => exact last _ filled unended
  | line solid later ih => exact line _ _ solid ih

theorem newline_notMem_of_mem_lines {s line : String} (h : line ∈ lines s) :
    '\n' ∉ line.toList := by
  obtain ⟨cs, rfl⟩ : ∃ cs, s = String.ofList cs := ⟨s.toList, s.ofList_toList.symm⟩
  induction cs using lines_induction with
  | nil => cases h
  | last text filled unended =>
    rw [lines_last filled unended] at h
    rw [List.mem_singleton.mp h, String.toList_ofList]
    exact unended
  | line body rest solid ih =>
    rw [lines_newline solid] at h
    rcases List.mem_cons.mp h with rfl | later
    · rw [String.toList_ofList]
      exact fun inside => solid ((withoutEnd_newline_prefix_body body).subset inside)
    · exact ih later

/-- What is read of a line: it goes without its newline, and without one carriage return before
that.  A line without newline keeps its carriage returns. -/
inductive Bare : List Char → List Char → Prop
  | crlf (body) : Bare (body ++ ['\r', '\n']) body
  | newline {body} (plain : body.getLast? ≠ some '\r') : Bare (body ++ ['\n']) body
  | unended {line} (h : '\n' ∉ line) : Bare line line

theorem Bare.eq_withoutEnd {line body : List Char} (h : Bare line body) :
    withoutEnd line = body := by
  cases h with
  | crlf => exact withoutEnd_crlf body
  | newline plain =>
    have kept : dropLastChar? '\r' body = none := if_neg (by simpa using plain)
    rw [withoutEnd_newline, kept, Option.getD_none]
  | unended h => exact withoutEnd_of_notMem h

theorem bare_newline (body : List Char) :
    Bare (body ++ ['\n']) (withoutEnd (body ++ ['\n'])) := by
  by_cases returned : body.getLast? = some '\r'
  · obtain ⟨front, rfl⟩ := List.getLast?_eq_some_iff.mp returned
    rw [List.append_assoc]
    show Bare (front ++ ['\r', '\n']) (withoutEnd (front ++ ['\r', '\n']))
    rw [withoutEnd_crlf]
    exact .crlf front
  · have plain : Bare (body ++ ['\n']) body := .newline returned
    rw [plain.eq_withoutEnd]
    exact plain

theorem Lines.bare_withoutEnd {s : List Char} {lines : List (List Char)} (h : Lines '\n' s lines) :
    ∀ line ∈ lines, Bare line (withoutEnd line) := by
  induction h with
  | nil => exact nofun
  | @last line filled unended =>
    rw [List.forall_mem_singleton, withoutEnd_of_notMem unended]
    exact .unended unended
  | @line body rest lines solid later ih => exact List.forall_mem_cons.mpr ⟨bare_newline body, ih⟩

/-- A text is read as these lines. -/
def ReadAs (text : String) (read : List String) : Prop :=
  ∃ raw, Lines '\n' text.toList raw ∧ List.Forall₂ (fun line r => Bare line r.toList) raw read

theorem readAs_iff {text : String} {read : List String} : ReadAs text read ↔ lines text = read := by
  constructor
  · intro h
    obtain ⟨raw, falls, bare⟩ := h
    rw [lines, lines_iff.mp falls, ← List.forall₂_eq_eq_eq, List.forall₂_map_left_iff]
    refine bare.imp ?_
    intro line r h
    rw [h.eq_withoutEnd, String.ofList_toList]
  · rintro rfl
    have falls : Lines '\n' text.toList (cut '\n' text.toList) := lines_cut text.toList
    refine ⟨_, falls, ?_⟩
    rw [lines, List.forall₂_map_right_iff, List.forall₂_same]
    intro line mem
    rw [String.toList_ofList]
    exact falls.bare_withoutEnd line mem

end Lox.Text
