/-!
# Lines

Two ways to cut text into lines.  `cut` keeps the newlines and works on anything that has one, as
`read_line` does: each line ends right after its newline and the last one may lack it.  `lines` is the
view of a reader: a line goes without its newline, and without one carriage return before that newline.
`trimEnd` is `trim_end_matches` for the characters that end a line.
-/

namespace Lox.Text

/-! ### Lines with their newlines -/

variable {α : Type} [BEq α]

def cutBefore (newline a : α) (later : List (List α)) : List (List α) :=
  if a == newline then [a] :: later
  else
    match later with
    | [] => [[a]]
    | line :: later => (a :: line) :: later

/-- The lines of a sequence, each with the `newline` that ends it. -/
def cut (newline : α) (s : List α) : List (List α) := s.foldr (cutBefore newline) []

theorem flatten_cutBefore (newline a : α) (later : List (List α)) :
    (cutBefore newline a later).flatten = a :: later.flatten := by
  unfold cutBefore
  split
  · rfl
  · split <;> rfl

/-- Cutting loses nothing. -/
theorem flatten_cut (newline : α) (s : List α) : (cut newline s).flatten = s := by
  induction s with
  | nil => rfl
  | cons a rest ih =>
    change (cutBefore newline a (cut newline rest)).flatten = a :: rest
    rw [flatten_cutBefore, ih]

/-! ### Lines without their ends -/

def dropLastChar? (last : Char) (s : List Char) : Option (List Char) :=
  if s.getLast? == some last then some s.dropLast else none

/-- A line without its newline and one carriage return before that.  A line without newline stays
as it is. -/
def withoutEnd (line : List Char) : List Char :=
  match dropLastChar? '\n' line with
  | none => line
  | some body => (dropLastChar? '\r' body).getD body

def lines (s : String) : List String :=
  (cut '\n' s.toList).map fun line => String.ofList (withoutEnd line)

def trimEnd (s : List Char) : List Char :=
  (s.reverse.dropWhile fun c => c == '\r' || c == '\n').reverse

end Lox.Text
