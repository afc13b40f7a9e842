import Scriptlet.Text.Blank

/-!
# Rows of a text, and a picture of a place in it

A row ends with CR LF, with CR alone or with LF alone, and the break belongs to the row that it
ends. The rows of a text put together are the text (`flatten_rows`), and a text that ends in a
break has an empty last row.

A picture of a place is the row that it is in and, below, carets under so many of its characters.
-/

namespace Scriptlet.Text

/-- Cuts a text behind each of its line breaks. -/
def rows : List Char → List (List Char)
  | [] => [[]]
  | '\r' :: '\n' :: rest => ['\r', '\n'] :: rows rest
  | c :: rest =>
    if c = '\n' ∨ c = '\r' then [c] :: rows rest
    else
      match rows rest with
      | [] => [[c]]
      | row :: more => (c :: row) :: more

/-- The rows put together are the text. -/
@[simp] theorem flatten_rows (cs : List Char) : (rows cs).flatten = cs := by
  fun_induction rows cs with
  | case1 => rfl
  | case2 rest ih => simp [ih]
  | case3 c rest _ h ih => simp [ih]
  | case4 c rest _ h hr ih => simp [hr] at ih; simp [← ih]
  | case5 c rest _ h row more hr ih => simp [hr] at ih; simp [ih]

/-- The row that an offset is in, and the place in this row: the last row that starts at or before
the offset. -/
def rowAt : Nat → List (List Char) → List Char × Nat
  | offset, [] => ([], offset)
  | offset, [row] => (row, offset)
  | offset, row :: more =>
    if offset < row.length then (row, offset) else rowAt (offset - row.length) more

/-- Writes every line break of a text as LF. -/
def unifyBreaks : List Char → List Char
  | [] => []
  | '\r' :: '\n' :: rest => '\n' :: unifyBreaks rest
  | c :: rest => (if c = '\r' then '\n' else c) :: unifyBreaks rest

/-- The label of a row: its number with at least one blank before it, in six columns. -/
def rowLabel (number : Nat) : List Char :=
  let digits := ' ' :: (toString number).toList
  List.replicate (6 - digits.length) ' ' ++ digits ++ [' ', '|']

/-- What stands below a text so that the next character comes under the next one: a tab below a
tab and a blank below all else. -/
def underlay (cs : List Char) : List Char := cs.map fun c => if c = '\t' then '\t' else ' '

/-- The row of an offset under a label, and a line that points at `width` of its characters, at
those that are left in the row, and at one at the least. -/
def picture (text : String) (label : List Char) (offset width : Nat) : List String :=
  let (row, column) := rowAt offset (rows text.toList)
  let carets := max 1 (min width (row.length - column))
  [String.ofList (label ++ dropRight isBlank row),
   String.ofList (underlay (label ++ row.take column) ++ List.replicate carets '^') ++ " near here"]

end Scriptlet.Text
