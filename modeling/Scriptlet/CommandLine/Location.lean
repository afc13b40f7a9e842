/-!
# Locations of files

A location is a way through directories. It is written with slashes; slashes in a row count as
one, single dots and a slash at the end count for nothing, and the empty way is a dot. A location
that begins with a slash begins at the top; exactly two slashes there are kept. What is found at a
location is bytes, or a reason why there are none.
-/

namespace Scriptlet.CommandLine

/-- A way through directories. -/
structure Location where
  /-- The slashes that it begins with. -/
  root : String
  steps : List String
deriving DecidableEq, Repr

namespace Location

/-- The location that is written so. -/
def ofText (text : String) : Location :=
  let slashes := (text.toList.takeWhile (· == '/')).length
  { root := if slashes = 0 then "" else if slashes = 2 then "//" else "/"
    steps := (text.splitOn "/").filter fun step => step ≠ "" ∧ step ≠ "." }

/-- How a location is written. -/
def text (l : Location) : String :=
  let text := l.root ++ "/".intercalate l.steps
  if text = "" then "." else text

end Location

/-- What is found at a location. -/
inductive Found where
  | bytes (bytes : ByteArray)
  | unreadable (reason : String)

namespace Found

/-- There is nothing there. -/
def missing : Found := unreadable "No such file or directory"

/-- There is a directory there. -/
def directory : Found := unreadable "Is a directory"

/-- The way leads through something that is no directory. -/
def blocked : Found := unreadable "Not a directory"

/-- The way, or the name of a step, is longer than it may be. -/
def overlong : Found := unreadable "File name too long"

end Found

end Scriptlet.CommandLine
