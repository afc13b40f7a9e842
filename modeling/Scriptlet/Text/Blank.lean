/-!
# Blank characters

Two classes of characters that leave no mark: the white space of Unicode (`isSpace`), and all that
counts as blank at the ends of a line (`isBlank`), which are in addition the four information
separators.
-/

namespace Scriptlet.Text

/-- The white space of Unicode. -/
def isSpace (c : Char) : Bool :=
  let n := c.toNat
  (0x09 ≤ n && n ≤ 0x0d) || n == 0x20 || n == 0x85 || n == 0xa0 || n == 0x1680 ||
    (0x2000 ≤ n && n ≤ 0x200a) || n == 0x2028 || n == 0x2029 || n == 0x202f || n == 0x205f ||
    n == 0x3000

/-- White space, and the separators `U+001C` to `U+001F`. -/
def isBlank (c : Char) : Bool := isSpace c || (0x1c ≤ c.toNat && c.toNat ≤ 0x1f)

/-- The text without the characters of a class at its end. -/
def dropRight (p : Char → Bool) (cs : List Char) : List Char := (cs.reverse.dropWhile p).reverse

/-- The text without the characters of a class at both ends. -/
def trim (p : Char → Bool) (cs : List Char) : List Char := dropRight p (cs.dropWhile p)

end Scriptlet.Text
