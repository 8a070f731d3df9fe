/-!
Blank characters: those with the Unicode property White_Space. `trim` takes them off both ends of a
text and `words` splits a text at them.
-/

namespace QubitRouting.Text

def isBlank (c : Char) : Bool :=
  let n := c.toNat
  (9 ≤ n && n ≤ 13) || n = 0x20 || n = 0x85 || n = 0xA0 || n = 0x1680 ||
    (0x2000 ≤ n && n ≤ 0x200A) || n = 0x2028 || n = 0x2029 || n = 0x202F || n = 0x205F || n = 0x3000

def trimLeft (text : List Char) : List Char := text.dropWhile isBlank

def trim (text : List Char) : List Char := (trimLeft (trimLeft text).reverse).reverse

def consRun (separates : Char → Bool) (c : Char) (runs : List (List Char)) : List (List Char) :=
  if separates c then [] :: runs
  else match runs with
    | [] => [[c]]
    | run :: rest => (c :: run) :: rest

/-- The maximal runs of characters that do not satisfy `separates`, the empty ones included. -/
def splitAt (separates : Char → Bool) (text : List Char) : List (List Char) :=
  text.foldr (consRun separates) [[]]

def words (text : List Char) : List (List Char) :=
  (splitAt isBlank text).filter (!·.isEmpty)

/-- The lines of a text; a line break at the very end starts no further line. -/
def lines (text : List Char) : List (List Char) :=
  let runs := splitAt (· = '\n') text
  if runs.getLast? = some [] then runs.dropLast else runs

def lowerCase (text : String) : String := String.ofList (text.toList.map Char.toLower)

end QubitRouting.Text
