/-!
Readers of a text from its front. A reader that succeeds gives a value and the text that is left.
Blanks separate the parts of a text, white space is trimmed from its ends.
-/
namespace BorrowLang.Text

def isBlank (c : Char) : Bool := c == ' ' || c == '\t' || c == '\r' || c == '\n'

def skipBlanks (cs : List Char) : List Char := cs.dropWhile isBlank

/-- The characters with the property White_Space. -/
def isWhiteSpace (c : Char) : Bool :=
  let n := c.toNat
  (0x9 ≤ n && n ≤ 0xD) || n == 0x20 || n == 0x85 || n == 0xA0 || n == 0x1680
    || (0x2000 ≤ n && n ≤ 0x200A) || n == 0x2028 || n == 0x2029 || n == 0x202F
    || n == 0x205F || n == 0x3000

/-- The text less the white space at both ends. -/
def trim (s : String) : String :=
  String.ofList (((s.toList.dropWhile isWhiteSpace).reverse.dropWhile isWhiteSpace).reverse)

example : trim " \u3000a b\u0085\n" = "a b" := by decide

/-- The number of bytes the text takes. -/
def byteLength (cs : List Char) : Nat := (String.ofList cs).utf8ByteSize

abbrev Reader (α : Type) := List Char → Option (α × List Char)

namespace Reader

def symbol (c : Char) : Reader Unit
  | d :: cs => if c = d then some ((), cs) else none
  | [] => none

/-- With the blanks on both sides skipped. -/
def spaced {α : Type} (r : Reader α) : Reader α :=
  fun cs => (r (skipBlanks cs)).map fun (a, rest) => (a, skipBlanks rest)

/-- As many items as there are, at most `n`, each after a separator. A separator that no item
follows is not read. -/
def sepTail {α : Type} (sep : Reader Unit) (item : Reader α) : Nat → List Char → List α × List Char
  | 0, cs => ([], cs)
  | n + 1, cs =>
    match sep cs with
    | none => ([], cs)
    | some (_, ds) =>
      match item ds with
      | none => ([], cs)
      | some (a, es) =>
        let (as, rest) := sepTail sep item n es
        (a :: as, rest)

/-- The longest list of items with separators between them; it may be empty. -/
def sepBy {α : Type} (sep : Reader Unit) (item : Reader α) (cs : List Char) : List α × List Char :=
  match item cs with
  | none => ([], cs)
  | some (a, ds) =>
    let (as, rest) := sepTail sep item ds.length ds
    (a :: as, rest)

/-- A decimal number below `2 ^ 64`. -/
def size : Reader UInt64 := fun cs =>
  let digits := cs.takeWhile Char.isDigit
  let n := Nat.ofDigitChars 10 digits 0
  if digits = [] ∨ UInt64.size ≤ n then none else some (n.toUInt64, cs.dropWhile Char.isDigit)

def isNameStart (c : Char) : Bool := c.isAlpha || c == '_'

def isNamePart (c : Char) : Bool := c.isAlphanum || c == '_'

/-- An ASCII letter or underscore, then letters, digits and underscores. -/
def name : Reader String
  | c :: cs =>
    if isNameStart c then some (String.ofList (c :: cs.takeWhile isNamePart), cs.dropWhile isNamePart)
    else none
  | [] => none

example : name "ab_1::c".toList = some ("ab_1", "::c".toList) := by decide
example : size "18446744073709551616".toList = none := by decide

end Reader
end BorrowLang.Text
