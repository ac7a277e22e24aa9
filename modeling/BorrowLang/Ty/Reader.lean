import BorrowLang.Report
import BorrowLang.Text.Reader

/-!
Types as they are written in a source text: `_`, `()`, scalar names, `&T`, `&mut T`, tuples,
`[T; N]` and paths with arguments in angle brackets.
-/
namespace BorrowLang
namespace Ty
open Text Text.Reader

/-- A list in parentheses; a single item is a tuple only with a comma after it. -/
def ofItems : List Ty → (trailingComma : Bool) → Ty
  | [], _ => unit
  | [t], false => t
  | ts, _ => tuple ts

/-- A path, unless it is a bare name that denotes a wildcard or a scalar. -/
def ofSegments : (absolute : Bool) → List Segment → Ty
  | false, [⟨name, []⟩] =>
    if name = "_" then wildcard
    else match Primitive.ofName? name with
      | some scalar => primitive scalar
      | none => path ⟨false, [⟨name, []⟩], .unbound⟩
  | absolute, segments => path ⟨absolute, segments, .unbound⟩

section
variable (inner : Reader Ty)

/-- After a borrow sign: `mut` and a blank make it unique. -/
def readKind : List Char → BorrowKind × List Char
  | 'm' :: 'u' :: 't' :: c :: cs =>
    if isBlank c then (.unique, skipBlanks cs) else (.shared, 'm' :: 'u' :: 't' :: c :: cs)
  | cs => (.shared, cs)

def readBorrow : Reader Ty
  | '&' :: cs =>
    let (kind, rest) := readKind (skipBlanks cs)
    (inner rest).map fun (t, rest) => (borrow kind t, rest)
  | _ => none

def readItems : List Char → List Ty × List Char := sepBy (spaced (symbol ',')) (spaced inner)

def readTuple : Reader Ty
  | '(' :: cs =>
    let (items, rest) := readItems inner cs
    match spaced (symbol ',') rest with
    | some (_, ')' :: rest) => some (ofItems items true, rest)
    | some _ => none
    | none =>
      match rest with
      | ')' :: rest => some (ofItems items false, rest)
      | _ => none
  | _ => none

/-- A semicolon and a size; text that is not both is left unread. -/
def readSize (cs : List Char) : Option UInt64 × List Char :=
  match spaced (symbol ';') cs with
  | none => (none, cs)
  | some (_, rest) =>
    match spaced size rest with
    | none => (none, cs)
    | some (n, rest) => (some n, rest)

def readArray : Reader Ty
  | '[' :: cs =>
    match spaced inner cs with
    | none => none
    | some (t, rest) =>
      match readSize rest with
      | (size, ']' :: rest) => some (array t size, rest)
      | _ => none
  | _ => none

def readArgs : Reader (List Ty) := fun cs =>
  match spaced (symbol '<') cs with
  | none => none
  | some (_, rest) =>
    match readItems inner rest with
    | (args, '>' :: rest) => some (args, rest)
    | _ => none

/-- A name and its arguments; angle brackets that do not read as arguments are left unread. -/
def readSegment : Reader Segment := fun cs =>
  match name cs with
  | none => none
  | some (name, rest) =>
    match readArgs inner rest with
    | some (args, rest) => some (⟨name, args⟩, rest)
    | none => some (⟨name, []⟩, rest)

def readColons : Reader Unit
  | ':' :: ':' :: cs => some ((), cs)
  | _ => none

/-- Whether the text starts with `::`, and what follows it. -/
def readRoot (cs : List Char) : Bool × List Char :=
  match readColons cs with
  | some (_, rest) => (true, rest)
  | none => (false, cs)

def readPath : Reader Ty := fun cs =>
  let (absolute, rest) := readRoot cs
  match sepBy readColons (readSegment inner) rest with
  | ([], _) => none
  | (segments, rest) => some (ofSegments absolute segments, rest)

end

/-- Types nested at most `n` deep, without blanks in front. -/
def read : (n : Nat) → Reader Ty
  | 0, _ => none
  | n + 1, cs =>
    readBorrow (read n) cs <|> readTuple (read n) cs <|> readArray (read n) cs
      <|> readPath (read n) cs

/-- What is left of a text when it is found not to be a type. -/
def unread (cs : List Char) : List Char :=
  match spaced (read (cs.length + 1)) cs with
  | some (_, rest) => rest
  | none => (readRoot (skipBlanks cs)).2

/-- Each level of nesting takes a character, so the length of the text bounds its depth. -/
def parse? (cs : List Char) : Option Ty :=
  match spaced (read (cs.length + 1)) cs with
  | some (t, []) => some t
  | _ => none

/-- Marks the text from the first character that cannot be read on. -/
def unexpected (source : String) : SyntaxError where
  message := "invalid type `" ++ trim source ++ "`"
  label := "unexpected input"
  span := ⟨source.utf8ByteSize - byteLength (unread source.toList), source.utf8ByteSize⟩
  help? := some "types look like `&mut Name<T>`, `(A, B)`, `[u8; 4]` or `_`"

def parse (source : String) : Except SyntaxError Ty :=
  match parse? source.toList with
  | some t => .ok t
  | none => .error (unexpected source)

example : parse? " &mut (A, [u8; 4]) ".toList =
    some (borrow .unique (tuple [path (Path.bare "A"), array (primitive .u8) (some 4)])) := by rfl
example : parse? "(T)".toList = some (path (Path.bare "T")) := by rfl
example : (parse? "( )".toList).isNone := by rfl

end Ty
end BorrowLang
