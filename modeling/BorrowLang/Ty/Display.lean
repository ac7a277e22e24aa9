import BorrowLang.Path

/-! The written form of types, paths and bindings. -/
namespace BorrowLang

def BorrowKind.sigil : BorrowKind → String
  | .shared => "&"
  | .unique => "&mut "

mutual

def Ty.display : Ty → String
  | .wildcard => "_"
  | .unit => "()"
  | .primitive scalar => scalar.name
  | .generic name => name
  | .borrow kind inner => kind.sigil ++ inner.display
  | .path ⟨absolute, segments, _⟩ => (if absolute then "::" else "") ++ displaySegments segments
  | .tuple [item] => "(" ++ item.display ++ ",)"
  | .tuple items => "(" ++ displayAll items ++ ")"
  | .array inner none => "[" ++ inner.display ++ "]"
  | .array inner (some size) => "[" ++ inner.display ++ "; " ++ toString size.toNat ++ "]"

/-- Types separated by commas. -/
def displayAll : List Ty → String
  | [] => ""
  | [t] => t.display
  | t :: ts => t.display ++ ", " ++ displayAll ts

def Segment.display : Segment → String
  | ⟨name, []⟩ => name
  | ⟨name, args⟩ => name ++ "<" ++ displayAll args ++ ">"

/-- Segments separated by `::`. -/
def displaySegments : List Segment → String
  | [] => ""
  | [s] => s.display
  | s :: rest => s.display ++ "::" ++ displaySegments rest

end

def Path.display (p : Path) : String := (Ty.path p).display

def Binding.display : Binding → String
  | .unbound => "nothing"
  | .staticItem key => "static `" ++ key ++ "`"
  | .structType key => "struct `" ++ key ++ "`"
  | .enumType key => "enum `" ++ key ++ "`"
  | .variant enumKey index => "variant #" ++ toString index ++ " of enum `" ++ enumKey ++ "`"
  | .function key => "function `" ++ key ++ "`"
  | .traitItem key => "trait `" ++ key ++ "`"
  | .typeAlias key => "type alias `" ++ key ++ "`"

instance : ToString Ty := ⟨Ty.display⟩
instance : ToString Path := ⟨Path.display⟩
instance : ToString Binding := ⟨Binding.display⟩

example : (Ty.tuple [.borrow .unique (.primitive .u8)]).display = "(&mut u8,)" := by decide
example : (Ty.path ⟨true, [⟨"a", []⟩, ⟨"B", [.unit, .wildcard]⟩], .unbound⟩).display =
    "::a::B<(), _>" := by decide

end BorrowLang
