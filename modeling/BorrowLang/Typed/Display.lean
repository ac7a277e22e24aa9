import BorrowLang.Ty.Display
import BorrowLang.Syntax.Expr

/-!
Expressions whose types are final, and the written form of these types. The size of an array is an
expression, so types and expressions contain each other.
-/
namespace BorrowLang.Typed

/-- How the value of an expression is used by what it is part of. -/
inductive Usage
  | unknown
  | borrow
  | mutate
  | move
deriving DecidableEq

mutual

inductive Ty
  | unit
  | primitive (scalar : Primitive)
  | generic (name : String)
  | path (path : ItemPath)
  | borrow (kind : BorrowKind) (inner : Ty)
  | tuple (items : List Ty)
  | array (inner : Ty) (size : Option Expr)

/-- The key of an item with the arguments of its last segment. -/
structure ItemPath where
  key : Key
  args : List Ty

structure Expr where
  span : Span
  type : Ty
  usage : Usage
  kind : ExprKind

inductive ExprKind
  | block (statements : List Expr) (tail : Option Expr)
  | letIn (name : String) (type : Ty) (value : Option Expr)
  | assign (place value : Expr)
  | ret (value : Option Expr)
  | cond (condition thenBranch : Expr) (elseBranch : Option Expr)
  | matchOn (value : Expr) (arms : List Arm)
  | borrow (kind : BorrowKind) (value : Expr)
  | deref (value : Expr)
  | index (value index : Expr)
  | field (value : Expr) (name : String)
  | localVar (name : String) (slot : Nat)
  | item (path : ItemPath)
  | literal (value : Literal)
  | cast (value : Expr) (target : Ty)
  | tuple (items : List Expr)
  | callPath (path : ItemPath) (args : List Expr)
  | callValue (callee : Expr) (args : List Expr)
  | callMethod (receiver : Expr) (method : String) (args : List Expr)
  | binary (op : BinaryOp) (left right : Expr)

structure Arm where
  guard : Option Expr
  code : Expr

end

/-- The expression denotes a place in memory. -/
def ExprKind.isPlace : ExprKind → Bool
  | .index .. | .localVar .. | .field .. | .deref _ => true
  | _ => false

def Expr.isPlace (e : Expr) : Bool := e.kind.isPlace

mutual

/-- The size of an array is not shown. -/
def Ty.display : Ty → String
  | .unit => "()"
  | .primitive scalar => scalar.name
  | .generic name => name
  | .path ⟨key, []⟩ => key
  | .path ⟨key, args⟩ => key ++ "<" ++ displayAll args ++ ">"
  | .borrow kind inner => kind.sigil ++ inner.display
  | .tuple items => "(" ++ displayAll items ++ ")"
  | .array inner none => "[" ++ inner.display ++ "]"
  | .array inner (some _) => "[" ++ inner.display ++ "; _]"

/-- Types separated by commas. -/
def displayAll : List Ty → String
  | [] => ""
  | [t] => t.display
  | t :: ts => t.display ++ ", " ++ displayAll ts

end

instance : ToString Ty := ⟨Ty.display⟩

example : (Ty.tuple [.path ⟨"::Cell", [.unit]⟩]).display = "(::Cell<()>)" := by decide

end BorrowLang.Typed
