import BorrowLang.Report
import BorrowLang.Path

/-! Literals, patterns and expressions. Every expression carries the type found for it so far. -/
namespace BorrowLang

inductive Literal
  | int (value : Nat) (suffix : Option Ty)
  /-- The value by its IEEE 754 bits. -/
  | float (bits : UInt64) (suffix : Option Ty)
  | bool (value : Bool)
  | char (value : Char)
  | string (value : String)

/-- A number without a suffix may have any type. -/
def Literal.type : Literal → Ty
  | int _ suffix | float _ suffix => suffix.getD .wildcard
  | bool _ => .primitive .bool
  | char _ => .primitive .char
  | string _ => .borrow .shared (.primitive .str)

inductive BinaryOp
  | add | sub | mul | div | rem
  | and | or
  | bitAnd | bitOr | bitXor
  | eq | notEq | lt | ltEq | gt | gtEq
deriving DecidableEq

/-- Logical operators and comparisons. -/
def BinaryOp.yieldsBool : BinaryOp → Bool
  | add | sub | mul | div | rem | bitAnd | bitOr | bitXor => false
  | and | or | eq | notEq | lt | ltEq | gt | gtEq => true

inductive Pattern
  | wildcard (span : Span)
  | identifier (name : String) (mutability : Mutability) (span : Span)
  | literal (value : Literal) (span : Span)
  | tuple (items : List Pattern) (span : Span)
  | reference (inner : Pattern) (span : Span)
  | variant (path : Path) (items : List Pattern) (span : Span)
  | fields (path : Path) (fields : List (String × Pattern)) (span : Span)

mutual

structure Expr where
  kind : ExprKind
  type : Ty
  span : Span

inductive ExprKind
  | block (body : Block)
  | letIn (pattern : Pattern) (type : Ty) (value : Expr)
  | assign (place value : Expr)
  | ret (value : Option Expr)
  | cond (condition thenBranch : Expr) (elseBranch : Option Expr)
  | matchOn (value : Expr) (arms : List Arm)
  | callPath (path : Path) (args : List Expr)
  | callMethod (receiver : Expr) (method : Segment) (args : List Expr)
  | callValue (callee : Expr) (args : List Expr)
  | named (path : Path)
  | field (object : Expr) (name : String)
  | index (value index : Expr)
  | deref (value : Expr)
  | borrow (kind : BorrowKind) (value : Expr)
  | cast (value : Expr) (target : Ty)
  | tuple (items : List Expr)
  | literal (value : Literal)
  | binary (op : BinaryOp) (left right : Expr)

/-- Traits and aliases are visible from the start of the block. -/
structure Block where
  statements : List Expr
  tail : Option Expr
  traits : List Path
  aliases : List (String × Ty)

structure Arm where
  patterns : List Pattern
  guard : Option Expr
  code : Expr

end

/-- The expression dereferenced `n` times, each layer typed one reference less than what it
dereferences. -/
def Expr.derefTimes : Nat → Expr → Expr
  | 0, e => e
  | n + 1, e => derefTimes n ⟨.deref e, e.type.peel, e.span⟩

end BorrowLang
