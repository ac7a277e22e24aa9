import BorrowLang.Report
import BorrowLang.Table
import BorrowLang.Ty.Substitution
import BorrowLang.Syntax.Item

/-! What the bodies of a program may use of its items. -/
namespace BorrowLang

/-- The entry of a key that has to be there. -/
def Table.find {α : Type} (t : Table α) (key : Key) (span : Span) : Result α :=
  match t.get? key with
  | some value => .ok value
  | none => .error (.unresolvedName .item key span)

structure Signature where
  params : Params
  args : List Ty
  ret : Ty

def Function.signature (d : Function) : Signature := ⟨d.params, d.args.map (·.type), d.ret⟩

structure ImplSignature where
  params : Params
  traitPath : Option Path
  selfType : Ty
  methods : List (String × Signature)
  span : Span

/-- The functions among the items are the methods. -/
def ImplBlock.signature (d : ImplBlock) : ImplSignature where
  params := d.params
  traitPath := d.traitPath
  selfType := d.selfType
  methods := d.items.filterMap fun item =>
    match item.member with
    | .function body => some (item.name, body.signature)
    | .const .. | .type _ => none
  span := d.span

def ImplSignature.method? (d : ImplSignature) (name : String) : Option Signature :=
  d.methods.lookup name

abbrev Aliases := Table AliasDef

structure Symbols where
  structs : Table StructDef
  enums : Table EnumDef
  statics : Table Ty
  functions : Table Signature
  aliases : Aliases
  impls : List ImplSignature

namespace Symbols

def empty : Symbols := ⟨[], [], [], [], [], []⟩

mutual

/-- The symbols of a module reached by the names `parents` put on top of those found before. Of
two items of one kind and key the later one counts; traits are found by path and have no entry. -/
def collect (parents : List String) (s : Symbols) : Module → Symbols
  | ⟨_, _, items⟩ => collectItems parents s items

def collectItems (parents : List String) (s : Symbols) : List Item → Symbols
  | [] => s
  | item :: items =>
    let key (name : String) := Key.ofNames (parents ++ [name])
    let s := match item with
      | .function d => { s with functions := s.functions.insert (key d.name) d.signature }
      | .struct d => { s with structs := s.structs.insert (key d.name) d }
      | .enum d => { s with enums := s.enums.insert (key d.name) d }
      | .traitDef _ => s
      | .impl d => { s with impls := s.impls ++ [d.signature] }
      | .static d => { s with statics := s.statics.insert (key d.name) d.type }
      | .typeAlias d => { s with aliases := s.aliases.insert (key d.name) d }
      | .module m => collect (parents ++ [m.name]) s m
    collectItems parents s items

end

end Symbols
end BorrowLang
