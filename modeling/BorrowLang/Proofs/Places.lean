import BorrowLang.Check.Module
import BorrowLang.Proofs.Nodes

/-! Every type and path of a program, with what is in scope where it stands. -/
namespace BorrowLang
namespace Ty

mutual

/-- The paths of the type at every depth, each before those of its arguments. -/
def paths : Ty → List Path
  | wildcard | unit | primitive _ | generic _ => []
  | borrow _ inner | array inner _ => inner.paths
  | path ⟨absolute, segments, binding⟩ => ⟨absolute, segments, binding⟩ :: pathsSegments segments
  | tuple items => pathsAll items

def pathsAll : List Ty → List Path
  | [] => []
  | t :: ts => t.paths ++ pathsAll ts

def pathsSegments : List Segment → List Path
  | [] => []
  | ⟨_, args⟩ :: rest => pathsAll args ++ pathsSegments rest

end

theorem mem_pathsAll {p : Path} {ts : List Ty} : p ∈ pathsAll ts ↔ ∃ t ∈ ts, p ∈ t.paths := by
  induction ts with
  | nil => simp [pathsAll]
  | cons t ts ih => simp [pathsAll, ih]

theorem mem_pathsSegments {p : Path} {segments : List Segment} :
    p ∈ pathsSegments segments ↔ ∃ s ∈ segments, p ∈ pathsAll s.args := by
  induction segments with
  | nil => simp [pathsSegments]
  | cons s rest ih =>
    obtain ⟨_, args⟩ := s
    simp [pathsSegments, ih]

end Ty

/-- The paths of the arguments, at every depth. -/
def Path.argPaths (p : Path) : List Path := Ty.pathsSegments p.segments

theorem Ty.paths_path (p : Path) : (Ty.path p).paths = p :: p.argPaths := by
  obtain ⟨absolute, segments, binding⟩ := p
  rfl

/-- A type or a path, by what it is for. -/
inductive Phrase
  | type (t : Ty)
  /-- A path that has to name an item. -/
  | item (p : Path)
  /-- A path that names an item or a local. -/
  | value (p : Path)
  /-- What is known so far of the type of an expression. -/
  | annotated (t : Ty)
  /-- The type behind a number. -/
  | suffix (t : Ty)

/-- The paths of the phrase at every depth. -/
def Phrase.paths : Phrase → List Path
  | type t | annotated t | suffix t => t.paths
  | item p | value p => p :: p.argPaths

def Literal.phrases : Literal → List Phrase
  | int _ (some t) | float _ (some t) => [.suffix t]
  | int _ none | float _ none | bool _ | char _ | string _ => []

mutual

def Pattern.phrases : Pattern → List Phrase
  | .wildcard _ | .identifier .. => []
  | .literal value _ => value.phrases
  | .tuple items _ => patternPhrases items
  | .reference inner _ => inner.phrases
  | .variant path items _ => .item path :: patternPhrases items
  | .fields path fields _ => .item path :: fieldPatternPhrases fields

def patternPhrases : List Pattern → List Phrase
  | [] => []
  | p :: ps => p.phrases ++ patternPhrases ps

def fieldPatternPhrases : List (String × Pattern) → List Phrase
  | [] => []
  | (_, p) :: rest => p.phrases ++ fieldPatternPhrases rest

end

mutual

def Expr.phrases : Expr → List Phrase
  | ⟨kind, type, _⟩ => .annotated type :: kind.phrases

def ExprKind.phrases : ExprKind → List Phrase
  | .block ⟨statements, tail, traits, aliases⟩ =>
    traits.map .item ++ (aliases.map fun a => .type a.2) ++ exprPhrases statements
      ++ optionPhrases tail
  | .letIn pattern type value => .type type :: pattern.phrases ++ value.phrases
  | .assign place value => place.phrases ++ value.phrases
  | .ret value => optionPhrases value
  | .cond condition thenBranch elseBranch =>
    condition.phrases ++ thenBranch.phrases ++ optionPhrases elseBranch
  | .matchOn value arms => value.phrases ++ armPhrases arms
  | .callPath path args => .item path :: exprPhrases args
  | .callMethod receiver ⟨_, types⟩ args =>
    types.map .type ++ receiver.phrases ++ exprPhrases args
  | .callValue callee args => callee.phrases ++ exprPhrases args
  | .named path => [.value path]
  | .field object _ => object.phrases
  | .index value index => value.phrases ++ index.phrases
  | .deref value => value.phrases
  | .borrow _ value => value.phrases
  | .cast value target => .type target :: value.phrases
  | .tuple items => exprPhrases items
  | .literal value => value.phrases
  | .binary _ left right => left.phrases ++ right.phrases

def optionPhrases : Option Expr → List Phrase
  | none => []
  | some e => e.phrases

def exprPhrases : List Expr → List Phrase
  | [] => []
  | e :: es => e.phrases ++ exprPhrases es

def armPhrases : List Arm → List Phrase
  | [] => []
  | ⟨patterns, guard, code⟩ :: rest =>
    patternPhrases patterns ++ optionPhrases guard ++ code.phrases ++ armPhrases rest

end

def Bound.phrases : Bound → List Phrase
  | .isTrait type traitPath _ => [.type type, .item traitPath]
  | .lifetime type _ => [.type type]

def Params.phrases (params : Params) : List Phrase := params.bounds.flatMap Bound.phrases

def FunctionArg.phrases (a : FunctionArg) : List Phrase := .type a.type :: a.pattern.phrases

def Function.phrases (d : Function) : List Phrase :=
  d.params.phrases ++ d.args.flatMap FunctionArg.phrases ++ .type d.ret :: optionPhrases d.code

def Field.phrases (f : Field) : List Phrase := [.type f.type]

def VariantData.phrases : VariantData → List Phrase
  | .value discriminant => optionPhrases discriminant
  | .tuple types => types.map .type
  | .fields declared => declared.flatMap Field.phrases

def StructDef.phrases (d : StructDef) : List Phrase :=
  d.params.phrases ++ d.fields.flatMap Field.phrases

def EnumDef.phrases (d : EnumDef) : List Phrase :=
  d.params.phrases ++ d.variants.flatMap (·.data.phrases)

def StaticDef.phrases (d : StaticDef) : List Phrase := .type d.type :: d.value.phrases

def AliasDef.phrases (d : AliasDef) : List Phrase := d.params.phrases ++ [.type d.type]

/-- What a bare name may stand for, items apart. -/
structure Scope where
  /-- The type parameters of the items around. -/
  generics : List String
  /-- What `Self` is. -/
  selfType? : Option Ty

namespace Scope

def empty : Scope := ⟨[], none⟩

def withGenerics (scope : Scope) (names : List String) : Scope :=
  { scope with generics := names ++ scope.generics }

def withSelf (scope : Scope) (t : Ty) : Scope := { scope with selfType? := some t }

/-- The path is not the bare name of a type parameter, and not `Self` where that is a type. -/
def Leaves (scope : Scope) (p : Path) : Prop :=
  ∀ name ∈ p.bareName?, name ∉ scope.generics ∧ (name = "Self" → scope.selfType? = none)

end Scope

structure Place where
  scope : Scope
  phrase : Phrase

theorem Place.forall_phrase {R : Phrase → Prop} {phrases : List Phrase} {scope : Scope} :
    (∀ pl ∈ phrases.map (mk scope), R pl.phrase) ↔ ∀ a ∈ phrases, R a := List.forall_mem_map

theorem Place.forall_withGenerics {R : List String → Phrase → Prop} {phrases : List Phrase}
    {names : List String} : (∀ pl ∈ phrases.map (mk (Scope.empty.withGenerics names)),
      R pl.scope.generics pl.phrase) ↔ ∀ a ∈ phrases, R names a := by
  rw [List.forall_mem_map]
  simp [Scope.withGenerics, Scope.empty]

/-- The bounds of the parameters are in their scope. -/
def Function.places (scope : Scope) (d : Function) : List Place :=
  d.phrases.map (.mk (scope.withGenerics d.params.names))

def Member.places (scope : Scope) : Member → List Place
  | .function body => body.places scope
  | .const t value => (Phrase.type t :: value.phrases).map (.mk scope)
  | .type target => [⟨scope, .type target⟩]

def ImplBlock.places (scope : Scope) (d : ImplBlock) : List Place :=
  let scope := scope.withGenerics d.params.names
  (d.params.phrases ++ Phrase.type d.selfType :: d.traitPath.toList.map .item).map (.mk scope)
    ++ d.items.flatMap (·.member.places (scope.withSelf d.selfType))

def TraitDef.places (scope : Scope) (d : TraitDef) : List Place :=
  let scope := scope.withGenerics d.params.names
  d.params.phrases.map (.mk scope) ++ d.methods.flatMap (·.places scope)

mutual

/-- The types and paths of a module, those of nested modules among them. -/
def Module.places : Module → List Place
  | ⟨_, uses, items⟩ => (uses.map .item).map (.mk .empty) ++ itemPlaces items

def Item.places : Item → List Place
  | .function d => d.places .empty
  | .struct d => d.phrases.map (.mk (Scope.empty.withGenerics d.params.names))
  | .enum d => d.phrases.map (.mk (Scope.empty.withGenerics d.params.names))
  | .traitDef d => d.places .empty
  | .impl d => d.places .empty
  | .static d => d.phrases.map (.mk .empty)
  | .typeAlias d => d.phrases.map (.mk (Scope.empty.withGenerics d.params.names))
  | .module m => m.places

def itemPlaces : List Item → List Place
  | [] => []
  | i :: is => i.places ++ itemPlaces is

end

section
variable {implMethods : Bool} {R : List String → Phrase → Prop}

theorem ImplBlock.function_phrases {d : ImplBlock}
    (h : ∀ pl ∈ d.places .empty, R pl.scope.generics pl.phrase) :
    ∀ f ∈ d.items.filterMap (·.function?), ∀ a ∈ f.phrases,
      R (f.params.names ++ d.params.names) a := by
  intro f hf a ha
  obtain ⟨item, hitem, hfunction⟩ := List.mem_filterMap.mp hf
  have hmember : item.member = .function f := by
    unfold ImplItem.function? at hfunction
    split at hfunction
    · next hm => exact hm.trans (congrArg _ (Option.some.inj hfunction))
    all_goals contradiction
  have hitems := List.forall_mem_flatMap.mp (List.forall_mem_append.mp h).2 item hitem
  rw [hmember] at hitems
  have hphrase := List.forall_mem_map.mp hitems a ha
  simpa [Scope.withGenerics, Scope.withSelf, Scope.empty] using hphrase

mutual

/-- What holds of everything written where these parameters are in scope holds of what is written in
a function with these parameters. -/
theorem Module.scopedFunction_phrases : ∀ m : Module,
    (∀ pl ∈ m.places, R pl.scope.generics pl.phrase) → ∀ f ∈ m.scopedFunctions implMethods,
      ∀ a ∈ f.2.phrases, R (f.2.params.names ++ f.1) a
  | ⟨_, _, held⟩, h => itemScopedFunction_phrases held (List.forall_mem_append.mp h).2

theorem Item.scopedFunction_phrases : ∀ i : Item,
    (∀ pl ∈ i.places, R pl.scope.generics pl.phrase) → ∀ f ∈ i.scopedFunctions implMethods,
      ∀ a ∈ f.2.phrases, R (f.2.params.names ++ f.1) a
  | .function d, h => by
    have hphrases := Place.forall_withGenerics.mp h
    exact List.forall_mem_singleton.mpr (by simpa using hphrases)
  | .impl d, h => by
    rw [Item.scopedFunctions]
    split
    · exact List.forall_mem_map.mpr (ImplBlock.function_phrases h)
    · exact List.forall_mem_nil _
  | .module m, h => m.scopedFunction_phrases h
  | .struct _, _ | .enum _, _ | .traitDef _, _ | .static _, _ | .typeAlias _, _ =>
    List.forall_mem_nil _

theorem itemScopedFunction_phrases : ∀ is : List Item,
    (∀ pl ∈ itemPlaces is, R pl.scope.generics pl.phrase) →
      ∀ f ∈ itemScopedFunctions implMethods is, ∀ a ∈ f.2.phrases, R (f.2.params.names ++ f.1) a
  | [], _ => List.forall_mem_nil _
  | i :: is, h => by
    obtain ⟨hi, his⟩ := List.forall_mem_append.mp h
    exact List.forall_mem_append.mpr
      ⟨i.scopedFunction_phrases hi, itemScopedFunction_phrases is his⟩

end

end

/-- What holds of everything written in a module holds of what is written in a function of it. -/
theorem Module.function_phrases {implMethods : Bool} {R : Phrase → Prop} (m : Module)
    (h : ∀ pl ∈ m.places, R pl.phrase) : ∀ d ∈ m.functions implMethods, ∀ a ∈ d.phrases, R a := by
  rw [← m.map_snd_scopedFunctions]
  exact List.forall_mem_map.mpr (m.scopedFunction_phrases (R := fun _ => R) h)

end BorrowLang
