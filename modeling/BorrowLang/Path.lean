import BorrowLang.Ty.Basic

/-! Item paths: their keys, the names they are made of and their parts. -/
namespace BorrowLang

/-- The key of the item reached from the root by these names. -/
def Key.ofNames (names : List String) : Key := "::" ++ "::".intercalate names

namespace Path

def ofNames (absolute : Bool) (names : List String) : Path :=
  ⟨absolute, names.map (⟨·, []⟩), .unbound⟩

/-- A relative path of one name. -/
def bare (name : String) : Path := ofNames false [name]

def names (p : Path) : List String := p.segments.map (·.name)

/-- The names joined by `::`, with a leading `::` when absolute; arguments do not count. -/
def key (p : Path) : Key :=
  if p.absolute then Key.ofNames p.names else "::".intercalate p.names

def last? (p : Path) : Option Segment := p.segments.getLast?

/-- The arguments of the last segment. -/
def lastArgs (p : Path) : List Ty := (p.last?.map (·.args)).getD []

/-- The path less its last segment, bound to nothing. -/
def parent (p : Path) : Path := ⟨p.absolute, p.segments.dropLast, .unbound⟩

def withLastArgs (p : Path) (args : List Ty) : Path :=
  ⟨p.absolute, p.segments.dropLast ++ (p.last?.map (fun s => ⟨s.name, args⟩)).toList, p.binding⟩

def sameItem (p q : Path) : Bool := p.absolute == q.absolute && p.names == q.names

/-- The name of a relative path of one segment. -/
def soleName? : Path → Option String
  | ⟨false, [s], _⟩ => some s.name
  | _ => none

/-- The name of a relative path of one segment without arguments. -/
def bareName? : Path → Option String
  | ⟨false, [⟨name, []⟩], _⟩ => some name
  | _ => none

@[simp] theorem key_of_absolute {p : Path} (h : p.absolute = true) :
    p.key = Key.ofNames p.names := by simp [key, h]

theorem key_of_relative {p : Path} (h : p.absolute = false) :
    p.key = "::".intercalate p.names := by simp [key, h]

theorem sameItem_iff (p q : Path) :
    p.sameItem q = true ↔ p.absolute = q.absolute ∧ p.names = q.names := by
  simp [sameItem]

theorem key_eq_of_sameItem {p q : Path} (h : p.sameItem q = true) : p.key = q.key := by
  obtain ⟨ha, hn⟩ := (sameItem_iff p q).mp h
  simp [key, ha, hn]

theorem bareName?_eq_some_iff (p : Path) (name : String) :
    p.bareName? = some name ↔ p.absolute = false ∧ p.segments = [⟨name, []⟩] := by
  unfold bareName?
  split
  · simp
  · next h =>
    obtain ⟨absolute, segments, binding⟩ := p
    simp only [reduceCtorEq, false_iff, not_and]
    rintro rfl rfl
    exact h _ _ rfl

example : (ofNames true ["geo", "Point"]).key = "::geo::Point" := by decide
example : (ofNames false ["Point"]).key = "Point" := by decide

end Path
end BorrowLang
