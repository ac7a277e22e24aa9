import BorrowLang.Report
import BorrowLang.Proofs.Generics

/-!
Resolving the parameters of a type through a lookup that may refuse a name, against putting in all
of them at once: which names are asked for, in which order, and where the asking stops.
-/
namespace BorrowLang

/-- A computation that asks for parameters: every name asked for is noted, and a name that is refused
ends it. -/
abbrev Asking (α : Type) := ExceptT Error (StateM (List String)) α

namespace Asking
variable {α β : Type}

/-- The result, and the names asked for after those in `asked`. -/
def runFrom (c : Asking α) (asked : List String) : Except Error α × List String := c.run.run asked

@[simp] theorem runFrom_pure (a : α) (asked : List String) :
    runFrom (pure a) asked = (.ok a, asked) := rfl

theorem runFrom_bind (c : Asking α) (f : α → Asking β) (asked : List String) :
    runFrom (c >>= f) asked =
      match c.runFrom asked with
      | (.ok a, later) => (f a).runFrom later
      | (.error e, later) => (.error e, later) := by
  change (StateT.bind c.run (ExceptT.bindCont f)) asked = _
  simp only [StateT.bind, runFrom, StateT.run]
  rcases c.run asked with ⟨r, later⟩
  cases r <;> rfl

end Asking

namespace Substitution

/-- The type that the name stands for; a name that stands for nothing is refused. -/
def ask (s : Substitution) (refuse : String → Error) (name : String) : Asking Ty := do
  modify (· ++ [name])
  match s.get? name with
  | some t => return t
  | none => throw (refuse name)

variable (s : Substitution) (refuse : String → Error)

def Knows (name : String) : Prop := ∃ t, s.get? name = some t

theorem get?_eq_none_of_not_knows {s : Substitution} {name : String} (h : ¬ s.Knows name) :
    s.get? name = none := by
  cases hname : s.get? name with
  | none => rfl
  | some t => exact absurd ⟨t, hname⟩ h

/-- Of names that are not all known, the first unknown one. -/
theorem exists_first_unknown {s : Substitution} {names : List String}
    (h : ¬ ∀ name ∈ names, s.Knows name) : ∃ before name after, names = before ++ name :: after ∧
      (∀ n ∈ before, s.Knows n) ∧ ¬ s.Knows name := by
  induction names with
  | nil => exact absurd (List.forall_mem_nil _) h
  | cons n names ih =>
    by_cases hn : s.Knows n
    · have hnames : ¬ ∀ name ∈ names, s.Knows name := by
        intro hall
        exact h (List.forall_mem_cons.mpr ⟨hn, hall⟩)
      obtain ⟨before, name, after, rfl, hbefore, hname⟩ := ih hnames
      exact ⟨n :: before, name, after, rfl, List.forall_mem_cons.mpr ⟨hn, hbefore⟩, hname⟩
    · exact ⟨[], n, names, rfl, List.forall_mem_nil _, hn⟩

/-- The names are asked for one after the other, up to the first that is refused; where none is, the
result is `a`. -/
structure Asks {α : Type} (names : List String) (c : Asking α) (a : α) : Prop where
  answered : (∀ name ∈ names, s.Knows name) → ∀ asked, c.runFrom asked = (.ok a, asked ++ names)
  refused : ∀ before name after, names = before ++ name :: after → (∀ n ∈ before, s.Knows n) →
    ¬ s.Knows name → ∀ asked, c.runFrom asked = (.error (refuse name), asked ++ (before ++ [name]))

variable {s refuse} {α β : Type} {names more : List String}

theorem asks_pure (a : α) : s.Asks refuse [] (pure a) a where
  answered := by
    intro _ asked
    rw [Asking.runFrom_pure, List.append_nil]
  refused := by
    intro before name after h
    simp at h

/-- What comes after a name that is refused is not asked for. -/
theorem Asks.bind {c : Asking α} {f : α → Asking β} {a : α} {b : β} (h : s.Asks refuse names c a)
    (k : s.Asks refuse more (f a) b) : s.Asks refuse (names ++ more) (c >>= f) b where
  answered := by
    intro hknown asked
    obtain ⟨hnames, hmore⟩ := List.forall_mem_append.mp hknown
    rw [Asking.runFrom_bind, h.answered hnames]
    simp only [k.answered hmore, List.append_assoc]
  refused := by
    intro before name after heq hbefore hname asked
    rw [Asking.runFrom_bind]
    rcases List.append_eq_append_iff.mp heq with ⟨middle, rfl, hmore⟩ | ⟨middle, hnames, hafter⟩
    · -- The name is asked for by what follows, so all names of `c` are known.
      obtain ⟨hnames, hmiddle⟩ := List.forall_mem_append.mp hbefore
      rw [h.answered hnames]
      simp only [k.refused middle name after hmore hmiddle hname, List.append_assoc]
    · cases middle with
      | nil =>
        rw [List.append_nil] at hnames
        subst hnames
        rw [h.answered hbefore]
        simp only [k.refused [] name after hafter.symm (List.forall_mem_nil _) hname,
          List.nil_append, List.append_assoc]
      | cons n middle =>
        obtain ⟨rfl, -⟩ := List.cons.inj hafter
        rw [h.refused before name middle hnames hbefore hname]

theorem Asks.map {c : Asking α} {a : α} (h : s.Asks refuse names c a) (g : α → β) :
    s.Asks refuse names (c >>= fun x => pure (g x)) (g a) := by
  have hbind := h.bind (f := fun x => pure (g x)) (asks_pure (g a))
  rwa [List.append_nil] at hbind

theorem asks_ask (name : String) :
    s.Asks refuse [name] (s.ask refuse name) ((s.get? name).getD (.generic name)) where
  answered := by
    intro hknown asked
    obtain ⟨t, ht⟩ := hknown name (List.mem_singleton_self name)
    simp only [ask, ht, Asking.runFrom_bind, Option.getD_some]
    rfl
  refused := by
    intro before other after heq _ hother asked
    obtain ⟨rfl, hafter⟩ : before = [] ∧ other = name := by
      cases before with
      | nil => exact ⟨rfl, (List.cons.inj heq).1.symm⟩
      | cons n before => simp at heq
    subst hafter
    simp only [ask, get?_eq_none_of_not_knows hother, Asking.runFrom_bind]
    rfl

end Substitution

namespace Ty
variable {s : Substitution} {refuse : String → Error}
open Substitution (Asks asks_pure asks_ask)

mutual

/-- The lookups of a type are those of its parameters, and their answers make it the substituted
type: both walks meet the same parameters in the same order. -/
theorem asks_resolveArgs : ∀ t : Ty,
    s.Asks refuse t.generics (t.resolveArgs (s.ask refuse)) (t.substitute s)
  | wildcard | unit | primitive _ => asks_pure _
  | generic name => asks_ask name
  | borrow kind inner => (asks_resolveArgs inner).map (borrow kind)
  | array inner size => (asks_resolveArgs inner).map (array · size)
  | path ⟨absolute, segments, binding⟩ =>
    (asks_resolveArgsSegments segments).map fun segments => path ⟨absolute, segments, binding⟩
  | tuple items => (asks_resolveArgsAll items).map tuple

theorem asks_resolveArgsAll : ∀ ts : List Ty,
    s.Asks refuse (genericsAll ts) (resolveArgsAll (s.ask refuse) ts) (substituteAll s ts)
  | [] => asks_pure []
  | t :: ts => (asks_resolveArgs t).bind ((asks_resolveArgsAll ts).map (t.substitute s :: ·))

theorem asks_resolveArgsSegments : ∀ segments : List Segment,
    s.Asks refuse (genericsSegments segments) (resolveArgsSegments (s.ask refuse) segments)
      (substituteSegments s segments)
  | [] => asks_pure []
  | ⟨name, args⟩ :: rest =>
    (asks_resolveArgsAll args).bind
      ((asks_resolveArgsSegments rest).map (⟨name, substituteAll s args⟩ :: ·))

end

/-- Resolving succeeds where every parameter of the type stands for something. It then makes the
substitution, and the parameters were asked for as they occur in the type, so those of the types put in
were not. Otherwise the names asked for end with the first that stands for nothing, and its refusal is
the result. -/
theorem resolveArgs_asks_in_order (s : Substitution) (refuse : String → Error) (t : Ty) :
    let resolved := (t.resolveArgs (s.ask refuse)).runFrom []
    ((∃ u, resolved.1 = .ok u) ↔ s.Defines t) ∧
      (s.Defines t → resolved = (.ok (t.substitute s), t.generics)) ∧
      (¬ s.Defines t → ∃ before name after, t.generics = before ++ name :: after ∧
        (∀ n ∈ before, ∃ u, s.get? n = some u) ∧ s.get? name = none ∧
        resolved = (.error (refuse name), before ++ [name])) := by
  intro resolved
  have hasks : s.Asks refuse t.generics (t.resolveArgs (s.ask refuse)) (t.substitute s) :=
    asks_resolveArgs t
  have hdefined (h : s.Defines t) : resolved = (.ok (t.substitute s), t.generics) :=
    hasks.answered h []
  have hmissing (h : ¬ s.Defines t) : ∃ before name after, t.generics = before ++ name :: after ∧
      (∀ n ∈ before, ∃ u, s.get? n = some u) ∧ s.get? name = none ∧
      resolved = (.error (refuse name), before ++ [name]) := by
    obtain ⟨before, name, after, heq, hbefore, hname⟩ := Substitution.exists_first_unknown h
    exact ⟨before, name, after, heq, hbefore, Substitution.get?_eq_none_of_not_knows hname,
      hasks.refused before name after heq hbefore hname []⟩
  refine ⟨⟨?_, ?_⟩, hdefined, hmissing⟩
  · rintro ⟨u, hu⟩
    by_cases h : s.Defines t
    · exact h
    · obtain ⟨before, name, after, -, -, -, hrun⟩ := hmissing h
      rw [hrun] at hu
      contradiction
  · intro h
    exact ⟨t.substitute s, congrArg Prod.fst (hdefined h)⟩

/-- `A` is asked for twice and stands for a type with a parameter; `C` is not reached. -/
example : ((tuple [generic "A", borrow .shared (generic "A"), generic "B", generic "C"]).resolveArgs
    (Substitution.ask [("A", generic "C")] fun name =>
      .unresolvedName .typeParameter name ⟨3, 9⟩)).runFrom [] =
    (.error (.unresolvedName .typeParameter "B" ⟨3, 9⟩), ["A", "A", "B"]) := by
  rfl

end Ty
end BorrowLang
