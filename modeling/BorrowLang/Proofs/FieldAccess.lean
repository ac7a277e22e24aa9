import BorrowLang.Proofs.MethodSearch
import BorrowLang.Proofs.VariantTypes

/-!
The access of a field of a value. Nothing is done about it as long as the type of the value is not
known; then the value is dereferenced as often as there are references around its struct.
-/
namespace BorrowLang

namespace Substitution

/-- Each parameter stands for the argument at its place, and for a wildcard where there is none; of a
name that is listed twice the last place counts. -/
theorem get?_ofArgs_of_getElem? {names : List String} {args : List Ty} {i : Nat} {name : String}
    (hname : names[i]? = some name) (hlast : name ∉ names.drop (i + 1)) :
    (ofArgs names args).get? name = some (args[i]?.getD .wildcard) := by
  induction names generalizing args i with
  | nil => contradiction
  | cons n names ih =>
    have hsplit : ofArgs (n :: names) args =
        ofArgs names args.tail ++ [(n, args[0]?.getD .wildcard)] := by
      cases args <;> simp [ofArgs, pad]
    rw [hsplit, get?_append]
    cases i with
    | zero =>
      obtain rfl := Option.some.inj hname
      have hlater : get? (ofArgs names args.tail) n = none := by
        apply get?_eq_none
        rw [ofArgs, List.map_reverse, map_fst_pad, List.mem_reverse]
        exact hlast
      rw [hlater, Option.none_or, get?_cons, if_pos rfl]
    | succ i =>
      rw [ih hname hlast, Option.some_or, List.getElem?_tail]

end Substitution

namespace Ty

theorem derefs?_layers (t : Ty) : t.derefs? t.layers = some t.stripped := by
  rw [← getElem?_derefChain, ← getLast?_derefChain, List.getLast?_eq_getElem?, length_derefChain,
    Nat.add_sub_cancel]

/-- What is behind references and is none itself is behind all of them. -/
theorem eq_stripped_of_derefs? {n : Nat} {t u : Ty} (h : t.derefs? n = some u)
    (hu : u.pointee? = none) : n = t.layers ∧ u = t.stripped := by
  induction n generalizing t with
  | zero =>
    obtain rfl := Option.some.inj h
    cases t with
    | borrow kind inner => contradiction
    | _ => exact ⟨rfl, rfl⟩
  | succ n ih =>
    cases t with
    | borrow kind inner =>
      obtain ⟨hn, hstripped⟩ := ih h
      exact ⟨congrArg (· + 1) hn, hstripped⟩
    | _ => contradiction

end Ty

namespace Symbols

/-- The path is bound to a struct, and the first of its fields of the name has the type `u` under the
arguments of the path. -/
inductive HasField (s : Symbols) (p : Path) (name : String) (u : Ty) : Prop
  | mk {key : Key} {d : StructDef} {before after : List Field} {f : Field} :
    p.binding = .structType key → s.structs.get? key = some d → d.fields = before ++ f :: after →
    (∀ g ∈ before, g.name ≠ name) → f.name = name →
    f.type.substitute (.ofArgs d.params.names p.lastArgs) = u → HasField s p name u

/-- The path is bound to a struct that is not among the symbols. -/
def Dangles (s : Symbols) (p : Path) (key : Key) : Prop :=
  p.binding = .structType key ∧ s.structs.get? key = none

variable {s : Symbols} {t u : Ty} {p : Path} {n : Nat} {key : Key} {name : String} {span : Span}

theorem fieldType_of_get? {d : StructDef} (hd : s.structs.get? key = some d) (args : List Ty)
    (name : String) (span : Span) : s.fieldType key args name span =
      match d.fields.find? (·.name == name) with
      | some f => .ok (f.type.substitute (.ofArgs d.params.names args))
      | none => .error (.unresolvedMember ("no field `" ++ name ++ "` on `" ++ key ++ "`") span) := by
  rw [fieldType, Table.find, hd]
  rfl

theorem hasField_iff (hb : p.binding = .structType key) (span : Span) :
    s.HasField p name u ↔ s.fieldType key p.lastArgs name span = .ok u := by
  constructor
  · rintro @⟨_, d, before, after, f, hb', hd, hfields, hbefore, hname, rfl⟩
    cases hb.symm.trans hb'
    have hfirst : d.fields.find? (·.name == name) = some f :=
      List.find?_eq_some_iff_append.mpr
        ⟨beq_iff_eq.mpr hname, before, after, hfields, by simpa using hbefore⟩
    rw [fieldType_of_get? hd, hfirst]
  · intro h
    obtain ⟨d, hd, -⟩ := Result.bind_eq_ok.mp h
    rw [Table.find_eq_ok] at hd
    rw [fieldType_of_get? hd] at h
    split at h
    · next f hf =>
      obtain ⟨hname, before, after, hfields, hbefore⟩ := List.find?_eq_some_iff_append.mp hf
      exact .mk hb hd hfields (by simpa using hbefore) (beq_iff_eq.mp hname) (Except.ok.inj h)
    · contradiction

theorem memberType_eq (h : t.derefs? n = some (.path p)) (hb : p.binding = .structType key) :
    s.memberType t name span = s.fieldType key p.lastArgs name span := by
  rw [memberType, ← (Ty.eq_stripped_of_derefs? h rfl).2]
  dsimp only
  rw [hb]

theorem memberType_of_hasField (h : t.derefs? n = some (.path p)) (hf : s.HasField p name u) :
    s.memberType t name span = .ok u := by
  have hfield := hf
  obtain ⟨hb, -⟩ := hf
  rw [memberType_eq h hb]
  exact (hasField_iff hb span).mp hfield

theorem memberType_of_dangles (h : t.derefs? n = some (.path p)) (hp : s.Dangles p key) :
    s.memberType t name span = .error (.unresolvedName .item key span) := by
  obtain ⟨hb, hnone⟩ := hp
  rw [memberType_eq h hb, fieldType, Table.find, hnone]
  rfl

theorem memberType_of_none (span : Span)
    (hfield : ∀ p, t.stripped = .path p → ∀ u, ¬ s.HasField p name u)
    (hdangles : ∀ p, t.stripped = .path p → ∀ key, ¬ s.Dangles p key) :
    ∃ message, s.memberType t name span = .error (.unresolvedMember message span) := by
  unfold memberType
  split
  · next p hp =>
    split
    · next key hb =>
      cases hd : s.structs.get? key with
      | none => exact absurd ⟨hb, hd⟩ (hdangles p hp key)
      | some d =>
        have hspec := fieldType_of_get? hd p.lastArgs name span
        cases hf : d.fields.find? (·.name == name) with
        | some f =>
          rw [hf] at hspec
          exact absurd ((hasField_iff hb span).mpr hspec) (hfield p hp _)
        | none =>
          rw [hf] at hspec
          exact ⟨_, hspec⟩
    · exact ⟨_, rfl⟩
  · exact ⟨_, rfl⟩

end Symbols

namespace Check
variable {env : Env} {object visited : Expr} {frames mid : Frames}

section
variable (h : (expr env object object.type).run frames = (.ok visited, mid)) (name : String)
  (own expected : Ty) (span : Span)
include h

theorem run_field_of_unknown (hunknown : visited.type.isConcrete = false) :
    (expr env ⟨.field object name, own, span⟩ expected).run frames =
      (.ok ⟨.field visited name, expected, span⟩, mid) := by
  simp only [expr, exprKind, run_bind, h, hunknown, Bool.not_false, if_true, run_pure]

/-- What is left to do once the object is checked changes no frames. -/
theorem run_field_of_known (hknown : visited.type.isConcrete = true) :
    (expr env ⟨.field object name, own, span⟩ expected).run frames =
      (do
        let u ← env.symbols.memberType visited.type name span
        let t ← expected.mergeAt u span
        return ⟨.field (visited.derefTimes visited.type.layers) name, t, span⟩, mid) := by
  simp only [expr, exprKind, run_bind, h, hknown, Bool.not_true, Bool.false_eq_true, if_false,
    merge, run_ofResult]
  cases env.symbols.memberType visited.type name span with
  | error e => rfl
  | ok u =>
    simp only [bind, Except.bind]
    cases expected.mergeAt u span <;> rfl

end

/-- The outcome of the access of a field of an object of known type. -/
structure AccessesField (s : Symbols) (visited : Expr) (name : String) (expected : Ty) (span : Span)
    (result : Result Expr) : Prop where
  /-- As many dereferences around the object as there are references around its struct. -/
  found : ∀ {n p u t}, visited.type.derefs? n = some (.path p) → s.HasField p name u →
    expected.mergeAt u span = .ok t →
      ∃ outer, visited.Dereferenced n outer ∧ result = .ok ⟨.field outer name, t, span⟩
  conflict : ∀ {n p u e}, visited.type.derefs? n = some (.path p) → s.HasField p name u →
    expected.mergeAt u span = .error e → result = .error e
  dangling : ∀ {n p key}, visited.type.derefs? n = some (.path p) → s.Dangles p key →
    result = .error (.unresolvedName .item key span)
  /-- Types that are no structs, and structs without the field. -/
  missing : (∀ {n p}, visited.type.derefs? n = some (.path p) →
      (∀ u, ¬ s.HasField p name u) ∧ ∀ key, ¬ s.Dangles p key) →
    ∃ message, result = .error (.unresolvedMember message span)

theorem accessesField (s : Symbols) (visited : Expr) (name : String) (expected : Ty) (span : Span) :
    AccessesField s visited name expected span (do
      let u ← s.memberType visited.type name span
      let t ← expected.mergeAt u span
      return ⟨.field (visited.derefTimes visited.type.layers) name, t, span⟩) where
  found hp hu ht := by
    obtain ⟨rfl, -⟩ := Ty.eq_stripped_of_derefs? hp rfl
    refine ⟨_, Expr.dereferenced_derefTimes le_rfl, ?_⟩
    rw [Symbols.memberType_of_hasField hp hu]
    exact Result.bind_eq_ok.mpr ⟨_, rfl, Result.bind_eq_ok.mpr ⟨_, ht, rfl⟩⟩
  conflict hp hu he := by
    rw [Symbols.memberType_of_hasField hp hu]
    exact Result.bind_eq_error.mpr (.inr ⟨_, rfl, Result.bind_eq_error.mpr (.inl he)⟩)
  dangling hp hdangles := by
    rw [Symbols.memberType_of_dangles hp hdangles]
    rfl
  missing hno := by
    have hstripped (p : Path) (hp : visited.type.stripped = .path p) :
        visited.type.derefs? visited.type.layers = some (.path p) :=
      hp ▸ Ty.derefs?_layers visited.type
    obtain ⟨message, hmessage⟩ := Symbols.memberType_of_none span
      (fun p hp => (hno (hstripped p hp)).1) (fun p hp => (hno (hstripped p hp)).2)
    rw [hmessage]
    exact ⟨message, rfl⟩

/-- Once its object is checked, the access of a field waits until the type of the object is known.
Then it is the field of the struct behind all references, each of which is removed, with the arguments
that are given for the parameters of the struct; what has no such field is refused. -/
theorem field_access : (∀ (env : Env) (object visited : Expr) (name : String) (own expected : Ty)
      (span : Span) (frames mid : Frames),
      (expr env object object.type).run frames = (.ok visited, mid) →
      ∃ result, (expr env ⟨.field object name, own, span⟩ expected).run frames = (result, mid) ∧
        (visited.type.isConcrete = false → result = .ok ⟨.field visited name, expected, span⟩) ∧
        (visited.type.isConcrete = true →
          AccessesField env.symbols visited name expected span result)) ∧
    ∀ (names : List String) (args : List Ty) (i : Nat) (name : String), names[i]? = some name →
      name ∉ names.drop (i + 1) →
      (Substitution.ofArgs names args).get? name = some (args[i]?.getD .wildcard) := by
  refine ⟨fun env object visited name own expected span frames mid h => ?_,
    fun names args i name => Substitution.get?_ofArgs_of_getElem?⟩
  cases hknown : visited.type.isConcrete with
  | false => exact ⟨_, run_field_of_unknown h name own expected span hknown, fun _ => rfl, nofun⟩
  | true =>
    exact ⟨_, run_field_of_known h name own expected span hknown, nofun,
      fun _ => accessesField env.symbols visited name expected span⟩

end Check

/-- In source form, `struct Pair<A, B> { first: A, second: (B, B) }`. -/
def Env.pair : Env :=
  let d : StructDef := ⟨"Pair", ⟨["A", "B"], []⟩, [⟨"first", .generic "A", default⟩,
    ⟨"second", .tuple [.generic "B", .generic "B"], default⟩], default⟩
  ⟨{ Symbols.empty with structs := [("::Pair", d)] }, .standard⟩

/-- In source form, `::Pair<u8>`. -/
def Path.pair : Path := ⟨true, [⟨"Pair", [.primitive .u8]⟩], .structType "::Pair"⟩

/-- In source form, inside `fn f(p: &mut &Pair<u8>)`. -/
def Frames.pair : Frames :=
  let t : Ty := .borrow .unique (.borrow .shared (.path .pair))
  [{ Frame.empty with locals := [⟨"p", .immutable, t⟩] }]

/-- In source form, `p.second` where a `(bool, _)` is expected: nothing is known of the parts, for the
second argument of `Pair` is left out. -/
theorem Check.field_access_pair :
    let object : Expr := ⟨.named (.bare "p"), .wildcard, default⟩
    let expected : Ty := .tuple [.primitive .bool, .wildcard]
    ∃ visited mid outer, (expr .pair object object.type).run .pair = (.ok visited, mid) ∧
      visited.type.isConcrete = true ∧ visited.type.derefs? 2 = some (.path .pair) ∧
      Env.pair.symbols.HasField .pair "second" (.tuple [.wildcard, .wildcard]) ∧
      visited.Dereferenced 2 outer ∧
      (expr .pair ⟨.field object "second", .wildcard, default⟩ expected).run .pair =
        (.ok ⟨.field outer "second", expected, default⟩, mid) := by
  intro object expected
  have hfield : Env.pair.symbols.HasField .pair "second" (.tuple [.wildcard, .wildcard]) :=
    (Symbols.hasField_iff rfl default).mpr rfl
  obtain ⟨result, hrun, -, hknown⟩ :=
    field_access.1 .pair object _ "second" .wildcard expected default .pair _ rfl
  obtain ⟨outer, houter, rfl⟩ := (hknown rfl).found (n := 2) rfl hfield rfl
  exact ⟨_, _, outer, rfl, rfl, rfl, hfield, houter, hrun⟩

/-- In source form, inside `fn f(x: Nope)`, where `Nope` is bound to a struct. -/
def Frames.dangling : Frames :=
  [{ Frame.empty with
    locals := [⟨"x", .immutable, .path ⟨true, [⟨"Nope", []⟩], .structType "::Nope"⟩⟩] }]

/-- A struct that is not among the symbols is missed as an item and not as a member. -/
theorem Check.field_access_dangling :
    let env : Env := ⟨.empty, .standard⟩
    let object : Expr := ⟨.named (.bare "x"), .wildcard, default⟩
    ∃ visited, (expr env object object.type).run .dangling = (.ok visited, .dangling) ∧
      visited.type.isConcrete = true ∧
      (∀ n p u, visited.type.derefs? n = some (.path p) → ¬ env.symbols.HasField p "v" u) ∧
      (expr env ⟨.field object "v", .wildcard, default⟩ .wildcard).run .dangling =
        (.error (.unresolvedName .item "::Nope" default), .dangling) := by
  intro env object
  refine ⟨_, rfl, rfl, fun n p u _ => ?_, rfl⟩
  rintro ⟨-, hd, -⟩
  contradiction

end BorrowLang
