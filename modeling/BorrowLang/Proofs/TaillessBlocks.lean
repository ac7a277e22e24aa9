import BorrowLang.Proofs.CheckedBodies
import BorrowLang.Proofs.ExpectedTypes

/-!
Blocks without a tail in checked bodies. Such a block takes what is expected of it for its type,
whatever that is, and is the unit where nothing is expected.
-/
namespace BorrowLang

/-- The type of a block without a tail, of which this is expected. -/
def Ty.orUnit (t : Ty) : Ty := if t.isWildcard then .unit else t

/-- A block that ends without a value. -/
def ExprKind.tailless : ExprKind → Bool
  | .block ⟨_, tail, _, _⟩ => tail.isNone
  | .letIn .. | .assign .. | .ret _ | .cond .. | .matchOn .. | .callPath .. | .callMethod ..
  | .callValue .. | .named _ | .field .. | .index .. | .deref _ | .borrow .. | .cast .. | .tuple _
  | .literal _ | .binary .. => false

/-- A block without a tail, of which the type is expected, has it, or is the unit. -/
def Settles (bare : Prop) (e : Expr) (t : Ty) : Prop :=
  e.kind.tailless = true → t ≤ e.type ∧ e.type ≠ .wildcard ∧ (bare → e.type = t.orUnit)

section
variable {bare : Prop} {t u : Ty} {e : Expr}

theorem Ty.eq_wildcard_of_le (h : t ≤ .wildcard) : t = .wildcard := by
  cases h
  rfl

theorem Settles.of_orUnit (ht : t.Tracks bare u) (he : e.type = u.orUnit) : Settles bare e t := by
  refine fun _ => ⟨?_, ?_, fun hb => by rw [he, ht.2 hb]⟩
  all_goals rw [he, Ty.orUnit]; split
  · next hu =>
    obtain rfl := Ty.isWildcard_iff.mp hu
    rw [Ty.eq_wildcard_of_le ht.1]
    exact Ty.wildcard_le .unit
  · exact ht.1
  · nofun
  · next hu => exact mt Ty.isWildcard_iff.mpr hu

/-- The value of a `let` may turn out to be more than was expected of it. -/
theorem Settles.retype (h : Settles bare e .wildcard) (hle : e.type ≤ t) :
    Settles bare { e with type := t } .wildcard := by
  intro htailless
  obtain ⟨-, hknown, hunit⟩ := h htailless
  refine ⟨Ty.wildcard_le t, fun ht => hknown (Ty.eq_wildcard_of_le (ht ▸ hle)), fun hb => ?_⟩
  rw [hunit hb] at hle
  exact Ty.unit_le_iff.mp hle

end

theorem Check.makes_settled (env : Env) (bare : Prop) : env.MakesExpected bare (Settles bare) where
  made span kind t expected frames after found type ht h := by
    cases exprStep_of_run h with
    | blockUnit => exact .of_orUnit ht rfl
    | _ => nofun
  retyped _ _ h hle := h.retype hle
  dereferenced _ := nofun

/-- A function and its checked form: of the body is expected what the declared return type means,
and every block in it without a tail has the type that is expected of it, or is the unit where that
is nothing. -/
def Function.Settled (env : Env) (d checked : Function) : Prop :=
  ∀ code ∈ checked.code, ∃ body ∈ d.code, ∃ ret, resolveType env [] d.span d.ret = .ok ret ∧
    (code.expectations ret).map (·.1) = code.nodes ∧
    ∀ x ∈ code.expectations ret, Settles (∀ y ∈ body.kind.nodes, y.type = .wildcard) x.1 x.2

theorem Function.CheckedTo.settled {env : Env} {d checked : Function}
    (h : d.CheckedTo env checked) : d.Settled env checked := by
  obtain ⟨frames, after, ha, h⟩ := h
  obtain ⟨ret, mid, hret, -, -, ⟨-, hnone⟩ | ⟨body, code, last, hbody, hcode, he⟩⟩ :=
    Check.function_eq_ok env h
  · exact fun code hcode => absurd (hnone ▸ hcode) (Option.not_mem_none code)
  · rw [(d.betweenItems_openedIn ha).resolveType_eq] at hret
    rw [Function.Settled, hcode]
    rintro _ ⟨⟩
    exact ⟨body, hbody, ret, hret, code.map_fst_expectations ret,
      Check.expr_expectations (Check.makes_settled env _) body ⟨.refl ret, id⟩ he⟩

/-- A block without a tail is taken for a value of the type that is expected of it, which goes back
to the declared return type, and for the unit only where nothing is expected. -/
theorem Program.check_taillessBlocks {p : Program} {options : CheckOptions} {root : Module}
    (h : p.check options = .ok root) :
    List.Forall₂ (Function.Settled ⟨p.symbols, options⟩) (p.root.functions options.implMethods)
      (root.functions options.implMethods) :=
  (check_functions h).imp fun _ _ => Function.CheckedTo.settled

/-- In source form,
`fn unfinished(flag: bool) -> &u8 { let done = { }; match flag { true => &{ }, _ => { } } }`. -/
def Function.unfinished : Function :=
  let raw (kind : ExprKind) : Expr := ⟨kind, .wildcard, default⟩
  let nothing := raw (.block ⟨[], none, [], []⟩)
  let done := raw (.letIn (.identifier "done" .immutable default) .wildcard nothing)
  let choice := raw (.matchOn (raw (.named (.bare "flag"))) [
    ⟨[.literal (.bool true) default], none, raw (.borrow .shared nothing)⟩,
    ⟨[.wildcard default], none, nothing⟩])
  { name := "unfinished"
    params := ⟨[], []⟩
    args := [⟨.identifier "flag" .immutable default, .primitive .bool⟩]
    ret := .borrow .shared (.primitive .u8)
    code := some (raw (.block ⟨[done], some choice, [], []⟩))
    span := default }

theorem Program.check_taillessBlocks_unfinished : ∃ root checked code,
    (Program.mk ⟨"", [], [.function .unfinished]⟩ .empty).check .standard = .ok root ∧
      root.functions true = [checked] ∧ checked.code = some code ∧
      Function.Settled ⟨.empty, .standard⟩ .unfinished checked ∧
      ((code.expectations (.borrow .shared (.primitive .u8))).filter (·.1.kind.tailless)).map
        (fun x => (x.1.type, x.2)) =
          [(.unit, .wildcard), (.primitive .u8, .primitive .u8),
            (.borrow .shared (.primitive .u8), .borrow .shared (.primitive .u8))] := by
  refine ⟨_, _, _, rfl, rfl, rfl, ?_, rfl⟩
  have h := @check_taillessBlocks ⟨⟨"", [], [.function .unfinished]⟩, .empty⟩ .standard _ rfl
  exact (List.forall₂_cons.mp h).1

/-- In source form, `fn fall() -> u8 { }`. -/
def Function.fall : Function :=
  { name := "fall"
    params := ⟨[], []⟩
    args := []
    ret := .primitive .u8
    code := some ⟨.block ⟨[], none, [], []⟩, .wildcard, default⟩
    span := default }

/-- A body that can only fall off its end is accepted, and taken for a value of the return type. -/
theorem Program.check_accepts_fall : ∃ root,
    (Program.mk ⟨"", [], [.function .fall]⟩ .empty).check .standard = .ok root ∧
      ∃ f ∈ root.functions true, ∃ code ∈ f.code, code.kind.tailless = true ∧
        (∀ x ∈ code.nodes, ∀ value, x.kind ≠ .ret value) ∧ code.type = .primitive .u8 := by
  refine ⟨_, rfl, _, .head _, _, rfl, rfl, ?_, rfl⟩
  rintro x (_ | ⟨_, ⟨⟩⟩) value ⟨⟩

end BorrowLang
