import BorrowLang.Proofs.Annotations
import BorrowLang.Proofs.CheckedFunctions

/-! The bodies of an accepted program, each against the function it was written for. -/
namespace BorrowLang

section
variable {env env' : Env} {frames others : Frames} {span : Span}

mutual

/-- Only the aliases of the program and of the open blocks matter for what a written type means. -/
theorem resolveType_congr (ha : env.symbols.aliases = env'.symbols.aliases)
    (h : ∀ name, frames.alias? name = others.alias? name) : ∀ t : Ty,
    resolveType env frames span t = resolveType env' others span t
  | .path ⟨absolute, segments, binding⟩ => by
    simp only [resolveType, resolveSegments_congr ha h segments, ha, h]
  | .borrow kind inner => by rw [resolveType, resolveType, resolveType_congr ha h inner]
  | .array inner size => by rw [resolveType, resolveType, resolveType_congr ha h inner]
  | .tuple items => by rw [resolveType, resolveType, resolveTypes_congr ha h items]
  | .wildcard | .unit | .primitive _ | .generic _ => rfl

theorem resolveTypes_congr (ha : env.symbols.aliases = env'.symbols.aliases)
    (h : ∀ name, frames.alias? name = others.alias? name) : ∀ ts : List Ty,
    resolveTypes env frames span ts = resolveTypes env' others span ts
  | [] => rfl
  | t :: ts => by
    rw [resolveTypes, resolveTypes, resolveType_congr ha h t, resolveTypes_congr ha h ts]

theorem resolveSegments_congr (ha : env.symbols.aliases = env'.symbols.aliases)
    (h : ∀ name, frames.alias? name = others.alias? name) : ∀ segments : List Segment,
    resolveSegments env frames span segments = resolveSegments env' others span segments
  | [] => rfl
  | ⟨name, args⟩ :: rest => by
    rw [resolveSegments, resolveSegments, resolveTypes_congr ha h args,
      resolveSegments_congr ha h rest]

end

end

theorem Frames.BetweenItems.resolveType_eq {env : Env} {frames : Frames} (h : frames.BetweenItems)
    (span : Span) (t : Ty) : resolveType env frames span t = resolveType env [] span t :=
  resolveType_congr rfl (fun name => h.alias?_eq name) t

/-- A function and its checked form: the body is annotated throughout, and at its root with what the
declared return type means. -/
structure Function.Annotated (env : Env) (d checked : Function) : Prop where
  name : checked.name = d.name
  hasCode : checked.code.isSome = d.code.isSome
  root : ∀ code ∈ checked.code, ∃ ret, resolveType env [] d.span d.ret = .ok ret ∧ ret ≤ code.type
  nodes : ∀ code ∈ checked.code, ∀ e ∈ code.nodes, e.Consistent env.symbols

namespace Check
variable (env : Env)

theorem function_annotated {d checked : Function} (h : d.CheckedTo env checked) :
    d.Annotated env checked := by
  have hnodes := function_nodes (makes_consistent env) h
  obtain ⟨frames, after, ha, h⟩ := h
  obtain ⟨ret, mid, hret, -, hkept, hcode⟩ := function_eq_ok env h
  rw [(d.betweenItems_openedIn ha).resolveType_eq] at hret
  have hname : checked.name = d.name := by rw [hkept]
  obtain ⟨hnone, hnone'⟩ | ⟨body, code, last, hbody, hcode, he⟩ := hcode
  · exact ⟨hname, by rw [hnone, hnone'], by simp [hnone'], hnodes⟩
  · refine ⟨hname, by rw [hbody, hcode]; rfl, ?_, hnodes⟩
    rw [hcode]
    rintro _ ⟨⟩
    exact ⟨ret, hret, expected_le he⟩

theorem module_annotated (parents : List String) (m : Module) {frames after : Frames}
    {checked : Module} (h : (module env parents m).run frames = (.ok checked, after)) :
    List.Forall₂ (Function.Annotated env) (m.functions env.options.implMethods)
      (checked.functions env.options.implMethods) :=
  (module_functions env parents m h).imp fun _ _ hd => function_annotated env hd

end Check

/-- Every body of an accepted program is annotated throughout, and at its root with what the declared
return type of its function means. -/
theorem Program.check_annotated (p : Program) (options : CheckOptions) (root : Module)
    (h : p.check options = .ok root) :
    List.Forall₂ (Function.Annotated ⟨p.symbols, options⟩) (p.root.functions options.implMethods)
      (root.functions options.implMethods) := by
  have hr : (Check.module ⟨p.symbols, options⟩ [] p.root).run [] =
      (.ok root, ((Check.module ⟨p.symbols, options⟩ [] p.root).run []).2) := Prod.ext h rfl
  exact Check.module_annotated _ [] p.root hr

/-- In source form,
`fn pick(flag: bool, cells: &[u8]) -> u8 { let cell = cells[0]; if flag { cell } else { *&cell } }`. -/
def Function.pick : Function :=
  let raw (kind : ExprKind) : Expr := ⟨kind, .wildcard, default⟩
  let readOf (name : String) := raw (.named (.bare name))
  let first := raw (.index (readOf "cells") (raw (.literal (.int 0 none))))
  let again := raw (.deref (raw (.borrow .shared (readOf "cell"))))
  let bind := raw (.letIn (.identifier "cell" .immutable default) .wildcard first)
  let choice := raw (.cond (readOf "flag") (readOf "cell") (some again))
  { name := "pick"
    params := ⟨[], []⟩
    args := [⟨.identifier "flag" .immutable default, .primitive .bool⟩,
      ⟨.identifier "cells" .immutable default, .borrow .shared (.array (.primitive .u8) none)⟩]
    ret := .primitive .u8
    code := some (raw (.block ⟨[bind], some choice, [], []⟩))
    span := default }

theorem Program.check_annotated_pick : ∃ root,
    (Program.mk ⟨"", [], [.function .pick]⟩ .empty).check .standard = .ok root ∧
      List.Forall₂ (Function.Annotated ⟨.empty, .standard⟩) [.pick] (root.functions true) :=
  ⟨_, rfl, Program.check_annotated ⟨⟨"", [], [.function .pick]⟩, .empty⟩ .standard _ rfl⟩

end BorrowLang
