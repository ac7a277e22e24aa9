import BorrowLang.Proofs.MethodSearch

/-!
An inherent impl block that matches a type and has a method is found, unless an earlier inherent
block matches the type too and lacks the method: of the blocks that match only the first is asked.
-/
namespace BorrowLang

/-- An inherent block that matches the type. -/
def ImplSignature.InherentFor (d : ImplSignature) (t : Ty) : Prop :=
  d.traitPath = none ∧ (d.bindSelf? t).isSome = true

/-- The first inherent block for the type is an earlier one, and it lacks the method. -/
def Symbols.Shadows (s : Symbols) (t : Ty) (name : String) (d : ImplSignature) : Prop :=
  ∃ before e after, s.impls = before ++ e :: after ∧ (∀ b ∈ before, ¬ b.InherentFor t) ∧
    e.InherentFor t ∧ e.method? name = none ∧ d ∈ after

namespace Symbols
variable {s : Symbols} {t : Ty} {name : String} {d : ImplSignature}

theorem isOf_none_and_isSome (d : ImplSignature) (t : Ty) :
    (d.isOf none && (d.bindSelf? t).isSome) = true ↔ d.InherentFor t := by
  obtain ⟨params, traitPath, selfType, methods, span⟩ := d
  cases traitPath with
  | none => simp [ImplSignature.isOf, ImplSignature.InherentFor]
  | some p => simp [ImplSignature.isOf, ImplSignature.InherentFor]

/-- Among the blocks is one for the type, so one of them is the first. -/
theorem exists_impl?_none (hd : d ∈ s.impls) (h : d.InherentFor t) :
    ∃ before e after, s.impl? none t = some e ∧ s.impls = before ++ e :: after ∧
      (∀ b ∈ before, ¬ b.InherentFor t) ∧ e.InherentFor t ∧ (d = e ∨ d ∈ after) := by
  have hfound : (s.impl? none t).isSome = true :=
    List.find?_isSome.mpr ⟨d, hd, (isOf_none_and_isSome d t).mpr h⟩
  obtain ⟨e, he⟩ := Option.isSome_iff_exists.mp hfound
  obtain ⟨hfor, before, after, hsplit, hbefore⟩ := List.find?_eq_some_iff_append.mp he
  have hnone : ∀ b ∈ before, ¬ b.InherentFor t := by
    intro b hb hb'
    have hfalse := hbefore b hb
    rw [(isOf_none_and_isSome b t).mpr hb'] at hfalse
    exact absurd hfalse Bool.false_ne_true
  refine ⟨before, e, after, he, hsplit, hnone, (isOf_none_and_isSome e t).mp hfor, ?_⟩
  rw [hsplit, List.mem_append, List.mem_cons] at hd
  rcases hd with hd | hd
  · exact absurd h (hnone d hd)
  · exact hd

theorem hasMethod_or_shadows (frames : Frames) (hd : d ∈ s.impls) (h : d.InherentFor t)
    (hm : ∃ f, d.method? name = some f) : s.HasMethod frames t name ∨ s.Shadows t name d := by
  obtain ⟨before, e, after, he, hsplit, hnone, hfor, hde⟩ := exists_impl?_none hd h
  cases hf : e.method? name with
  | some f => exact .inl (.inl ⟨e, f, he, hf⟩)
  | none =>
    rcases hde with rfl | hmem
    · obtain ⟨f, hm⟩ := hm
      rw [hf] at hm
      contradiction
    · exact .inr ⟨before, e, after, hsplit, hnone, hfor, hf, hmem⟩

end Symbols

/-- The search stops at the first type that has the method, which is met before any type beyond it. -/
theorem Env.exists_method_of_hasMethod {env : Env} {frames : Frames} {t u : Ty} {name : String}
    {k : Nat} (span : Span) (hk : k ≤ env.options.derefLimit) (hu : t.derefs? k = some u)
    (hknown : ∀ j ≤ k, ∀ v, t.derefs? j = some v → v ≠ .wildcard)
    (hhas : env.symbols.HasMethod frames u name) :
    ∃ c, env.method frames t name span = .ok c ∧ c.derefs ≤ k := by
  induction k using Nat.strong_induction_on generalizing u with
  | h k ih =>
    by_cases hearlier : ∃ j < k, ∃ v, t.derefs? j = some v ∧ env.symbols.HasMethod frames v name
    · obtain ⟨j, hj, v, hv, hhas'⟩ := hearlier
      obtain ⟨c, hc, hle⟩ := ih j hj (hj.le.trans hk) hv
        (fun i hi => hknown i (hi.trans hj.le)) hhas'
      exact ⟨c, hc, hle.trans hj.le⟩
    · have hreach : env.Reaches frames t name k := by
        refine ⟨hk, fun j hj => ?_, ⟨u, hu, hhas⟩, fun j hj v hv hhas' => ?_⟩
        · obtain ⟨v, hv⟩ := Ty.exists_derefs?_of_le hu hj
          exact ⟨v, hv, hknown j hj v hv⟩
        · exact hearlier ⟨j, hj, v, hv, hhas'⟩
      obtain ⟨c, hc, hderefs⟩ : ∃ c, env.method frames t name span = .ok c ∧ c.derefs = k :=
        Env.exists_method_iff.mpr hreach
      exact ⟨c, hc, hderefs.le⟩

/-- Where an inherent block has the method for a type that the search may reach, a method is found
there or before, unless the first inherent block for that type is an earlier one without it. -/
theorem Env.method_found_or_shadowed (env : Env) (frames : Frames) (t : Ty) (name : String)
    (span : Span) (k : Nat) (u : Ty) (d : ImplSignature) (hk : k ≤ env.options.derefLimit)
    (hu : t.derefs? k = some u) (hknown : ∀ j ≤ k, ∀ v, t.derefs? j = some v → v ≠ .wildcard)
    (hd : d ∈ env.symbols.impls) (hfor : d.InherentFor u) (hm : ∃ f, d.method? name = some f) :
    (∃ c, env.method frames t name span = .ok c ∧ c.derefs ≤ k) ∨
      env.symbols.Shadows u name d := by
  rcases Symbols.hasMethod_or_shadows frames hd hfor hm with hhas | hshadows
  · exact .inl (Env.exists_method_of_hasMethod span hk hu hknown hhas)
  · exact .inr hshadows

/-- In source form, `struct S; impl S { fn a(self: S) -> u8; } impl S { fn b(self: S) -> u8; }
fn f(s: S) -> u8 { s.b() }`. -/
def Module.twoBlocks : Module :=
  let written : Ty := .path ⟨false, [⟨"S", []⟩], .unbound⟩
  let raw (kind : ExprKind) : Expr := ⟨kind, .wildcard, default⟩
  let define (name argument : String) (code : Option Expr) : Function :=
    ⟨name, ⟨[], []⟩, [⟨.identifier argument .immutable default, written⟩], .primitive .u8, code, default⟩
  let block (name : String) : ImplBlock :=
    ⟨⟨[], []⟩, none, written, [⟨name, .function (define name "self" none)⟩], default⟩
  ⟨"", [], [.struct ⟨"S", ⟨[], []⟩, [], default⟩, .impl (block "a"), .impl (block "b"),
    .function (define "f" "s"
      (some (raw (.callMethod (raw (.named (.bare "s"))) ⟨"b", []⟩ []))))]⟩

/-- The struct of that module, as a type. -/
def Ty.twoBlocks : Ty := .path ⟨true, [⟨"S", []⟩], .structType "::S"⟩

/-- The method of the first block is found behind a reference. -/
theorem Env.method_found_or_shadowed_twoBlocks : ∃ p d,
    Program.ofModule .twoBlocks = .ok p ∧ d ∈ p.symbols.impls ∧ d.InherentFor .twoBlocks ∧
      (∃ f, d.method? "a" = some f) ∧
      ((∃ c, (Env.mk p.symbols .standard).method [] (.borrow .shared .twoBlocks) "a" default = .ok c ∧
        c.derefs ≤ 1) ∨ p.symbols.Shadows .twoBlocks "a" d) := by
  have hknown : ∀ j ≤ 1, ∀ v, (Ty.borrow .shared .twoBlocks).derefs? j = some v → v ≠ .wildcard := by
    intro j hj v hv
    obtain rfl | rfl := Nat.le_one_iff_eq_zero_or_eq_one.mp hj
    · cases hv
      exact nofun
    · cases hv
      exact nofun
  have hfor : ImplSignature.InherentFor
      ⟨⟨[], []⟩, none, .twoBlocks, [("a", ⟨⟨[], []⟩, [.twoBlocks], .primitive .u8⟩)], default⟩
      .twoBlocks := ⟨rfl, rfl⟩
  exact ⟨_, _, rfl, .head _, hfor, ⟨_, rfl⟩, Env.method_found_or_shadowed _ [] _ "a" default 1 _ _
    (by decide) rfl hknown (.head _) hfor ⟨_, rfl⟩⟩

/-- The second block matches the receiver and has the method, and the program is refused. -/
theorem Program.check_misses_second_block : ∃ p d,
    Program.ofModule .twoBlocks = .ok p ∧ d ∈ p.symbols.impls ∧ d.InherentFor .twoBlocks ∧
      (∃ f, d.method? "b" = some f) ∧ Ty.twoBlocks ≠ .wildcard ∧
      (Env.mk p.symbols .standard).method [] .twoBlocks "b" default =
        .error (.unresolvedMember "no method named `b` found for `::S`" default) ∧
      p.check .standard =
        .error (.unresolvedMember "no method named `b` found for `::S`" default) :=
  ⟨_, _, rfl, .tail _ (.head _), ⟨rfl, rfl⟩, ⟨_, rfl⟩, nofun, rfl, rfl⟩

end BorrowLang
