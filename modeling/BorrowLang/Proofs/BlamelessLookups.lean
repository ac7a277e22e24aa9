import BorrowLang.Proofs.AliasChains

/-!
Lookups and merges report what is wrong with a program and never blame the checker itself, except for
a variant that its enum does not have.
-/
namespace BorrowLang

namespace Result
variable {α β : Type}

/-- No violated invariant is reported. -/
def Blameless (x : Result α) : Prop := ∀ message span, x ≠ .error (.invariantViolation message span)

theorem blameless_ok {a : α} : Blameless (.ok a) := nofun

theorem blameless_pure {a : α} : Blameless (pure a) := nofun

theorem Blameless.bind {x : Result α} {f : α → Result β} (h : x.Blameless)
    (hf : ∀ a, (f a).Blameless) : (x >>= f).Blameless := by
  cases x with
  | error e =>
    intro message span he
    cases he
    exact h message span rfl
  | ok a => exact hf a

theorem blameless_foldlM {f : β → α → Result β} (h : ∀ b a, (f b a).Blameless) (as : List α)
    (b : β) : (as.foldlM f b).Blameless := by
  induction as generalizing b with
  | nil => exact blameless_pure
  | cons a as ih => exact (h b a).bind ih

end Result
open Result

theorem Table.blameless_find {α : Type} (t : Table α) (key : Key) (span : Span) :
    (t.find key span).Blameless := by
  unfold find
  split <;> nofun

theorem Aliases.blameless_expand (aliases : Aliases) (span : Span) (t : Ty) :
    (aliases.expand span t).Blameless := by
  intro message there h
  obtain ⟨key, he | he⟩ := error_of_expand h <;> cases he

namespace Ty

theorem blameless_mergeAt (t u : Ty) (span : Span) : (t.mergeAt u span).Blameless := by
  unfold mergeAt
  split <;> nofun

theorem blameless_matchTemplateAt (t u : Ty) (span : Span) :
    (t.matchTemplateAt u span).Blameless := by
  unfold matchTemplateAt
  split <;> nofun

theorem blameless_argsOf (owner : Key) (t : Ty) (span : Span) :
    (t.argsOf owner span).Blameless := by
  unfold argsOf
  split
  · exact blameless_ok
  · split_ifs <;> nofun
  · nofun

theorem blameless_tupleParts (n : Nat) (t : Ty) (span : Span) :
    (t.tupleParts n span).Blameless := by
  unfold tupleParts
  split
  · exact blameless_ok
  · split_ifs <;> nofun
  · split_ifs <;> nofun
  · nofun

theorem blameless_referencePart (t : Ty) (span : Span) : (t.referencePart span).Blameless := by
  unfold referencePart
  split <;> nofun

section
variable {ask : String → Result Ty}

mutual

theorem blameless_resolveArgs (ha : ∀ name, (ask name).Blameless) : ∀ t : Ty,
    (t.resolveArgs ask).Blameless
  | .generic name => ha name
  | .borrow _ inner => (blameless_resolveArgs ha inner).bind fun _ => blameless_pure
  | .array inner _ => (blameless_resolveArgs ha inner).bind fun _ => blameless_pure
  | .path ⟨_, segments, _⟩ =>
    (blameless_resolveArgsSegments ha segments).bind fun _ => blameless_pure
  | .tuple items => (blameless_resolveArgsAll ha items).bind fun _ => blameless_pure
  | .wildcard | .unit | .primitive _ => blameless_pure

theorem blameless_resolveArgsAll (ha : ∀ name, (ask name).Blameless) : ∀ ts : List Ty,
    (resolveArgsAll ask ts).Blameless
  | [] => blameless_pure
  | t :: ts => (blameless_resolveArgs ha t).bind fun _ =>
    (blameless_resolveArgsAll ha ts).bind fun _ => blameless_pure

theorem blameless_resolveArgsSegments (ha : ∀ name, (ask name).Blameless) :
    ∀ segments : List Segment, (resolveArgsSegments ask segments).Blameless
  | [] => blameless_pure
  | ⟨_, args⟩ :: rest => (blameless_resolveArgsAll ha args).bind fun _ =>
    (blameless_resolveArgsSegments ha rest).bind fun _ => blameless_pure

end

end

end Ty

theorem Frames.blameless_typeParam (frames : Frames) (span : Span) (name : String) :
    (frames.typeParam span name).Blameless := by
  unfold typeParam
  split_ifs <;> nofun

section
variable (env : Env) (frames : Frames) (span : Span)

mutual

theorem blameless_resolveType : ∀ t : Ty, (resolveType env frames span t).Blameless
  | .path ⟨absolute, segments, binding⟩ => by
    refine (blameless_resolveSegments segments).bind fun found => ?_
    dsimp only
    split
    · exact Aliases.blameless_expand _ span _
    · split
      · exact blameless_pure
      · split <;> nofun
  | .borrow _ inner => (blameless_resolveType inner).bind fun _ => blameless_pure
  | .array inner _ => (blameless_resolveType inner).bind fun _ => blameless_pure
  | .tuple items => (blameless_resolveTypes items).bind fun _ => blameless_pure
  | .wildcard | .unit | .primitive _ | .generic _ => blameless_pure

theorem blameless_resolveTypes : ∀ ts : List Ty, (resolveTypes env frames span ts).Blameless
  | [] => blameless_pure
  | t :: ts => (blameless_resolveType t).bind fun _ =>
    (blameless_resolveTypes ts).bind fun _ => blameless_pure

theorem blameless_resolveSegments : ∀ segments : List Segment,
    (resolveSegments env frames span segments).Blameless
  | [] => blameless_pure
  | ⟨_, args⟩ :: rest => (blameless_resolveTypes args).bind fun _ =>
    (blameless_resolveSegments rest).bind fun _ => blameless_pure

end

end

/-! ### Symbols -/

namespace EnumDef
variable (d : EnumDef) (span : Span)

theorem blameless_args (p : Path) : (d.args p span).Blameless := by
  unfold args
  dsimp only
  split_ifs <;> nofun

theorem blameless_refineArg (args : List Ty) (found : String × Ty) :
    (d.refineArg span args found).Blameless := by
  unfold refineArg
  dsimp only
  split
  · nofun
  · exact (Ty.blameless_mergeAt _ _ span).bind fun _ => blameless_pure

theorem blameless_refineArgs (args : List Ty) (field : Ty × Ty) :
    (d.refineArgs span args field).Blameless :=
  (Ty.blameless_matchTemplateAt field.1 field.2 span).bind fun found =>
    blameless_foldlM (d.blameless_refineArg span) found args

end EnumDef

namespace Symbols
variable (s : Symbols) (span : Span)

theorem blameless_variant {enumKey : Key} {index : Nat}
    (h : (Binding.variant enumKey index).Known s) : (s.variant enumKey index span).Blameless := by
  obtain ⟨d, hd, hindex⟩ := h
  rw [variant_eq_ok.mpr ⟨hd, List.getElem?_eq_getElem hindex⟩]
  exact blameless_ok

theorem blameless_fieldType (key : Key) (args : List Ty) (name : String) :
    (s.fieldType key args name span).Blameless := by
  refine (Table.blameless_find _ key span).bind fun d => ?_
  split <;> nofun

theorem blameless_memberType (t : Ty) (name : String) : (s.memberType t name span).Blameless := by
  unfold memberType
  split
  · split
    · exact s.blameless_fieldType span _ _ name
    · nofun
  · nofun

theorem blameless_variantParts {path : Path} (h : path.binding.Known s) (n : Nat) (t : Ty) :
    (s.variantParts path n t span).Blameless := by
  unfold variantParts
  split
  · next enumKey index hb =>
    rw [hb] at h
    refine (s.blameless_variant span h).bind fun (d, v) => ?_
    dsimp only
    split
    · nofun
    · split_ifs
      · nofun
      · exact (Ty.blameless_argsOf enumKey t span).bind fun _ => blameless_pure
  · nofun

theorem blameless_namedParts (path : Path) (t : Ty) : (s.namedParts path t span).Blameless := by
  have howner : (s.fieldOwner path span).Blameless := by
    unfold fieldOwner
    split
    · exact (Table.blameless_find _ _ span).bind fun _ => blameless_pure
    · refine (Table.blameless_find _ _ span).bind fun d => ?_
      split <;> nofun
    · nofun
  exact howner.bind fun found =>
    (Ty.blameless_argsOf found.1 t span).bind fun _ => blameless_pure

theorem blameless_variantType {enumKey : Key} {index : Nat}
    (h : (Binding.variant enumKey index).Known s) (path : Path) (found : List Ty) :
    (s.variantType path enumKey index found span).Blameless := by
  refine (s.blameless_variant span h).bind fun (d, v) => ?_
  dsimp only
  split
  · nofun
  · split_ifs
    · nofun
    · refine (d.blameless_args span path).bind fun args => ?_
      refine (blameless_foldlM (d.blameless_refineArgs span) _ args).bind fun _ => ?_
      exact blameless_pure

theorem blameless_searchMethod (traits : List Path) (name : String) {missing unknown : Error}
    (hm : ∀ message there, missing ≠ .invariantViolation message there)
    (hu : ∀ message there, unknown ≠ .invariantViolation message there) (ts : List Ty)
    (derefs : Nat) : (s.searchMethod traits name missing unknown derefs ts).Blameless := by
  induction ts generalizing derefs with
  | nil => exact fun message there h => hm message there (Except.error.inj h)
  | cons t ts ih =>
    unfold searchMethod
    split_ifs
    · exact fun message there h => hu message there (Except.error.inj h)
    · split
      · exact blameless_ok
      · exact ih (derefs + 1)

end Symbols

theorem Candidate.blameless_checkArity (c : Candidate) (method : Segment) (given : Nat)
    (span : Span) : (c.checkArity method given span).Blameless := by
  unfold checkArity
  dsimp only
  split_ifs <;> nofun

/-! ### Types of expressions -/

namespace Expr

theorem blameless_pointee (value : Expr) : value.pointee.Blameless := by
  unfold pointee
  split <;> nofun

theorem blameless_letType (value : Expr) (declared : Ty) (span : Span) :
    (value.letType declared span).Blameless := by
  unfold letType
  split_ifs
  · nofun
  · exact declared.blameless_mergeAt value.type span

end Expr

theorem BinaryOp.blameless_type (op : BinaryOp) (left right : Ty) (span : Span) :
    (op.type left right span).Blameless :=
  (left.blameless_mergeAt right span).bind fun _ => blameless_pure

end BorrowLang
