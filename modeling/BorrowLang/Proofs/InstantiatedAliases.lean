import BorrowLang.Proofs.AliasChains
import BorrowLang.Proofs.Matching
import BorrowLang.Proofs.ScopedSymbols

/-!
The aliases of a type may be expanded before its parameters are given types without aliases, or
afterwards: the result is the same, errors included. So the symbols may keep the types of fields
expanded and give their parameters arguments later.
-/
namespace BorrowLang

namespace Substitution

theorem pad_map {f : Ty → Ty} (hf : f .wildcard = .wildcard) (names : List String) (args : List Ty) :
    pad names (args.map f) = (pad names args).map fun (name, t) => (name, f t) := by
  fun_induction pad names args with
  | case1 args => rfl
  | case2 name names ih => exact congrArg₂ (fun t rest => (name, t) :: rest) hf.symm ih
  | case3 name names t ts ih => exact congrArg ((name, f t) :: ·) ih

theorem get?_ofArgs_map {f : Ty → Ty} (hf : f .wildcard = .wildcard) (names : List String)
    (args : List Ty) (name : String) :
    get? (ofArgs names (args.map f)) name = (get? (ofArgs names args) name).map f := by
  rw [ofArgs, ofArgs, pad_map hf, ← List.map_reverse]
  exact get?_map_snd _ (fun _ => f) name

end Substitution

namespace Ty

theorem substituteSegments_eq_map (s : Substitution) (segments : List Segment) :
    substituteSegments s segments =
      segments.map fun segment => ⟨segment.name, segment.args.map (substitute s)⟩ := by
  induction segments with
  | nil => rfl
  | cons segment rest ih =>
    obtain ⟨name, args⟩ := segment
    rw [substituteSegments, ih, substituteAll_eq_map, List.map_cons]

theorem lastArgs_substitute (s : Substitution) (absolute : Bool) (segments : List Segment)
    (binding : Binding) :
    Path.lastArgs ⟨absolute, substituteSegments s segments, binding⟩ =
      (Path.lastArgs ⟨absolute, segments, binding⟩).map (substitute s) := by
  simp only [Path.lastArgs, Path.last?, substituteSegments_eq_map, List.getLast?_map]
  cases segments.getLast? <;> rfl

/-! ### Replacing parameters twice -/

section
variable {first next both : Substitution}

mutual

/-- A parameter of the type that stands for a type in which parameters are replaced once more might
have stood for the outcome from the start. -/
theorem substitute_substitute : ∀ {t : Ty},
    (∀ name ∈ t.generics, (generic name).substitute both =
      ((generic name).substitute first).substitute next) →
    t.substitute both = (t.substitute first).substitute next
  | .generic name, h => h name (.head _)
  | .borrow kind inner, h => congrArg (borrow kind) (substitute_substitute (t := inner) h)
  | .array inner size, h => congrArg (array · size) (substitute_substitute (t := inner) h)
  | .path ⟨absolute, _, binding⟩, h =>
    congrArg (fun found => path ⟨absolute, found, binding⟩) (substituteSegments_substitute h)
  | .tuple _, h => congrArg tuple (substituteAll_substitute h)
  | .wildcard, _ | .unit, _ | .primitive _, _ => rfl

theorem substituteAll_substitute : ∀ {ts : List Ty},
    (∀ name ∈ genericsAll ts, (generic name).substitute both =
      ((generic name).substitute first).substitute next) →
    substituteAll both ts = substituteAll next (substituteAll first ts)
  | [], _ => rfl
  | _ :: _, h =>
    have h := List.forall_mem_append.mp h
    congrArg₂ List.cons (substitute_substitute h.1) (substituteAll_substitute h.2)

theorem substituteSegments_substitute : ∀ {segments : List Segment},
    (∀ name ∈ genericsSegments segments, (generic name).substitute both =
      ((generic name).substitute first).substitute next) →
    substituteSegments both segments = substituteSegments next (substituteSegments first segments)
  | [], _ => rfl
  | ⟨name, _⟩ :: _, h =>
    have h := List.forall_mem_append.mp h
    congrArg₂ (fun args rest => Segment.mk name args :: rest) (substituteAll_substitute h.1)
      (substituteSegments_substitute h.2)

end

end

/-- The parameters of a declared type are gone once it has arguments, so what is replaced in the whole
is replaced in the arguments. -/
theorem GenericsIn.substitute_ofArgs_map {names : List String} {t : Ty}
    (ht : t.GenericsIn (· ∈ names)) (s : Substitution) (args : List Ty) :
    t.substitute (.ofArgs names (args.map (Ty.substitute s))) =
      (t.substitute (.ofArgs names args)).substitute s := by
  refine substitute_substitute fun name hname => ?_
  obtain ⟨u, hu⟩ := Substitution.exists_get?_ofArgs (ht name hname) args
  simp only [Ty.substitute]
  rw [Substitution.get?_ofArgs_map rfl, hu]
  rfl

/-! ### Expansion -/

section
variable {unfold : Key → List Ty → Result Ty} {s : Substitution}

mutual

theorem expandWith_substitute
    (hunfold : ∀ key args, unfold key (args.map (substitute s)) = substitute s <$> unfold key args)
    (hs : ∀ name u, s.get? name = some u → u.AliasFree) : ∀ t : Ty,
    (t.substitute s).expandWith unfold = substitute s <$> t.expandWith unfold
  | .generic name => by
    simp only [substitute]
    cases hname : s.get? name with
    | none => simp [expandWith, substitute, hname]
    | some u =>
      rw [Option.getD_some, (hs name u hname).expandWith unfold]
      simp [expandWith, substitute, hname, pure, Except.pure]
  | .borrow kind inner => by
    simp only [substitute, expandWith, expandWith_substitute hunfold hs inner, map_bind, bind_map_left,
      map_pure]
  | .array inner size => by
    simp only [substitute, expandWith, expandWith_substitute hunfold hs inner, map_bind, bind_map_left,
      map_pure]
  | .path ⟨absolute, segments, binding⟩ => by
    simp only [substitute, expandWith, expandSegmentsWith_substitute hunfold hs segments, map_bind,
      bind_map_left]
    congr 1
    funext found
    cases binding with
    | typeAlias key =>
      rw [lastArgs_substitute]
      exact hunfold key _
    | _ => rfl
  | .tuple items => by
    simp only [substitute, expandWith, expandAllWith_substitute hunfold hs items, map_bind,
      bind_map_left, map_pure]
  | .wildcard | .unit | .primitive _ => rfl

theorem expandAllWith_substitute
    (hunfold : ∀ key args, unfold key (args.map (substitute s)) = substitute s <$> unfold key args)
    (hs : ∀ name u, s.get? name = some u → u.AliasFree) : ∀ ts : List Ty,
    expandAllWith unfold (substituteAll s ts) = substituteAll s <$> expandAllWith unfold ts
  | [] => rfl
  | t :: ts => by
    simp only [substituteAll, expandAllWith, expandWith_substitute hunfold hs t,
      expandAllWith_substitute hunfold hs ts, map_bind, bind_map_left, map_pure]

theorem expandSegmentsWith_substitute
    (hunfold : ∀ key args, unfold key (args.map (substitute s)) = substitute s <$> unfold key args)
    (hs : ∀ name u, s.get? name = some u → u.AliasFree) : ∀ segments : List Segment,
    expandSegmentsWith unfold (substituteSegments s segments) =
      substituteSegments s <$> expandSegmentsWith unfold segments
  | [] => rfl
  | ⟨name, args⟩ :: rest => by
    simp only [substituteSegments, expandSegmentsWith, expandAllWith_substitute hunfold hs args,
      expandSegmentsWith_substitute hunfold hs rest, map_bind, bind_map_left, map_pure]

end

end

/-! ### Places of errors -/

section
variable {unfold unfold' : Key → List Ty → Result Ty}

mutual

theorem expandWith_mono (h : ∀ key args u, unfold key args = .ok u → unfold' key args = .ok u) :
    ∀ {t u : Ty}, t.expandWith unfold = .ok u → t.expandWith unfold' = .ok u
  | .path ⟨absolute, segments, binding⟩, u, hu => by
    simp only [expandWith, Result.bind_eq_ok] at hu ⊢
    obtain ⟨found, hfound, hu⟩ := hu
    refine ⟨found, expandSegmentsWith_mono h hfound, ?_⟩
    cases binding with
    | typeAlias key => exact h key _ u hu
    | _ => exact hu
  | .borrow kind inner, u, hu | .array inner size, u, hu => by
    simp only [expandWith, Result.bind_eq_ok] at hu ⊢
    obtain ⟨v, hv, hu⟩ := hu
    exact ⟨v, expandWith_mono h hv, hu⟩
  | .tuple items, u, hu => by
    simp only [expandWith, Result.bind_eq_ok] at hu ⊢
    obtain ⟨us, hus, hu⟩ := hu
    exact ⟨us, expandAllWith_mono h hus, hu⟩
  | .wildcard, _, hu | .unit, _, hu | .primitive _, _, hu | .generic _, _, hu => hu

theorem expandAllWith_mono (h : ∀ key args u, unfold key args = .ok u → unfold' key args = .ok u) :
    ∀ {ts us : List Ty}, expandAllWith unfold ts = .ok us → expandAllWith unfold' ts = .ok us
  | [], _, hus => hus
  | t :: ts, us, hus => by
    simp only [expandAllWith, Result.bind_eq_ok] at hus ⊢
    obtain ⟨u, hu, us, hrest, h'⟩ := hus
    exact ⟨u, expandWith_mono h hu, us, expandAllWith_mono h hrest, h'⟩

theorem expandSegmentsWith_mono
    (h : ∀ key args u, unfold key args = .ok u → unfold' key args = .ok u) :
    ∀ {segments found : List Segment}, expandSegmentsWith unfold segments = .ok found →
      expandSegmentsWith unfold' segments = .ok found
  | [], _, hf => hf
  | ⟨name, args⟩ :: rest, found, hf => by
    simp only [expandSegmentsWith, Result.bind_eq_ok] at hf ⊢
    obtain ⟨args', ha, rest', hr, h'⟩ := hf
    exact ⟨args', expandAllWith_mono h ha, rest', expandSegmentsWith_mono h hr, h'⟩

end

end

end Ty

namespace Aliases
variable {aliases : Aliases}

/-- An expansion that succeeds does so whatever place is blamed. -/
theorem expandAt_span {span : Span} (span' : Span) {n : Nat} {t u : Ty}
    (h : aliases.expandAt span n t = .ok u) : aliases.expandAt span' n t = .ok u := by
  induction n generalizing t u with
  | zero => exact Ty.expandWith_mono (fun _ _ _ hu => by cases hu) h
  | succ n ih =>
    refine Ty.expandWith_mono (fun key args u hu => ?_) h
    simp only [Result.bind_eq_ok, Table.find_eq_ok] at hu ⊢
    obtain ⟨d, hd, hu⟩ := hu
    exact ⟨d, hd, ih hu⟩

/-- The targets of aliases mention only the parameters of their own alias, so all that an argument
brings into a target is still to be replaced there. -/
theorem expandAt_substitute {s : Substitution}
    (haliases : ∀ key d, aliases.get? key = some d → d.type.GenericsIn (· ∈ d.params.names))
    (hs : ∀ name u, s.get? name = some u → u.AliasFree) (span : Span) (n : Nat) (t : Ty) :
    aliases.expandAt span n (t.substitute s) = Ty.substitute s <$> aliases.expandAt span n t := by
  induction n generalizing t with
  | zero => exact Ty.expandWith_substitute (fun _ _ => rfl) hs t
  | succ n ih =>
    refine Ty.expandWith_substitute (fun key args => ?_) hs t
    rw [Table.find]
    cases hd : aliases.get? key with
    | none => rfl
    | some d =>
      change aliases.expandAt span n _ = Ty.substitute s <$> aliases.expandAt span n _
      rw [(haliases key d hd).substitute_ofArgs_map, ih]

end Aliases

/-! ### Fields of the symbols -/

theorem find?_of_forall₂ {α β : Type} {R : α → β → Prop} {p : α → Bool} {q : β → Bool}
    (hpq : ∀ a b, R a b → p a = q b) {as : List α} {bs : List β} (h : List.Forall₂ R as bs) :
    Option.Rel R (as.find? p) (bs.find? q) := by
  induction h with
  | nil => exact .none
  | cons hab _ ih =>
    rw [List.find?_cons, List.find?_cons, hpq _ _ hab]
    split
    · exact .some hab
    · exact ih

namespace Aliases
variable {aliases : Aliases}

theorem expandField_eq_ok {f f' : Field} : aliases.expandField f = .ok f' ↔
    ∃ t, aliases.expand f.span f.type = .ok t ∧ { f with type := t } = f' := by
  simp only [expandField, Result.bind_eq_ok, Result.pure_eq_ok]

theorem find?_of_expandStruct {d d' : StructDef} (h : aliases.expandStruct d = .ok d')
    (name : String) : d'.params = d.params ∧
      Option.Rel (fun f f' => aliases.expandField f = .ok f') (d.fields.find? (·.name == name))
        (d'.fields.find? (·.name == name)) := by
  simp only [expandStruct, Result.bind_eq_ok, Result.pure_eq_ok] at h
  obtain ⟨fields, hfields, rfl⟩ := h
  refine ⟨rfl, find?_of_forall₂ (fun f f' hf => ?_) (Result.mapM_eq_ok.mp hfields)⟩
  obtain ⟨_, -, rfl⟩ := expandField_eq_ok.mp hf
  rfl

end Aliases

namespace Symbols

/-- The field of a stored type, which has no alias left, has the type that the written field has once
its own arguments are put in and its aliases are expanded. -/
theorem fieldType_of_expandAliases {s s' : Symbols} (h : s.expandAliases = .ok s')
    (htargets : s.TargetsIn fun names => Ty.GenericsIn (· ∈ names)) (key : Key) {args : List Ty}
    (hargs : ∀ t ∈ args, t.AliasFree) (name : String) (span : Span) :
    s'.fieldType key args name span =
      s.fieldType key args name span >>= s.aliases.expand span := by
  simp only [expandAliases, Result.bind_eq_ok, Result.pure_eq_ok] at h
  obtain ⟨structs, hstructs, _, -, _, -, _, -, _, -, rfl⟩ := h
  have hentry := Table.rel_get?_mapValuesM hstructs key
  simp only [fieldType, Table.find]
  generalize s.structs.get? key = declared at hentry ⊢
  generalize structs.get? key = stored at hentry ⊢
  cases hentry with
  | none => rfl
  | @some d d' hd =>
    obtain ⟨hparams, hfield⟩ := Aliases.find?_of_expandStruct hd name
    simp only [bind, Except.bind, hparams]
    generalize d.fields.find? (·.name == name) = declared at hfield ⊢
    generalize d'.fields.find? (·.name == name) = stored at hfield ⊢
    cases hfield with
    | none => rfl
    | @some f f' hf =>
      obtain ⟨t, ht, rfl⟩ := Aliases.expandField_eq_ok.mp hf
      have hgiven : ∀ n u, (Substitution.ofArgs d.params.names args).get? n = some u → u.AliasFree :=
        fun n u hu => Substitution.allBindings_ofArgs _ hargs _ (mem_of_lookup_eq_some hu)
      have hexpand := Aliases.expandAt_substitute htargets hgiven span Aliases.depthLimit f.type
      rw [Aliases.expandAt_span span ht] at hexpand
      exact hexpand.symm

/-- Where the targets of aliases mention only the parameters of their own alias, as they do in a
program written without type parameters bound beforehand, aliases are expanded before or after the
parameters of a type are given types without aliases; and the stored field of a struct is the
written one, instantiated and then expanded. -/
theorem expand_substitute :
    (∀ s : Symbols, s.TargetsIn (fun names => Ty.GenericsIn (· ∈ names)) →
      (∀ (span : Span) (t : Ty) (sub : Substitution),
        (∀ name u, sub.get? name = some u → u.AliasFree) →
        s.aliases.expand span (t.substitute sub) = Ty.substitute sub <$> s.aliases.expand span t) ∧
      ∀ s', s.expandAliases = .ok s' → ∀ (key : Key) (args : List Ty) (name : String) (span : Span),
        (∀ t ∈ args, t.AliasFree) →
        s'.fieldType key args name span =
          s.fieldType key args name span >>= s.aliases.expand span) ∧
    ∀ source p, Program.ofModule source = .ok p → (∀ pl ∈ source.places, pl.phrase.Unbound) →
      (∀ pl ∈ source.places, pl.phrase.generics = []) →
      p.symbols.TargetsIn fun names => Ty.GenericsIn (· ∈ names) := by
  refine ⟨fun s hs => ⟨fun span t sub hsub => ?_, fun s' h key args name span hargs => ?_⟩,
    fun source p h hun hwritten => (Program.symbols_scoped h hun hwritten).targets⟩
  · exact Aliases.expandAt_substitute hs hsub span Aliases.depthLimit t
  · exact fieldType_of_expandAliases h hs key hargs name span

end Symbols

/-- In source form, `type Pair<T> = (T, T); struct Row<T> { cells: Pair<&T> }`. -/
def Module.rows : Module :=
  let named (name : String) : Ty := .path (.bare name)
  let pair (t : Ty) : Ty := .path ⟨false, [⟨"Pair", [t]⟩], .unbound⟩
  ⟨"", [], [
    .typeAlias ⟨"Pair", ⟨["T"], []⟩, .tuple [named "T", named "T"], default⟩,
    .struct ⟨"Row", ⟨["T"], []⟩, [⟨"cells", pair (.borrow .shared (named "T")), default⟩], default⟩]⟩

/-- In source form, `Pair<T>` for `T = Row<u8>`, and the field of a `Row<u8>`. -/
theorem Symbols.expand_substitute_rows : ∃ p s, Program.ofModule .rows = .ok p ∧
    s = collect [] empty p.root ∧ s.expandAliases = .ok p.symbols ∧
    (∃ t u : Ty, t = .path ⟨true, [⟨"Pair", [.generic "T"]⟩], .typeAlias "::Pair"⟩ ∧
      u = .path ⟨true, [⟨"Row", [.primitive .u8]⟩], .structType "::Row"⟩ ∧ u.AliasFree ∧
      s.aliases.expand default (t.substitute [("T", u)]) =
        Ty.substitute [("T", u)] <$> s.aliases.expand default t ∧
      s.aliases.expand default (t.substitute [("T", u)]) = .ok (.tuple [u, u])) ∧
    p.symbols.fieldType "::Row" [.primitive .u8] "cells" default =
      s.fieldType "::Row" [.primitive .u8] "cells" default >>= s.aliases.expand default ∧
    p.symbols.fieldType "::Row" [.primitive .u8] "cells" default =
      .ok (.tuple [.borrow .shared (.primitive .u8), .borrow .shared (.primitive .u8)]) := by
  obtain ⟨hsymbols, hprogram⟩ := Symbols.expand_substitute
  have hun : ∀ pl ∈ Module.rows.places, pl.phrase.Unbound := by decide
  have hwritten : ∀ pl ∈ Module.rows.places, pl.phrase.generics = [] := by decide
  have htargets := hprogram .rows _ rfl hun hwritten
  have hargs : ∀ t ∈ [Ty.primitive .u8], t.AliasFree :=
    List.forall_mem_singleton.mpr (Ty.allBindings_primitive _)
  have hrow : Ty.AliasFree (.path ⟨true, [⟨"Row", [.primitive .u8]⟩], .structType "::Row"⟩) :=
    Ty.allBindings_path.mpr
      ⟨nofun, Ty.segmentsBindings_cons.mpr ⟨hargs, Ty.segmentsBindings_nil⟩⟩
  obtain ⟨hexpand, hfield⟩ := hsymbols (collect [] empty _) htargets
  refine ⟨_, _, rfl, rfl, rfl, ⟨_, _, rfl, rfl, hrow, hexpand _ _ _ ?_, rfl⟩,
    hfield _ rfl "::Row" [.primitive .u8] "cells" default hargs, rfl⟩
  intro name u hu
  have hmem := mem_of_lookup_eq_some hu
  cases List.mem_singleton.mp hmem
  exact hrow

end BorrowLang
