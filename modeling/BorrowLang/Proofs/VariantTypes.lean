import BorrowLang.Check.Named
import BorrowLang.Proofs.Denotation
import BorrowLang.Proofs.Matching
import BorrowLang.Proofs.PatternLocals

/-!
A variant applied to values and the pattern of the same variant agree. The type that results has an
argument for each parameter of the enum, with these arguments the types of the fields merge with
the types of the values, and the pattern takes a value of the type apart into those same types.
-/
namespace BorrowLang

namespace Ty

theorem AllRefine.length_eq : ∀ {ts us : List Ty}, AllRefine ts us → ts.length = us.length
  | _, _, .nil => rfl
  | _, _, .cons _ hs => by rw [List.length_cons, List.length_cons, hs.length_eq]

theorem AllRefine.getElem? : ∀ {ts us : List Ty} {i : Nat} {t : Ty}, AllRefine ts us →
    ts[i]? = some t → ∃ u, us[i]? = some u ∧ t ≤ u
  | _, _, 0, _, .cons h _, ht => by
    obtain rfl := Option.some.inj ht
    exact ⟨_, rfl, h⟩
  | _, _, _ + 1, _, .cons _ hs, ht => hs.getElem? ht

theorem allRefine_set : ∀ {ts : List Ty} {i : Nat} {t : Ty}, ts[i]?.getD wildcard ≤ t →
    AllRefine ts (ts.set i t)
  | [], _, _, _ => .nil
  | _ :: ts, 0, _, h => .cons h (.refl ts)
  | u :: _, i + 1, _, h => .cons (.refl u) (allRefine_set (i := i) h)

end Ty

namespace Substitution
open Ty

theorem get?_eq_none {s : Substitution} {name : String} (h : name ∉ s.map (·.1)) :
    s.get? name = none := by
  rw [get?, List.lookup_eq_none_iff]
  intro entry hentry
  simp only [bne_iff_ne, ne_eq]
  rintro rfl
  exact h (List.mem_map_of_mem hentry)

/-- Where no name is listed twice the order of the entries does not matter. -/
theorem get?_reverse {s : Substitution} (h : (s.map (·.1)).Nodup) (name : String) :
    get? s.reverse name = s.get? name := by
  induction s with
  | nil => rfl
  | cons entry s ih =>
    obtain ⟨n, t⟩ := entry
    obtain ⟨hn, hs⟩ := List.nodup_cons.mp h
    rw [List.reverse_cons, get?_append, ih hs, get?_cons, get?_cons, get?_nil]
    split
    · next he =>
      subst he
      rw [get?_eq_none hn, Option.none_or]
    · rw [Option.or_none]

theorem get?_pad {names : List String} {name : String} {i : Nat}
    (h : names.findIdx? (· == name) = some i) (args : List Ty) :
    get? (pad names args) name = some (args[i]?.getD .wildcard) := by
  induction names generalizing args i with
  | nil => contradiction
  | cons n names ih =>
    rw [List.findIdx?_cons] at h
    by_cases hn : n = name
    · simp only [hn, beq_self_eq_true, if_true, Option.some.injEq] at h
      subst h
      cases args <;> rw [pad, get?_cons, if_pos hn.symm] <;> rfl
    · simp only [beq_eq_false_iff_ne.mpr hn, Bool.false_eq_true, if_false] at h
      obtain ⟨j, hj, rfl⟩ := Option.map_eq_some_iff.mp h
      cases args with
      | nil =>
        rw [pad, get?_cons, if_neg (Ne.symm hn), ih hj]
        rfl
      | cons t args => rw [pad, get?_cons, if_neg (Ne.symm hn), ih hj, List.getElem?_cons_succ]

theorem pad_below : ∀ (names : List String) {args args' : List Ty}, AllRefine args args' →
    (pad names args).Below (pad names args')
  | [], _, _, _ => nil_below _
  | _ :: names, _, _, .nil => Below.refl _
  | n :: names, _, _, .cons (t := t) (u := u) h hs => by
    intro name w hw
    rw [pad, get?_cons] at hw ⊢
    split at hw
    · next hn =>
      obtain rfl := Option.some.inj hw
      exact ⟨u, if_pos hn, h⟩
    · next hn =>
      rw [if_neg hn]
      exact pad_below names hs name w hw

/-- Arguments that are left out are refined by any. -/
theorem pad_nil_refinedBy : ∀ (names : List String) (args : List Ty),
    (pad names []).RefinedBy (pad names args)
  | [], _, _ | _ :: _, [], _ => le_rfl
  | n :: names, t :: args, name => by
    rw [pad, pad, get?_cons, get?_cons]
    split
    · exact wildcard_le t
    · exact pad_nil_refinedBy names args name

theorem get?_ofArgs {names : List String} (hnames : names.Nodup) (args : List Ty) (name : String) :
    get? (ofArgs names args) name = get? (pad names args) name :=
  get?_reverse ((map_fst_pad names args).symm ▸ hnames) name

end Substitution

namespace EnumDef
variable (d : EnumDef)

/-- The type of a field, with these arguments for the parameters. -/
def instantiate (args : List Ty) (template : Ty) : Ty :=
  template.substitute (.ofArgs d.params.names args)

variable {d} {span : Span} {args args' : List Ty}

theorem written_args {p : Path} (h : d.args p span = .ok args) :
    args.length = d.params.names.length ∧
      ∀ (i : Nat) (t : Ty), p.enumArgs[i]? = some t → args[i]? = some t := by
  unfold EnumDef.args at h
  dsimp only at h
  split at h
  · contradiction
  · next hle =>
    obtain rfl := Except.ok.inj h
    refine ⟨Ty.length_resize .., fun i t ht => ?_⟩
    have hi : i < p.enumArgs.length := (List.getElem?_eq_some_iff.mp ht).1
    rw [Ty.resize, List.take_of_length_le (by omega), List.getElem?_append_left hi, ht]

/-- One type found for a parameter: the arguments are refined, that of the parameter by the type. -/
theorem refineArg_refines {name : String} {t : Ty} (hlen : args.length = d.params.names.length)
    (h : d.refineArg span args (name, t) = .ok args') :
    Ty.AllRefine args args' ∧
      ∃ v, (Substitution.pad d.params.names args').get? name = some v ∧ t ≤ v := by
  unfold refineArg at h
  dsimp only at h
  split at h
  · contradiction
  · next i hi =>
    simp only [Result.bind_eq_ok, Result.pure_eq_ok] at h
    obtain ⟨u, hu, rfl⟩ := h
    obtain ⟨hold, ht⟩ := Ty.le_of_mergeAt hu
    have hlt : i < args.length := hlen ▸ (List.findIdx?_eq_some_iff_getElem.mp hi).1
    refine ⟨Ty.allRefine_set hold, u, ?_, ht⟩
    rw [Substitution.get?_pad hi, List.getElem?_set_self hlt, Option.getD_some]

theorem foldlM_refineArg {found : Ty.Matches} (hlen : args.length = d.params.names.length)
    (h : found.foldlM (d.refineArg span) args = .ok args') :
    Ty.AllRefine args args' ∧ (Substitution.pad d.params.names args').Explains found := by
  induction found generalizing args with
  | nil =>
    rw [List.foldlM_nil, Result.pure_eq_ok] at h
    subst h
    exact ⟨.refl args, Substitution.explains_nil _⟩
  | cons m found ih =>
    obtain ⟨name, t⟩ := m
    rw [List.foldlM_cons, Result.bind_eq_ok] at h
    obtain ⟨mid, hmid, h⟩ := h
    obtain ⟨hle, v, hv, htv⟩ := refineArg_refines hlen hmid
    obtain ⟨hle', hfound⟩ := ih (hle.length_eq ▸ hlen) h
    obtain ⟨w, hw, hvw⟩ := Substitution.pad_below _ hle' name v hv
    exact ⟨hle.trans hle', Substitution.explains_cons.mpr ⟨⟨w, hw, htv.trans hvw⟩, hfound⟩⟩

/-- The types that the field finds for the parameters are refined by these arguments. -/
def Explains (d : EnumDef) (args : List Ty) (template t : Ty) : Prop :=
  ∃ m, template.matchTemplate? t = some m ∧ (Substitution.pad d.params.names args).Explains m

theorem Explains.mono {template t : Ty} (h : d.Explains args template t)
    (hle : Ty.AllRefine args args') : d.Explains args' template t := by
  obtain ⟨m, hm, hexplains⟩ := h
  exact ⟨m, hm, hexplains.mono (Substitution.pad_below _ hle)⟩

/-- One field. -/
theorem refineArgs_explains {template found : Ty} (hlen : args.length = d.params.names.length)
    (h : d.refineArgs span args (template, found) = .ok args') :
    Ty.AllRefine args args' ∧ d.Explains args' template found := by
  simp only [refineArgs, Result.bind_eq_ok] at h
  obtain ⟨m, hm, h⟩ := h
  obtain ⟨hle, hexplains⟩ := foldlM_refineArg hlen h
  refine ⟨hle, m, ?_, hexplains⟩
  unfold Ty.matchTemplateAt at hm
  split at hm
  · next hm' =>
    obtain rfl := Except.ok.inj hm
    exact Ty.matchTemplate_eq_ok_iff.mp hm'
  · contradiction

/-- All fields: what the arguments explain after one of them the arguments of the end explain as
well, since these are refinements. -/
theorem foldlM_refineArgs_explains : ∀ {templates found : List Ty} {args : List Ty},
    args.length = d.params.names.length → templates.length = found.length →
    (templates.zip found).foldlM (d.refineArgs span) args = .ok args' →
      Ty.AllRefine args args' ∧ List.Forall₂ (d.Explains args') templates found
  | [], [], args, _, _, h => by
    rw [List.zip_nil_left, List.foldlM_nil, Result.pure_eq_ok] at h
    subst h
    exact ⟨.refl args, .nil⟩
  | template :: templates, t :: found, args, hlen, hcount, h => by
    rw [List.zip_cons_cons, List.foldlM_cons, Result.bind_eq_ok] at h
    obtain ⟨mid, hmid, h⟩ := h
    obtain ⟨hle, hexplains⟩ := refineArgs_explains hlen hmid
    obtain ⟨hle', hrest⟩ :=
      foldlM_refineArgs_explains (hle.length_eq ▸ hlen) (Nat.succ.inj hcount) h
    exact ⟨hle.trans hle', .cons (hexplains.mono hle') hrest⟩

/-- With the arguments that result, the types of the fields and those of the values have common
refinements. -/
theorem foldlM_refineArgs (hnames : d.params.names.Nodup) {templates found : List Ty}
    (hlen : args.length = d.params.names.length) (hcount : templates.length = found.length)
    (h : (templates.zip found).foldlM (d.refineArgs span) args = .ok args') :
    Ty.AllRefine args args' ∧
      List.Forall₂ (fun template t => ∃ w, (d.instantiate args' template).merge t = .ok w)
        templates found := by
  obtain ⟨hle, hfields⟩ := foldlM_refineArgs_explains hlen hcount h
  refine ⟨hle, hfields.imp fun template t ⟨m, hm, hexplains⟩ => ?_⟩
  refine Ty.merge_of_matchTemplate? hm fun entry he => ?_
  rw [Substitution.get?_ofArgs hnames]
  exact hexplains entry he

end EnumDef

namespace Check

/-- A pattern that is no more than a name. -/
def identifierPattern (id : String × Mutability × Span) : Pattern :=
  .identifier id.1 id.2.1 id.2.2

/-- The local that a name declares in a value of the type. -/
def identifierLocal (id : String × Mutability × Span) (t : Ty) : Local := ⟨id.1, id.2.1, t⟩

theorem patterns_identifiers (s : Symbols) : ∀ (ids : List (String × Mutability × Span))
    (types : List Ty) (frame : Frame) (frames : Frames),
    (patterns s (ids.map identifierPattern) types).run (frame :: frames) =
      (.ok (), Frames.declare (List.zipWith identifierLocal ids types).reverse (frame :: frames))
  | [], types, frame, frames => rfl
  | _ :: _, [], frame, frames => rfl
  | id :: ids, t :: types, frame, frames => by
    have hrest := patterns_identifiers s ids types
      { frame with locals := identifierLocal id t :: frame.locals } frames
    rw [List.map_cons, patterns, run_bind]
    change (patterns s (ids.map identifierPattern) types).run
      ({ frame with locals := identifierLocal id t :: frame.locals } :: frames) = _
    rw [hrest, List.zipWith_cons_cons, List.reverse_cons]
    simp only [Frames.declare, List.append_assoc, List.singleton_append]

end Check

namespace Path

theorem names_withLastArgs (p : Path) (args : List Ty) : (p.withLastArgs args).names = p.names := by
  obtain ⟨absolute, segments, binding⟩ := p
  cases h : segments.getLast? with
  | none =>
    rw [List.getLast?_eq_none_iff] at h
    subst h
    rfl
  | some last =>
    have hsplit := List.dropLast_append_getLast? last h
    simp only [names, withLastArgs, last?, h, Option.map_some, Option.toList_some]
    conv_rhs => rw [← hsplit]
    simp

theorem names_parent (p : Path) : p.parent.names = p.names.dropLast :=
  List.map_dropLast ..

/-- The type of the enum that a path names a variant of: the path of the enum, with the arguments
behind it. -/
theorem enumType_eq {s : Symbols} {p : Path} {enumKey : Key} {index : Nat} (hp : p.Denotes s)
    (hb : p.binding = .variant enumKey index) (args : List Ty) :
    ∃ q : Path, p.enumType enumKey args = .path q ∧ q.absolute = true ∧
      q.binding = .enumType enumKey ∧ q.key = enumKey ∧
      (args = [] ∨ 2 ≤ p.segments.length → q.lastArgs = args) := by
  have habsolute : Path.absolute { p.parent.withLastArgs args with
    binding := .enumType enumKey } = true := hp.absolute
  refine ⟨_, rfl, habsolute, rfl, ?_, fun hargs => ?_⟩
  · have hspelled := hp.spelled
    rw [hb] at hspelled
    obtain ⟨parents, -, v, hnames, hkey, -⟩ := hspelled
    rw [key_of_absolute habsolute]
    change Key.ofNames (p.parent.withLastArgs args).names = enumKey
    rw [names_withLastArgs, names_parent, hnames, List.dropLast_concat, hkey]
  · change (p.parent.withLastArgs args).lastArgs = args
    unfold lastArgs withLastArgs last?
    cases h : p.parent.segments.getLast? with
    | some last => simp
    | none =>
      rw [List.getLast?_eq_none_iff] at h
      have hshort : p.segments.length ≤ 1 := by
        have := congrArg List.length h
        simp only [parent, List.length_dropLast, List.length_nil] at this
        omega
      obtain rfl := hargs.resolve_right (by omega)
      rw [h]
      rfl

end Path

namespace Symbols
variable {s : Symbols} {path : Path} {enumKey : Key} {index : Nat} {d : EnumDef} {v : Variant}
  {templates : List Ty}

theorem variantType_eq_ok (hd : s.enums.get? enumKey = some d) (hv : d.variants[index]? = some v)
    (htemplates : v.data.positional? = some templates) {found : List Ty} {span : Span} {t : Ty}
    (h : s.variantType path enumKey index found span = .ok t) :
    templates.length = found.length ∧ ∃ written args, d.args path span = .ok written ∧
      (templates.zip found).foldlM (d.refineArgs span) written = .ok args ∧
      t = path.enumType enumKey args := by
  obtain ⟨d', v', templates', written, args, hd', hv', htemplates', hcount, hwritten, hargs, rfl⟩ :=
    exists_of_variantType h
  obtain rfl := Option.some.inj (hd.symm.trans hd')
  obtain rfl := Option.some.inj (hv.symm.trans hv')
  obtain rfl := Option.some.inj (htemplates.symm.trans htemplates')
  exact ⟨hcount, written, args, hwritten, hargs, rfl⟩

/-- In a value of the enum's own type the parts of a variant are its fields, with the arguments of
that type. -/
theorem variantParts_path (hb : path.binding = .variant enumKey index)
    (hd : s.enums.get? enumKey = some d) (hv : d.variants[index]? = some v)
    (htemplates : v.data.positional? = some templates) {p : Path} (hp : p.key = enumKey)
    (span : Span) :
    s.variantParts path templates.length (.path p) span =
      .ok (templates.map (d.instantiate p.lastArgs)) := by
  simp only [variantParts, hb, Result.bind_eq_ok]
  refine ⟨_, Symbols.variant_eq_ok.mpr ⟨hd, hv⟩, ?_⟩
  simp only [htemplates, ne_eq, not_true_eq_false, if_false, Result.bind_eq_ok, Result.pure_eq_ok]
  exact ⟨p.lastArgs, if_pos hp, rfl⟩

/-- A bound path to a variant without field names, applied to values: if a type results it is the
path of the enum with exactly one argument for each parameter, each refining the argument that is
written for it. With these arguments every field merges with its value, and the pattern of the
variant that names the fields declares locals of just these types, in order. The path has a segment
for the enum, unless the enum has no parameters. -/
theorem variantType_agrees (hpath : path.Denotes s) (hb : path.binding = .variant enumKey index)
    (hd : s.enums.get? enumKey = some d) (hv : d.variants[index]? = some v)
    (htemplates : v.data.positional? = some templates) (hnames : d.params.names.Nodup)
    (hsegments : d.params.names ≠ [] → 2 ≤ path.segments.length) {found : List Ty} {span : Span}
    {t : Ty} (h : s.variantType path enumKey index found span = .ok t) :
    ∃ p : Path, t = .path p ∧ p.absolute = true ∧ p.binding = .enumType enumKey ∧
      p.key = enumKey ∧ p.lastArgs.length = d.params.names.length ∧
      (∀ (i : Nat) (u : Ty), path.enumArgs[i]? = some u → ∃ u', p.lastArgs[i]? = some u' ∧ u ≤ u') ∧
      List.Forall₂ (fun template u => ∃ w, (d.instantiate p.lastArgs template).merge u = .ok w)
        templates found ∧
      ∀ (q : Path) (ids : List (String × Mutability × Span)) (span' : Span) (f : Frame)
        (frames : Frames), q.binding = .variant enumKey index → ids.length = templates.length →
        (Check.pattern s (.variant q (ids.map Check.identifierPattern) span') t).run (f :: frames) =
          (.ok (), Frames.declare (List.zipWith Check.identifierLocal ids
            (templates.map (d.instantiate p.lastArgs))).reverse (f :: frames)) := by
  obtain ⟨hcount, written, args, hwritten, hargs, rfl⟩ := variantType_eq_ok hd hv htemplates h
  obtain ⟨hlen, hgiven⟩ := EnumDef.written_args hwritten
  obtain ⟨hle, hfields⟩ := EnumDef.foldlM_refineArgs hnames hlen hcount hargs
  have hargslen : args.length = d.params.names.length := hle.length_eq ▸ hlen
  obtain ⟨p, hp, habsolute, hbinding, hkey, hlast⟩ := Path.enumType_eq hpath hb args
  have hlast : p.lastArgs = args := by
    refine hlast ?_
    by_cases hparams : d.params.names = []
    · exact .inl (List.eq_nil_of_length_eq_zero (by rw [hargslen, hparams, List.length_nil]))
    · exact .inr (hsegments hparams)
  subst hlast
  refine ⟨p, hp, habsolute, hbinding, hkey, hargslen, fun i u hu => ?_, hfields, ?_⟩
  · exact hle.getElem? (hgiven i u hu)
  · intro q ids span' f frames hq hids
    rw [hp, Check.pattern, List.length_map, hids, variantParts_path hq hd hv htemplates hkey,
      Check.run_bind, Check.run_ofResult]
    exact Check.patterns_identifiers s ids _ f frames

/-- `enum E<A, B> { V(A, (B, A)) }` in the root module. -/
def ofPairs : Symbols where
  structs := []
  enums := [("::E", ⟨"E", ⟨["A", "B"], []⟩,
    [⟨"V", .tuple [.generic "A", .tuple [.generic "B", .generic "A"]], default⟩], default⟩)]
  statics := []
  functions := []
  aliases := []
  impls := []

/-- `::E::<[_; 4]>::V`. -/
def pathOfPairs : Path :=
  ⟨true, [⟨"E", [.array .wildcard (some 4)]⟩, ⟨"V", []⟩], .variant "::E" 0⟩

/-- `E<[u8; 4], bool>`. -/
def typeOfPairs : Path :=
  ⟨true, [⟨"E", [.array (.primitive .u8) (some 4), .primitive .bool]⟩], .enumType "::E"⟩

/-- Applied to a `[u8]` and a `(bool, _)`, and taken apart into `a` and `p`. -/
theorem variantType_agrees_ofPairs :
    pathOfPairs.Denotes ofPairs ∧
    ofPairs.variantType pathOfPairs "::E" 0
      [.array (.primitive .u8) none, .tuple [.primitive .bool, .wildcard]] default =
        .ok (.path typeOfPairs) ∧
    typeOfPairs.lastArgs.length = 2 ∧
    .array .wildcard (some 4) ≤ Ty.array (.primitive .u8) (some 4) ∧
    (Check.pattern ofPairs (.variant pathOfPairs [.identifier "a" .immutable default,
      .identifier "p" .mutable default] default) (.path typeOfPairs)).run [.empty] =
        (.ok (), [{ Frame.empty with locals :=
          [⟨"p", .mutable, .tuple [.primitive .bool, .array (.primitive .u8) (some 4)]⟩,
            ⟨"a", .immutable, .array (.primitive .u8) (some 4)⟩] }]) := by
  have hpath : pathOfPairs.Denotes ofPairs :=
    ⟨rfl, ⟨["E"], _, _, rfl, by decide, fun _ => by decide, rfl, rfl⟩, _, rfl, by decide⟩
  have htype : ofPairs.variantType pathOfPairs "::E" 0
      [.array (.primitive .u8) none, .tuple [.primitive .bool, .wildcard]] default =
        .ok (.path typeOfPairs) := by rfl
  obtain ⟨p, hp, -, -, -, hlen, hgiven, -, hpattern⟩ :=
    variantType_agrees hpath rfl rfl rfl rfl (by decide) (fun _ => by decide) htype
  obtain rfl := Ty.path.inj hp
  obtain ⟨u, hu, hle⟩ := hgiven 0 _ rfl
  obtain rfl := Option.some.inj hu
  exact ⟨hpath, htype, hlen, hle, hpattern pathOfPairs
    [("a", .immutable, default), ("p", .mutable, default)] default .empty [] rfl rfl⟩

/-- An enum without a name in the root module has the key of the root itself, so `::V` alone reaches
its variant. -/
def nameless : EnumDef :=
  ⟨"", ⟨["T"], []⟩, [⟨"V", .tuple [.generic "T"], default⟩], default⟩

def ofNameless : Module := ⟨"", [], [.enum nameless]⟩

/-- The path of the variant has no segment in which the enum could have its argument: the type that
results has none, and the pattern takes from it a part of which nothing is known. -/
theorem variantType_nameless :
    ∃ s path p, ofModule ofNameless = .ok s ∧
      Names.bindPath ⟨.ofModule ofNameless, [], [], [], none⟩ default
        ⟨true, [⟨"V", []⟩], .unbound⟩ = .ok path ∧
      path.Denotes s ∧ path.binding = .variant "::" 0 ∧ s.enums.get? "::" = some nameless ∧
      s.variantType path "::" 0 [.primitive .bool] default = .ok (.path p) ∧
      p.lastArgs.length ≠ nameless.params.names.length ∧
      ∃ frame : Frame, (Check.pattern s (.variant path [.identifier "x" .immutable default] default)
        (.path p)).run [.empty] = (.ok (), [frame]) ∧
        frame.locals = [⟨"x", .immutable, .wildcard⟩] :=
  ⟨_, _, _, rfl, rfl, ⟨rfl, ⟨[], _, _, rfl, by decide, nofun, rfl, rfl⟩, _, rfl, by decide⟩, rfl,
    rfl, rfl, by decide, _, rfl, rfl⟩

end Symbols
end BorrowLang
