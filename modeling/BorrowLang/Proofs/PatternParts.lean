import BorrowLang.Proofs.PatternLocals
import BorrowLang.Proofs.Refinement

/-!
What the parts of a pattern are matched with. Struct and variant patterns see through references:
to their fields they hand references of the outermost kind, and where nothing is known of the value,
what the declarations of the fields say.
-/
namespace BorrowLang

/-- The pattern of a struct or of a variant. -/
def Pattern.ofItem : Pattern → Bool
  | .variant .. | .fields .. => true
  | .wildcard _ | .identifier .. | .literal .. | .tuple .. | .reference .. => false

section
variable (s : Symbols)

/-- Matched with a value of the one type, the pattern matches its part with one of the other. -/
inductive Pattern.Hands : Pattern → Ty → Pattern → Ty → Prop
  | tuple {items : List Pattern} {span : Span} {t : Ty} {types : List Ty} {p : Pattern} {u : Ty} :
    t.tupleParts items.length span = .ok types → (p, u) ∈ items.zip types →
      Hands (.tuple items span) t p u
  | reference {p : Pattern} {span : Span} {t u : Ty} : t.referencePart span = .ok u →
    Hands (.reference p span) t p u
  | variant {path : Path} {items : List Pattern} {span : Span} {t : Ty} {types : List Ty}
    {p : Pattern} {u : Ty} : s.variantParts path items.length t span = .ok types →
    (p, u) ∈ items.zip types → Hands (.variant path items span) t p u
  | fields {path : Path} {fields : List (String × Pattern)} {span : Span} {t : Ty}
    {parts : List (String × Ty)} {name : String} {p : Pattern} {u : Ty} :
    s.namedParts path t span = .ok parts → (name, p) ∈ fields → parts.lookup name = some u →
      Hands (.fields path fields span) t p u

/-- The same of the parts of parts, and of the pattern itself. -/
inductive Pattern.Reaches : Pattern → Ty → Pattern → Ty → Prop
  | self (p : Pattern) (t : Ty) : Reaches p t p t
  | part {p q r : Pattern} {t u v : Ty} : p.Hands s t q u → Reaches q u r v → Reaches p t r v

/-- The pattern of a struct or variant of the item `owner`, which has these parameters, has the part
for a field that is declared with the type. -/
inductive Pattern.Takes : Pattern → Key → Params → Pattern → Ty → Prop
  | variant {path : Path} {items : List Pattern} {span : Span} {enumKey : Key} {index : Nat}
    {d : EnumDef} {v : Variant} {types : List Ty} {p : Pattern} {declared : Ty} :
    path.binding = .variant enumKey index → s.enums.get? enumKey = some d →
    d.variants[index]? = some v → v.data.positional? = some types → types.length = items.length →
    (p, declared) ∈ items.zip types → Takes (.variant path items span) enumKey d.params p declared
  | fields {path : Path} {fields : List (String × Pattern)} {span : Span} {owner : Key}
    {params : Params} {declared : List Field} {name : String} {p : Pattern} {f : Field} :
    s.fieldOwner path span = .ok (owner, params, declared) → (name, p) ∈ fields →
    declared.find? (·.name == name) = some f →
      Takes (.fields path fields span) owner params p f.type

end

/-! ### The fields of structs and variants -/

namespace Symbols
variable {s : Symbols} {path : Path} {t : Ty} {span : Span}

theorem variantParts_eq_ok {n : Nat} {types : List Ty} :
    s.variantParts path n t span = .ok types ↔ ∃ enumKey index d v declared args,
      path.binding = .variant enumKey index ∧ s.enums.get? enumKey = some d ∧
      d.variants[index]? = some v ∧ v.data.positional? = some declared ∧ declared.length = n ∧
      t.argsOf enumKey span = .ok args ∧ types = declared.map (t.fieldPart d.params args) := by
  constructor
  · intro h
    unfold variantParts at h
    split at h
    · next enumKey index hb =>
      obtain ⟨⟨d, v⟩, hvariant, h⟩ := Result.bind_eq_ok.mp h
      obtain ⟨hd, hv⟩ := variant_eq_ok.mp hvariant
      dsimp only at h
      split at h
      · contradiction
      · next declared hdeclared =>
        split_ifs at h with hn
        · contradiction
        · simp only [Result.bind_eq_ok, Result.pure_eq_ok] at h
          obtain ⟨args, hargs, rfl⟩ := h
          exact ⟨enumKey, index, d, v, declared, args, hb, hd, hv, hdeclared, not_not.mp hn, hargs,
            rfl⟩
    · contradiction
  · rintro ⟨enumKey, index, d, v, declared, args, hb, hd, hv, hdeclared, rfl, hargs, rfl⟩
    simp only [variantParts, hb, Result.bind_eq_ok]
    refine ⟨_, variant_eq_ok.mpr ⟨hd, hv⟩, ?_⟩
    simp only [hdeclared, ne_eq, not_true_eq_false, if_false, Result.bind_eq_ok, Result.pure_eq_ok]
    exact ⟨args, hargs, rfl⟩

theorem namedParts_eq_ok {parts : List (String × Ty)} :
    s.namedParts path t span = .ok parts ↔ ∃ owner params declared args,
      s.fieldOwner path span = .ok (owner, params, declared) ∧ t.argsOf owner span = .ok args ∧
      parts = declared.map fun f => (f.name, t.fieldPart params args f.type) := by
  simp only [namedParts, Result.bind_eq_ok, Result.pure_eq_ok, Prod.exists]
  constructor
  · rintro ⟨owner, params, declared, howner, args, hargs, rfl⟩
    exact ⟨owner, params, declared, args, howner, hargs, rfl⟩
  · rintro ⟨owner, params, declared, args, howner, hargs, rfl⟩
    exact ⟨owner, params, declared, howner, args, hargs, rfl⟩

/-- Of fields of one name the first counts. -/
theorem lookup_map_field (part : Ty → Ty) (declared : List Field) (name : String) :
    (declared.map fun f => (f.name, part f.type)).lookup name =
      (declared.find? (·.name == name)).map (part ·.type) := by
  induction declared with
  | nil => rfl
  | cons f rest ih =>
    rw [List.map_cons, List.lookup_cons, List.find?_cons, ih, BEq.comm]
    cases f.name == name <;> rfl

end Symbols

namespace Pattern
variable {s : Symbols} {p q : Pattern} {t u : Ty}

/-- A struct or variant pattern hands on the types of its fields. -/
theorem Hands.exists_takes (h : p.Hands s t q u) (hp : p.ofItem = true) :
    ∃ owner params declared args span, p.Takes s owner params q declared ∧
      t.argsOf owner span = .ok args ∧ u = t.fieldPart params args declared := by
  cases h with
  | tuple | reference => contradiction
  | @variant path items span _ _ _ _ hparts hmem =>
    obtain ⟨enumKey, index, d, v, types, args, hb, hd, hv, htypes, hlen, hargs, rfl⟩ :=
      Symbols.variantParts_eq_ok.mp hparts
    rw [List.zip_map_right, List.mem_map] at hmem
    obtain ⟨⟨_, declared⟩, hmem, heq⟩ := hmem
    obtain ⟨rfl, rfl⟩ := Prod.mk.inj heq
    exact ⟨enumKey, d.params, declared, args, span, .variant hb hd hv htypes hlen hmem, hargs, rfl⟩
  | @fields path fields span _ _ name _ _ hparts hmem hlookup =>
    obtain ⟨owner, params, types, args, howner, hargs, rfl⟩ := Symbols.namedParts_eq_ok.mp hparts
    rw [Symbols.lookup_map_field, Option.map_eq_some_iff] at hlookup
    obtain ⟨f, hf, rfl⟩ := hlookup
    exact ⟨owner, params, f.type, args, span, .fields howner hmem hf, hargs, rfl⟩

/-- Behind references of any kinds it hands on references of the outermost kind, or what is not
known. -/
theorem Hands.kind {kind : BorrowKind} (h : p.Hands s t q u) (hp : p.ofItem = true)
    (ht : t.outerKind? = some kind) : u = .wildcard ∨ u.outerKind? = some kind := by
  obtain ⟨owner, params, declared, args, span, -, -, rfl⟩ := h.exists_takes hp
  unfold Ty.fieldPart Ty.behind
  rw [ht]
  dsimp only
  split
  · next hunknown => exact .inl (Ty.isWildcard_iff.mp hunknown)
  · exact .inr rfl

/-- Where nothing is known of the value, what it hands on is declared, but for the parameters of the
item. -/
theorem Hands.of_unknown (h : p.Hands s .wildcard q u) (hp : p.ofItem = true) :
    ∃ owner params declared, p.Takes s owner params q declared ∧
      u = declared.substitute (.ofArgs params.names []) := by
  obtain ⟨owner, params, declared, args, span, htakes, hargs, rfl⟩ := h.exists_takes hp
  obtain rfl : [] = args := Except.ok.inj hargs
  exact ⟨owner, params, declared, htakes, rfl⟩

/-- Other patterns then hand on that nothing is known. -/
theorem Hands.eq_wildcard (h : p.Hands s .wildcard q u) (hp : p.ofItem ≠ true) : u = .wildcard := by
  cases h with
  | tuple htypes hmem =>
    obtain rfl := Except.ok.inj htypes
    exact List.eq_of_mem_replicate (List.of_mem_zip hmem).2
  | reference hu => exact (Except.ok.inj hu).symm
  | variant | fields => exact absurd rfl hp

/-! ### The ways to the parts -/

/-- Under the pattern, matched with a value of the type, more than shared references may be bound:
it takes a shared reference off, or hands on declared types. -/
inductive Uncovers : Pattern → Ty → Prop
  | reference (p : Pattern) (span : Span) (t : Ty) :
    Uncovers (.reference p span) (.borrow .shared t)
  | unknown {p : Pattern} : p.ofItem = true → Uncovers p .wildcard

/-- A pattern that does not uncover it keeps to what is not known or a shared reference. -/
theorem Hands.covered (h : p.Hands s t q u) (ht : t = .wildcard ∨ t.outerKind? = some .shared)
    (hp : ¬ p.Uncovers t) : u = .wildcard ∨ u.outerKind? = some .shared := by
  by_cases hitem : p.ofItem = true
  · rcases ht with rfl | ht
    · exact absurd (.unknown hitem) hp
    · exact h.kind hitem ht
  · rcases ht with rfl | ht
    · exact .inl (h.eq_wildcard hitem)
    · obtain ⟨inner, rfl⟩ : ∃ inner, t = .borrow .shared inner := by
        cases t with
        | borrow kind inner =>
          obtain rfl := Option.some.inj ht
          exact ⟨inner, rfl⟩
        | _ => contradiction
      cases h with
      | tuple htypes _ => contradiction
      | reference _ => exact absurd (.reference _ _ inner) hp
      | variant | fields => exact absurd rfl hitem

theorem Reaches.covered (h : p.Reaches s t q u) (ht : t = .wildcard ∨ t.outerKind? = some .shared) :
    (u = .wildcard ∨ u.outerKind? = some .shared) ∨
      ∃ r v, p.Reaches s t r v ∧ r.Uncovers v ∧ r.Reaches s v q u := by
  induction h with
  | self => exact .inl ht
  | @part p q r t u v hpart hrest ih =>
    by_cases hp : p.Uncovers t
    · exact .inr ⟨p, t, .self p t, hp, .part hpart hrest⟩
    · rcases ih (hpart.covered ht hp) with hv | ⟨r', v', hr', hv', hrest'⟩
      · exact .inl hv
      · exact .inr ⟨r', v', .part hpart hr', hv', hrest'⟩

/-- What is reached from nothing known is not known either, unless it is part of a field that a
struct or variant pattern takes. -/
theorem Reaches.of_unknown (h : p.Reaches s t q u) (ht : t = .wildcard) : u = .wildcard ∨
    ∃ r owner params r' declared, p.Reaches s .wildcard r .wildcard ∧
      r.Takes s owner params r' declared ∧
      r'.Reaches s (declared.substitute (.ofArgs params.names [])) q u := by
  induction h with
  | self => exact .inl ht
  | @part p q r t u v hpart hrest ih =>
    subst ht
    by_cases hp : p.ofItem = true
    · obtain ⟨owner, params, declared, htakes, rfl⟩ := hpart.of_unknown hp
      exact .inr ⟨p, owner, params, q, declared, .self p _, htakes, hrest⟩
    · obtain rfl := hpart.eq_wildcard hp
      rcases ih rfl with hv | ⟨r, owner, params, r', declared, hr, hrest⟩
      · exact .inl hv
      · exact .inr ⟨r, owner, params, r', declared, .part hpart hr, hrest⟩

end Pattern

/-! ### Runs -/

namespace Frames

/-- The innermost frame gains locals with the property, and nothing else changes. -/
def GainsOnly (P : Local → Prop) (frames after : Frames) : Prop :=
  ∃ vs : List Local, after = frames.declare vs ∧ ∀ v ∈ vs, P v

variable {P Q : Local → Prop} {fs gs hs : Frames}

theorem GainsOnly.rfl : fs.GainsOnly P fs := ⟨[], (declare_nil fs).symm, List.forall_mem_nil P⟩

theorem GainsOnly.imp (h : fs.GainsOnly P gs) (hPQ : ∀ v, P v → Q v) : fs.GainsOnly Q gs := by
  obtain ⟨vs, rfl, hvs⟩ := h
  exact ⟨vs, Eq.refl _, fun v hv => hPQ v (hvs v hv)⟩

theorem GainsOnly.trans (h : fs.GainsOnly P gs) (k : gs.GainsOnly P hs) : fs.GainsOnly P hs := by
  obtain ⟨vs, rfl, hvs⟩ := h
  obtain ⟨ws, rfl, hws⟩ := k
  exact ⟨ws ++ vs, declare_declare .., List.forall_mem_append.mpr ⟨hws, hvs⟩⟩

end Frames

/-- The local is that of a name in the pattern, with the type that the name is matched with. -/
def Pattern.Declares (s : Symbols) (p : Pattern) (t : Ty) (v : Local) : Prop :=
  ∃ span, p.Reaches s t (.identifier v.name v.mutability span) v.type

theorem Pattern.Declares.part {s : Symbols} {p q : Pattern} {t u : Ty} (h : p.Hands s t q u)
    (v : Local) (hv : q.Declares s u v) : p.Declares s t v := by
  obtain ⟨span, hreach⟩ := hv
  exact ⟨span, .part h hreach⟩

namespace Check
variable {s : Symbols}

mutual

theorem pattern_declares : ∀ (p : Pattern) {t : Ty} {frames after : Frames},
    (pattern s p t).run frames = (.ok (), after) → frames.GainsOnly (p.Declares s t) after
  | .wildcard _, t, frames, after, h => by
    simp only [pattern, pure_eq_ok] at h
    exact h.2 ▸ .rfl
  | .identifier name mutability span, t, frames, after, h => by
    cases frames with
    | nil => cases h
    | cons f fs =>
      cases h
      exact ⟨[⟨name, mutability, t⟩], rfl, List.forall_mem_singleton.mpr ⟨span, .self _ t⟩⟩
  | .literal value span, t, frames, after, h => by
    simp only [pattern, ofResult_eq_ok] at h
    exact h.2 ▸ .rfl
  | .tuple items span, t, frames, after, h => by
    simp only [pattern, bind_eq_ok, ofResult_eq_ok] at h
    obtain ⟨types, _, ⟨ht, rfl⟩, h⟩ := h
    exact patterns_declare items (fun q u hmem => .part (.tuple ht hmem)) h
  | .reference inner span, t, frames, after, h => by
    simp only [pattern, bind_eq_ok, ofResult_eq_ok] at h
    obtain ⟨u, _, ⟨hu, rfl⟩, h⟩ := h
    exact (pattern_declares inner h).imp (.part (.reference hu))
  | .variant path items span, t, frames, after, h => by
    simp only [pattern, bind_eq_ok, ofResult_eq_ok] at h
    obtain ⟨types, _, ⟨ht, rfl⟩, h⟩ := h
    exact patterns_declare items (fun q u hmem => .part (.variant ht hmem)) h
  | .fields path fields span, t, frames, after, h => by
    simp only [pattern, bind_eq_ok, ofResult_eq_ok] at h
    obtain ⟨parts, _, ⟨hparts, rfl⟩, h⟩ := h
    exact fieldPatterns_declare fields (fun name q u hq hu => .part (.fields hparts hq hu)) h

theorem patterns_declare {P : Local → Prop} : ∀ (ps : List Pattern) {ts : List Ty}
    {frames after : Frames}, (∀ q u, (q, u) ∈ ps.zip ts → ∀ v, q.Declares s u v → P v) →
    (patterns s ps ts).run frames = (.ok (), after) → frames.GainsOnly P after
  | [], ts, frames, after, _, h => by
    simp only [patterns, pure_eq_ok] at h
    exact h.2 ▸ .rfl
  | p :: ps, [], frames, after, _, h => by
    simp only [patterns, pure_eq_ok] at h
    exact h.2 ▸ .rfl
  | p :: ps, t :: ts, frames, after, hP, h => by
    simp only [patterns, bind_eq_ok] at h
    obtain ⟨_, mid, hp, hps⟩ := h
    have hrest := patterns_declare ps (fun q u hmem => hP q u (.tail _ hmem)) hps
    exact ((pattern_declares p hp).imp (hP p t (.head _))).trans hrest

theorem fieldPatterns_declare {P : Local → Prop} {path : Path} {span : Span}
    {parts : List (String × Ty)} : ∀ (fields : List (String × Pattern)) {frames after : Frames},
    (∀ name q u, (name, q) ∈ fields → parts.lookup name = some u → ∀ v, q.Declares s u v → P v) →
    (fieldPatterns s path span parts fields).run frames = (.ok (), after) →
      frames.GainsOnly P after
  | [], frames, after, _, h => by
    simp only [fieldPatterns, pure_eq_ok] at h
    exact h.2 ▸ .rfl
  | (name, p) :: rest, frames, after, hP, h => by
    rw [fieldPatterns] at h
    cases hl : parts.lookup name with
    | none => simp [hl] at h
    | some t =>
      simp only [hl, bind_eq_ok] at h
      obtain ⟨_, mid, hp, hrest⟩ := h
      have hlater := fieldPatterns_declare rest
        (fun name q u hmem => hP name q u (.tail _ hmem)) hrest
      exact ((pattern_declares p hp).imp (hP name p t (.head _) hl)).trans hlater

end

theorem run_of_mem_zip {ps : List Pattern} {ts : List Ty} {frames after : Frames} {q : Pattern}
    {u : Ty} (h : (patterns s ps ts).run frames = (.ok (), after)) (hmem : (q, u) ∈ ps.zip ts) :
    ∃ mid last, (pattern s q u).run mid = (.ok (), last) := by
  induction ps generalizing ts frames with
  | nil => contradiction
  | cons p ps ih =>
    cases ts with
    | nil => contradiction
    | cons t ts =>
      simp only [patterns, bind_eq_ok] at h
      obtain ⟨_, mid, hp, hps⟩ := h
      rcases List.mem_cons.mp hmem with heq | hmem
      · obtain ⟨rfl, rfl⟩ := Prod.mk.inj heq
        exact ⟨frames, mid, hp⟩
      · exact ih hps hmem

theorem run_of_mem_fields {path : Path} {span : Span} {parts : List (String × Ty)}
    {fields : List (String × Pattern)} {frames after : Frames} {name : String} {q : Pattern}
    {u : Ty} (h : (fieldPatterns s path span parts fields).run frames = (.ok (), after))
    (hmem : (name, q) ∈ fields) (hu : parts.lookup name = some u) :
    ∃ mid last, (pattern s q u).run mid = (.ok (), last) := by
  induction fields generalizing frames with
  | nil => contradiction
  | cons field rest ih =>
    obtain ⟨first, p⟩ := field
    rw [fieldPatterns] at h
    cases hl : parts.lookup first with
    | none => simp [hl] at h
    | some t =>
      simp only [hl, bind_eq_ok] at h
      obtain ⟨_, mid, hp, hrest⟩ := h
      rcases List.mem_cons.mp hmem with heq | hmem
      · obtain ⟨rfl, rfl⟩ := Prod.mk.inj heq
        obtain rfl := Option.some.inj (hl.symm.trans hu)
        exact ⟨frames, mid, hp⟩
      · exact ih hrest hmem

/-- What a pattern that matches hands on is matched. -/
theorem run_of_hands {p q : Pattern} {t u : Ty} {frames after : Frames}
    (h : (pattern s p t).run frames = (.ok (), after)) (hq : p.Hands s t q u) :
    ∃ mid last, (pattern s q u).run mid = (.ok (), last) := by
  cases hq with
  | tuple htypes hmem =>
    simp only [pattern, htypes, bind_eq_ok, ofResult_eq_ok, Except.ok.injEq] at h
    obtain ⟨_, _, ⟨rfl, rfl⟩, h⟩ := h
    exact run_of_mem_zip h hmem
  | reference hu =>
    simp only [pattern, hu, bind_eq_ok, ofResult_eq_ok, Except.ok.injEq] at h
    obtain ⟨_, _, ⟨rfl, rfl⟩, h⟩ := h
    exact ⟨_, _, h⟩
  | variant htypes hmem =>
    simp only [pattern, htypes, bind_eq_ok, ofResult_eq_ok, Except.ok.injEq] at h
    obtain ⟨_, _, ⟨rfl, rfl⟩, h⟩ := h
    exact run_of_mem_zip h hmem
  | fields hparts hmem hu =>
    simp only [pattern, hparts, bind_eq_ok, ofResult_eq_ok, Except.ok.injEq] at h
    obtain ⟨_, _, ⟨rfl, rfl⟩, h⟩ := h
    exact run_of_mem_fields h hmem hu

theorem run_of_reaches {p q : Pattern} {t u : Ty} (hq : p.Reaches s t q u) {frames after : Frames}
    (h : (pattern s p t).run frames = (.ok (), after)) :
    ∃ mid last, (pattern s q u).run mid = (.ok (), last) := by
  induction hq generalizing frames after with
  | self => exact ⟨frames, after, h⟩
  | part hpart _ ih =>
    obtain ⟨mid, last, h⟩ := run_of_hands h hpart
    exact ih h

/-- Struct and variant patterns hand to their fields what is not known, or references of the kind of
the outermost reference of the type that they are matched with. If that is a shared one, then in a
pattern that matches a `&mut` is bound below only where a reference pattern takes a shared reference
off, or where a struct or variant pattern is matched with something of which nothing is known. -/
theorem pattern_behind_references (s : Symbols) :
    (∀ (p : Pattern) (t : Ty) (q : Pattern) (u : Ty) (kind : BorrowKind), p.ofItem = true →
      t.outerKind? = some kind → p.Hands s t q u → u = .wildcard ∨ u.outerKind? = some kind) ∧
    ∀ (p : Pattern) (t : Ty) (frames after : Frames),
      (pattern s p t).run frames = (.ok (), after) →
      frames.GainsOnly (p.Declares s t) after ∧
      ∀ q u, p.Reaches s t q u → (∃ mid last, (pattern s q u).run mid = (.ok (), last)) ∧
        (q.ofItem = true → u.outerKind? = some .shared → ∀ v, q.Declares s u v →
          v.type.outerKind? = some .unique →
          ∃ r w, q.Reaches s u r w ∧ r.Uncovers w ∧ r.Declares s w v) := by
  refine ⟨fun p t q u kind hp hkind hq => hq.kind hp hkind, fun p t frames after h => ?_⟩
  refine ⟨pattern_declares p h, fun q u hq => ⟨run_of_reaches hq h, ?_⟩⟩
  rintro - hshared v ⟨span, hv⟩ hunique
  rcases hv.covered (.inr hshared) with (hcovered | hcovered) | ⟨r, w, hr, huncovers, hrest⟩
  · rw [hcovered] at hunique
    contradiction
  · rw [hcovered] at hunique
    contradiction
  · exact ⟨r, w, hr, huncovers, span, hrest⟩

end Check

/-- In source form, `struct Cell { value: u8 } struct Shelf<T> { item: T, cell: Cell }` and
`struct Loan { held: &mut u8 }`. -/
def Symbols.shelves : Symbols :=
  let cell : Ty := .path ⟨true, [⟨"Cell", []⟩], .structType "::Cell"⟩
  { Symbols.empty with structs := [
      ("::Cell", ⟨"Cell", ⟨[], []⟩, [⟨"value", .primitive .u8, default⟩], default⟩),
      ("::Shelf", ⟨"Shelf", ⟨["T"], []⟩, [⟨"item", .generic "T", default⟩, ⟨"cell", cell, default⟩],
        default⟩),
      ("::Loan", ⟨"Loan", ⟨[], []⟩, [⟨"held", .borrow .unique (.primitive .u8), default⟩],
        default⟩)] }

/-- In source form, `Shelf<t>`. -/
def Path.shelf (t : Ty) : Path := ⟨true, [⟨"Shelf", [t]⟩], .structType "::Shelf"⟩

/-- In source form, `Cell`. -/
def Path.cell : Path := ⟨true, [⟨"Cell", []⟩], .structType "::Cell"⟩

/-- In source form, `Cell { value: x }`. -/
def Pattern.cell : Pattern := .fields .cell [("value", .identifier "x" .immutable default)] default

/-- In source form, `Shelf { item: y, cell: Cell { value: x } }`. -/
def Pattern.shelf : Pattern :=
  .fields (.shelf .wildcard) [("item", .identifier "y" .mutable default), ("cell", .cell)] default

/-- In source form, matched with a `& &mut Shelf<bool>`. -/
theorem Check.pattern_behind_references_shelf :
    let t : Ty := .borrow .shared (.borrow .unique (.path (.shelf (.primitive .bool))))
    let after : Frames := [{ Frame.empty with locals :=
      [⟨"x", .immutable, .borrow .shared (.primitive .u8)⟩,
        ⟨"y", .mutable, .borrow .shared (.primitive .bool)⟩] }]
    (pattern .shelves .shelf t).run [.empty] = (.ok (), after) ∧
      Frames.GainsOnly (Pattern.shelf.Declares .shelves t) [.empty] after ∧
      Pattern.shelf.Reaches .shelves t .cell (.borrow .shared (.path .cell)) ∧
      ∀ q u, Pattern.cell.Hands .shelves (.borrow .shared (.path .cell)) q u →
        u = .wildcard ∨ u.outerKind? = some .shared := by
  intro t after
  have hrun : (pattern .shelves .shelf t).run [.empty] = (.ok (), after) := rfl
  have hreach : Pattern.shelf.Reaches .shelves t .cell (.borrow .shared (.path .cell)) :=
    .part (.fields rfl (.tail _ (.head _)) rfl) (.self _ _)
  obtain ⟨hhands, hlocals⟩ := pattern_behind_references .shelves
  exact ⟨hrun, (hlocals _ _ _ _ hrun).1, hreach, fun q u => hhands _ _ q u .shared rfl rfl⟩

/-- A shared reference behind a `&mut` does not count: in source form, `Cell { value: x }` matched
with a `&mut &Cell` binds a `&mut u8`. -/
theorem Check.pattern_behind_unique_of_shared :
    let t : Ty := .borrow .unique (.borrow .shared (.path .cell))
    (pattern .shelves .cell t).run [.empty] = (.ok (), [{ Frame.empty with locals :=
        [⟨"x", .immutable, .borrow .unique (.primitive .u8)⟩] }]) ∧
      ¬ ∀ q u, Pattern.cell.Hands .shelves t q u →
        u = .wildcard ∨ u.outerKind? = some .shared := by
  refine ⟨rfl, fun h => ?_⟩
  rcases h _ _ (.fields rfl (.head _) rfl) with hu | hu <;> contradiction

/-- In source form, `Shelf { item: &x }` matched with a `&Shelf<&mut u8>`: the shared reference is
taken off. -/
example : (Check.pattern .shelves (.fields (.shelf .wildcard)
    [("item", .reference (.identifier "x" .immutable default) default)] default)
    (.borrow .shared (.path (.shelf (.borrow .unique (.primitive .u8)))))).run [.empty] =
      (.ok (), [{ Frame.empty with locals :=
        [⟨"x", .immutable, .borrow .unique (.primitive .u8)⟩] }]) := rfl

/-- In source form, `Shelf { item: Loan { held: x } }` matched with a `&Shelf<_>`: of the item
nothing is known. -/
example : (Check.pattern .shelves (.fields (.shelf .wildcard) [("item", .fields
    ⟨true, [⟨"Loan", []⟩], .structType "::Loan"⟩
      [("held", .identifier "x" .immutable default)] default)] default)
    (.borrow .shared (.path (.shelf .wildcard)))).run [.empty] =
      (.ok (), [{ Frame.empty with locals :=
        [⟨"x", .immutable, .borrow .unique (.primitive .u8)⟩] }]) := rfl

/-- Of the locals of a pattern that matches something of which nothing is known nothing is known
either, unless a struct or variant pattern that is matched with such a part has them in a field:
these are of the declared type, or what is bound in it, with nothing for the parameters of the
item. -/
theorem Check.pattern_of_unknown {s : Symbols} {p : Pattern} {frames after : Frames}
    (h : (pattern s p .wildcard).run frames = (.ok (), after)) :
    frames.GainsOnly (fun v => v.type = .wildcard ∨ ∃ q owner params r declared,
      p.Reaches s .wildcard q .wildcard ∧ q.Takes s owner params r declared ∧
      r.Declares s (declared.substitute (.ofArgs params.names [])) v) after := by
  refine (pattern_declares p h).imp fun v ⟨span, hv⟩ => (hv.of_unknown rfl).imp_right ?_
  rintro ⟨q, owner, params, r, declared, hq, htakes, hr⟩
  exact ⟨q, owner, params, r, declared, hq, htakes, span, hr⟩

/-- In source form, `(z, Shelf { item: y, cell: Cell { value: x } })`: nothing is known of `z` and
`y`. -/
theorem Check.pattern_of_unknown_shelf :
    let p : Pattern := .tuple [.identifier "z" .immutable default, .shelf] default
    let after : Frames := [{ Frame.empty with locals :=
      [⟨"x", .immutable, .primitive .u8⟩, ⟨"y", .mutable, .wildcard⟩,
        ⟨"z", .immutable, .wildcard⟩] }]
    (pattern .shelves p .wildcard).run [.empty] = (.ok (), after) ∧
      Frames.GainsOnly (fun v => v.type = .wildcard ∨ ∃ q owner params r declared,
        p.Reaches .shelves .wildcard q .wildcard ∧ q.Takes .shelves owner params r declared ∧
        r.Declares .shelves (declared.substitute (.ofArgs params.names [])) v) [.empty] after :=
  ⟨rfl, pattern_of_unknown rfl⟩

/-- In source form, `Cell { value: x }`: the type of `x` is taken for known. -/
theorem Check.pattern_of_unknown_cell : ∃ after,
    (pattern .shelves .cell .wildcard).run [.empty] = (.ok (), after) ∧
      ¬ Frames.GainsOnly (fun v => v.type = .wildcard) [.empty] after := by
  refine ⟨_, rfl, ?_⟩
  rintro ⟨vs, hvs, hunknown⟩
  obtain rfl : [⟨"x", .immutable, .primitive .u8⟩] = vs := by
    have hlocals := congrArg Frame.locals (List.cons.inj hvs).1
    exact hlocals.trans (List.append_nil vs)
  have hu : Ty.primitive .u8 = .wildcard := hunknown _ (.head _)
  contradiction

end BorrowLang
