import Mathlib.Tactic.SplitIfs
import BorrowLang.Proofs.Runs

/-! What the patterns of an accepted body declare. -/
namespace BorrowLang

mutual

/-- The names that the pattern binds, in the order in which they are written. -/
def Pattern.identifiers : Pattern → List (String × Mutability)
  | .wildcard _ | .literal .. => []
  | .identifier name mutability _ => [(name, mutability)]
  | .tuple items _ | .variant _ items _ => patternIdentifiers items
  | .reference inner _ => inner.identifiers
  | .fields _ fields _ => fieldIdentifiers fields

def patternIdentifiers : List Pattern → List (String × Mutability)
  | [] => []
  | p :: ps => p.identifiers ++ patternIdentifiers ps

def fieldIdentifiers : List (String × Pattern) → List (String × Mutability)
  | [] => []
  | (_, p) :: rest => p.identifiers ++ fieldIdentifiers rest

end

namespace Frames

/-- With more locals in the innermost frame, the latest of them first. -/
def declare (vs : List Local) : Frames → Frames
  | [] => []
  | f :: fs => { f with locals := vs ++ f.locals } :: fs

@[simp] theorem declare_nil (frames : Frames) : frames.declare [] = frames := by
  cases frames <;> rfl

theorem declare_declare (frames : Frames) (vs ws : List Local) :
    (frames.declare vs).declare ws = frames.declare (ws ++ vs) := by
  cases frames with
  | nil => rfl
  | cons f fs => simp [declare, List.append_assoc]

/-- The innermost frame gains a local for every identifier, in order, and nothing else changes. -/
def Gains (identifiers : List (String × Mutability)) (frames after : Frames) : Prop :=
  ∃ vs : List Local, vs.map (fun v => (v.name, v.mutability)) = identifiers.reverse ∧
    after = frames.declare vs

theorem Gains.nil (frames : Frames) : Gains [] frames frames :=
  ⟨[], rfl, (declare_nil frames).symm⟩

theorem Gains.append {ids ids' : List (String × Mutability)} {fs gs hs : Frames}
    (h : Gains ids fs gs) (k : Gains ids' gs hs) : Gains (ids ++ ids') fs hs := by
  obtain ⟨vs, hv, rfl⟩ := h
  obtain ⟨ws, hw, rfl⟩ := k
  exact ⟨ws ++ vs, by rw [List.map_append, hv, hw, List.reverse_append], declare_declare ..⟩

theorem Gains.eq_nil {ids : List (String × Mutability)} {after : Frames} (h : Gains ids [] after) :
    after = [] := by
  obtain ⟨vs, -, rfl⟩ := h
  rfl

/-- The same, and without a frame there is no identifier. -/
structure GainsAll (identifiers : List (String × Mutability)) (frames after : Frames) : Prop where
  gains : frames.Gains identifiers after
  nothing : frames = [] → identifiers = []

theorem GainsAll.nil (frames : Frames) : GainsAll [] frames frames := ⟨.nil frames, fun _ => rfl⟩

theorem GainsAll.append {ids ids' : List (String × Mutability)} {fs gs hs : Frames}
    (h : GainsAll ids fs gs) (k : GainsAll ids' gs hs) : GainsAll (ids ++ ids') fs hs where
  gains := h.gains.append k.gains
  nothing := by
    rintro rfl
    rw [h.nothing rfl, k.nothing h.gains.eq_nil, List.append_nil]

end Frames

theorem Ty.length_of_tupleParts {n : Nat} {t : Ty} {span : Span} {types : List Ty}
    (h : t.tupleParts n span = .ok types) : types.length = n := by
  unfold tupleParts at h
  split at h
  · rw [← Except.ok.inj h, List.length_replicate]
  · split_ifs at h with hn
    rw [← Except.ok.inj h, hn, List.length_nil]
  · split_ifs at h with hn
    rw [← Except.ok.inj h, hn]
  · contradiction

theorem Symbols.length_of_variantParts {s : Symbols} {path : Path} {n : Nat} {t : Ty} {span : Span}
    {types : List Ty} (h : s.variantParts path n t span = .ok types) : types.length = n := by
  unfold variantParts at h
  split at h
  · simp only [Result.bind_eq_ok] at h
    obtain ⟨⟨d, v⟩, -, h⟩ := h
    dsimp only at h
    split at h
    · contradiction
    · next declared _ =>
      split_ifs at h with hn
      · contradiction
      · simp only [Result.bind_eq_ok, Result.pure_eq_ok] at h
        obtain ⟨-, -, args, -, rfl⟩ := h
        rw [List.length_map]
        omega
  · contradiction

namespace Check
variable {s : Symbols}

theorem declare_gainsAll {v : Local} {span : Span} {frames after : Frames}
    (h : (declare v span).run frames = (.ok (), after)) :
    frames.GainsAll [(v.name, v.mutability)] after := by
  cases frames with
  | nil => cases h
  | cons f fs =>
    cases h
    exact ⟨⟨[v], rfl, rfl⟩, fun h => nomatch h⟩

mutual

/-- A pattern that matches declares what it binds. -/
theorem pattern_gainsAll : ∀ (p : Pattern) {t : Ty} {frames after : Frames},
    (pattern s p t).run frames = (.ok (), after) → frames.GainsAll p.identifiers after
  | .wildcard _, t, frames, after, h => by
    simp only [pattern, pure_eq_ok] at h
    obtain ⟨-, rfl⟩ := h
    exact .nil frames
  | .identifier name mutability span, t, frames, after, h => declare_gainsAll h
  | .literal value span, t, frames, after, h => by
    simp only [pattern, ofResult_eq_ok] at h
    obtain ⟨-, rfl⟩ := h
    exact .nil frames
  | .tuple items span, t, frames, after, h => by
    simp only [pattern, bind_eq_ok, ofResult_eq_ok] at h
    obtain ⟨types, _, ⟨ht, rfl⟩, h⟩ := h
    exact patterns_gainsAll items (Ty.length_of_tupleParts ht) h
  | .reference inner span, t, frames, after, h => by
    simp only [pattern, bind_eq_ok, ofResult_eq_ok] at h
    obtain ⟨_, _, ⟨-, rfl⟩, h⟩ := h
    exact pattern_gainsAll inner h
  | .variant path items span, t, frames, after, h => by
    simp only [pattern, bind_eq_ok, ofResult_eq_ok] at h
    obtain ⟨types, _, ⟨ht, rfl⟩, h⟩ := h
    exact patterns_gainsAll items (Symbols.length_of_variantParts ht) h
  | .fields path fields span, t, frames, after, h => by
    simp only [pattern, bind_eq_ok, ofResult_eq_ok] at h
    obtain ⟨_, _, ⟨-, rfl⟩, h⟩ := h
    exact fieldPatterns_gainsAll fields h

/-- No pattern is passed over for want of a type. -/
theorem patterns_gainsAll : ∀ (ps : List Pattern) {ts : List Ty} {frames after : Frames},
    ts.length = ps.length → (patterns s ps ts).run frames = (.ok (), after) →
      frames.GainsAll (patternIdentifiers ps) after
  | [], ts, frames, after, _, h => by
    simp only [patterns, pure_eq_ok] at h
    obtain ⟨-, rfl⟩ := h
    exact .nil frames
  | p :: ps, [], frames, after, hlen, _ => by simp at hlen
  | p :: ps, t :: ts, frames, after, hlen, h => by
    simp only [patterns, bind_eq_ok] at h
    obtain ⟨_, mid, hp, hps⟩ := h
    exact (pattern_gainsAll p hp).append (patterns_gainsAll ps (Nat.succ.inj hlen) hps)

theorem fieldPatterns_gainsAll {path : Path} {span : Span} {parts : List (String × Ty)} :
    ∀ (fields : List (String × Pattern)) {frames after : Frames},
      (fieldPatterns s path span parts fields).run frames = (.ok (), after) →
        frames.GainsAll (fieldIdentifiers fields) after
  | [], frames, after, h => by
    simp only [fieldPatterns, pure_eq_ok] at h
    obtain ⟨-, rfl⟩ := h
    exact .nil frames
  | (name, p) :: rest, frames, after, h => by
    rw [fieldPatterns] at h
    cases hl : parts.lookup name with
    | none => simp [hl] at h
    | some t =>
      simp only [hl, bind_eq_ok] at h
      obtain ⟨_, mid, hp, hrest⟩ := h
      exact (pattern_gainsAll p hp).append (fieldPatterns_gainsAll rest hrest)

end

theorem pattern_gains (p : Pattern) {t : Ty} {frames after : Frames}
    (h : (pattern s p t).run frames = (.ok (), after)) : frames.Gains p.identifiers after :=
  (pattern_gainsAll p h).gains

/-- A pattern that matches adds its identifiers to the innermost frame in the order in which they are
written, each as often and as mutable as it is written, and leaves all else as it was. -/
theorem pattern_adds_identifiers {p : Pattern} {t : Ty} {frames after : Frames}
    (h : (pattern s p t).run frames = (.ok (), after)) :
    ∃ declared : List Local, declared.map (fun v => (v.name, v.mutability)) = p.identifiers ∧
      (frames = [] → declared = [] ∧ after = []) ∧
      ∀ f outer, frames = f :: outer →
        after = { f with locals := declared.reverse ++ f.locals } :: outer := by
  obtain ⟨⟨vs, hvs, rfl⟩, hnothing⟩ := pattern_gainsAll p h
  refine ⟨vs.reverse, ?_, ?_, ?_⟩
  · rw [List.map_reverse, hvs, List.reverse_reverse]
  · rintro rfl
    have hids : vs.map (fun v => (v.name, v.mutability)) = [] := by rw [hvs, hnothing rfl]; rfl
    rw [List.map_eq_nil_iff.mp hids]
    exact ⟨rfl, rfl⟩
  · rintro f outer rfl
    rw [List.reverse_reverse]
    rfl

/-- In source form, `Pair { right: (mut x, &y), left: x }` for a `struct Pair { left: u8, right: R }`
of which the second field is not known, below a frame that has an `x` already. -/
theorem pattern_adds_identifiers_pair :
    let x : Local := ⟨"x", .immutable, .unit⟩
    let s : Symbols := { Symbols.empty with structs := [("::Pair", ⟨"Pair", ⟨["R"], []⟩,
      [⟨"left", .primitive .u8, default⟩, ⟨"right", .generic "R", default⟩], default⟩)] }
    let path : Path := ⟨true, [⟨"Pair", []⟩], .structType "::Pair"⟩
    let p : Pattern := .fields path [
      ("right", .tuple [.identifier "x" .mutable default,
        .reference (.identifier "y" .immutable default) default] default),
      ("left", .identifier "x" .immutable default)] default
    let outer : Frames := [{ Frame.empty with locals := [x] }]
    ∃ declared : List Local, declared.map (fun v => (v.name, v.mutability)) =
        [("x", .mutable), ("y", .immutable), ("x", .immutable)] ∧
      (pattern s p (.path path)).run ({ Frame.empty with locals := [x] } :: outer) =
        (.ok (), { Frame.empty with locals := declared.reverse ++ [x] } :: outer) := by
  intro x s path p outer
  obtain ⟨declared, hnames, -, hafter⟩ := @pattern_adds_identifiers s p (.path path)
    ({ Frame.empty with locals := [x] } :: outer) _ rfl
  exact ⟨declared, hnames, congrArg (Except.ok (), ·) (hafter _ _ rfl)⟩

/-- Alternatives declare what each of them binds. -/
theorem eachPattern_gains {ps : List Pattern} {t : Ty} {frames after : Frames}
    (h : (eachPattern s ps t).run frames = (.ok (), after)) :
    frames.Gains (patternIdentifiers ps) after := by
  induction ps generalizing frames with
  | nil =>
    simp only [eachPattern, pure_eq_ok] at h
    obtain ⟨-, rfl⟩ := h
    exact .nil frames
  | cons p ps ih =>
    simp only [eachPattern, bind_eq_ok] at h
    obtain ⟨_, mid, hp, hps⟩ := h
    exact (pattern_gains p hp).append (ih hps)

end Check
end BorrowLang
