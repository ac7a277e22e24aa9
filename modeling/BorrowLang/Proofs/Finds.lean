import BorrowLang.Proofs.Denotation
import BorrowLang.Proofs.TypeBindings

/-! Computations that look items up only where they are there. -/
namespace BorrowLang

/-- An item that a binding names was not found. -/
def Error.MissesItem : Error → Prop
  | unresolvedName .item _ _ => True
  | _ => False

namespace Result
variable {α β : Type} {Q : α → Prop} {R : β → Prop}

/-- The result has the property, or it is an error for another reason than an item that is not
there. -/
def Finds (Q : α → Prop) : Result α → Prop
  | .ok a => Q a
  | .error e => ¬ e.MissesItem

theorem finds_pure {a : α} (h : Q a) : Finds Q (pure a) := h

theorem finds_throw {e : Error} (h : ¬ e.MissesItem) : Finds Q (throw e) := h

theorem Finds.bind {x : Result α} {f : α → Result β} (h : x.Finds Q)
    (hf : ∀ a, Q a → (f a).Finds R) : (x >>= f).Finds R := by
  cases x with
  | error e => exact h
  | ok a => exact hf a h

theorem finds_foldlM {f : β → α → Result β} {as : List α} (h : ∀ a ∈ as, ∀ b, R b → (f b a).Finds R)
    {b : β} (hb : R b) : (as.foldlM f b).Finds R := by
  induction as generalizing b with
  | nil => exact hb
  | cons a as ih =>
    obtain ⟨ha, has⟩ := List.forall_mem_cons.mp h
    exact (ha b hb).bind fun c hc => ih has hc

end Result

theorem Table.find_finds {α : Type} {Q : α → Prop} {t : Table α} {key : Key} {span : Span}
    (hk : (t.get? key).isSome) (h : ∀ value, t.get? key = some value → Q value) :
    (t.find key span).Finds Q := by
  obtain ⟨value, hv⟩ := Option.isSome_iff_exists.mp hk
  rw [find, hv]
  exact h value hv

/-- Everything the type names is there. -/
abbrev Ty.Known (s : Symbols) (t : Ty) : Prop := t.AllBindings (Binding.Known s)

namespace Ty
variable {P : Binding → Prop}
open Result

theorem finds_mergeAt {t u : Ty} (ht : t.AllBindings P) (hu : u.AllBindings P) (span : Span) :
    (t.mergeAt u span).Finds (AllBindings P) := by
  unfold mergeAt
  split
  · next hv => exact AllBindings.merge? ht hu (merge_eq_ok_iff.mp hv)
  · exact id

theorem finds_matchTemplateAt {t u : Ty} (hu : u.AllBindings P) (span : Span) :
    (t.matchTemplateAt u span).Finds fun found => ∀ m ∈ found, m.2.AllBindings P := by
  unfold matchTemplateAt
  split
  · next hm => exact hu.matchTemplate? (matchTemplate_eq_ok_iff.mp hm)
  · exact id

mutual

theorem finds_resolveArgs {ask : String → Result Ty}
    (ha : ∀ name, (ask name).Finds (AllBindings P)) :
    ∀ {t : Ty}, t.AllBindings P → (t.resolveArgs ask).Finds (AllBindings P)
  | .generic name, _ => ha name
  | .borrow _ inner, h =>
    (finds_resolveArgs ha (t := inner) h).bind fun _ hu => finds_pure (allBindings_borrow.mpr hu)
  | .array inner _, h =>
    (finds_resolveArgs ha (t := inner) h).bind fun _ hu => finds_pure (allBindings_array.mpr hu)
  | .path ⟨_, _, _⟩, h =>
    have hp := allBindings_path.mp h
    (finds_resolveArgsSegments ha hp.2).bind fun _ hs =>
      finds_pure (allBindings_path.mpr ⟨hp.1, hs⟩)
  | .tuple _, h =>
    (finds_resolveArgsAll ha (allBindings_tuple.mp h)).bind fun _ hus =>
      finds_pure (allBindings_tuple.mpr hus)
  | .wildcard, h | .unit, h | .primitive _, h => finds_pure h

theorem finds_resolveArgsAll {ask : String → Result Ty}
    (ha : ∀ name, (ask name).Finds (AllBindings P)) :
    ∀ {ts : List Ty}, (∀ t ∈ ts, t.AllBindings P) →
      (resolveArgsAll ask ts).Finds fun us => ∀ u ∈ us, u.AllBindings P
  | [], h => finds_pure h
  | _ :: _, h =>
    have h := List.forall_mem_cons.mp h
    (finds_resolveArgs ha h.1).bind fun _ hu => (finds_resolveArgsAll ha h.2).bind fun _ hus =>
      finds_pure (List.forall_mem_cons.mpr ⟨hu, hus⟩)

theorem finds_resolveArgsSegments {ask : String → Result Ty}
    (ha : ∀ name, (ask name).Finds (AllBindings P)) : ∀ {segments : List Segment},
      SegmentsBindings P segments → (resolveArgsSegments ask segments).Finds (SegmentsBindings P)
  | [], h => finds_pure h
  | ⟨_, _⟩ :: _, h =>
    have h := segmentsBindings_cons.mp h
    (finds_resolveArgsAll ha h.1).bind fun _ hargs => (finds_resolveArgsSegments ha h.2).bind
      fun _ hrest => finds_pure (segmentsBindings_cons.mpr ⟨hargs, hrest⟩)

end

/-- What the expansion of an alias may be asked for: its key, with arguments of the kind. -/
def Unfolds (P : Binding → Prop) (unfold : Key → List Ty → Result Ty) : Prop :=
  ∀ key args, P (.typeAlias key) → (∀ t ∈ args, t.AllBindings P) →
    (unfold key args).Finds (AllBindings P)

mutual

theorem finds_expandWith {unfold : Key → List Ty → Result Ty} (hu : Unfolds P unfold) :
    ∀ {t : Ty}, t.AllBindings P → (t.expandWith unfold).Finds (AllBindings P)
  | .path ⟨_, _, _⟩, h => by
    obtain ⟨hb, hs⟩ := allBindings_path.mp h
    refine (finds_expandSegmentsWith hu hs).bind fun found hf => ?_
    split
    · next key => exact hu key _ hb (Path.lastArgs_allBindings hf)
    · exact finds_pure (allBindings_path.mpr ⟨hb, hf⟩)
  | .borrow _ inner, h =>
    (finds_expandWith hu (t := inner) h).bind fun _ hi => finds_pure (allBindings_borrow.mpr hi)
  | .array inner _, h =>
    (finds_expandWith hu (t := inner) h).bind fun _ hi => finds_pure (allBindings_array.mpr hi)
  | .tuple _, h =>
    (finds_expandAllWith hu (allBindings_tuple.mp h)).bind fun _ hi =>
      finds_pure (allBindings_tuple.mpr hi)
  | .wildcard, h | .unit, h | .primitive _, h | .generic _, h => finds_pure h

theorem finds_expandAllWith {unfold : Key → List Ty → Result Ty} (hu : Unfolds P unfold) :
    ∀ {ts : List Ty}, (∀ t ∈ ts, t.AllBindings P) →
      (expandAllWith unfold ts).Finds fun us => ∀ u ∈ us, u.AllBindings P
  | [], h => finds_pure h
  | _ :: _, h =>
    have h := List.forall_mem_cons.mp h
    (finds_expandWith hu h.1).bind fun _ ht => (finds_expandAllWith hu h.2).bind fun _ hts =>
      finds_pure (List.forall_mem_cons.mpr ⟨ht, hts⟩)

theorem finds_expandSegmentsWith {unfold : Key → List Ty → Result Ty} (hu : Unfolds P unfold) :
    ∀ {segments : List Segment}, SegmentsBindings P segments →
      (expandSegmentsWith unfold segments).Finds (SegmentsBindings P)
  | [], h => finds_pure h
  | ⟨_, _⟩ :: _, h =>
    have h := segmentsBindings_cons.mp h
    (finds_expandAllWith hu h.1).bind fun _ hargs => (finds_expandSegmentsWith hu h.2).bind
      fun _ hrest => finds_pure (segmentsBindings_cons.mpr ⟨hargs, hrest⟩)

end

end Ty
end BorrowLang
