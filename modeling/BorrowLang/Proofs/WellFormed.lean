import BorrowLang.Ty.Reader

/-! Types that can be written down, and that nothing else comes of reading a text. -/
namespace BorrowLang
namespace Text

/-- An ASCII letter or underscore, then letters, digits and underscores. -/
def IsName (s : String) : Prop :=
  ∃ c cs, s.toList = c :: cs ∧ Reader.isNameStart c = true ∧ ∀ d ∈ cs, Reader.isNamePart d = true

namespace Reader
variable {α β : Type} {P : α → Prop} {r : Reader α}

/-- Every value the reader gives has the property. -/
structure Gives (r : Reader α) (P : α → Prop) : Prop where
  of_eq : ∀ {cs : List Char} {a : α} {rest : List Char}, r cs = some (a, rest) → P a

theorem Gives.spaced (h : r.Gives P) : (spaced r).Gives P := by
  constructor
  intro cs a rest hr
  simp only [Reader.spaced, Option.map_eq_some_iff, Prod.mk.injEq] at hr
  obtain ⟨⟨a, _⟩, ha, rfl, -⟩ := hr
  exact h.of_eq ha

theorem Gives.sepTail (h : r.Gives P) (sep : Reader Unit) (n : Nat) (cs : List Char) :
    ∀ a ∈ (sepTail sep r n cs).1, P a := by
  induction n generalizing cs with
  | zero => exact List.forall_mem_nil _
  | succ n ih =>
    rw [Reader.sepTail]
    split
    · exact List.forall_mem_nil _
    · split
      · exact List.forall_mem_nil _
      · next ha => exact List.forall_mem_cons.mpr ⟨h.of_eq ha, ih _⟩

theorem Gives.sepBy (h : r.Gives P) (sep : Reader Unit) (cs : List Char) :
    ∀ a ∈ (sepBy sep r cs).1, P a := by
  rw [Reader.sepBy]
  split
  · exact List.forall_mem_nil _
  · next ha => exact List.forall_mem_cons.mpr ⟨h.of_eq ha, h.sepTail _ _ _⟩

theorem gives_name : name.Gives IsName := by
  constructor
  intro cs s rest h
  cases cs with
  | nil => simp [name] at h
  | cons c cs =>
    rw [name] at h
    split at h
    · next hc =>
      simp only [Option.some.injEq, Prod.mk.injEq] at h
      obtain ⟨rfl, -⟩ := h
      exact ⟨c, _, String.toList_ofList, hc, fun d hd => List.all_eq_true.mp List.all_takeWhile d hd⟩
    · contradiction

end Reader
end Text

namespace Ty
open Text Text.Reader

/-- Paths are bound to nothing and spelled with names, and a bare name is not one that is read as a
wildcard or a scalar. -/
inductive WellFormed : Ty → Prop
  | wildcard : WellFormed wildcard
  | unit : WellFormed unit
  | primitive (p : Primitive) : WellFormed (primitive p)
  | borrow (kind : BorrowKind) {t : Ty} : WellFormed t → WellFormed (borrow kind t)
  | path {absolute : Bool} {segments : List Segment} : segments ≠ [] →
    (∀ s ∈ segments, IsName s.name) → (∀ s ∈ segments, ∀ t ∈ s.args, WellFormed t) →
    (∀ name, Path.bareName? ⟨absolute, segments, .unbound⟩ = some name →
      name ≠ "_" ∧ Primitive.ofName? name = none) →
    WellFormed (path ⟨absolute, segments, .unbound⟩)
  | tuple {items : List Ty} : items ≠ [] → (∀ t ∈ items, WellFormed t) → WellFormed (tuple items)
  | array {t : Ty} (size : Option UInt64) : WellFormed t → WellFormed (array t size)

theorem wellFormed_ofItems {items : List Ty} (h : ∀ t ∈ items, t.WellFormed) (trailingComma : Bool) :
    (ofItems items trailingComma).WellFormed := by
  unfold ofItems
  split
  · exact .unit
  · next t => exact h t (.head _)
  · next hne _ => exact .tuple (fun he => hne he) h

theorem wellFormed_ofSegments {absolute : Bool} {segments : List Segment} (hne : segments ≠ [])
    (hn : ∀ s ∈ segments, IsName s.name) (ha : ∀ s ∈ segments, ∀ t ∈ s.args, t.WellFormed) :
    (ofSegments absolute segments).WellFormed := by
  unfold ofSegments
  split
  · next name =>
    split
    · exact .wildcard
    · next hname =>
      split
      · next scalar _ => exact .primitive scalar
      · next hscalar =>
        refine .path hne hn ha fun other hother => ?_
        rw [Path.bareName?, Option.some.injEq] at hother
        exact hother ▸ ⟨hname, hscalar⟩
  · next hbare =>
    refine .path hne hn ha fun name h => ?_
    obtain ⟨rfl, rfl⟩ := (Path.bareName?_eq_some_iff _ name).mp h
    exact (hbare name rfl rfl).elim

section
variable {inner : Reader Ty} (h : inner.Gives WellFormed)
include h

theorem gives_readBorrow : (readBorrow inner).Gives WellFormed := by
  constructor
  intro cs t rest hr
  unfold readBorrow at hr
  split at hr
  · simp only [Option.map_eq_some_iff, Prod.mk.injEq] at hr
    obtain ⟨⟨t, _⟩, ht, rfl, -⟩ := hr
    exact .borrow _ (h.of_eq ht)
  · contradiction

theorem wellFormed_readItems (cs : List Char) : ∀ t ∈ (readItems inner cs).1, t.WellFormed :=
  h.spaced.sepBy _ cs

theorem gives_readTuple : (readTuple inner).Gives WellFormed := by
  constructor
  intro cs t rest hr
  unfold readTuple at hr
  split at hr
  · next cs =>
    have hi := wellFormed_readItems h cs
    generalize readItems inner cs = read at hr hi
    dsimp only at hr
    split at hr
    · cases hr
      exact wellFormed_ofItems hi _
    · contradiction
    · split at hr
      · cases hr
        exact wellFormed_ofItems hi _
      · contradiction
  · contradiction

theorem gives_readArray : (readArray inner).Gives WellFormed := by
  constructor
  intro cs t rest hr
  unfold readArray at hr
  split at hr
  · split at hr
    · contradiction
    · next ht =>
      split at hr
      · cases hr
        exact .array _ (h.spaced.of_eq ht)
      · contradiction
  · contradiction

theorem gives_readArgs : (readArgs inner).Gives fun args => ∀ t ∈ args, t.WellFormed := by
  constructor
  intro cs args rest hr
  unfold readArgs at hr
  split at hr
  · contradiction
  · next after _ =>
    have hi := wellFormed_readItems h after
    split at hr
    · next ha =>
      cases hr
      rwa [ha] at hi
    · contradiction

theorem gives_readSegment :
    (readSegment inner).Gives fun s => IsName s.name ∧ ∀ t ∈ s.args, t.WellFormed := by
  constructor
  intro cs s rest hr
  unfold readSegment at hr
  split at hr
  · contradiction
  · next hname =>
    split at hr
    · next hargs =>
      cases hr
      exact ⟨gives_name.of_eq hname, (gives_readArgs h).of_eq hargs⟩
    · cases hr
      exact ⟨gives_name.of_eq hname, List.forall_mem_nil _⟩

theorem gives_readPath : (readPath inner).Gives WellFormed := by
  constructor
  intro cs t rest hr
  unfold readPath at hr
  have hs := (gives_readSegment h).sepBy readColons (readRoot cs).2
  dsimp only at hr
  split at hr
  · contradiction
  · next hne heq =>
    cases hr
    rw [heq] at hs
    exact wellFormed_ofSegments hne (fun s hm => (hs s hm).1) fun s hm => (hs s hm).2

end

theorem gives_read : ∀ n, (read n).Gives WellFormed
  | 0 => by
    constructor
    intro cs t rest hr
    contradiction
  | n + 1 => by
    constructor
    intro cs t rest hr
    have ih := gives_read n
    simp only [read, Option.orElse_eq_orElse, Option.orElse_eq_or, Option.or_eq_some_iff] at hr
    rcases hr with hr | ⟨-, hr | ⟨-, hr | ⟨-, hr⟩⟩⟩
    · exact (gives_readBorrow ih).of_eq hr
    · exact (gives_readTuple ih).of_eq hr
    · exact (gives_readArray ih).of_eq hr
    · exact (gives_readPath ih).of_eq hr

theorem wellFormed_of_parse? {cs : List Char} {t : Ty} (h : parse? cs = some t) : t.WellFormed := by
  unfold parse? at h
  split at h
  · next hr =>
    cases h
    exact (gives_read _).spaced.of_eq hr
  · contradiction

theorem wellFormed_of_parse {source : String} {t : Ty} (h : parse source = .ok t) : t.WellFormed := by
  unfold parse at h
  split at h
  · next ht =>
    cases h
    exact wellFormed_of_parse? ht
  · contradiction

end Ty
end BorrowLang
