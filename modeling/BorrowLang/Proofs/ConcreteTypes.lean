import BorrowLang.Proofs.Merge

/-!
What a type without wildcards merges with. It counts as known although a path in it leaves its
arguments out or an array its size, and merging fills in both.
-/
namespace BorrowLang
namespace Ty

/-- The same size, or one that only one side gives where sizes may be left out. -/
def SizesAlike (gaps : Prop) (m n : Option UInt64) : Prop :=
  m = n ∨ gaps ∧ (m = none ∨ n = none)

mutual

/-- Equal up to the bindings of paths and, with `gaps`, up to arguments and array sizes that only
one of the two types gives. -/
inductive Alike (gaps : Prop) : Ty → Ty → Prop
  | wildcard : Alike gaps wildcard wildcard
  | unit : Alike gaps unit unit
  | primitive (p : Primitive) : Alike gaps (primitive p) (primitive p)
  | generic (name : String) : Alike gaps (generic name) (generic name)
  | borrow {kind : BorrowKind} {t u : Ty} :
    Alike gaps t u → Alike gaps (borrow kind t) (borrow kind u)
  | path {absolute : Bool} {segments others : List Segment} {b c : Binding} :
    SegmentsAlike gaps segments others →
      Alike gaps (path ⟨absolute, segments, b⟩) (path ⟨absolute, others, c⟩)
  | tuple {ts us : List Ty} : AllAlike gaps ts us → Alike gaps (tuple ts) (tuple us)
  | array {t u : Ty} {m n : Option UInt64} :
    Alike gaps t u → SizesAlike gaps m n → Alike gaps (array t m) (array u n)

inductive AllAlike (gaps : Prop) : List Ty → List Ty → Prop
  | nil : AllAlike gaps [] []
  | cons {t u : Ty} {ts us : List Ty} :
    Alike gaps t u → AllAlike gaps ts us → AllAlike gaps (t :: ts) (u :: us)

inductive SegmentsAlike (gaps : Prop) : List Segment → List Segment → Prop
  | nil : SegmentsAlike gaps [] []
  | given {name : String} {args found : List Ty} {rest others : List Segment} :
    AllAlike gaps args found → SegmentsAlike gaps rest others →
      SegmentsAlike gaps (⟨name, args⟩ :: rest) (⟨name, found⟩ :: others)
  | omitted {name : String} {args found : List Ty} {rest others : List Segment} :
    gaps → args = [] ∨ found = [] → SegmentsAlike gaps rest others →
      SegmentsAlike gaps (⟨name, args⟩ :: rest) (⟨name, found⟩ :: others)

end

/-! ### Without gaps -/

theorem sizesAlike_false_iff {m n : Option UInt64} : SizesAlike False m n ↔ m = n := by
  rw [SizesAlike, false_and, or_false]

mutual

theorem Alike.same : ∀ {t u : Ty}, Alike False t u → t.same u = true
  | _, _, .wildcard => rfl
  | _, _, .unit => rfl
  | _, _, .primitive p => same_refl (primitive p)
  | _, _, .generic name => same_refl (generic name)
  | _, _, .borrow h => by simp [Ty.same, h.same]
  | _, _, .path h => by simp [Ty.same, h.same]
  | _, _, .tuple h => by simp [Ty.same, h.same]
  | _, _, .array h hs => by simp [Ty.same, h.same, sizesAlike_false_iff.mp hs]

theorem AllAlike.same : ∀ {ts us : List Ty}, AllAlike False ts us → sameAll ts us = true
  | _, _, .nil => rfl
  | _, _, .cons h hs => by simp [sameAll, h.same, hs.same]

theorem SegmentsAlike.same : ∀ {ss ss' : List Segment},
    SegmentsAlike False ss ss' → sameSegments ss ss' = true
  | _, _, .nil => rfl
  | _, _, .given h hs => by simp [sameSegments, h.same, hs.same]

end

mutual

theorem alike_of_same : ∀ {t u : Ty}, t.same u = true → Alike False t u
  | wildcard, wildcard, _ => .wildcard
  | unit, unit, _ => .unit
  | primitive p, primitive q, h => by
    obtain rfl : p = q := by simpa [Ty.same] using h
    exact .primitive p
  | generic m, generic n, h => by
    obtain rfl : m = n := by simpa [Ty.same] using h
    exact .generic m
  | borrow k a, borrow l b, h => by
    obtain ⟨rfl, hab⟩ : k = l ∧ a.same b = true := by simpa [Ty.same] using h
    exact .borrow (alike_of_same hab)
  | path ⟨a, segments, _⟩, path ⟨b, others, _⟩, h => by
    obtain ⟨rfl, hs⟩ : a = b ∧ sameSegments segments others = true := by simpa [Ty.same] using h
    exact .path (segmentsAlike_of_same hs)
  | tuple _, tuple _, h => .tuple (allAlike_of_same h)
  | array a m, array b n, h => by
    obtain ⟨rfl, hab⟩ : m = n ∧ a.same b = true := by simpa [Ty.same] using h
    exact .array (alike_of_same hab) (.inl rfl)

theorem allAlike_of_same : ∀ {ts us : List Ty}, sameAll ts us = true → AllAlike False ts us
  | [], [], _ => .nil
  | t :: ts, u :: us, h => by
    obtain ⟨ht, hts⟩ : t.same u = true ∧ sameAll ts us = true := by simpa [sameAll] using h
    exact .cons (alike_of_same ht) (allAlike_of_same hts)

theorem segmentsAlike_of_same : ∀ {ss ss' : List Segment},
    sameSegments ss ss' = true → SegmentsAlike False ss ss'
  | [], [], _ => .nil
  | ⟨m, args⟩ :: rest, ⟨n, others⟩ :: rest', h => by
    obtain ⟨⟨rfl, hargs⟩, hrest⟩ :
        (m = n ∧ sameAll args others = true) ∧ sameSegments rest rest' = true := by
      simpa [sameSegments] using h
    exact .given (allAlike_of_same hargs) (segmentsAlike_of_same hrest)

end

theorem alike_false_iff {t u : Ty} : Alike False t u ↔ t.same u = true :=
  ⟨Alike.same, alike_of_same⟩

/-! ### With gaps

Types that are alike have a common refinement: what one of them leaves out is taken from the
other. Conversely wildcards are the only further thing a refinement fills in, and known types have
none. -/

theorem SizesAlike.exists_size {gaps : Prop} {m n : Option UInt64} (h : SizesAlike gaps m n) :
    ∃ size, (m = none ∨ m = size) ∧ (n = none ∨ n = size) := by
  rcases h with rfl | ⟨-, rfl | rfl⟩
  · exact ⟨m, .inr rfl, .inr rfl⟩
  · exact ⟨n, .inl rfl, .inr rfl⟩
  · exact ⟨m, .inr rfl, .inl rfl⟩

theorem sizesAlike_of_le {m n size : Option UInt64} (hm : m = none ∨ m = size)
    (hn : n = none ∨ n = size) : SizesAlike True m n := by
  rcases hm with rfl | rfl
  · exact .inr ⟨trivial, .inl rfl⟩
  · rcases hn with rfl | rfl
    · exact .inr ⟨trivial, .inr rfl⟩
    · exact .inl rfl

mutual

theorem Alike.exists_refinement {gaps : Prop} : ∀ {t u : Ty},
    Alike gaps t u → ∃ v, Refines t v ∧ Refines u v
  | _, _, .wildcard => ⟨wildcard, .refl _, .refl _⟩
  | _, _, .unit => ⟨unit, .refl _, .refl _⟩
  | _, _, .primitive p => ⟨primitive p, .refl _, .refl _⟩
  | _, _, .generic name => ⟨generic name, .refl _, .refl _⟩
  | _, _, @Alike.borrow _ kind _ _ h => by
    obtain ⟨v, ht, hu⟩ := h.exists_refinement
    exact ⟨borrow kind v, .borrow ht, .borrow hu⟩
  | _, _, @Alike.path _ absolute _ _ b _ h => by
    obtain ⟨segments, hs, ho⟩ := h.exists_refinement
    exact ⟨path ⟨absolute, segments, b⟩, .path hs, .path ho⟩
  | _, _, .tuple h => by
    obtain ⟨vs, ht, hu⟩ := h.exists_refinement
    exact ⟨tuple vs, .tuple ht, .tuple hu⟩
  | _, _, .array h hs => by
    obtain ⟨v, ht, hu⟩ := h.exists_refinement
    obtain ⟨size, hm, hn⟩ := hs.exists_size
    exact ⟨array v size, .array ht hm, .array hu hn⟩

theorem AllAlike.exists_refinement {gaps : Prop} : ∀ {ts us : List Ty},
    AllAlike gaps ts us → ∃ vs, AllRefine ts vs ∧ AllRefine us vs
  | _, _, .nil => ⟨[], .nil, .nil⟩
  | _, _, .cons h hs => by
    obtain ⟨v, ht, hu⟩ := h.exists_refinement
    obtain ⟨vs, hts, hus⟩ := hs.exists_refinement
    exact ⟨v :: vs, .cons ht hts, .cons hu hus⟩

theorem SegmentsAlike.exists_refinement {gaps : Prop} : ∀ {ss ss' : List Segment},
    SegmentsAlike gaps ss ss' → ∃ merged, SegmentsRefine ss merged ∧ SegmentsRefine ss' merged
  | _, _, .nil => ⟨[], .nil, .nil⟩
  | _, _, @SegmentsAlike.given _ name _ _ _ _ h hs => by
    obtain ⟨args, ha, hf⟩ := h.exists_refinement
    obtain ⟨rest, hr, ho⟩ := hs.exists_refinement
    exact ⟨⟨name, args⟩ :: rest, .given ha hr, .given hf ho⟩
  | _, _, @SegmentsAlike.omitted _ name args found _ _ _ hgap hs => by
    obtain ⟨rest, hr, ho⟩ := hs.exists_refinement
    rcases hgap with rfl | rfl
    · exact ⟨⟨name, found⟩ :: rest, .omitted hr, .given (.refl _) ho⟩
    · exact ⟨⟨name, args⟩ :: rest, .given (.refl _) hr, .omitted ho⟩

end

mutual

theorem alike_of_refines : ∀ {t u v : Ty}, Refines t v → Refines u v →
    t.isConcrete = true → u.isConcrete = true → Alike True t u
  | _, _, _, .unit, .unit, _, _ => .unit
  | _, _, _, .primitive p, .primitive _, _, _ => .primitive p
  | _, _, _, .generic name, .generic _, _, _ => .generic name
  | _, _, _, .borrow h, .borrow k, ht, hu => .borrow (alike_of_refines h k ht hu)
  | _, _, _, .path h, .path k, ht, hu => .path (segmentsAlike_of_refine h k ht hu)
  | _, _, _, .tuple h, .tuple k, ht, hu => .tuple (allAlike_of_refine h k ht hu)
  | _, _, _, .array h hm, .array k hn, ht, hu =>
    .array (alike_of_refines h k ht hu) (sizesAlike_of_le hm hn)

theorem allAlike_of_refine : ∀ {ts us vs : List Ty}, AllRefine ts vs → AllRefine us vs →
    allConcrete ts = true → allConcrete us = true → AllAlike True ts us
  | _, _, _, .nil, .nil, _, _ => .nil
  | _, _, _, .cons h hs, .cons k ks, ht, hu => by
    obtain ⟨ht, hts⟩ := Bool.and_eq_true_iff.mp ht
    obtain ⟨hu, hus⟩ := Bool.and_eq_true_iff.mp hu
    exact .cons (alike_of_refines h k ht hu) (allAlike_of_refine hs ks hts hus)

theorem segmentsAlike_of_refine : ∀ {ss ss' merged : List Segment},
    SegmentsRefine ss merged → SegmentsRefine ss' merged →
    segmentsConcrete ss = true → segmentsConcrete ss' = true → SegmentsAlike True ss ss'
  | _, _, _, .nil, .nil, _, _ => .nil
  | _, _, _, .omitted hs, .omitted ks, ht, hu | _, _, _, .omitted hs, .given _ ks, ht, hu =>
    have hrest := (Bool.and_eq_true_iff.mp ht).2
    have hothers := (Bool.and_eq_true_iff.mp hu).2
    .omitted trivial (.inl rfl) (segmentsAlike_of_refine hs ks hrest hothers)
  | _, _, _, .given _ hs, .omitted ks, ht, hu =>
    have hrest := (Bool.and_eq_true_iff.mp ht).2
    have hothers := (Bool.and_eq_true_iff.mp hu).2
    .omitted trivial (.inr rfl) (segmentsAlike_of_refine hs ks hrest hothers)
  | _, _, _, .given h hs, .given k ks, ht, hu => by
    obtain ⟨hargs, hrest⟩ := Bool.and_eq_true_iff.mp ht
    obtain ⟨hfound, hothers⟩ := Bool.and_eq_true_iff.mp hu
    exact .given (allAlike_of_refine h k hargs hfound)
      (segmentsAlike_of_refine hs ks hrest hothers)

end

/-- Types without wildcards merge just when they are equal up to arguments and sizes that one of
them leaves out, and otherwise conflict; the types that leave nothing to fill in are the equal
ones. -/
theorem merge_concrete (t u : Ty) (ht : t.isConcrete = true) (hu : u.isConcrete = true) :
    ((∃ v, t.merge u = .ok v) ↔ Alike True t u) ∧
    (¬ Alike True t u → t.merge u = .error ⟨t.display, u.display⟩) ∧
    (t.same u = true ↔ Alike False t u) := by
  have hmerge : (∃ v, t.merge u = .ok v) ↔ Alike True t u := by
    constructor
    · rintro ⟨v, hv⟩
      obtain ⟨h, k⟩ := refines_merge? (merge_eq_ok_iff.mp hv)
      exact alike_of_refines h k ht hu
    · intro h
      obtain ⟨w, hw, hw'⟩ := h.exists_refinement
      obtain ⟨v, hv, -⟩ := merge?_of_refines hw hw'
      exact ⟨v, merge_eq_ok_iff.mpr hv⟩
  refine ⟨hmerge, fun hnot => ?_, alike_false_iff.symm⟩
  unfold merge
  split
  · next v hv => exact absurd (hmerge.mp ⟨v, merge_eq_ok_iff.mpr hv⟩) hnot
  · rfl

/-- In source form, `(Vec, [u8])` and `(Vec<[bool]>, [u8; 4])`; and `Vec<u8>` against `Vec<bool>`. -/
theorem merge_concrete_vec :
    let vec (args : List Ty) : Ty := path ⟨false, [⟨"Vec", args⟩], .unbound⟩
    let t : Ty := tuple [vec [], array (primitive .u8) none]
    let u : Ty := tuple [vec [array (primitive .bool) none], array (primitive .u8) (some 4)]
    t.isConcrete = true ∧ u.isConcrete = true ∧ t.same u = false ∧ Alike True t u ∧
      t.merge u = .ok u ∧
    (vec [primitive .u8]).isConcrete = true ∧ (vec [primitive .bool]).isConcrete = true ∧
      ¬ Alike True (vec [primitive .u8]) (vec [primitive .bool]) ∧
      (vec [primitive .u8]).merge (vec [primitive .bool]) = .error ⟨"Vec<u8>", "Vec<bool>"⟩ := by
  intro vec t u
  have hlike : Alike True t u := (merge_concrete t u rfl rfl).1.mp ⟨u, rfl⟩
  have hnot : ¬ Alike True (vec [primitive .u8]) (vec [primitive .bool]) := by
    intro h
    obtain ⟨v, hv⟩ := (merge_concrete _ _ rfl rfl).1.mpr h
    cases hv
  exact ⟨rfl, rfl, rfl, hlike, rfl, rfl, rfl, hnot, (merge_concrete _ _ rfl rfl).2.1 hnot⟩

/-- Without wildcards and different, `Vec` and `Vec<u8>` merge. -/
theorem merge_of_omitted_args : ¬ ∀ t u : Ty, t.isConcrete = true → u.isConcrete = true →
    ((∃ v, t.merge u = .ok v) ↔ t.same u = true) := by
  intro h
  have hsame := (h (path (.bare "Vec")) (path ⟨false, [⟨"Vec", [primitive .u8]⟩], .unbound⟩)
    rfl rfl).mp ⟨_, rfl⟩
  exact absurd hsame (by decide)

end Ty
end BorrowLang
