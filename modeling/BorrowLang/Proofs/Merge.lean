import BorrowLang.Proofs.Refinement
import BorrowLang.Report

/-! Merging is the least upper bound in the order of partial types. -/
namespace BorrowLang
namespace Ty

theorem mergeSize?_eq_some {m n size : Option UInt64} (h : mergeSize? m n = some size) :
    (m = none ∨ m = size) ∧ (n = none ∨ n = size) := by
  unfold mergeSize? at h
  split at h <;> simp_all

theorem mergeSize?_of_le {m n size : Option UInt64} (hm : m = none ∨ m = size)
    (hn : n = none ∨ n = size) :
    ∃ found, mergeSize? m n = some found ∧ (found = none ∨ found = size) := by
  rcases hm with rfl | rfl
  · exact ⟨n, rfl, hn⟩
  · rcases hn with rfl | rfl
    · exact ⟨m, by cases m <;> rfl, .inr rfl⟩
    · exact ⟨n, by cases n <;> simp [mergeSize?], .inr rfl⟩

mutual

/-- What is merged refines both sides. -/
theorem refines_merge? : ∀ {t u v : Ty}, t.merge? u = some v → Refines t v ∧ Refines u v
  | wildcard, u, v, h => by
    rw [wildcard_merge?, Option.some.injEq] at h
    subst h
    exact ⟨.wildcard _, .refl _⟩
  | t, wildcard, v, h => by
    rw [merge?_wildcard, Option.some.injEq] at h
    subst h
    exact ⟨.refl _, .wildcard _⟩
  | unit, unit, v, h => by
    cases h
    exact ⟨.unit, .unit⟩
  | primitive p, primitive q, v, h => by
    simp only [merge?, Option.ite_none_right_eq_some, Option.some.injEq] at h
    obtain ⟨rfl, rfl⟩ := h
    exact ⟨.primitive p, .primitive p⟩
  | generic m, generic n, v, h => by
    simp only [merge?, Option.ite_none_right_eq_some, Option.some.injEq] at h
    obtain ⟨rfl, rfl⟩ := h
    exact ⟨.generic m, .generic m⟩
  | borrow k a, borrow l b, v, h => by
    simp only [merge?, Option.ite_none_right_eq_some, Option.map_eq_some_iff] at h
    obtain ⟨rfl, w, hw, rfl⟩ := h
    obtain ⟨ha, hb⟩ := refines_merge? hw
    exact ⟨.borrow ha, .borrow hb⟩
  | path ⟨a, segments, _⟩, path ⟨b, others, _⟩, v, h => by
    simp only [merge?, Option.ite_none_right_eq_some, Option.map_eq_some_iff] at h
    obtain ⟨rfl, w, hw, rfl⟩ := h
    obtain ⟨ha, hb⟩ := segmentsRefine_mergeSegments? hw
    exact ⟨.path ha, .path hb⟩
  | tuple ts, tuple us, v, h => by
    simp only [merge?, Option.map_eq_some_iff] at h
    obtain ⟨w, hw, rfl⟩ := h
    obtain ⟨ha, hb⟩ := allRefine_mergeAll? hw
    exact ⟨.tuple ha, .tuple hb⟩
  | array a m, array b n, v, h => by
    simp only [merge?] at h
    split at h
    · next size inner hs hi =>
      obtain rfl := Option.some.inj h
      obtain ⟨ha, hb⟩ := refines_merge? hi
      obtain ⟨hm, hn⟩ := mergeSize?_eq_some hs
      exact ⟨.array ha hm, .array hb hn⟩
    · contradiction

theorem allRefine_mergeAll? : ∀ {ts us vs : List Ty},
    mergeAll? ts us = some vs → AllRefine ts vs ∧ AllRefine us vs
  | [], [], vs, h => by
    cases h
    exact ⟨.nil, .nil⟩
  | t :: ts, u :: us, vs, h => by
    simp only [mergeAll?] at h
    split at h
    · next v vs hv hvs =>
      obtain rfl := Option.some.inj h
      obtain ⟨ha, hb⟩ := refines_merge? hv
      obtain ⟨has, hbs⟩ := allRefine_mergeAll? hvs
      exact ⟨.cons ha has, .cons hb hbs⟩
    · contradiction

theorem segmentsRefine_mergeSegments? : ∀ {ss ss' merged : List Segment},
    mergeSegments? ss ss' = some merged → SegmentsRefine ss merged ∧ SegmentsRefine ss' merged
  | [], [], merged, h => by
    cases h
    exact ⟨.nil, .nil⟩
  | ⟨m, args⟩ :: rest, ⟨n, others⟩ :: rest', merged, h => by
    simp only [mergeSegments?, Option.ite_none_right_eq_some] at h
    obtain ⟨rfl, h⟩ := h
    split at h
    · next found tail hf ht =>
      obtain rfl := Option.some.inj h
      obtain ⟨ha, hb⟩ := segmentsRefine_mergeSegments? ht
      -- Only arguments that both sides give are merged one by one.
      split_ifs at hf with hargs hothers
      · obtain rfl := Option.some.inj hf
        obtain rfl := List.isEmpty_iff.mp hargs
        exact ⟨.omitted ha, .given (.refl _) hb⟩
      · obtain rfl := Option.some.inj hf
        obtain rfl := List.isEmpty_iff.mp hothers
        exact ⟨.given (.refl _) ha, .omitted hb⟩
      · obtain ⟨hm, hn⟩ := allRefine_mergeAll? hf
        exact ⟨.given hm ha, .given hn hb⟩
    · contradiction

end

mutual

/-- Types with a common refinement merge, to a type that it refines. -/
theorem merge?_of_refines : ∀ {t u c : Ty},
    Refines t c → Refines u c → ∃ v, t.merge? u = some v ∧ Refines v c
  | _, u, _, .wildcard _, k => ⟨u, wildcard_merge? u, k⟩
  | t, _, _, h, .wildcard _ => ⟨t, merge?_wildcard t, h⟩
  | _, _, _, .unit, .unit => ⟨unit, rfl, .unit⟩
  | _, _, _, .primitive p, .primitive _ => ⟨primitive p, by simp [merge?], .primitive p⟩
  | _, _, _, .generic name, .generic _ => ⟨generic name, by simp [merge?], .generic name⟩
  | _, _, _, .borrow h, .borrow k => by
    obtain ⟨v, hv, hc⟩ := merge?_of_refines h k
    exact ⟨_, by simp [merge?, hv], .borrow hc⟩
  | _, _, _, @Refines.path _ _ _ b _ h, .path k => by
    obtain ⟨merged, hm, hc⟩ := mergeSegments?_of_refine h k
    exact ⟨path ⟨_, merged, b⟩, by simp [merge?, hm], .path hc⟩
  | _, _, _, .tuple h, .tuple k => by
    obtain ⟨vs, hvs, hc⟩ := mergeAll?_of_refine h k
    exact ⟨tuple vs, by simp [merge?, hvs], .tuple hc⟩
  | _, _, _, .array h hm, .array k hn => by
    obtain ⟨v, hv, hc⟩ := merge?_of_refines h k
    obtain ⟨size, hs, hle⟩ := mergeSize?_of_le hm hn
    exact ⟨array v size, by simp [merge?, hv, hs], .array hc hle⟩

theorem mergeAll?_of_refine : ∀ {ts us cs : List Ty},
    AllRefine ts cs → AllRefine us cs → ∃ vs, mergeAll? ts us = some vs ∧ AllRefine vs cs
  | _, _, _, .nil, .nil => ⟨[], rfl, .nil⟩
  | _, _, _, .cons h hs, .cons k ks => by
    obtain ⟨v, hv, hc⟩ := merge?_of_refines h k
    obtain ⟨vs, hvs, hcs⟩ := mergeAll?_of_refine hs ks
    exact ⟨v :: vs, by simp [mergeAll?, hv, hvs], .cons hc hcs⟩

theorem mergeSegments?_of_refine : ∀ {ss ss' cs : List Segment},
    SegmentsRefine ss cs → SegmentsRefine ss' cs →
      ∃ merged, mergeSegments? ss ss' = some merged ∧ SegmentsRefine merged cs
  | _, _, _, .nil, .nil => ⟨[], rfl, .nil⟩
  | _, _, _, .omitted hs, .omitted ks => by
    obtain ⟨rest, hr, hc⟩ := mergeSegments?_of_refine hs ks
    exact ⟨_, by simp [mergeSegments?, hr], .omitted hc⟩
  | _, _, _, .omitted hs, .given k ks => by
    obtain ⟨rest, hr, hc⟩ := mergeSegments?_of_refine hs ks
    exact ⟨_, by simp [mergeSegments?, hr], .given k hc⟩
  | _, _, _, @SegmentsRefine.given _ args _ _ _ h hs, .omitted ks => by
    obtain ⟨rest, hr, hc⟩ := mergeSegments?_of_refine hs ks
    refine ⟨⟨_, args⟩ :: rest, ?_, .given h hc⟩
    cases args <;> simp [mergeSegments?, hr]
  | _, _, _, @SegmentsRefine.given _ args _ _ _ h hs, @SegmentsRefine.given _ others _ _ _ k ks => by
    obtain ⟨rest, hr, hc⟩ := mergeSegments?_of_refine hs ks
    obtain ⟨merged, hm, hle⟩ := mergeAll?_of_refine h k
    cases args with
    | nil => exact ⟨⟨_, others⟩ :: rest, by simp [mergeSegments?, hr], .given k hc⟩
    | cons t ts =>
      cases others with
      | nil => exact ⟨⟨_, t :: ts⟩ :: rest, by simp [mergeSegments?, hr], .given h hc⟩
      | cons u us => exact ⟨⟨_, merged⟩ :: rest, by simp [mergeSegments?, hr, hm], .given hle hc⟩

end

theorem le_of_merge? {t u v : Ty} (h : t.merge? u = some v) : t ≤ v ∧ u ≤ v := refines_merge? h

theorem merge?_of_le {t u c : Ty} (h : t ≤ c) (k : u ≤ c) : ∃ v, t.merge? u = some v ∧ v ≤ c :=
  merge?_of_refines h k

theorem mergeAt_eq_ok_iff {t u v : Ty} {span : Span} :
    t.mergeAt u span = .ok v ↔ t.merge? u = some v := by
  unfold mergeAt
  rw [← merge_eq_ok_iff]
  split <;> simp_all

theorem le_of_mergeAt {t u v : Ty} {span : Span} (h : t.mergeAt u span = .ok v) :
    t ≤ v ∧ u ≤ v :=
  le_of_merge? (mergeAt_eq_ok_iff.mp h)

/-- The least upper bound of a set of types if there is an upper bound, and a conflict if not. -/
def IsJoin (s : Set Ty) : Except MergeConflict Ty → Prop
  | .ok v => IsLUB s v
  | .error _ => ¬ BddAbove s

theorem isJoin_merge (t u : Ty) : IsJoin {t, u} (t.merge u) := by
  unfold merge
  split
  · next v h =>
    obtain ⟨ht, hu⟩ := le_of_merge? h
    refine ⟨by rintro w (rfl | rfl) <;> assumption, fun c hc => ?_⟩
    obtain ⟨w, hw, hle⟩ := merge?_of_le (hc (.inl rfl)) (hc (.inr rfl))
    obtain rfl := Option.some.inj (h.symm.trans hw)
    exact hle
  · next h =>
    rintro ⟨c, hc⟩
    obtain ⟨v, hv, -⟩ := merge?_of_le (hc (.inl rfl)) (hc (.inr rfl))
    simp [h] at hv

theorem IsJoin.congr {s s' : Set Ty} (h : upperBounds s = upperBounds s')
    {r : Except MergeConflict Ty} (hr : IsJoin s r) : IsJoin s' r := by
  cases r with
  | ok v =>
    change IsLeast (upperBounds s') v
    rw [← h]
    exact hr
  | error e =>
    change ¬ (upperBounds s').Nonempty
    rw [← h]
    exact hr

/-- Joins of two sets merge to the join of both. -/
theorem IsJoin.merge {s s' : Set Ty} {r r' : Except MergeConflict Ty} (h : IsJoin s r)
    (h' : IsJoin s' r') : IsJoin (s ∪ s') (do (← r).merge (← r')) := by
  cases r with
  | error e => exact fun hb => h (hb.mono Set.subset_union_left)
  | ok t =>
    cases r' with
    | error e => exact fun hb => h' (hb.mono Set.subset_union_right)
    | ok u =>
      apply (isJoin_merge t u).congr
      ext c
      rw [upperBounds_union, Set.mem_inter_iff, ← isLUB_le_iff h, ← isLUB_le_iff h',
        upperBounds_insert, upperBounds_singleton]
      rfl

/-- Both are conflicts, or types that are the same up to what paths are bound to. -/
def SameResult : Except MergeConflict Ty → Except MergeConflict Ty → Prop
  | .ok t, .ok u => t.same u = true
  | .error _, .error _ => True
  | _, _ => False

theorem IsJoin.sameResult {s : Set Ty} {r r' : Except MergeConflict Ty} (h : IsJoin s r)
    (h' : IsJoin s r') : SameResult r r' := by
  cases r with
  | error e =>
    cases r' with
    | error e' => trivial
    | ok u => exact h ⟨u, h'.1⟩
  | ok t =>
    cases r' with
    | error e' => exact h' ⟨t, h.1⟩
    | ok u => exact same_of_le_of_le (h.2 h'.1) (h'.2 h.1)

theorem isJoin_ok (t : Ty) : IsJoin {t} (.ok t) := isLUB_singleton

/-- Two types merge just when they have a common refinement, and then to the least one; so merging
is idempotent, commutative and associative, conflicts included. -/
theorem merge_joins (t u v : Ty) :
    ((∃ w, t.merge u = .ok w) ↔ ∃ w, t ≤ w ∧ u ≤ w) ∧
    (∀ w, t.merge u = .ok w → IsLUB {t, u} w) ∧
    SameResult (t.merge t) (.ok t) ∧
    SameResult (t.merge u) (u.merge t) ∧
    SameResult (do (← t.merge u).merge v) (do t.merge (← u.merge v)) := by
  have hj := isJoin_merge t u
  refine ⟨⟨?_, ?_⟩, ?_, ?_, ?_, ?_⟩
  · rintro ⟨w, hw⟩
    exact ⟨w, le_of_merge? (merge_eq_ok_iff.mp hw)⟩
  · rintro ⟨w, ht, hu⟩
    obtain ⟨c, hc, -⟩ := merge?_of_le ht hu
    exact ⟨c, merge_eq_ok_iff.mpr hc⟩
  · intro w hw
    rw [hw] at hj
    exact hj
  · have h := isJoin_merge t t
    rw [Set.pair_eq_singleton] at h
    exact h.sameResult (isJoin_ok t)
  · have h := isJoin_merge u t
    rw [Set.pair_comm] at h
    exact hj.sameResult h
  · have hl := hj.merge (isJoin_ok v)
    have hr := (isJoin_ok t).merge (isJoin_merge u v)
    rw [Set.insert_union, Set.singleton_union] at hl
    rw [Set.singleton_union] at hr
    exact hl.sameResult hr

end Ty
end BorrowLang
