import BorrowLang.Proofs.Merge
import BorrowLang.Proofs.Generics
import BorrowLang.Symbols.Lookup

/-!
Matching of a template against a type. What is found explains the type, every assignment under
which the type is refined is above what is found, and matching a template with its parameters
replaced finds the replacements again.
-/
namespace BorrowLang

namespace Substitution

/-- What is found for a parameter is refined by what the parameter stands for. -/
def Explains (s : Substitution) (found : Ty.Matches) : Prop :=
  ∀ m ∈ found, ∃ v, s.get? m.1 = some v ∧ m.2 ≤ v

/-- Every entry of the first is refined by an entry of the second for the same parameter. -/
def Below (s s' : Substitution) : Prop :=
  ∀ name u, s.get? name = some u → ∃ v, s'.get? name = some v ∧ u ≤ v

/-- What a parameter is replaced by is refined by what the second replaces it by. -/
def RefinedBy (s s' : Substitution) : Prop :=
  ∀ name, (s.get? name).getD (.generic name) ≤ (s'.get? name).getD (.generic name)

/-- Found are the types that the parameters listed stand for, bare wildcards apart. -/
def Recovers (s : Substitution) (names : List String) (found : Ty.Matches) : Prop :=
  ∀ name v, (name, v) ∈ found ↔ name ∈ names ∧ s.get? name = some v ∧ v ≠ .wildcard

theorem explains_nil (s : Substitution) : s.Explains [] := by simp [Explains]

theorem explains_append {s : Substitution} {found later : Ty.Matches} :
    s.Explains (found ++ later) ↔ s.Explains found ∧ s.Explains later :=
  List.forall_mem_append

theorem explains_cons {s : Substitution} {name : String} {u : Ty} {found : Ty.Matches} :
    s.Explains ((name, u) :: found) ↔ (∃ v, s.get? name = some v ∧ u ≤ v) ∧ s.Explains found :=
  List.forall_mem_cons

theorem recovers_nil (s : Substitution) : s.Recovers [] [] := by simp [Recovers]

theorem Recovers.append {s : Substitution} {names names' : List String}
    {found found' : Ty.Matches} (h : s.Recovers names found) (h' : s.Recovers names' found') :
    s.Recovers (names ++ names') (found ++ found') := by
  intro name v
  rw [List.mem_append, List.mem_append, h, h']
  tauto

theorem nil_below (s : Substitution) : Below [] s := by simp [Below]

theorem Below.refl (s : Substitution) : s.Below s := fun _ u h => ⟨u, h, le_rfl⟩

theorem Below.trans {s s' s'' : Substitution} (h : s.Below s') (h' : s'.Below s'') :
    s.Below s'' := by
  intro name u hu
  obtain ⟨v, hv, huv⟩ := h name u hu
  obtain ⟨w, hw, hvw⟩ := h' name v hv
  exact ⟨w, hw, huv.trans hvw⟩

end Substitution

namespace Ty

@[simp] theorem matchTemplate?_wildcard (t : Ty) : t.matchTemplate? wildcard = some [] := by
  cases t <;> rfl

@[simp] theorem wildcard_matchTemplate? (u : Ty) : wildcard.matchTemplate? u = some [] := by
  cases u <;> rfl

theorem generic_matchTemplate? {u : Ty} (h : u ≠ wildcard) (name : String) :
    (generic name).matchTemplate? u = some [(name, u)] := by
  cases u <;> first | rfl | exact absurd rfl h

theorem matchAll?_cons_eq_some {t u : Ty} {ts us : List Ty} {found : Matches} :
    matchAll? (t :: ts) (u :: us) = some found ↔
      ∃ here later, t.matchTemplate? u = some here ∧ matchAll? ts us = some later ∧
        here ++ later = found := by
  rw [matchAll?]
  split <;> simp_all

theorem matchSegments?_cons_eq_some {m n : String} {args others : List Ty}
    {rest rest' : List Segment} {found : Matches} :
    matchSegments? (⟨m, args⟩ :: rest) (⟨n, others⟩ :: rest') = some found ↔
      m = n ∧ ∃ here later, (if args = [] ∨ others = [] then some [] else matchAll? args others) =
        some here ∧ matchSegments? rest rest' = some later ∧ here ++ later = found := by
  rw [matchSegments?]
  by_cases h : m = n
  · simp only [h, if_true, true_and, Bool.or_eq_true, List.isEmpty_iff]
    split <;> simp_all
  · simp [h]

/-! ### Substitution keeps the order -/

section
variable {s s' : Substitution}

mutual

theorem substitute_mono (h : s.RefinedBy s') : ∀ t : Ty, Refines (t.substitute s) (t.substitute s')
  | generic name => h name
  | borrow _ inner => .borrow (substitute_mono h inner)
  | array inner _ => .array (substitute_mono h inner) (.inr rfl)
  | path ⟨_, segments, _⟩ => .path (substituteSegments_mono h segments)
  | tuple items => .tuple (substituteAll_mono h items)
  | wildcard | unit | primitive _ => .refl _

theorem substituteAll_mono (h : s.RefinedBy s') : ∀ ts : List Ty,
    AllRefine (substituteAll s ts) (substituteAll s' ts)
  | [] => .nil
  | t :: ts => .cons (substitute_mono h t) (substituteAll_mono h ts)

theorem substituteSegments_mono (h : s.RefinedBy s') : ∀ segments : List Segment,
    SegmentsRefine (substituteSegments s segments) (substituteSegments s' segments)
  | [] => .nil
  | ⟨_, args⟩ :: rest => .given (substituteAll_mono h args) (substituteSegments_mono h rest)

end

end

/-! ### A match explains the type -/

section
variable {s : Substitution}

mutual

/-- A template and a type that match have a common refinement, once the parameters are replaced by
types that refine what is found for them. -/
theorem refines_of_matchTemplate? : ∀ {t u : Ty} {found : Matches},
    t.matchTemplate? u = some found → s.Explains found →
      ∃ c, Refines (t.substitute s) c ∧ Refines u c
  | t, wildcard, _, _, _ => ⟨t.substitute s, .refl _, .wildcard _⟩
  | wildcard, u, _, _, _ => ⟨u, .wildcard _, .refl _⟩
  | generic name, u, found, h, hs => by
    by_cases hu : u = wildcard
    · subst hu
      exact ⟨_, .refl _, .wildcard _⟩
    · rw [generic_matchTemplate? hu, Option.some.injEq] at h
      subst h
      obtain ⟨⟨v, hv, huv⟩, -⟩ := Substitution.explains_cons.mp hs
      exact ⟨v, by simpa [substitute, hv] using Refines.refl v, huv⟩
  | unit, unit, _, _, _ => ⟨unit, .unit, .unit⟩
  | primitive p, primitive q, found, h, _ => by
    simp only [matchTemplate?, Option.ite_none_right_eq_some] at h
    obtain ⟨rfl, -⟩ := h
    exact ⟨_, .primitive p, .primitive p⟩
  | borrow k a, borrow l b, found, h, hs => by
    simp only [matchTemplate?, Option.ite_none_right_eq_some] at h
    obtain ⟨rfl, h⟩ := h
    obtain ⟨c, ha, hb⟩ := refines_of_matchTemplate? h hs
    exact ⟨_, .borrow ha, .borrow hb⟩
  | path ⟨a, segments, binding⟩, path ⟨b, others, _⟩, found, h, hs => by
    simp only [matchTemplate?, Option.ite_none_right_eq_some] at h
    obtain ⟨rfl, h⟩ := h
    obtain ⟨c, ha, hb⟩ := segmentsRefine_of_matchSegments? h hs
    exact ⟨path ⟨a, c, binding⟩, .path ha, .path hb⟩
  | tuple ts, tuple us, found, h, hs => by
    obtain ⟨c, ha, hb⟩ := allRefine_of_matchAll? h hs
    exact ⟨_, .tuple ha, .tuple hb⟩
  | array a m, array b n, found, h, hs => by
    simp only [matchTemplate?, Option.ite_none_right_eq_some] at h
    obtain ⟨hsize, h⟩ := h
    obtain ⟨c, ha, hb⟩ := refines_of_matchTemplate? h hs
    rcases hsize with rfl | rfl | rfl
    · exact ⟨array c n, .array ha (.inl rfl), .array hb (.inr rfl)⟩
    · exact ⟨array c m, .array ha (.inr rfl), .array hb (.inl rfl)⟩
    · exact ⟨array c m, .array ha (.inr rfl), .array hb (.inr rfl)⟩

theorem allRefine_of_matchAll? : ∀ {ts us : List Ty} {found : Matches},
    matchAll? ts us = some found → s.Explains found →
      ∃ cs, AllRefine (substituteAll s ts) cs ∧ AllRefine us cs
  | [], [], _, _, _ => ⟨[], .nil, .nil⟩
  | t :: ts, u :: us, found, h, hs => by
    obtain ⟨here, later, hh, hl, rfl⟩ := matchAll?_cons_eq_some.mp h
    obtain ⟨hsh, hsl⟩ := Substitution.explains_append.mp hs
    obtain ⟨c, ha, hb⟩ := refines_of_matchTemplate? hh hsh
    obtain ⟨cs, has, hbs⟩ := allRefine_of_matchAll? hl hsl
    exact ⟨c :: cs, .cons ha has, .cons hb hbs⟩

theorem segmentsRefine_of_matchSegments? : ∀ {ss ss' : List Segment} {found : Matches},
    matchSegments? ss ss' = some found → s.Explains found →
      ∃ cs, SegmentsRefine (substituteSegments s ss) cs ∧ SegmentsRefine ss' cs
  | [], [], _, _, _ => ⟨[], .nil, .nil⟩
  | ⟨m, args⟩ :: rest, ⟨n, others⟩ :: rest', found, h, hs => by
    obtain ⟨rfl, here, later, hh, hl, rfl⟩ := matchSegments?_cons_eq_some.mp h
    obtain ⟨hsh, hsl⟩ := Substitution.explains_append.mp hs
    obtain ⟨cs, has, hbs⟩ := segmentsRefine_of_matchSegments? hl hsl
    -- Arguments are matched only where both sides give them.
    by_cases hempty : args = [] ∨ others = []
    · rcases hempty with rfl | rfl
      · exact ⟨⟨m, others⟩ :: cs, .omitted has, .given (.refl _) hbs⟩
      · exact ⟨⟨m, substituteAll s args⟩ :: cs, .given (.refl _) has, .omitted hbs⟩
    · rw [if_neg hempty] at hh
      obtain ⟨c, ha, hb⟩ := allRefine_of_matchAll? hh hsh
      exact ⟨⟨m, c⟩ :: cs, .given ha has, .given hb hbs⟩

end

theorem merge_of_matchTemplate? {t u : Ty} {found : Matches} (h : t.matchTemplate? u = some found)
    (hs : s.Explains found) : ∃ w, (t.substitute s).merge u = .ok w := by
  obtain ⟨c, ht, hu⟩ := refines_of_matchTemplate? h hs
  obtain ⟨w, hw, -⟩ := merge?_of_le ht hu
  exact ⟨w, merge_eq_ok_iff.mpr hw⟩

end

/-! ### What refines a template matches it -/

section
variable {s : Substitution}

mutual

theorem matchTemplate?_of_refines : ∀ {t u : Ty}, s.Defines t → Refines u (t.substitute s) →
    ∃ found, t.matchTemplate? u = some found ∧ s.Explains found
  | t, wildcard, _, _ => ⟨[], matchTemplate?_wildcard t, Substitution.explains_nil s⟩
  | wildcard, u, _, _ => ⟨[], wildcard_matchTemplate? u, Substitution.explains_nil s⟩
  | generic name, u, hd, h => by
    by_cases hu : u = wildcard
    · subst hu
      exact ⟨[], rfl, Substitution.explains_nil s⟩
    · obtain ⟨v, hv⟩ := hd name (by simp [generics])
      rw [substitute, hv, Option.getD_some] at h
      exact ⟨_, generic_matchTemplate? hu name,
        Substitution.explains_cons.mpr ⟨⟨v, hv, h⟩, Substitution.explains_nil s⟩⟩
  | unit, unit, _, _ => ⟨[], rfl, Substitution.explains_nil s⟩
  | primitive p, _, _, .primitive _ => ⟨[], by simp [matchTemplate?], Substitution.explains_nil s⟩
  | borrow _ a, _, hd, .borrow h => by
    obtain ⟨found, hf, hs⟩ := matchTemplate?_of_refines (t := a) hd h
    exact ⟨found, by simpa [matchTemplate?] using hf, hs⟩
  | path ⟨_, _, _⟩, _, hd, .path h => by
    obtain ⟨found, hf, hs⟩ := matchSegments?_of_refine hd h
    exact ⟨found, by simpa [matchTemplate?] using hf, hs⟩
  | tuple _, _, hd, .tuple h => by
    obtain ⟨found, hf, hs⟩ := matchAll?_of_refine hd h
    exact ⟨found, hf, hs⟩
  | array a m, _, hd, .array h hm => by
    obtain ⟨found, hf, hs⟩ := matchTemplate?_of_refines (t := a) hd h
    refine ⟨found, ?_, hs⟩
    rw [matchTemplate?, if_pos (by tauto)]
    exact hf

theorem matchAll?_of_refine : ∀ {ts us : List Ty},
    (∀ name ∈ genericsAll ts, ∃ u, s.get? name = some u) → AllRefine us (substituteAll s ts) →
      ∃ found, matchAll? ts us = some found ∧ s.Explains found
  | [], _, _, .nil => ⟨[], rfl, Substitution.explains_nil s⟩
  | t :: ts, _, hd, .cons h hs => by
    obtain ⟨hdt, hdts⟩ := List.forall_mem_append.mp hd
    obtain ⟨here, hh, hsh⟩ := matchTemplate?_of_refines hdt h
    obtain ⟨later, hl, hsl⟩ := matchAll?_of_refine hdts hs
    exact ⟨here ++ later, matchAll?_cons_eq_some.mpr ⟨here, later, hh, hl, rfl⟩,
      Substitution.explains_append.mpr ⟨hsh, hsl⟩⟩

theorem matchSegments?_of_refine : ∀ {ss ss' : List Segment},
    (∀ name ∈ genericsSegments ss, ∃ u, s.get? name = some u) →
      SegmentsRefine ss' (substituteSegments s ss) →
      ∃ found, matchSegments? ss ss' = some found ∧ s.Explains found
  | [], _, _, .nil => ⟨[], rfl, Substitution.explains_nil s⟩
  | ⟨_, args⟩ :: rest, _, hd, .omitted hs => by
    obtain ⟨-, hdr⟩ := List.forall_mem_append.mp hd
    obtain ⟨later, hl, hsl⟩ := matchSegments?_of_refine hdr hs
    exact ⟨later, matchSegments?_cons_eq_some.mpr ⟨rfl, [], later, by simp, hl, rfl⟩, hsl⟩
  | ⟨_, args⟩ :: rest, ⟨_, others⟩ :: _, hd, .given h hs => by
    obtain ⟨hda, hdr⟩ := List.forall_mem_append.mp hd
    obtain ⟨later, hl, hsl⟩ := matchSegments?_of_refine hdr hs
    by_cases hempty : args = [] ∨ others = []
    · exact ⟨later,
        matchSegments?_cons_eq_some.mpr ⟨rfl, [], later, by simp [hempty], hl, rfl⟩, hsl⟩
    · obtain ⟨here, hh, hsh⟩ := matchAll?_of_refine hda h
      exact ⟨here ++ later, matchSegments?_cons_eq_some.mpr
        ⟨rfl, here, later, by simpa [hempty] using hh, hl, rfl⟩,
        Substitution.explains_append.mpr ⟨hsh, hsl⟩⟩

end

end

/-! ### A template with its parameters replaced -/

section
variable {s : Substitution}

mutual

/-- Matched with its own parameters replaced, a template finds the replacements. -/
theorem recovers_matchTemplate? : ∀ {t : Ty}, s.Defines t →
    ∃ found, t.matchTemplate? (t.substitute s) = some found ∧ s.Recovers t.generics found
  | wildcard, _ | unit, _ => ⟨[], rfl, Substitution.recovers_nil s⟩
  | primitive p, _ => ⟨[], by simp [substitute, matchTemplate?], Substitution.recovers_nil s⟩
  | generic name, hd => by
    obtain ⟨v, hv⟩ := hd name (by simp [generics])
    rw [substitute, hv, Option.getD_some]
    by_cases hw : v = wildcard
    · subst hw
      exact ⟨[], rfl, fun n u => by simp [generics]; rintro rfl; simp [hv, eq_comm]⟩
    · refine ⟨_, generic_matchTemplate? hw name, fun n u => ?_⟩
      simp only [generics, List.mem_singleton, Prod.mk.injEq]
      constructor
      · rintro ⟨rfl, rfl⟩
        exact ⟨rfl, hv, hw⟩
      · rintro ⟨rfl, hu, -⟩
        exact ⟨rfl, Option.some.inj (hu.symm.trans hv)⟩
  | borrow _ a, hd => by
    obtain ⟨found, hf, hr⟩ := recovers_matchTemplate? (t := a) hd
    exact ⟨found, by simpa [substitute, matchTemplate?] using hf, hr⟩
  | array a _, hd => by
    obtain ⟨found, hf, hr⟩ := recovers_matchTemplate? (t := a) hd
    exact ⟨found, by simpa [substitute, matchTemplate?] using hf, hr⟩
  | path ⟨_, segments, _⟩, hd => by
    obtain ⟨found, hf, hr⟩ := @recovers_matchSegments? segments hd
    exact ⟨found, by simpa [substitute, matchTemplate?] using hf, hr⟩
  | tuple items, hd => @recovers_matchAll? items hd

theorem recovers_matchAll? : ∀ {ts : List Ty},
    (∀ name ∈ genericsAll ts, ∃ u, s.get? name = some u) →
      ∃ found, matchAll? ts (substituteAll s ts) = some found ∧ s.Recovers (genericsAll ts) found
  | [], _ => ⟨[], rfl, Substitution.recovers_nil s⟩
  | _ :: _, hd => by
    obtain ⟨hdt, hdts⟩ := List.forall_mem_append.mp hd
    obtain ⟨here, hh, hrh⟩ := recovers_matchTemplate? hdt
    obtain ⟨later, hl, hrl⟩ := recovers_matchAll? hdts
    exact ⟨here ++ later, matchAll?_cons_eq_some.mpr ⟨here, later, hh, hl, rfl⟩, hrh.append hrl⟩

theorem recovers_matchSegments? : ∀ {ss : List Segment},
    (∀ name ∈ genericsSegments ss, ∃ u, s.get? name = some u) →
      ∃ found, matchSegments? ss (substituteSegments s ss) = some found ∧
        s.Recovers (genericsSegments ss) found
  | [], _ => ⟨[], rfl, Substitution.recovers_nil s⟩
  | ⟨_, []⟩ :: _, hd => by
    obtain ⟨later, hl, hrl⟩ := recovers_matchSegments? (List.forall_mem_append.mp hd).2
    exact ⟨later, matchSegments?_cons_eq_some.mpr ⟨rfl, [], later, by simp, hl, rfl⟩, hrl⟩
  | ⟨_, t :: ts⟩ :: _, hd => by
    obtain ⟨hda, hdr⟩ := List.forall_mem_append.mp hd
    obtain ⟨here, hh, hrh⟩ := recovers_matchAll? hda
    obtain ⟨later, hl, hrl⟩ := recovers_matchSegments? hdr
    refine ⟨here ++ later, matchSegments?_cons_eq_some.mpr ⟨rfl, here, later, ?_, hl, rfl⟩,
      hrh.append hrl⟩
    simpa [substituteAll] using hh

end

end

mutual

@[simp] theorem merge?_self : ∀ t : Ty, t.merge? t = some t
  | wildcard | unit => rfl
  | primitive _ | generic _ => by simp [merge?]
  | borrow _ inner => by simp [merge?, merge?_self inner]
  | array inner size => by cases size <;> simp [merge?, mergeSize?, merge?_self inner]
  | path ⟨_, segments, _⟩ => by simp [merge?, mergeSegments?_self segments]
  | tuple items => by simp [merge?, mergeAll?_self items]

theorem mergeAll?_self : ∀ ts : List Ty, mergeAll? ts ts = some ts
  | [] => rfl
  | t :: ts => by simp [mergeAll?, merge?_self t, mergeAll?_self ts]

theorem mergeSegments?_self : ∀ segments : List Segment,
    mergeSegments? segments segments = some segments
  | [] => rfl
  | ⟨_, []⟩ :: rest => by simp [mergeSegments?, mergeSegments?_self rest]
  | ⟨_, t :: ts⟩ :: rest => by
    simp [mergeSegments?, mergeAll?_self (t :: ts), mergeSegments?_self rest]

end

end Ty

namespace Substitution

/-! ### Recording what is found -/

/-- What is known of a parameter. -/
def known (s : Substitution) (name : String) : Ty := (s.get? name).getD .wildcard

/-- Every type found recorded for its parameter, in order. -/
def recordAll? (s : Substitution) (found : Ty.Matches) : Option Substitution :=
  found.foldlM (fun s m => s.record? m.1 m.2) s

theorem recordAll?_cons_eq_some {s s' : Substitution} {name : String} {u : Ty}
    {found : Ty.Matches} :
    s.recordAll? ((name, u) :: found) = some s' ↔
      ∃ s₁, s.record? name u = some s₁ ∧ s₁.recordAll? found = some s' := by
  rw [recordAll?, List.foldlM_cons]
  exact Option.bind_eq_some_iff

theorem get?_map_snd (s : Substitution) (f : String → Ty → Ty) (name : String) :
    get? (s.map fun (n, u) => (n, f n u)) name = (s.get? name).map (f name) := by
  induction s with
  | nil => rfl
  | cons entry s ih =>
    obtain ⟨n, u⟩ := entry
    rw [List.map_cons, get?_cons, get?_cons, ih]
    split
    · next h => rw [h, Option.map_some]
    · rfl

/-- A type is recorded just when it merges with what is known, and only its parameter changes. -/
theorem record?_of_merge? {s : Substitution} {name : String} {u w : Ty}
    (h : (s.known name).merge? u = some w) :
    ∃ s', s.record? name u = some s' ∧
      ∀ n, s'.get? n = if n = name then some w else s.get? n := by
  unfold known at h
  unfold record?
  cases hold : s.get? name with
  | none =>
    rw [hold, Option.getD_none, Ty.wildcard_merge?, Option.some.injEq] at h
    subst h
    refine ⟨_, rfl, fun n => ?_⟩
    rw [get?_append, get?_cons, get?_nil]
    split
    · next hn => rw [hn, hold, Option.none_or]
    · rw [Option.or_none]
  | some old =>
    rw [hold, Option.getD_some] at h
    refine ⟨s.map fun (n, t) => (n, if n = name then w else t), ?_, fun n => ?_⟩
    · exact congrArg (Option.map _) h
    · rw [get?_map_snd s (fun n t => if n = name then w else t)]
      split
      · next hn => rw [hn, hold, Option.map_some]
      · exact Option.map_id'

theorem merge?_of_record? {s s' : Substitution} {name : String} {u : Ty}
    (h : s.record? name u = some s') : ∃ w, (s.known name).merge? u = some w := by
  unfold record? at h
  unfold known
  cases hold : s.get? name with
  | none => exact ⟨u, by rw [Option.getD_none, Ty.wildcard_merge?]⟩
  | some old =>
    rw [hold] at h
    obtain ⟨w, hw, -⟩ := Option.map_eq_some_iff.mp h
    exact ⟨w, hw⟩

theorem get?_of_record? {s s' : Substitution} {name : String} {u : Ty}
    (h : s.record? name u = some s') :
    ∃ w, (s.known name).merge? u = some w ∧
      ∀ n, s'.get? n = if n = name then some w else s.get? n := by
  obtain ⟨w, hw⟩ := merge?_of_record? h
  obtain ⟨s₁, h₁, hget⟩ := record?_of_merge? hw
  obtain rfl := Option.some.inj (h.symm.trans h₁)
  exact ⟨w, hw, hget⟩

theorem known_of_get? {s : Substitution} {name : String} {u : Ty} (h : s.get? name = some u) :
    s.known name = u := by
  rw [known, h, Option.getD_some]

/-- One more type recorded. -/
theorem below_record? {s s' : Substitution} {name : String} {u : Ty}
    (h : s.record? name u = some s') :
    s.Below s' ∧ ∃ v, s'.get? name = some v ∧ u ≤ v := by
  obtain ⟨w, hw, hget⟩ := get?_of_record? h
  obtain ⟨hold, hu⟩ := Ty.le_of_merge? hw
  refine ⟨fun n t ht => ?_, w, by rw [hget, if_pos rfl], hu⟩
  rw [hget]
  split
  · next hn =>
    subst hn
    rw [known_of_get? ht] at hold
    exact ⟨w, rfl, hold⟩
  · exact ⟨t, ht, le_rfl⟩

theorem Explains.mono {s s' : Substitution} {found : Ty.Matches} (h : s.Explains found)
    (hs : s.Below s') : s'.Explains found := by
  intro m hm
  obtain ⟨v, hv, hle⟩ := h m hm
  obtain ⟨w, hw, hvw⟩ := hs m.1 v hv
  exact ⟨w, hw, hle.trans hvw⟩

/-- Recording keeps what was known and explains all that is recorded. -/
theorem explains_recordAll? {found : Ty.Matches} : ∀ {s s' : Substitution},
    s.recordAll? found = some s' → s.Below s' ∧ s'.Explains found := by
  induction found with
  | nil =>
    intro s s' h
    obtain rfl := Option.some.inj h
    exact ⟨Below.refl s, explains_nil s⟩
  | cons m found ih =>
    intro s s' h
    obtain ⟨s₁, h₁, hrest⟩ := recordAll?_cons_eq_some.mp h
    obtain ⟨hs, v, hv, hle⟩ := below_record? h₁
    obtain ⟨hs', hfound⟩ := ih hrest
    obtain ⟨w, hw, hvw⟩ := hs' m.1 v hv
    exact ⟨hs.trans hs', explains_cons.mpr ⟨⟨w, hw, hle.trans hvw⟩, hfound⟩⟩

theorem record?_below {s σ : Substitution} {name : String} {u v : Ty} (hs : s.Below σ)
    (hv : σ.get? name = some v) (hu : u ≤ v) :
    ∃ s', s.record? name u = some s' ∧ s'.Below σ := by
  have hold : s.known name ≤ v := by
    unfold known
    cases hold : s.get? name with
    | none => exact Ty.wildcard_le v
    | some t =>
      obtain ⟨w, hw, htw⟩ := hs name t hold
      obtain rfl := Option.some.inj (hv.symm.trans hw)
      exact htw
  obtain ⟨w, hw, hwv⟩ := Ty.merge?_of_le hold hu
  obtain ⟨s', h', hget⟩ := record?_of_merge? hw
  refine ⟨s', h', fun n t ht => ?_⟩
  rw [hget] at ht
  split at ht
  · next hn =>
    obtain rfl := Option.some.inj ht
    exact ⟨v, hn ▸ hv, hwv⟩
  · exact hs n t ht

/-- What an assignment explains can be recorded below it. -/
theorem recordAll?_below {σ : Substitution} {found : Ty.Matches} : ∀ {s : Substitution},
    s.Below σ → σ.Explains found → ∃ s', s.recordAll? found = some s' ∧ s'.Below σ := by
  induction found with
  | nil => exact fun {s} hs _ => ⟨s, rfl, hs⟩
  | cons m found ih =>
    intro s hs hσ
    obtain ⟨⟨v, hv, hle⟩, hfound⟩ := explains_cons.mp hσ
    obtain ⟨s₁, h₁, hs₁⟩ := record?_below hs hv hle
    obtain ⟨s', h', hs'⟩ := ih hs₁ hfound
    exact ⟨s', recordAll?_cons_eq_some.mpr ⟨s₁, h₁, h'⟩, hs'⟩

/-- Found again and again, the types of an assignment are recorded as they are. -/
theorem recordAll?_exact {σ : Substitution} {found : Ty.Matches} : ∀ {s : Substitution},
    (∀ name v, s.get? name = some v → σ.get? name = some v) →
    (∀ name v, (name, v) ∈ found → σ.get? name = some v) →
      ∃ s', s.recordAll? found = some s' ∧
        ∀ name v, s'.get? name = some v ↔ s.get? name = some v ∨ (name, v) ∈ found := by
  induction found with
  | nil => exact fun {s} _ _ => ⟨s, rfl, by simp⟩
  | cons m found ih =>
    obtain ⟨m, u⟩ := m
    intro s hs hfound
    have hu : σ.get? m = some u := hfound m u (by simp)
    have hmerge : (s.known m).merge? u = some u := by
      unfold known
      cases hold : s.get? m with
      | none => exact Ty.wildcard_merge? u
      | some t =>
        obtain rfl := Option.some.inj (hu.symm.trans (hs m t hold))
        exact Ty.merge?_self u
    obtain ⟨s₁, h₁, hget⟩ := record?_of_merge? hmerge
    have hs₁ : ∀ name v, s₁.get? name = some v ↔ s.get? name = some v ∨ (name, v) = (m, u) := by
      intro name v
      rw [hget]
      split
      · next hn =>
        subst hn
        constructor
        · intro h
          exact .inr (by rw [Option.some.inj h])
        · rintro (h | h)
          · rw [← hs name v h, hu]
          · rw [(Prod.mk.inj h).2]
      · next hn => simp [hn]
    obtain ⟨s', h', hget'⟩ := ih (s := s₁)
      (fun name v h => by
        rcases (hs₁ name v).mp h with h | h
        · exact hs name v h
        · obtain ⟨rfl, rfl⟩ := Prod.mk.inj h
          exact hu)
      (fun name v h => hfound name v (List.mem_cons_of_mem _ h))
    refine ⟨s', recordAll?_cons_eq_some.mpr ⟨s₁, h₁, h'⟩, fun name v => ?_⟩
    rw [hget', hs₁, List.mem_cons, or_assoc]

end Substitution

namespace ImplSignature

theorem bindSelf?_eq_some {d : ImplSignature} {t : Ty} {s : Substitution} :
    d.bindSelf? t = some s ↔
      ∃ found, d.selfType.matchTemplate? t = some found ∧
        Substitution.recordAll? [] found = some s :=
  Option.bind_eq_some_iff

/-- Binding is sound and finds the least assignment: with what it finds the self type merges with
the type; any assignment to the parameters of the self type under which the type is refined is
above what is found; and a self type with its parameters replaced gives back the replacements, as
far as they are not bare wildcards. -/
theorem bindSelf?_least (d : ImplSignature) :
    (∀ t s, d.bindSelf? t = some s → ∃ v, (d.selfType.substitute s).merge t = .ok v) ∧
    (∀ t (σ : Substitution), σ.Defines d.selfType → t ≤ d.selfType.substitute σ →
      ∃ s, d.bindSelf? t = some s ∧ s.Below σ) ∧
    ∀ σ : Substitution, σ.Defines d.selfType →
      ∃ s, d.bindSelf? (d.selfType.substitute σ) = some s ∧
        ∀ name v, s.get? name = some v ↔
          name ∈ d.selfType.generics ∧ σ.get? name = some v ∧ v ≠ .wildcard := by
  refine ⟨fun t s h => ?_, fun t σ hσ hle => ?_, fun σ hσ => ?_⟩
  · obtain ⟨found, hf, hs⟩ := bindSelf?_eq_some.mp h
    obtain ⟨-, hexplains⟩ := Substitution.explains_recordAll? hs
    obtain ⟨c, ha, hb⟩ := Ty.refines_of_matchTemplate? hf hexplains
    obtain ⟨v, hv, -⟩ := Ty.merge?_of_le ha hb
    exact ⟨v, Ty.merge_eq_ok_iff.mpr hv⟩
  · obtain ⟨found, hf, hexplains⟩ := Ty.matchTemplate?_of_refines hσ hle
    obtain ⟨s, hs, hbelow⟩ := Substitution.recordAll?_below (Substitution.nil_below σ) hexplains
    exact ⟨s, bindSelf?_eq_some.mpr ⟨found, hf, hs⟩, hbelow⟩
  · obtain ⟨found, hf, hrecovers⟩ := Ty.recovers_matchTemplate? hσ
    obtain ⟨s, hs, hget⟩ := Substitution.recordAll?_exact (s := []) (σ := σ) (by simp)
      (fun name v h => ((hrecovers name v).mp h).2.1)
    refine ⟨s, bindSelf?_eq_some.mpr ⟨found, hf, hs⟩, fun name v => ?_⟩
    rw [hget, Substitution.get?_nil]
    simpa using hrecovers name v

/-- An impl for `Pair<A, (B, A)>`. -/
def ofPair : ImplSignature where
  params := ⟨["A", "B"], []⟩
  traitPath := none
  selfType := .path ⟨false, [⟨"Pair", [.generic "A", .tuple [.generic "B", .generic "A"]]⟩],
    .structType "::Pair"⟩
  methods := []
  span := default

/-- `Pair<[_; 4], (_, [u8])>` tells all of `A`, from two places, and nothing of `B`. -/
def partialPair : Ty :=
  .path ⟨false, [⟨"Pair", [.array .wildcard (some 4),
    .tuple [.wildcard, .array (.primitive .u8) none]]⟩], .structType "::Pair"⟩

def pairArgs : Substitution := [("A", .array (.primitive .u8) (some 4)), ("B", .primitive .bool)]

theorem bindSelf?_least_ofPair :
    ofPair.bindSelf? partialPair = some [("A", .array (.primitive .u8) (some 4))] ∧
    (∃ v, (ofPair.selfType.substitute [("A", .array (.primitive .u8) (some 4))]).merge partialPair =
      .ok v) ∧
    pairArgs.Defines ofPair.selfType ∧ partialPair ≤ ofPair.selfType.substitute pairArgs ∧
    (∃ s, ofPair.bindSelf? partialPair = some s ∧ s.Below pairArgs) ∧
    ∃ s, ofPair.bindSelf? (ofPair.selfType.substitute pairArgs) = some s ∧
      s.get? "B" = some (.primitive .bool) := by
  obtain ⟨hsound, hleast, hexact⟩ := bindSelf?_least ofPair
  have hdefines : pairArgs.Defines ofPair.selfType := by
    intro name hname
    have : name = "A" ∨ name = "B" ∨ name = "A" := by
      simpa [ofPair, Ty.generics, Ty.genericsAll, Ty.genericsSegments] using hname
    rcases this with rfl | rfl | rfl <;> exact ⟨_, rfl⟩
  have hle : partialPair ≤ ofPair.selfType.substitute pairArgs :=
    .path (.given (.cons (.array (.wildcard _) (.inr rfl)) (.cons (.tuple (.cons (.wildcard _)
      (.cons (.array (.primitive _) (.inl rfl)) .nil))) .nil)) .nil)
  obtain ⟨s, hs, hget⟩ := hexact pairArgs hdefines
  exact ⟨rfl, hsound _ _ rfl, hdefines, hle, hleast _ _ hdefines hle, s, hs,
    (hget _ _).mpr ⟨by decide, rfl, by simp⟩⟩

end ImplSignature
end BorrowLang
