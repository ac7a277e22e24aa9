import BorrowLang.Proofs.CheckedBodies
import BorrowLang.Proofs.LocalSlots

/-!
Checks that neither read nor change a local, and frames that differ in the names of their locals
only. Where two names find the same declaration, their uses do the same to both.
-/
namespace BorrowLang

/-- The frame without its locals. -/
def Frame.cleared (f : Frame) : Frame := { f with locals := [] }

namespace Frames

def cleared (frames : Frames) : Frames := frames.map (·.cleared)

@[simp] theorem cleared_cons (f : Frame) (fs : Frames) :
    cleared (f :: fs) = f.cleared :: cleared fs := rfl

theorem alias?_cleared (frames : Frames) (name : String) :
    frames.cleared.alias? name = frames.alias? name := by
  simp only [alias?, cleared, List.findSome?_map, Function.comp_def]
  rfl

theorem traits_cleared (frames : Frames) : frames.cleared.traits = frames.traits := by
  simp only [traits, cleared, List.flatMap_map]
  rfl

theorem typeParam_cleared (frames : Frames) (span : Span) :
    frames.cleared.typeParam span = frames.typeParam span := by
  funext name
  simp only [typeParam, hasTypeParam, cleared, List.any_map, Function.comp_def]
  rfl

end Frames

namespace Check
variable {α β : Type}

/-- The check can have this result. -/
def Yields (c : Check α) (a : α) : Prop := ∃ fs gs, c.run fs = (.ok a, gs)

theorem not_yields_throw (e : Error) (a : α) : ¬(throw e : Check α).Yields a := by
  rintro ⟨fs, gs, h⟩
  cases h

theorem Yields.of_ofResult {r : Result α} {a : α} (h : (ofResult r).Yields a) : r = .ok a := by
  obtain ⟨fs, gs, h⟩ := h
  exact (ofResult_eq_ok.mp h).1

/-- The check neither reads nor changes a local. -/
structure Blind (c : Check α) : Prop where
  run : ∀ {fs gs : Frames}, fs.cleared = gs.cleared →
    (c.run gs).1 = (c.run fs).1 ∧ (c.run gs).2.cleared = (c.run fs).2.cleared
  locals : ∀ fs : Frames, (c.run fs).2.map (·.locals) = fs.map (·.locals)

theorem blind_ofResult (r : Result α) : (ofResult r).Blind :=
  ⟨fun h => ⟨rfl, h.symm⟩, fun _ => rfl⟩

theorem blind_pure (a : α) : (pure a : Check α).Blind := blind_ofResult (.ok a)

theorem blind_throw (e : Error) : (throw e : Check α).Blind := blind_ofResult (.error e)

theorem blind_merge (t u : Ty) (span : Span) : (merge t u span).Blind := blind_ofResult _

/-- What is read of the frames does not depend on their locals. -/
theorem blind_read {g : Frames → Result α} (hg : ∀ frames, g frames.cleared = g frames) :
    Blind (fun frames => (g frames, frames) : Check α) :=
  ⟨fun {fs gs} h => ⟨(hg gs).symm.trans (h ▸ hg fs), h.symm⟩, fun _ => rfl⟩

theorem blind_resolveType (env : Env) (span : Span) (t : Ty) : (resolveType env span t).Blind :=
  blind_read fun frames => resolveType_congr rfl frames.alias?_cleared t

theorem blind_method (env : Env) (t : Ty) (method : Segment) (given : Nat) (span : Span) :
    (Check.method env t method given span).Blind :=
  blind_read fun frames => by
    simp only [Env.method, frames.typeParam_cleared, frames.traits_cleared]

theorem Blind.bind {c : Check α} {f : α → Check β} (hc : c.Blind) (hf : ∀ a, (f a).Blind) :
    (c >>= f).Blind := by
  constructor
  · intro fs gs h
    rw [run_bind, run_bind]
    obtain ⟨hresult, hcleared⟩ := hc.run h
    rcases hfs : c.run fs with ⟨r, fs'⟩
    rcases hgs : c.run gs with ⟨r', gs'⟩
    rw [hfs, hgs] at hresult hcleared
    obtain rfl : r' = r := hresult
    cases r' with
    | error e => exact ⟨rfl, hcleared⟩
    | ok a => exact (hf a).run hcleared.symm
  · intro fs
    rw [run_bind]
    have hlocals := hc.locals fs
    rcases hfs : c.run fs with ⟨r, fs'⟩
    rw [hfs] at hlocals
    cases r with
    | error e => exact hlocals
    | ok a => exact ((hf a).locals fs').trans hlocals

theorem blind_modifyFrame (span : Span) {change : Frame → Frame}
    (hc : ∀ f, (change f).cleared = change f.cleared)
    (hl : ∀ f, (change f).locals = f.locals) : (modifyFrame span change).Blind := by
  constructor
  · intro fs gs h
    cases fs with
    | nil =>
      cases gs with
      | nil => exact ⟨rfl, rfl⟩
      | cons g gs => contradiction
    | cons f fs =>
      cases gs with
      | nil => contradiction
      | cons g gs =>
        rw [Frames.cleared_cons, Frames.cleared_cons] at h
        obtain ⟨hfg, hrest⟩ := List.cons.inj h
        refine ⟨rfl, ?_⟩
        change (change g).cleared :: Frames.cleared gs = (change f).cleared :: Frames.cleared fs
        rw [hc, hc, hfg, hrest]
  · intro fs
    cases fs with
    | nil => rfl
    | cons f fs =>
      change (change f :: fs).map (·.locals) = (f :: fs).map (·.locals)
      rw [List.map_cons, List.map_cons, hl]

theorem blind_declareAliases (env : Env) (span : Span) (aliases : List (String × Ty)) :
    (declareAliases env span aliases).Blind := by
  induction aliases with
  | nil => exact blind_pure ()
  | cons entry rest ih =>
    refine (blind_resolveType env span entry.2).bind fun t => ?_
    exact .bind (blind_modifyFrame span (fun _ => rfl) fun _ => rfl) fun _ => ih

theorem blind_openBlock (env : Env) (span : Span) (traits : List Path)
    (aliases : List (String × Ty)) : (openBlock env span traits aliases).Blind :=
  (blind_declareAliases env span aliases).bind fun _ =>
    blind_modifyFrame span (fun _ => rfl) fun _ => rfl

theorem blind_requireTypeParams (bounds : List Bound) : (requireTypeParams bounds).Blind := by
  induction bounds with
  | nil => exact blind_pure ()
  | cons b bs ih =>
    rw [requireTypeParams]
    cases boundName? b with
    | none => exact (blind_pure ()).bind fun _ => ih
    | some found =>
      have hread : Blind (fun frames =>
          (discard (frames.typeParam found.2 found.1), frames) : Check Unit) :=
        blind_read fun frames => by rw [frames.typeParam_cleared]
      exact hread.bind fun _ => ih

theorem blind_declareParams (params : Params) (span : Span) : (declareParams params span).Blind :=
  .bind (blind_modifyFrame span (fun _ => rfl) fun _ => rfl) fun _ => blind_requireTypeParams _

end Check

/-- The same locals under other names; the numbers are those of their declarations. -/
inductive Local.Twins (old new : Nat → String) : List Nat → List Local → List Local → Prop
  | nil : Twins old new [] [] []
  | cons {j : Nat} {js : List Nat} {vs ws : List Local} (mutability : Mutability) (type : Ty) :
    Twins old new js vs ws →
    Twins old new (j :: js) (⟨old j, mutability, type⟩ :: vs) (⟨new j, mutability, type⟩ :: ws)

namespace Local
variable {old new : Nat → String} {js : List Nat} {vs ws : List Local}

theorem Twins.map_name_left (h : Twins old new js vs ws) : vs.map (·.name) = js.map old := by
  induction h with
  | nil => rfl
  | cons _ _ _ ih => rw [List.map_cons, List.map_cons, ih]

theorem Twins.map_name_right (h : Twins old new js vs ws) : ws.map (·.name) = js.map new := by
  induction h with
  | nil => rfl
  | cons _ _ _ ih => rw [List.map_cons, List.map_cons, ih]

/-- Names that find the same declaration find the same local, and give it a new type on both sides. -/
theorem Twins.find {x y : String} {j : Nat} (h : Twins old new js vs ws)
    (ho : js.find? (old · = x) = some j) (hn : js.find? (new · = y) = some j) :
    ∃ v w, vs.find? (·.name == x) = some v ∧ ws.find? (·.name == y) = some w ∧ v.type = w.type ∧
      ∀ t, Twins old new js (Frames.retypeLocal x t vs) (Frames.retypeLocal y t ws) := by
  induction h with
  | nil => contradiction
  | @cons i js vs ws mutability type h ih =>
    have hxy : old i = x ↔ new i = y := by
      constructor
      · intro hi
        rw [List.find?_cons_of_pos (by simpa using hi)] at ho
        obtain rfl := Option.some.inj ho
        simpa using List.find?_some hn
      · intro hi
        rw [List.find?_cons_of_pos (by simpa using hi)] at hn
        obtain rfl := Option.some.inj hn
        simpa using List.find?_some ho
    by_cases hi : old i = x
    · have hi' := hxy.mp hi
      refine ⟨_, _, List.find?_cons_of_pos (by simpa using hi),
        List.find?_cons_of_pos (by simpa using hi'), rfl, fun t => ?_⟩
      rw [Frames.retypeLocal, Frames.retypeLocal, if_pos hi, if_pos hi']
      exact .cons mutability t h
    · have hi' := mt hxy.mpr hi
      rw [List.find?_cons_of_neg (by simpa using hi)] at ho
      rw [List.find?_cons_of_neg (by simpa using hi')] at hn
      obtain ⟨v, w, hv, hw, htype, hretype⟩ := ih ho hn
      refine ⟨v, w, by rwa [List.find?_cons_of_neg (by simpa using hi)],
        by rwa [List.find?_cons_of_neg (by simpa using hi')], htype, fun t => ?_⟩
      rw [Frames.retypeLocal, Frames.retypeLocal, if_neg hi, if_neg hi']
      exact .cons mutability type (hretype t)

end Local

/-- The same frames with other names for the locals in the innermost of them. The others, which were
open before, hold `outer` locals. -/
inductive Frames.Twins (old new : Nat → String) (outer : Nat) :
    List (List Nat) → Frames → Frames → Prop
  | base {frames : Frames} : frames.slots.length = outer → Twins old new outer [] frames frames
  | scope {row : List Nat} {rows : List (List Nat)} {f g : Frame} {fs gs : Frames} :
    f.cleared = g.cleared → Local.Twins old new row f.locals g.locals →
    Twins old new outer rows fs gs → Twins old new outer (row :: rows) (f :: fs) (g :: gs)

namespace Frames
variable {old new : Nat → String} {outer : Nat} {rows : List (List Nat)} {fs gs : Frames}

theorem eq_of_cleared_eq {fs gs : Frames} (hl : fs.map (·.locals) = gs.map (·.locals))
    (hc : fs.cleared = gs.cleared) : fs = gs := by
  induction fs generalizing gs with
  | nil => exact (List.map_eq_nil_iff.mp hl.symm).symm
  | cons f fs ih =>
    obtain ⟨g, gs, rfl, hg, hgs⟩ := List.map_eq_cons_iff.mp hl.symm
    obtain ⟨hfg, hrest⟩ := List.cons.inj hc
    obtain ⟨locals, aliases, typeParams, traits⟩ := f
    obtain ⟨locals', aliases', typeParams', traits'⟩ := g
    cases hfg
    cases hg
    rw [ih hgs.symm hrest]

/-- A name that no local of the innermost frame has stands for what it stands for outside. -/
theorem local?_cons_of_none {f : Frame} {x : String} (h : f.locals.find? (·.name == x) = none) :
    local? (f :: fs) x = fs.local? x := by
  rw [local?, List.findSome?_cons, h]
  rfl

theorem retype_cons_of_none {f : Frame} {x : String} (h : f.locals.find? (·.name == x) = none)
    (t : Ty) : retype x t (f :: fs) = f :: fs.retype x t := by
  rw [retype, if_neg (by simpa using h)]

theorem local?_cons_of_some {f : Frame} {x : String} {v : Local}
    (h : f.locals.find? (·.name == x) = some v) : local? (f :: fs) x = some v := by
  rw [local?, List.findSome?_cons, h]

theorem retype_cons_of_some {f : Frame} {x : String} {v : Local}
    (h : f.locals.find? (·.name == x) = some v) (t : Ty) :
    retype x t (f :: fs) = { f with locals := retypeLocal x t f.locals } :: fs := by
  have hany : f.locals.any (·.name == x) = true :=
    List.any_eq_true.mpr ⟨v, List.mem_of_find?_eq_some h, by simpa using List.find?_some h⟩
  rw [retype, if_pos hany]

theorem Twins.cleared_eq (h : Twins old new outer rows fs gs) : fs.cleared = gs.cleared := by
  induction h with
  | base => rfl
  | scope hfg _ _ ih => rw [cleared_cons, cleared_cons, hfg, ih]

/-- Frames are twins by their locals, whatever else changes in both of them alike. -/
theorem Twins.congr {hs ks : Frames} (h : Twins old new outer rows fs gs)
    (hf : hs.map (·.locals) = fs.map (·.locals)) (hg : ks.map (·.locals) = gs.map (·.locals))
    (hc : hs.cleared = ks.cleared) : Twins old new outer rows hs ks := by
  induction h generalizing hs ks with
  | base hlen =>
    obtain rfl := eq_of_cleared_eq (hf.trans hg.symm) hc
    exact .base (by rw [slots_eq_flatten, hf, ← slots_eq_flatten, hlen])
  | scope _ hrow _ ih =>
    obtain ⟨f', fs', rfl, hf', hfs⟩ := List.map_eq_cons_iff.mp hf
    obtain ⟨g', gs', rfl, hg', hgs⟩ := List.map_eq_cons_iff.mp hg
    obtain ⟨hfg, hrest⟩ := List.cons.inj hc
    exact .scope hfg (hf' ▸ hg' ▸ hrow) (ih hfs hgs hrest)

theorem Twins.blind {α : Type} {c : Check α} (h : Twins old new outer rows fs gs) (hc : c.Blind) :
    (c.run gs).1 = (c.run fs).1 ∧ Twins old new outer rows (c.run fs).2 (c.run gs).2 := by
  obtain ⟨hresult, hcleared⟩ := hc.run h.cleared_eq
  exact ⟨hresult, h.congr (hc.locals fs) (hc.locals gs) hcleared.symm⟩

theorem Twins.tail (h : Twins old new outer rows fs gs) (hrows : rows ≠ []) :
    Twins old new outer rows.tail fs.tail gs.tail := by
  cases h with
  | base => contradiction
  | scope _ _ h => exact h

theorem find?_eq_none_of_names {name : Nat → String} {row : List Nat} {vs : List Local}
    (h : vs.map (·.name) = row.map name) {x : String} (hrow : row.find? (name · = x) = none) :
    vs.find? (·.name == x) = none := by
  have hnames : ∀ n ∈ vs.map (·.name), n ≠ x := by
    rw [h]
    simpa using hrow
  simpa using hnames

/-- What is found in two lists together is found in the first if it is there at all. -/
theorem find?_append_of_mem {α : Type} {p : α → Bool} {as bs : List α} {a : α}
    (h : (as ++ bs).find? p = some a) (ha : a ∈ as) : as.find? p = some a := by
  rw [List.find?_append] at h
  cases hf : as.find? p with
  | some b => rwa [hf, Option.some_or] at h
  | none =>
    rw [hf, Option.none_or] at h
    exact absurd (List.find?_some h) (List.find?_eq_none.mp hf a ha)

theorem find?_append_of_not_mem {α : Type} {p : α → Bool} {as bs : List α} {a : α}
    (h : (as ++ bs).find? p = some a) (ha : a ∉ as) : as.find? p = none ∧ bs.find? p = some a := by
  rw [List.find?_append] at h
  cases hf : as.find? p with
  | some b =>
    rw [hf, Option.some_or] at h
    exact absurd (List.mem_of_find?_eq_some (hf.trans h)) ha
  | none => exact ⟨rfl, by rwa [hf, Option.none_or] at h⟩

/-- Names that refer to the same declaration use the same local. -/
theorem Twins.use {x y : String} {j : Nat} (h : Twins old new outer rows fs gs)
    (ho : rows.flatten.find? (old · = x) = some j)
    (hn : rows.flatten.find? (new · = y) = some j) :
    ∃ v w, fs.local? x = some v ∧ gs.local? y = some w ∧ v.type = w.type ∧
      ∀ t, Twins old new outer rows (fs.retype x t) (gs.retype y t) := by
  induction h with
  | base => contradiction
  | @scope row rows f g fs gs hfg hrow h ih =>
    rw [List.flatten_cons] at ho hn
    by_cases hj : j ∈ row
    · obtain ⟨v, w, hv, hw, htype, hretype⟩ :=
        hrow.find (find?_append_of_mem ho hj) (find?_append_of_mem hn hj)
      refine ⟨v, w, local?_cons_of_some hv, local?_cons_of_some hw, htype, fun t => ?_⟩
      rw [retype_cons_of_some hv, retype_cons_of_some hw]
      exact .scope hfg (hretype t) h
    · obtain ⟨hro, ho⟩ := find?_append_of_not_mem ho hj
      obtain ⟨hrn, hn⟩ := find?_append_of_not_mem hn hj
      have hf := find?_eq_none_of_names hrow.map_name_left hro
      have hg := find?_eq_none_of_names hrow.map_name_right hrn
      obtain ⟨v, w, hv, hw, htype, hretype⟩ := ih ho hn
      refine ⟨v, w, (local?_cons_of_none hf).trans hv, (local?_cons_of_none hg).trans hw, htype,
        fun t => ?_⟩
      rw [retype_cons_of_none hf, retype_cons_of_none hg]
      exact .scope hfg hrow (hretype t)

/-- A name that refers to no declaration uses the same local outside, if any. -/
theorem Twins.use_outside {x : String} (h : Twins old new outer rows fs gs)
    (ho : rows.flatten.find? (old · = x) = none) (hn : rows.flatten.find? (new · = x) = none) :
    fs.local? x = gs.local? x ∧
      ∀ t, Twins old new outer rows (fs.retype x t) (gs.retype x t) := by
  induction h with
  | base hlen => exact ⟨rfl, fun t => .base ((length_slots_retype x t _).trans hlen)⟩
  | @scope row rows f g fs gs hfg hrow h ih =>
    rw [List.flatten_cons, List.find?_append, Option.or_eq_none_iff] at ho hn
    have hf := find?_eq_none_of_names hrow.map_name_left ho.1
    have hg := find?_eq_none_of_names hrow.map_name_right hn.1
    obtain ⟨hlocal, hretype⟩ := ih ho.2 hn.2
    refine ⟨?_, fun t => ?_⟩
    · rw [local?_cons_of_none hf, local?_cons_of_none hg, hlocal]
    · rw [retype_cons_of_none hf, retype_cons_of_none hg]
      exact .scope hfg hrow (hretype t)

end Frames
end BorrowLang
