import Mathlib.Order.Defs.Unbundled
import Mathlib.Data.List.Forall2
import BorrowLang.Proofs.Refinement
import BorrowLang.Proofs.Merge
import BorrowLang.Check.Module

/-!
What a check may do to the frames that are open when it starts: it refines the types of locals and
declares new ones in the innermost frame, and nothing else, whether it succeeds or fails.
-/
namespace BorrowLang

/-- The same local, of whose type more may be known. -/
structure Local.Refines (v w : Local) : Prop where
  name : v.name = w.name
  mutability : v.mutability = w.mutability
  type : v.type ≤ w.type

namespace Local

theorem Refines.refl (v : Local) : v.Refines v := ⟨rfl, rfl, le_rfl⟩

theorem Refines.trans {u v w : Local} (h : u.Refines v) (k : v.Refines w) : u.Refines w :=
  ⟨h.name.trans k.name, h.mutability.trans k.mutability, h.type.trans k.type⟩

theorem refines_refl_all (vs : List Local) : List.Forall₂ Refines vs vs :=
  List.forall₂_same.mpr fun v _ => .refl v

theorem refines_trans_all {us vs ws : List Local} (h : List.Forall₂ Refines us vs)
    (k : List.Forall₂ Refines vs ws) : List.Forall₂ Refines us ws := by
  induction h generalizing ws with
  | nil => exact k
  | cons hv _ ih =>
    cases k with
    | cons kv ks => exact .cons (hv.trans kv) (ih ks)

end Local

namespace Frame

/-- The same frame, of whose locals more may be known. -/
structure Kept (f g : Frame) : Prop where
  locals : List.Forall₂ Local.Refines f.locals g.locals
  aliases : f.aliases = g.aliases
  typeParams : f.typeParams = g.typeParams
  traits : f.traits = g.traits

/-- The same frame, of whose locals more may be known, with new locals declared after them. -/
def Grown (f g : Frame) : Prop :=
  ∃ (old : Frame) (new : List Local), f.Kept old ∧ g = { old with locals := new ++ old.locals }

theorem Kept.refl (f : Frame) : f.Kept f := ⟨Local.refines_refl_all _, rfl, rfl, rfl⟩

theorem Kept.trans {f g h : Frame} (k : f.Kept g) (l : g.Kept h) : f.Kept h :=
  ⟨Local.refines_trans_all k.locals l.locals, k.aliases.trans l.aliases,
    k.typeParams.trans l.typeParams, k.traits.trans l.traits⟩

theorem Kept.grown {f g : Frame} (h : f.Kept g) : f.Grown g := ⟨g, [], h, rfl⟩

theorem Grown.trans {f g h : Frame} (k : f.Grown g) (l : g.Grown h) : f.Grown h := by
  obtain ⟨old, new, k, rfl⟩ := k
  obtain ⟨old', new', l, rfl⟩ := l
  -- The later frame still has the locals that the earlier one had gained, before the old ones.
  have hl : List.Forall₂ Local.Refines old.locals (old'.locals.drop new.length) := by
    simpa using List.forall₂_drop new.length l.locals
  refine ⟨{ old' with locals := old'.locals.drop new.length },
    new' ++ old'.locals.take new.length,
    k.trans ⟨hl, l.aliases, l.typeParams, l.traits⟩, ?_⟩
  simp [List.append_assoc]

instance : IsPreorder Frame Kept where
  refl := .refl
  trans _ _ _ := .trans

instance : IsPreorder Frame Grown where
  refl f := (Kept.refl f).grown
  trans _ _ _ := .trans

instance : IsPreorder Frame fun _ _ => True where
  refl _ := trivial
  trans _ _ _ _ _ := trivial

end Frame

/-- The frames are as many as before, the innermost is related to the one it was by `r`, and the
others are kept. -/
inductive Frames.Change (r : Frame → Frame → Prop) : Frames → Frames → Prop
  | nil : Change r [] []
  | cons {f g : Frame} {fs gs : Frames} :
    r f g → List.Forall₂ Frame.Kept fs gs → Change r (f :: fs) (g :: gs)

namespace Frames
variable {r s : Frame → Frame → Prop}

theorem Change.length_eq {fs gs : Frames} (h : Change r fs gs) : gs.length = fs.length := by
  cases h with
  | nil => rfl
  | cons _ h => simp [h.length_eq]

theorem Change.mono {fs gs : Frames} (hrs : ∀ f g, r f g → s f g) (h : Change r fs gs) :
    Change s fs gs := by
  cases h with
  | nil => exact .nil
  | cons h hs => exact .cons (hrs _ _ h) hs

theorem kept_refl_all (fs : Frames) : List.Forall₂ Frame.Kept fs fs := List.forall₂_refl fs

theorem kept_trans_all {fs gs hs : Frames} (h : List.Forall₂ Frame.Kept fs gs)
    (k : List.Forall₂ Frame.Kept gs hs) : List.Forall₂ Frame.Kept fs hs := by
  induction h generalizing hs with
  | nil => exact k
  | cons hf _ ih =>
    cases k with
    | cons kf ks => exact .cons (hf.trans kf) (ih ks)

instance [IsPreorder Frame r] : IsPreorder Frames (Change r) where
  refl fs := by
    cases fs with
    | nil => exact .nil
    | cons f fs => exact .cons (refl f) (kept_refl_all fs)
  trans fs gs hs h k := by
    cases h with
    | nil => exact k
    | cons hf hfs =>
      cases k with
      | cons kf kfs => exact .cons (IsTrans.trans _ _ _ hf kf) (kept_trans_all hfs kfs)

theorem Change.rfl [IsPreorder Frame r] {fs : Frames} : Change r fs fs := refl fs

/-- Nothing is declared. -/
abbrev Keeps : Frames → Frames → Prop := Change Frame.Kept

/-- New locals are declared in the innermost frame. -/
abbrev Extends : Frames → Frames → Prop := Change Frame.Grown

/-- Anything may happen to the innermost frame. -/
abbrev KeepsOuter : Frames → Frames → Prop := Change fun _ _ => True

theorem Keeps.extends {fs gs : Frames} (h : Keeps fs gs) : Extends fs gs :=
  h.mono fun _ _ => Frame.Kept.grown

theorem Extends.keepsOuter {fs gs : Frames} (h : Extends fs gs) : KeepsOuter fs gs :=
  h.mono fun _ _ _ => trivial

theorem keeps_of_all {fs gs : Frames} (h : List.Forall₂ Frame.Kept fs gs) : Keeps fs gs := by
  cases h with
  | nil => exact .nil
  | cons h hs => exact .cons h hs

/-- No function and no block is open, as between the items of a module. -/
def BetweenItems (frames : Frames) : Prop := ∀ f ∈ frames, f.locals = [] ∧ f.aliases = []

theorem BetweenItems.nil : BetweenItems [] := List.forall_mem_nil _

theorem BetweenItems.cons {f : Frame} {fs : Frames} (hl : f.locals = []) (ha : f.aliases = [])
    (h : BetweenItems fs) : BetweenItems (f :: fs) := List.forall_mem_cons.mpr ⟨⟨hl, ha⟩, h⟩

theorem BetweenItems.alias?_eq {frames : Frames} (h : BetweenItems frames) (name : String) :
    frames.alias? name = none := by
  rw [alias?, List.findSome?_eq_none_iff]
  intro f hf
  rw [(h f hf).2]
  rfl

theorem BetweenItems.of_kept {fs gs : Frames} (h : BetweenItems fs)
    (k : List.Forall₂ Frame.Kept fs gs) : BetweenItems gs := by
  induction k with
  | nil => exact h
  | @cons f g fs gs hk _ ih =>
    obtain ⟨⟨hl, ha⟩, hfs⟩ := List.forall_mem_cons.mp h
    have hg := hk.locals
    rw [hl, List.forall₂_nil_left_iff] at hg
    exact .cons hg (hk.aliases.symm.trans ha) (ih hfs)

theorem BetweenItems.of_keeps {fs gs : Frames} (h : BetweenItems fs) (k : Keeps fs gs) :
    BetweenItems gs := by
  cases k with
  | nil => exact h
  | cons hf hfs => exact h.of_kept (.cons hf hfs)

/-- Below a frame that is opened and closed again every frame is kept. -/
theorem KeepsOuter.tail {f : Frame} {fs gs : Frames} (h : KeepsOuter (f :: fs) gs) :
    Keeps fs gs.tail := by
  cases h with
  | cons _ h => exact keeps_of_all h

theorem retypeLocal_refines {name : String} {t : Ty} {v : Local} {vs : List Local}
    (hv : vs.find? (·.name == name) = some v) (ht : v.type ≤ t) :
    List.Forall₂ Local.Refines vs (retypeLocal name t vs) := by
  induction vs with
  | nil => exact .nil
  | cons w vs ih =>
    rw [List.find?_cons] at hv
    by_cases hw : w.name = name
    · simp only [hw, beq_self_eq_true, Option.some.injEq] at hv
      subst hv
      simp only [retypeLocal, hw, if_true]
      exact .cons ⟨hw, rfl, ht⟩ (Local.refines_refl_all vs)
    · simp only [beq_eq_false_iff_ne.mpr hw] at hv
      simp only [retypeLocal, hw, if_false]
      exact .cons (.refl w) (ih hv)

/-- The local that a name stands for is the one that gets the new type. -/
theorem retype_keeps {name : String} {t : Ty} {v : Local} {fs : Frames}
    (hv : fs.local? name = some v) (ht : v.type ≤ t) : Keeps fs (fs.retype name t) := by
  apply keeps_of_all
  induction fs with
  | nil => exact .nil
  | cons f fs ih =>
    rw [local?, List.findSome?_cons] at hv
    cases hf : f.locals.find? (·.name == name) with
    | none =>
      have ha : f.locals.any (·.name == name) = false := by simpa using hf
      rw [hf] at hv
      simp only [retype, ha, Bool.false_eq_true, if_false]
      exact .cons (.refl f) (ih hv)
    | some w =>
      have ha : f.locals.any (·.name == name) = true :=
        List.any_eq_true.mpr ⟨w, List.mem_of_find?_eq_some hf, by simpa using List.find?_some hf⟩
      rw [hf, Option.some.injEq] at hv
      subst hv
      simp only [retype, ha, if_true]
      exact .cons ⟨retypeLocal_refines hf ht, rfl, rfl, rfl⟩ (kept_refl_all fs)

end Frames

namespace Check
variable {α β : Type} {r s : Frames → Frames → Prop} {c : Check α} {f : α → Check β}

/-- The frames before and after are related by `r`, however the check ends. -/
structure Moves (r : Frames → Frames → Prop) (c : Check α) : Prop where
  run : ∀ frames, r frames (c.run frames).2

theorem Moves.mono (hrs : ∀ {fs gs}, r fs gs → s fs gs) (h : c.Moves r) : c.Moves s :=
  ⟨fun frames => hrs (h.run frames)⟩

theorem Moves.of_eq {frames after : Frames} {x : Result α} (h : c.Moves r)
    (hc : c.run frames = (x, after)) : r frames after := by
  have hr := h.run frames
  rwa [hc] at hr

section
variable [Std.Refl r]

theorem moves_pure (a : α) : (pure a : Check α).Moves r := ⟨fun frames => refl frames⟩

theorem moves_throw (e : Error) : (throw e : Check α).Moves r := ⟨fun frames => refl frames⟩

theorem moves_ofResult (x : Result α) : (ofResult x).Moves r := ⟨fun frames => refl frames⟩

theorem moves_get : (get : Check Frames).Moves r := ⟨fun frames => refl frames⟩

theorem moves_merge (t u : Ty) (span : Span) : (merge t u span).Moves r := moves_ofResult _

theorem moves_resolveType (env : Env) (span : Span) (t : Ty) :
    (resolveType env span t).Moves r := ⟨fun frames => refl frames⟩

theorem moves_method (env : Env) (t : Ty) (method : Segment) (given : Nat) (span : Span) :
    (Check.method env t method given span).Moves r := ⟨fun frames => refl frames⟩

theorem moves_isolated (g : Frame) (c : Check α) : (isolated g c).Moves r :=
  ⟨fun frames => refl frames⟩

end

theorem Moves.bind [IsTrans Frames r] (h : c.Moves r) (hf : ∀ a, (f a).Moves r) :
    (c >>= f).Moves r := by
  constructor
  intro frames
  rw [run_bind]
  rcases hc : c.run frames with ⟨_ | a, after⟩
  · exact h.of_eq hc
  · exact IsTrans.trans _ _ _ (h.of_eq hc) ((hf a).run after)

/-- A frame that is opened and closed leaves no trace. -/
theorem Moves.inFrame (h : c.Moves Frames.KeepsOuter) : (inFrame c).Moves Frames.Keeps := by
  constructor
  intro frames
  rw [run_inFrame]
  exact (h.run (.empty :: frames)).tail

theorem moves_modifyFrame (span : Span) (change : Frame → Frame) :
    (modifyFrame span change).Moves Frames.KeepsOuter := by
  constructor
  intro frames
  cases frames with
  | nil => exact .nil
  | cons f fs => exact .cons trivial (Frames.kept_refl_all fs)

theorem moves_declare (v : Local) (span : Span) : (declare v span).Moves Frames.Extends := by
  constructor
  intro frames
  cases frames with
  | nil => exact .nil
  | cons f fs => exact .cons ⟨f, [v], .refl f, rfl⟩ (Frames.kept_refl_all fs)

theorem moves_useLocal (name : String) (expected : Ty) (span : Span) :
    (useLocal name expected span).Moves Frames.Extends := by
  constructor
  intro frames
  simp only [Check.run, useLocal]
  cases hv : frames.local? name with
  | none => exact Frames.Change.rfl
  | some v =>
    dsimp only
    cases ht : expected.mergeAt v.type span with
    | error e => exact Frames.Change.rfl
    | ok t =>
      have hle := (Ty.le_of_mergeAt ht).2
      exact (Frames.retype_keeps hv hle).extends

end Check
end BorrowLang
