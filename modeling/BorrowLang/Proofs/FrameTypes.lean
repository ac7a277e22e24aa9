import BorrowLang.Proofs.Frames
import BorrowLang.Proofs.TypeProperties

/-! Frames in which the types of locals and the targets of aliases have a property, through what a
check does to them. -/
namespace BorrowLang

/-- The types of the locals and the targets of the aliases have the property. -/
structure Frame.TypesHave (Q : Ty → Prop) (f : Frame) : Prop where
  locals : ∀ v ∈ f.locals, Q v.type
  aliases : ∀ a ∈ f.aliases, Q a.2

def Frames.TypesHave (Q : Ty → Prop) (frames : Frames) : Prop := ∀ f ∈ frames, f.TypesHave Q

theorem Frame.typesHave_empty (Q : Ty → Prop) : Frame.empty.TypesHave Q :=
  ⟨List.forall_mem_nil _, List.forall_mem_nil _⟩

namespace Frames
variable {Q : Ty → Prop} {frames : Frames}

/-- Between items there are no locals and no aliases. -/
theorem BetweenItems.typesHave (h : frames.BetweenItems) : frames.TypesHave Q := by
  intro f hf
  obtain ⟨hlocals, haliases⟩ := h f hf
  exact ⟨hlocals ▸ List.forall_mem_nil _, haliases ▸ List.forall_mem_nil _⟩

section
variable (h : frames.TypesHave Q)
include h

theorem TypesHave.cons {f : Frame} (hf : f.TypesHave Q) : TypesHave Q (f :: frames) :=
  List.forall_mem_cons.mpr ⟨hf, h⟩

theorem TypesHave.tail : TypesHave Q frames.tail := fun f hf => h f (List.mem_of_mem_tail hf)

theorem TypesHave.local? {name : String} {v : Local} (hv : frames.local? name = some v) :
    Q v.type := by
  obtain ⟨f, hf, hfind⟩ := List.exists_of_findSome?_eq_some hv
  exact (h f hf).locals v (List.mem_of_find?_eq_some hfind)

theorem TypesHave.alias? {name : String} {t : Ty} (ht : frames.alias? name = some t) : Q t := by
  obtain ⟨f, hf, hfind⟩ := List.exists_of_findSome?_eq_some ht
  exact (h f hf).aliases _ (mem_of_lookup_eq_some hfind)

theorem TypesHave.retype {t : Ty} (ht : Q t) (name : String) :
    TypesHave Q (frames.retype name t) := by
  have hlocals (vs : List Local) (hvs : ∀ v ∈ vs, Q v.type) :
      ∀ v ∈ retypeLocal name t vs, Q v.type := by
    fun_induction retypeLocal name t vs with
    | case1 => exact hvs
    | case2 v vs _ => exact List.forall_mem_cons.mpr ⟨ht, (List.forall_mem_cons.mp hvs).2⟩
    | case3 v vs _ ih =>
      obtain ⟨hv, hvs⟩ := List.forall_mem_cons.mp hvs
      exact List.forall_mem_cons.mpr ⟨hv, ih hvs⟩
  fun_induction Frames.retype name t frames with
  | case1 => exact h
  | case2 f fs _ =>
    obtain ⟨hf, hfs⟩ := List.forall_mem_cons.mp h
    exact TypesHave.cons hfs ⟨hlocals _ hf.locals, hf.aliases⟩
  | case3 f fs _ ih =>
    obtain ⟨hf, hfs⟩ := List.forall_mem_cons.mp h
    exact TypesHave.cons (ih hfs) hf

end

end Frames

/-- Written types with the one property have the other where they are resolved, in frames whose types
have it. -/
def Env.ResolvesAs (env : Env) (R Q : Ty → Prop) : Prop :=
  ∀ (frames : Frames) (span : Span) (t u : Ty), frames.TypesHave Q → R t →
    resolveType env frames span t = .ok u → Q u

theorem Ty.Compositional.resolvesAs {P : Binding → Prop} {Q : Ty → Prop} (hQ : Compositional P Q)
    {env : Env} (hexpand : ∀ span t u, Q t → env.symbols.aliases.expand span t = .ok u → Q u) :
    env.ResolvesAs Q Q := fun _ span _ _ hf ht hu =>
  hQ.resolveType ⟨hexpand span, fun _ _ => hf.alias?⟩ ht hu

namespace Check
variable {Q : Ty → Prop} {frames after : Frames} {span : Span} (h : frames.TypesHave Q)
include h

theorem modifyFrame_typesHave {change : Frame → Frame}
    (hc : ∀ f : Frame, f.TypesHave Q → (change f).TypesHave Q)
    (hrun : (modifyFrame span change).run frames = (.ok (), after)) : after.TypesHave Q := by
  cases frames with
  | nil => cases hrun
  | cons f fs =>
    cases hrun
    obtain ⟨hf, hfs⟩ := List.forall_mem_cons.mp h
    exact Frames.TypesHave.cons hfs (hc f hf)

theorem declare_typesHave {v : Local} (hv : Q v.type)
    (hrun : (declare v span).run frames = (.ok (), after)) : after.TypesHave Q := by
  refine modifyFrame_typesHave h (fun f hf => ?_) hrun
  exact ⟨List.forall_mem_cons.mpr ⟨hv, hf.locals⟩, hf.aliases⟩

theorem useLocal_typesHave {P : Binding → Prop} (hQ : Ty.Compositional P Q) {name : String}
    {expected t : Ty} (he : Q expected)
    (hrun : (useLocal name expected span).run frames = (.ok t, after)) :
    Q t ∧ after.TypesHave Q := by
  obtain ⟨v, hv, ht, rfl⟩ := useLocal_eq_ok.mp hrun
  have hmerged := hQ.merge? he (h.local? hv) (Ty.mergeAt_eq_ok_iff.mp ht)
  exact ⟨hmerged, h.retype hmerged name⟩

section
variable {env : Env} {R : Ty → Prop} (hresolve : env.ResolvesAs R Q)
include hresolve

theorem declareAliases_typesHave {aliases : List (String × Ty)} (ha : ∀ a ∈ aliases, R a.2)
    (hrun : (declareAliases env span aliases).run frames = (.ok (), after)) :
    after.TypesHave Q := by
  induction aliases generalizing frames with
  | nil =>
    rw [declareAliases, pure_eq_ok] at hrun
    exact hrun.2 ▸ h
  | cons a rest ih =>
    obtain ⟨ha, hrest⟩ := List.forall_mem_cons.mp ha
    simp only [declareAliases, bind_eq_ok, resolveType_eq_ok] at hrun
    obtain ⟨t, _, ⟨ht, rfl⟩, _, mid, hmid, hrun⟩ := hrun
    have ht := hresolve frames span _ t h ha ht
    refine ih (modifyFrame_typesHave h (fun f hf => ?_) hmid) hrest hrun
    exact ⟨hf.locals, List.forall_mem_cons.mpr ⟨ht, hf.aliases⟩⟩

theorem openBlock_typesHave {traits : List Path} {aliases : List (String × Ty)}
    (ha : ∀ a ∈ aliases, R a.2)
    (hrun : (openBlock env span traits aliases).run frames = (.ok (), after)) :
    after.TypesHave Q := by
  simp only [openBlock, bind_eq_ok] at hrun
  obtain ⟨_, mid, hmid, hrun⟩ := hrun
  refine modifyFrame_typesHave (declareAliases_typesHave h hresolve ha hmid) (fun f hf => ?_) hrun
  exact ⟨hf.locals, hf.aliases⟩

end

end Check
end BorrowLang
