import BorrowLang.Proofs.FrameDiscipline
import BorrowLang.Proofs.Nodes
import BorrowLang.Proofs.Runs

/-! The functions of an accepted program, each against the run that checked it. -/
namespace BorrowLang

/-- The second function is what a check of the first gives, where no other function is open. -/
def Function.CheckedTo (env : Env) (d checked : Function) : Prop :=
  ∃ frames after, frames.BetweenItems ∧ (Check.function env d).run frames = (.ok checked, after)

/-- What a function is checked in: a frame of its own, with its type parameters, inside the frames
around it. -/
def Function.openedIn (d : Function) (frames : Frames) : Frames :=
  { Frame.empty with typeParams := d.params.names.reverse } :: frames

theorem Function.betweenItems_openedIn (d : Function) {frames : Frames} (h : frames.BetweenItems) :
    (d.openedIn frames).BetweenItems := .cons rfl rfl h

/-- The same of two functions that stand in impl blocks with the same type parameters. -/
def Function.CheckedIn (env : Env) (f g : List String × Function) : Prop :=
  g.1 = f.1 ∧ f.2.CheckedTo env g.2

namespace Check
variable (env : Env)

theorem declareParams_eq_ok {params : Params} {span : Span} {f : Frame} {fs after : Frames}
    (h : (declareParams params span).run (f :: fs) = (.ok (), after)) :
    after = { f with typeParams := params.names.reverse ++ f.typeParams } :: fs := by
  have hr : (requireTypeParams params.bounds).Moves Eq := moves_requireTypeParams _
  simp only [declareParams, bind_eq_ok] at h
  obtain ⟨_, mid, hm, h⟩ := h
  cases hm
  exact (hr.of_eq h).symm

/-- The arguments get the types that their annotations mean, and the body, if there is one, is checked
with the return type for what is known of it. -/
theorem function_eq_ok {d checked : Function} {frames after : Frames}
    (h : (function env d).run frames = (.ok checked, after)) :
    ∃ ret mid, BorrowLang.resolveType env (d.openedIn frames) d.span d.ret = .ok ret ∧
      (functionArgs env d.span d.args).run (d.openedIn frames) = (.ok checked.args, mid) ∧
      checked = { d with args := checked.args, code := checked.code } ∧
      (d.code = none ∧ checked.code = none ∨ ∃ body code last, d.code = some body ∧
        checked.code = some code ∧ (expr env body ret).run mid = (.ok code, last)) := by
  simp only [function, inFrame_eq_ok, bind_eq_ok, resolveType_eq_ok] at h
  obtain ⟨_, ⟨_, opened, hp, ret, _, ⟨hret, rfl⟩, args, mid, ha, h⟩, -⟩ := h
  obtain rfl : opened = d.openedIn frames := by
    rw [declareParams_eq_ok hp, Frame.empty, List.append_nil]
    rfl
  cases hc : d.code with
  | none =>
    simp only [hc, pure_eq_ok] at h
    obtain ⟨rfl, -⟩ := h
    exact ⟨ret, mid, hret, ha, rfl, .inl ⟨rfl, rfl⟩⟩
  | some body =>
    simp only [hc, bind_eq_ok, pure_eq_ok] at h
    obtain ⟨code, last, he, rfl, -⟩ := h
    exact ⟨ret, mid, hret, ha, rfl, .inr ⟨body, code, last, rfl, rfl, he⟩⟩

theorem implItems_functions {items checked : List ImplItem} {frames after : Frames}
    (ha : frames.BetweenItems) (h : (implItems env items).run frames = (.ok checked, after)) :
    List.Forall₂ (Function.CheckedTo env) (items.filterMap (·.function?))
      (checked.filterMap (·.function?)) := by
  induction items generalizing frames after checked with
  | nil =>
    simp only [implItems, pure_eq_ok] at h
    obtain ⟨rfl, -⟩ := h
    exact .nil
  | cons item rest ih =>
    obtain ⟨name, member⟩ := item
    cases member with
    | function body =>
      simp only [implItems, bind_eq_ok, pure_eq_ok] at h
      obtain ⟨body, mid, hb, rest, _, hr, rfl, -⟩ := h
      have hm := (moves_function env _).of_eq hb
      exact .cons ⟨_, _, ha, hb⟩ (ih (ha.of_keeps hm) hr)
    | const type value =>
      simp only [implItems, bind_eq_ok, pure_eq_ok] at h
      obtain ⟨rest, _, hr, rfl, -⟩ := h
      have hrest := ih ha hr
      exact hrest
    | type target =>
      simp only [implItems, bind_eq_ok, pure_eq_ok] at h
      obtain ⟨rest, _, hr, rfl, -⟩ := h
      have hrest := ih ha hr
      exact hrest

theorem implBlock_functions {d checked : ImplBlock} {frames after : Frames}
    (ha : frames.BetweenItems)
    (h : (implBlock env d).run frames = (.ok checked, after)) : checked.params = d.params ∧
      List.Forall₂ (Function.CheckedTo env) (d.items.filterMap (·.function?))
        (checked.items.filterMap (·.function?)) := by
  simp only [implBlock, inFrame_eq_ok, bind_eq_ok, pure_eq_ok] at h
  obtain ⟨_, ⟨_, opened, hp, items, _, hi, rfl, -⟩, -⟩ := h
  have hop : opened.BetweenItems := by
    rw [declareParams_eq_ok hp]
    exact .cons rfl rfl ha
  exact ⟨rfl, implItems_functions env hop hi⟩

mutual

theorem module_scopedFunctions (parents : List String) : ∀ (m : Module) {frames after : Frames}
    {checked : Module}, (module env parents m).run frames = (.ok checked, after) →
    List.Forall₂ (Function.CheckedIn env) (m.scopedFunctions env.options.implMethods)
      (checked.scopedFunctions env.options.implMethods)
  | ⟨name, uses, held⟩, frames, after, checked, h => by
    simp only [Check.module, isolated_eq_ok, bind_eq_ok, pure_eq_ok] at h
    obtain ⟨⟨_, held, _, hi, rfl, -⟩, -⟩ := h
    exact items_scopedFunctions parents _ (.cons rfl rfl .nil) hi

theorem item_scopedFunctions (parents : List String) : ∀ (i : Item) {frames after : Frames}
    {checked : Item}, frames.BetweenItems → (item env parents i).run frames = (.ok checked, after) →
    List.Forall₂ (Function.CheckedIn env) (i.scopedFunctions env.options.implMethods)
      (checked.scopedFunctions env.options.implMethods)
  | .function d, frames, after, checked, ha, h => by
    simp only [item, bind_eq_ok, pure_eq_ok] at h
    obtain ⟨d, _, hd, rfl, -⟩ := h
    exact .cons ⟨rfl, _, _, ha, hd⟩ .nil
  | .impl d, frames, after, checked, ha, h => by
    simp only [item] at h
    split_ifs at h with himpl
    · simp only [bind_eq_ok, pure_eq_ok] at h
      obtain ⟨checked, _, hd, rfl, -⟩ := h
      obtain ⟨hparams, hfunctions⟩ := implBlock_functions env ha hd
      simp only [Item.scopedFunctions, himpl, if_true, hparams]
      rw [List.forall₂_map_left_iff, List.forall₂_map_right_iff]
      exact hfunctions.imp fun _ _ hf => ⟨rfl, hf⟩
    · simp only [pure_eq_ok] at h
      obtain ⟨rfl, -⟩ := h
      simp only [Item.scopedFunctions, himpl]
      exact .nil
  | .module m, frames, after, checked, ha, h => by
    simp only [item, bind_eq_ok, pure_eq_ok] at h
    obtain ⟨m, _, hm, rfl, -⟩ := h
    exact module_scopedFunctions _ _ hm
  | .struct _, frames, after, checked, ha, h | .enum _, frames, after, checked, ha, h
  | .traitDef _, frames, after, checked, ha, h | .static _, frames, after, checked, ha, h
  | .typeAlias _, frames, after, checked, ha, h => by
    simp only [item, pure_eq_ok] at h
    obtain ⟨rfl, -⟩ := h
    exact .nil

theorem items_scopedFunctions (parents : List String) : ∀ (is : List Item) {frames after : Frames}
    {checked : List Item}, frames.BetweenItems →
    (items env parents is).run frames = (.ok checked, after) →
    List.Forall₂ (Function.CheckedIn env) (itemScopedFunctions env.options.implMethods is)
      (itemScopedFunctions env.options.implMethods checked)
  | [], frames, after, checked, ha, h => by
    simp only [items, pure_eq_ok] at h
    obtain ⟨rfl, -⟩ := h
    exact .nil
  | i :: is, frames, after, checked, ha, h => by
    simp only [items, bind_eq_ok, pure_eq_ok] at h
    obtain ⟨checkedItem, mid, hi, rest, _, hr, rfl, -⟩ := h
    have hmid := ha.of_keeps ((moves_item env parents i).of_eq hi)
    rw [itemScopedFunctions, itemScopedFunctions]
    exact List.rel_append (item_scopedFunctions parents i ha hi)
      (items_scopedFunctions parents is hmid hr)

end

theorem module_functions (parents : List String) (m : Module) {frames after : Frames}
    {checked : Module} (h : (module env parents m).run frames = (.ok checked, after)) :
    List.Forall₂ (Function.CheckedTo env) (m.functions env.options.implMethods)
      (checked.functions env.options.implMethods) := by
  rw [← m.map_snd_scopedFunctions, ← checked.map_snd_scopedFunctions, List.forall₂_map_left_iff,
    List.forall₂_map_right_iff]
  exact (module_scopedFunctions env parents m h).imp fun _ _ hf => hf.2

end Check

theorem Program.check_scopedFunctions {p : Program} {options : CheckOptions} {root : Module}
    (h : p.check options = .ok root) :
    List.Forall₂ (Function.CheckedIn ⟨p.symbols, options⟩)
      (p.root.scopedFunctions options.implMethods) (root.scopedFunctions options.implMethods) := by
  have hr : (Check.module ⟨p.symbols, options⟩ [] p.root).run [] =
      (.ok root, ((Check.module ⟨p.symbols, options⟩ [] p.root).run []).2) := Prod.ext h rfl
  exact Check.module_scopedFunctions _ [] p.root hr

theorem Program.check_functions {p : Program} {options : CheckOptions} {root : Module}
    (h : p.check options = .ok root) :
    List.Forall₂ (Function.CheckedTo ⟨p.symbols, options⟩) (p.root.functions options.implMethods)
      (root.functions options.implMethods) := by
  have hr : (Check.module ⟨p.symbols, options⟩ [] p.root).run [] =
      (.ok root, ((Check.module ⟨p.symbols, options⟩ [] p.root).run []).2) := Prod.ext h rfl
  exact Check.module_functions _ [] p.root hr

end BorrowLang
