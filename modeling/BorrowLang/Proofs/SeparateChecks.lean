import BorrowLang.Proofs.CheckedFunctions

/-!
The check of a module is made of checks of its functions and of the parameters of its impls, and
each of them could be the only one.
-/
namespace BorrowLang

theorem Frame.Kept.eq_of_locals {f g : Frame} (h : f.Kept g) (hf : f.locals = []) : g = f := by
  obtain ⟨hl, ha, ht, hr⟩ := h
  rw [hf, List.forall₂_nil_left_iff] at hl
  cases f
  cases g
  simp_all

/-- Between items there is nothing that a check might refine. -/
theorem Frames.BetweenItems.eq_of_keeps {fs gs : Frames} (h : fs.BetweenItems) (k : fs.Keeps gs) :
    gs = fs := by
  have hall {fs gs : Frames} (h : fs.BetweenItems) (k : List.Forall₂ Frame.Kept fs gs) : gs = fs := by
    induction k with
    | nil => rfl
    | cons hk _ ih =>
      obtain ⟨hf, hfs⟩ := List.forall_mem_cons.mp h
      rw [hk.eq_of_locals hf.1, ih hfs]
  cases k with
  | nil => rfl
  | cons hf hfs => exact hall h (.cons hf hfs)

namespace Function
variable (env : Env) (frames : Frames) (d : Function)

/-- The answer of a checker that has only these frames. -/
def checkAlone : Result Function := ((Check.function env d).run frames).1

/-- The function as such a checker leaves it. -/
def alone : Function :=
  match d.checkAlone env frames with
  | .ok checked => checked
  | .error _ => d

end Function

/-- What the methods of an impl see of it. -/
def ImplBlock.frame (d : ImplBlock) : Frame :=
  { Frame.empty with typeParams := d.params.names.reverse }

/-- A check that a module asks for, with the frames that it is made with. -/
inductive Duty
  | params (frames : Frames) (d : ImplBlock)
  | function (frames : Frames) (d : Function)

namespace Duty

def check (env : Env) : Duty → Result Unit
  | params frames d => ((Check.inFrame (Check.declareParams d.params d.span)).run frames).1
  | function frames d => discard (d.checkAlone env frames)

def error? (env : Env) (duty : Duty) : Option Error :=
  match duty.check env with
  | .ok _ => none
  | .error e => some e

theorem error?_eq_none {env : Env} {duty : Duty} :
    duty.error? env = none ↔ duty.check env = .ok () := by
  unfold error?
  split <;> simp_all

theorem error?_eq_some {env : Env} {duty : Duty} {e : Error} :
    duty.error? env = some e ↔ duty.check env = .error e := by
  unfold error?
  split <;> simp_all

/-- What is there when all duties are done, or the error of the first that cannot be. -/
def outcome {α : Type} (env : Env) (duties : List Duty) (a : α) : Result α :=
  (duties.findSome? (·.error? env)).elim (.ok a) .error

theorem outcome_cons {α : Type} (env : Env) (duty : Duty) (duties : List Duty) (a : α) :
    outcome env (duty :: duties) a = (do duty.check env; outcome env duties a) := by
  rw [outcome, List.findSome?_cons]
  cases h : duty.check env with
  | error e =>
    rw [error?_eq_some.mpr h]
    rfl
  | ok _ =>
    rw [error?_eq_none.mpr h]
    rfl

theorem outcome_eq_ok {α : Type} {env : Env} {duties : List Duty} {a b : α} :
    outcome env duties a = .ok b ↔ (∀ duty ∈ duties, duty.check env = .ok ()) ∧ a = b := by
  have hnone : duties.findSome? (·.error? env) = none ↔
      ∀ duty ∈ duties, duty.check env = .ok () := by
    simp only [List.findSome?_eq_none_iff, error?_eq_none]
  rw [← hnone, outcome]
  cases duties.findSome? (·.error? env) <;> simp

theorem outcome_eq_error {α : Type} {env : Env} {duties : List Duty} {a : α} {e : Error} :
    outcome env duties a = .error e ↔ ∃ before duty after, duties = before ++ duty :: after ∧
      (∀ done ∈ before, done.check env = .ok ()) ∧ duty.check env = .error e := by
  have hsome : duties.findSome? (·.error? env) = some e ↔ ∃ before duty after,
      duties = before ++ duty :: after ∧ (∀ done ∈ before, done.check env = .ok ()) ∧
      duty.check env = .error e := by
    simp only [List.findSome?_eq_some_iff, error?_eq_none, error?_eq_some]
    grind
  rw [← hsome, outcome]
  cases duties.findSome? (·.error? env) <;> simp

end Duty

def ImplItem.mapFunction (f : Function → Function) : ImplItem → ImplItem
  | ⟨name, .function body⟩ => ⟨name, .function (f body)⟩
  | item => item

section
variable (implMethods : Bool)

mutual

/-- The checks of a module reached by the names `parents`, in the order of its items. -/
def Module.duties (parents : List String) : Module → List Duty
  | ⟨name, uses, held⟩ => itemDuties parents [Module.frame parents ⟨name, uses, held⟩] held

def Item.duties (parents : List String) (frames : Frames) : Item → List Duty
  | .function d => [.function frames d]
  | .impl d =>
    if implMethods then
      .params frames d :: (d.items.filterMap (·.function?)).map (.function (d.frame :: frames))
    else []
  | .module m => m.duties (parents ++ [m.name])
  | .struct _ | .enum _ | .traitDef _ | .static _ | .typeAlias _ => []

def itemDuties (parents : List String) (frames : Frames) : List Item → List Duty
  | [] => []
  | i :: is => i.duties parents frames ++ itemDuties parents frames is

end

variable (f : Frames → Function → Function)

mutual

/-- The module with its functions replaced, each according to the frames that it is checked with. -/
def Module.mapFunctions (parents : List String) : Module → Module
  | ⟨name, uses, held⟩ =>
    ⟨name, uses, mapItemFunctions parents [Module.frame parents ⟨name, uses, held⟩] held⟩

def Item.mapFunctions (parents : List String) (frames : Frames) : Item → Item
  | .function d => .function (f frames d)
  | .impl d =>
    if implMethods then
      .impl { d with items := d.items.map (·.mapFunction (f (d.frame :: frames))) }
    else .impl d
  | .module m => .module (m.mapFunctions (parents ++ [m.name]))
  | .struct d => .struct d
  | .enum d => .enum d
  | .traitDef d => .traitDef d
  | .static d => .static d
  | .typeAlias d => .typeAlias d

def mapItemFunctions (parents : List String) (frames : Frames) : List Item → List Item
  | [] => []
  | i :: is => i.mapFunctions parents frames :: mapItemFunctions parents frames is

end

end

namespace Check
variable {α β : Type} {env : Env} {frames : Frames}

/-- The check does these duties and nothing else, and leaves the frames as they are. -/
def Performs (env : Env) (frames : Frames) (c : Check α) (duties : List Duty) (a : α) : Prop :=
  c.run frames = (Duty.outcome env duties a, frames)

theorem performs_pure (a : α) : Performs env frames (pure a) [] a := rfl

theorem Performs.bind {c : Check α} {f : α → Check β} {ds es : List Duty} {a : α} {b : β}
    (hc : Performs env frames c ds a) (hf : Performs env frames (f a) es b) :
    Performs env frames (c >>= f) (ds ++ es) b := by
  rw [Performs, run_bind, hc, Duty.outcome, Duty.outcome, List.findSome?_append]
  cases ds.findSome? (·.error? env) with
  | none => exact hf
  | some e => rfl

theorem Performs.map {c : Check α} {ds : List Duty} {a : α} (g : α → β)
    (hc : Performs env frames c ds a) : Performs env frames (c >>= fun x => pure (g x)) ds (g a) := by
  have h := hc.bind (f := fun x => pure (g x)) (performs_pure _)
  rwa [List.append_nil] at h

theorem performs_function (hb : frames.BetweenItems) (d : Function) :
    Performs env frames (function env d) [.function frames d] (d.alone env frames) := by
  refine Prod.ext ?_ (hb.eq_of_keeps ((moves_function env d).run frames))
  rw [Duty.outcome_cons, Duty.check, Function.alone]
  change d.checkAlone env frames = _
  cases d.checkAlone env frames <;> rfl

theorem performs_implItems (hb : frames.BetweenItems) (items : List ImplItem) :
    Performs env frames (implItems env items)
      ((items.filterMap (·.function?)).map (.function frames))
      (items.map (·.mapFunction (Function.alone env frames))) := by
  induction items with
  | nil => exact performs_pure _
  | cons item rest ih =>
    obtain ⟨name, member⟩ := item
    cases member with
    | function body => exact (performs_function hb body).bind (ih.map _)
    | const type value => exact ih.map _
    | type target => exact ih.map _

theorem performs_implBlock (hb : frames.BetweenItems) (d : ImplBlock) :
    Performs env frames (implBlock env d)
      (.params frames d :: (d.items.filterMap (·.function?)).map (.function (d.frame :: frames)))
      { d with items := d.items.map (·.mapFunction (Function.alone env (d.frame :: frames))) } := by
  refine Prod.ext ?_ (hb.eq_of_keeps ((moves_implBlock env d).run frames))
  rw [implBlock, run_inFrame, run_bind, Duty.outcome_cons, Duty.check, run_inFrame]
  rcases hp : (declareParams d.params d.span).run (.empty :: frames) with ⟨e | _, opened⟩
  · rfl
  · have hopened : opened = d.frame :: frames := by
      rw [declareParams_eq_ok hp, ImplBlock.frame, Frame.empty, List.append_nil]
    have hd : Frames.BetweenItems (d.frame :: frames) := .cons rfl rfl hb
    have hitems : Performs env _ (implItems env d.items) _ _ := performs_implItems hd d.items
    have hresult := congrArg Prod.fst (hitems.map fun items => { d with items })
    subst hopened
    exact hresult

mutual

theorem run_module (parents : List String) : ∀ (m : Module) (frames : Frames),
    ((module env parents m).run frames).1 =
      Duty.outcome env (m.duties env.options.implMethods parents)
        (m.mapFunctions env.options.implMethods (Function.alone env) parents)
  | ⟨name, uses, held⟩, frames => by
    have hframe : Frames.BetweenItems [Module.frame parents ⟨name, uses, held⟩] := .cons rfl rfl .nil
    have hresult := congrArg Prod.fst ((performs_items parents held hframe).map (Module.mk name uses))
    rw [Check.module, run_isolated, Module.duties, Module.mapFunctions]
    exact hresult

theorem performs_item (parents : List String) : ∀ (i : Item) {frames : Frames}, frames.BetweenItems →
    Performs env frames (item env parents i) (i.duties env.options.implMethods parents frames)
      (i.mapFunctions env.options.implMethods (Function.alone env) parents frames)
  | .function d, _, hb => (performs_function hb d).map _
  | .impl d, _, hb => by
    simp only [item, Item.duties, Item.mapFunctions]
    split
    · exact (performs_implBlock hb d).map _
    · exact performs_pure _
  | .module m, frames, hb => by
    refine Performs.map _ (Prod.ext (run_module (parents ++ [m.name]) m frames) ?_)
    exact hb.eq_of_keeps ((moves_module env _ m).run frames)
  | .struct _, _, _ | .enum _, _, _ | .traitDef _, _, _ | .static _, _, _ | .typeAlias _, _, _ =>
    performs_pure _

theorem performs_items (parents : List String) : ∀ (is : List Item) {frames : Frames},
    frames.BetweenItems → Performs env frames (items env parents is)
      (itemDuties env.options.implMethods parents frames is)
      (mapItemFunctions env.options.implMethods (Function.alone env) parents frames is)
  | [], _, _ => performs_pure _
  | i :: is, _, hb => (performs_item parents i hb).bind ((performs_items parents is hb).map _)

end

end Check
end BorrowLang
