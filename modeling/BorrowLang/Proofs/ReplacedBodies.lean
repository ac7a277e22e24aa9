import BorrowLang.Proofs.ReachedItems
import BorrowLang.Proofs.SeparateChecks

/-!
Programs that differ in the bodies of functions only: their symbols are the same, and so is all that
becomes of a function that they share.
-/
namespace BorrowLang

def Function.withoutBody (d : Function) : Function := { d with code := none }

def ImplBlock.withoutBodies (d : ImplBlock) : ImplBlock :=
  { d with items := d.items.map (·.mapFunction Function.withoutBody) }

def TraitDef.withoutBodies (d : TraitDef) : TraitDef :=
  { d with methods := d.methods.map (·.withoutBody) }

mutual

/-- All that is left of a module without the bodies of its functions. -/
def Module.withoutBodies : Module → Module
  | ⟨name, uses, held⟩ => ⟨name, uses, itemsWithoutBodies held⟩

def Item.withoutBodies : Item → Item
  | .function d => .function d.withoutBody
  | .impl d => .impl d.withoutBodies
  | .traitDef d => .traitDef d.withoutBodies
  | .module m => .module m.withoutBodies
  | .struct d => .struct d
  | .enum d => .enum d
  | .static d => .static d
  | .typeAlias d => .typeAlias d

def itemsWithoutBodies : List Item → List Item
  | [] => []
  | i :: is => i.withoutBodies :: itemsWithoutBodies is

end

@[simp] theorem ImplBlock.params_withoutBodies (d : ImplBlock) : d.withoutBodies.params = d.params :=
  rfl

@[simp] theorem ImplBlock.selfType_withoutBodies (d : ImplBlock) :
    d.withoutBodies.selfType = d.selfType := rfl

@[simp] theorem Module.name_withoutBodies (m : Module) : m.withoutBodies.name = m.name := by
  cases m
  rfl

theorem itemsWithoutBodies_eq_map (is : List Item) :
    itemsWithoutBodies is = is.map Item.withoutBodies := by
  induction is with
  | nil => rfl
  | cons i is ih => rw [itemsWithoutBodies, ih, List.map_cons]

/-! ### What does not depend on bodies -/

theorem Module.frame_withoutBodies (parents : List String) (m : Module) :
    Module.frame parents m.withoutBodies = Module.frame parents m := by
  obtain ⟨name, uses, held⟩ := m
  simp only [Module.frame, Module.visibleTraits, Module.withoutBodies, itemsWithoutBodies_eq_map,
    List.filterMap_map]
  congr 4
  funext i
  cases i <;> rfl

theorem ImplBlock.signature_withoutBodies (d : ImplBlock) :
    d.withoutBodies.signature = d.signature := by
  simp only [ImplBlock.signature, ImplBlock.withoutBodies, List.filterMap_map]
  congr 2
  funext item
  obtain ⟨name, member⟩ := item
  cases member <;> rfl

mutual

theorem Module.reached_withoutBodies : ∀ (m : Module) (parents : List String),
    m.withoutBodies.reached parents =
      (m.reached parents).map fun e => (e.1, e.2.withoutBodies)
  | ⟨_, _, held⟩, parents => itemsReached_withoutBodies held parents

theorem itemsReached_withoutBodies : ∀ (is : List Item) (parents : List String),
    itemsReached parents (itemsWithoutBodies is) =
      (itemsReached parents is).map fun e => (e.1, e.2.withoutBodies)
  | [], _ => rfl
  | .module m :: is, parents => by
    simp only [itemsWithoutBodies, Item.withoutBodies, itemsReached, Item.name?,
      m.name_withoutBodies, m.reached_withoutBodies, itemsReached_withoutBodies is, List.map_append,
      List.map_cons]
  | .function _ :: is, parents | .struct _ :: is, parents | .enum _ :: is, parents
  | .traitDef _ :: is, parents | .impl _ :: is, parents | .static _ :: is, parents
  | .typeAlias _ :: is, parents => congrArg (_ :: ·) (itemsReached_withoutBodies is parents)

end

theorem Module.entries_withoutBodies (m : Module) (parents : List String) :
    m.withoutBodies.entries parents = m.entries parents := by
  have hkind (i : Item) : i.withoutBodies.kind? = i.kind? := by cases i <;> rfl
  rw [entries_eq_keyed, entries_eq_keyed, reached_withoutBodies, keyed, List.filterMap_map]
  simp only [Function.comp_def, hkind, keyed]

theorem Symbols.collect_withoutBodies (m : Module) (parents : List String) (s : Symbols) :
    collect parents s m.withoutBodies = collect parents s m := by
  have henter (s : Symbols) (names : List String) (i : Item) :
      s.enter (names, i.withoutBodies) = s.enter (names, i) := by
    cases i with
    | impl d => simp only [Item.withoutBodies, enter, d.signature_withoutBodies]
    | _ => rfl
  rw [collect_eq_foldl, collect_eq_foldl, m.reached_withoutBodies, List.foldl_map]
  simp only [henter]

/-! ### Binding without bodies -/

theorem Result.mapM_map {α β : Type} {f : α → Result β} {g : α → α} {g' : β → β} {as : List α}
    {bs : List β} (h : as.mapM f = .ok bs) (hf : ∀ a b, f a = .ok b → f (g a) = .ok (g' b)) :
    (as.map g).mapM f = .ok (bs.map g') := by
  rw [mapM_eq_ok, List.forall₂_map_left_iff, List.forall₂_map_right_iff]
  exact (mapM_eq_ok.mp h).imp hf

namespace Names
variable {cx : Context}
open Result

theorem bindFunction_withoutBody {d bound : Function} (h : bindFunction cx d = .ok bound) :
    bindFunction cx d.withoutBody = .ok bound.withoutBody := by
  simp only [bindFunction, bind_eq_ok, pure_eq_ok] at h ⊢
  obtain ⟨params, hp, args, ha, ret, hr, code, hc, rfl⟩ := h
  exact ⟨params, hp, args, ha, ret, hr, none, rfl, rfl⟩

theorem bindMember_withoutBody {span : Span} {item : ImplItem} {bound : Member}
    (h : bindMember cx span item.member = .ok bound) :
    bindMember cx span (item.mapFunction Function.withoutBody).member =
      .ok (ImplItem.mapFunction Function.withoutBody ⟨item.name, bound⟩).member := by
  obtain ⟨name, member⟩ := item
  cases member with
  | function body =>
    simp only [bindMember, bind_eq_ok, pure_eq_ok] at h
    obtain ⟨b, hb, rfl⟩ := h
    simp only [ImplItem.mapFunction, bindMember, bindFunction_withoutBody hb]
    rfl
  | const type value =>
    simp only [bindMember, bind_eq_ok, pure_eq_ok] at h
    obtain ⟨t, ht, e, he, rfl⟩ := h
    simp only [ImplItem.mapFunction, bindMember, ht, he]
    rfl
  | type target =>
    simp only [bindMember, bind_eq_ok, pure_eq_ok] at h
    obtain ⟨t, ht, rfl⟩ := h
    simp only [ImplItem.mapFunction, bindMember, ht]
    rfl

theorem bindImpl_withoutBodies {d bound : ImplBlock} (h : bindImpl cx d = .ok bound) :
    bindImpl cx d.withoutBodies = .ok bound.withoutBodies := by
  simp only [bindImpl, bind_eq_ok, pure_eq_ok] at h ⊢
  obtain ⟨params, hp, selfType, hs, traitPath, ht, items, hi, rfl⟩ := h
  refine ⟨params, hp, selfType, hs, traitPath, ht, _, mapM_map hi fun item found hitem => ?_, rfl⟩
  simp only [bind_eq_ok, pure_eq_ok] at hitem ⊢
  obtain ⟨member, hm, rfl⟩ := hitem
  refine ⟨_, bindMember_withoutBody hm, ?_⟩
  obtain ⟨name, _ | _ | _⟩ := item <;> cases member <;> rfl

theorem bindTrait_withoutBodies {d bound : TraitDef} (h : bindTrait cx d = .ok bound) :
    bindTrait cx d.withoutBodies = .ok bound.withoutBodies := by
  simp only [bindTrait, bind_eq_ok, pure_eq_ok] at h ⊢
  obtain ⟨params, hp, methods, hm, rfl⟩ := h
  exact ⟨params, hp, _, mapM_map hm fun _ _ => bindFunction_withoutBody, rfl⟩

mutual

theorem bindModule_withoutBodies : ∀ (m : Module) {cx : Context} {bound : Module},
    bindModule cx m = .ok bound → bindModule cx m.withoutBodies = .ok bound.withoutBodies
  | ⟨name, uses, held⟩, cx, bound, h => by
    simp only [Module.withoutBodies, bindModule, bind_eq_ok, pure_eq_ok] at h ⊢
    obtain ⟨⟨boundUses, inner⟩, hu, items, hi, rfl⟩ := h
    exact ⟨_, hu, _, bindItems_withoutBodies held hi, rfl⟩

theorem bindItem_withoutBodies : ∀ (i : Item) {cx : Context} {bound : Item},
    bindItem cx i = .ok bound → bindItem cx i.withoutBodies = .ok bound.withoutBodies
  | .function d, cx, bound, h => by
    simp only [Item.withoutBodies, bindItem, bind_eq_ok, pure_eq_ok] at h ⊢
    obtain ⟨b, hb, rfl⟩ := h
    exact ⟨_, bindFunction_withoutBody hb, rfl⟩
  | .impl d, cx, bound, h => by
    simp only [Item.withoutBodies, bindItem, bind_eq_ok, pure_eq_ok] at h ⊢
    obtain ⟨b, hb, rfl⟩ := h
    exact ⟨_, bindImpl_withoutBodies hb, rfl⟩
  | .traitDef d, cx, bound, h => by
    simp only [Item.withoutBodies, bindItem, bind_eq_ok, pure_eq_ok] at h ⊢
    obtain ⟨b, hb, rfl⟩ := h
    exact ⟨_, bindTrait_withoutBodies hb, rfl⟩
  | .module m, cx, bound, h => by
    simp only [Item.withoutBodies, bindItem, bind_eq_ok, pure_eq_ok] at h ⊢
    obtain ⟨b, hb, rfl⟩ := h
    obtain ⟨name, uses, held⟩ := m
    exact ⟨_, bindModule_withoutBodies _ hb, rfl⟩
  | .struct d, cx, bound, h | .enum d, cx, bound, h | .static d, cx, bound, h
  | .typeAlias d, cx, bound, h => by
    simp only [Item.withoutBodies, bindItem, bind_eq_ok, pure_eq_ok] at h ⊢
    obtain ⟨b, hb, rfl⟩ := h
    exact ⟨_, hb, rfl⟩

theorem bindItems_withoutBodies : ∀ (is : List Item) {cx : Context} {bound : List Item},
    bindItems cx is = .ok bound →
      bindItems cx (itemsWithoutBodies is) = .ok (itemsWithoutBodies bound)
  | [], cx, bound, h => by
    simp only [bindItems, pure_eq_ok] at h
    subst h
    rfl
  | i :: is, cx, bound, h => by
    simp only [itemsWithoutBodies, bindItems, bind_eq_ok, pure_eq_ok] at h ⊢
    obtain ⟨b, hb, bs, hbs, rfl⟩ := h
    exact ⟨_, bindItem_withoutBodies i hb, _, bindItems_withoutBodies is hbs, rfl⟩

end

end Names

theorem Module.bindNames_withoutBodies {m bound : Module} (h : m.bindNames = .ok bound) :
    m.withoutBodies.bindNames = .ok bound.withoutBodies := by
  rw [Module.bindNames, Index.ofModule, m.entries_withoutBodies]
  exact Names.bindModule_withoutBodies m h

theorem Symbols.ofModule_withoutBodies (m : Module) : ofModule m.withoutBodies = ofModule m := by
  rw [ofModule, ofModule, collect_withoutBodies]

/-! ### A function that two programs share -/

/-- Where the functions of two programs are equal, so is what stands in their places. -/
inductive Function.Alike {α : Type} : List Function → List Function → List α → List α → Prop
  | nil : Alike [] [] [] []
  | cons {d d' : Function} {a a' : α} {ds ds' : List Function} {as as' : List α} :
    (d = d' → a = a') → Alike ds ds' as as' → Alike (d :: ds) (d' :: ds') (a :: as) (a' :: as')

namespace Function.Alike
variable {α β : Type} {ds ds' es es' : List Function} {as as' bs bs' : List α}

theorem append (h : Alike ds ds' as as') (k : Alike es es' bs bs') :
    Alike (ds ++ es) (ds' ++ es') (as ++ bs) (as' ++ bs') := by
  induction h with
  | nil => exact k
  | cons hd _ ih => exact .cons hd ih

theorem map (h : Alike ds ds' as as') (f : α → β) : Alike ds ds' (as.map f) (as'.map f) := by
  induction h with
  | nil => exact .nil
  | cons hd _ ih => exact .cons (fun he => congrArg f (hd he)) ih

theorem getElem? (h : Alike ds ds' as as') {i : Nat} {d : Function} (hd : ds[i]? = some d)
    (hd' : ds'[i]? = some d) : ∃ a, as[i]? = some a ∧ as'[i]? = some a := by
  induction h generalizing i with
  | nil => simp at hd
  | @cons e e' a a' es es' as as' he _ ih =>
    cases i with
    | zero =>
      cases hd
      cases hd'
      exact ⟨a, rfl, congrArg some (he rfl).symm⟩
    | succ i => exact ih hd hd'

theorem of_length {ds ds' : List Function} (h : ds.length = ds'.length) : Alike ds ds' ds ds' := by
  induction ds generalizing ds' with
  | nil =>
    cases ds' with
    | nil => exact .nil
    | cons d' ds' => contradiction
  | cons d ds ih =>
    cases ds' with
    | nil => contradiction
    | cons d' ds' => exact .cons id (ih (Nat.succ.inj h))

theorem of_mapM {f : Function → Result α} (h : ds.length = ds'.length) (ha : ds.mapM f = .ok as)
    (ha' : ds'.mapM f = .ok as') : Alike ds ds' as as' := by
  rw [Result.mapM_eq_ok] at ha ha'
  induction ha generalizing ds' as' with
  | nil =>
    cases ha' with
    | nil => exact .nil
    | cons _ _ => contradiction
  | cons hd _ ih =>
    cases ha' with
    | nil => contradiction
    | cons hd' hds' =>
      exact .cons (fun he => Except.ok.inj (hd.symm.trans (he ▸ hd'))) (ih (Nat.succ.inj h) hds')

end Function.Alike

theorem ImplItem.filterMap_mapFunction (f : Function → Function) (items : List ImplItem) :
    (items.map (·.mapFunction f)).filterMap (·.function?) =
      (items.filterMap (·.function?)).map f := by
  rw [List.filterMap_map, List.map_filterMap]
  congr 1
  funext item
  obtain ⟨name, member⟩ := item
  cases member <;> rfl

theorem ImplBlock.length_functions {d d' : ImplBlock} (h : d.withoutBodies = d'.withoutBodies) :
    (d.items.filterMap (·.function?)).length = (d'.items.filterMap (·.function?)).length := by
  have hitems := congrArg (fun b : ImplBlock => (b.items.filterMap (·.function?)).length) h
  simpa only [withoutBodies, ImplItem.filterMap_mapFunction, List.length_map] using hitems

section
variable {implMethods : Bool}

namespace Names
variable {cx : Context}
open Result

theorem bindImpl_functions {d bound : ImplBlock} (h : bindImpl cx d = .ok bound) :
    (d.items.filterMap (·.function?)).mapM
      (bindFunction ((cx.withGenerics d.params.names).withSelf bound.selfType)) =
        .ok (bound.items.filterMap (·.function?)) := by
  simp only [bindImpl, bind_eq_ok, pure_eq_ok] at h
  obtain ⟨params, hp, selfType, hs, traitPath, ht, items, hi, rfl⟩ := h
  rw [mapM_eq_ok] at hi ⊢
  generalize d.items = written at hi
  induction hi with
  | nil => exact .nil
  | @cons item found rest _ hitem _ ih =>
    simp only [bind_eq_ok, pure_eq_ok] at hitem
    obtain ⟨member, hm, rfl⟩ := hitem
    obtain ⟨name, body⟩ := item
    cases body with
    | function body =>
      simp only [bindMember, bind_eq_ok, pure_eq_ok] at hm
      obtain ⟨b, hb, rfl⟩ := hm
      exact .cons hb ih
    | const type value =>
      simp only [bindMember, bind_eq_ok, pure_eq_ok] at hm
      obtain ⟨t, _, e, _, rfl⟩ := hm
      exact ih
    | type target =>
      simp only [bindMember, bind_eq_ok, pure_eq_ok] at hm
      obtain ⟨t, _, rfl⟩ := hm
      exact ih

theorem bindImpl_alike {d d' bound bound' : ImplBlock} (h : d.withoutBodies = d'.withoutBodies)
    (hb : bindImpl cx d = .ok bound) (hb' : bindImpl cx d' = .ok bound') :
    Function.Alike (d.items.filterMap (·.function?)) (d'.items.filterMap (·.function?))
      (bound.items.filterMap (·.function?)) (bound'.items.filterMap (·.function?)) := by
  have hparams : d.params = d'.params := by
    rw [← d.params_withoutBodies, h, d'.params_withoutBodies]
  have hbound : bound.withoutBodies = bound'.withoutBodies :=
    Except.ok.inj ((bindImpl_withoutBodies hb).symm.trans (h ▸ bindImpl_withoutBodies hb'))
  have hself : bound.selfType = bound'.selfType := by
    rw [← bound.selfType_withoutBodies, hbound, bound'.selfType_withoutBodies]
  have hmethods := bindImpl_functions hb'
  rw [← hparams, ← hself] at hmethods
  exact .of_mapM (ImplBlock.length_functions h) (bindImpl_functions hb) hmethods

mutual

theorem bindModule_alike : ∀ (m m' : Module) {cx : Context} {bound bound' : Module},
    m.withoutBodies = m'.withoutBodies → bindModule cx m = .ok bound →
    bindModule cx m' = .ok bound' → Function.Alike (m.functions implMethods)
      (m'.functions implMethods) (bound.functions implMethods) (bound'.functions implMethods)
  | ⟨name, uses, held⟩, ⟨name', uses', held'⟩, cx, bound, bound', h, hb, hb' => by
    injection h with _ huses hheld
    subst huses
    simp only [bindModule, bind_eq_ok, pure_eq_ok] at hb hb'
    obtain ⟨⟨boundUses, inner⟩, hu, items, hi, rfl⟩ := hb
    obtain ⟨_, hu', items', hi', rfl⟩ := hb'
    cases hu.symm.trans hu'
    exact bindItems_alike held held' hheld hi hi'

theorem bindItem_alike : ∀ (i i' : Item) {cx : Context} {bound bound' : Item},
    i.withoutBodies = i'.withoutBodies → bindItem cx i = .ok bound → bindItem cx i' = .ok bound' →
    Function.Alike (i.functions implMethods) (i'.functions implMethods)
      (bound.functions implMethods) (bound'.functions implMethods)
  | i, i', cx, bound, bound', h, hb, hb' => by
    cases i <;> cases i' <;> simp only [Item.withoutBodies, reduceCtorEq] at h <;>
      simp only [bindItem, bind_eq_ok, pure_eq_ok] at hb hb' <;>
      obtain ⟨e, he, rfl⟩ := hb <;> obtain ⟨e', he', rfl⟩ := hb'
    case function.function d d' =>
      exact .cons (fun hd => Except.ok.inj (he.symm.trans (hd ▸ he'))) .nil
    case impl.impl d d' =>
      simp only [Item.functions]
      split
      · exact bindImpl_alike (Item.impl.inj h) he he'
      · exact .nil
    case module.module m m' =>
      have hm : m.withoutBodies = m'.withoutBodies := Item.module.inj h
      have hname : m.name = m'.name := by rw [← m.name_withoutBodies, hm, m'.name_withoutBodies]
      exact bindModule_alike m m' hm he (hname ▸ he')
    all_goals exact .nil

theorem bindItems_alike : ∀ (is is' : List Item) {cx : Context} {bound bound' : List Item},
    itemsWithoutBodies is = itemsWithoutBodies is' → bindItems cx is = .ok bound →
    bindItems cx is' = .ok bound' → Function.Alike (itemFunctions implMethods is)
      (itemFunctions implMethods is') (itemFunctions implMethods bound)
      (itemFunctions implMethods bound')
  | [], is', cx, bound, bound', h, hb, hb' => by
    cases is' with
    | nil =>
      cases hb
      cases hb'
      exact .nil
    | cons i' is' => contradiction
  | i :: is, is', cx, bound, bound', h, hb, hb' => by
    cases is' with
    | nil => contradiction
    | cons i' is' =>
      simp only [bindItems, bind_eq_ok, pure_eq_ok] at hb hb'
      obtain ⟨b, hi, bs, his, rfl⟩ := hb
      obtain ⟨b', hi', bs', his', rfl⟩ := hb'
      obtain ⟨hhead, htail⟩ := List.cons.inj h
      exact (bindItem_alike i i' hhead hi hi').append (bindItems_alike is is' htail his his')

end

end Names

/-! ### Checks of what two programs share -/

def Duty.function? : Duty → Option (Frames × Function)
  | params .. => none
  | function frames d => some (frames, d)

/-- Functions, each with the frames that it is checked with. -/
def Duty.functions (duties : List Duty) : List (Frames × Function) := duties.filterMap (·.function?)

theorem Duty.functions_append (ds es : List Duty) :
    functions (ds ++ es) = functions ds ++ functions es := List.filterMap_append

theorem Duty.functions_map_function (frames : Frames) (ds : List Function) :
    functions (ds.map (.function frames)) = ds.map (frames, ·) := by
  rw [functions, List.filterMap_map]
  exact congrFun (List.filterMap_eq_map (f := (frames, ·))) ds

theorem Duty.functions_impl (parents : List String) (frames : Frames) (d : ImplBlock) :
    functions (Item.duties true parents frames (.impl d)) =
      (d.items.filterMap (·.function?)).map (d.frame :: frames, ·) := functions_map_function _ _

mutual

theorem Module.functions_mapFunctions (f : Frames → Function → Function) : ∀ (m : Module)
    (parents : List String), (m.mapFunctions implMethods f parents).functions implMethods =
      (Duty.functions (m.duties implMethods parents)).map fun x => f x.1 x.2
  | ⟨_, _, held⟩, parents => itemFunctions_mapItemFunctions f held parents _

theorem Item.functions_mapFunctions (f : Frames → Function → Function) : ∀ (i : Item)
    (parents : List String) (frames : Frames),
    (i.mapFunctions implMethods f parents frames).functions implMethods =
      (Duty.functions (i.duties implMethods parents frames)).map fun x => f x.1 x.2
  | .impl d, parents, frames => by
    cases implMethods with
    | false => rfl
    | true =>
      rw [Duty.functions_impl, List.map_map]
      exact ImplItem.filterMap_mapFunction _ d.items
  | .module m, parents, frames => m.functions_mapFunctions f (parents ++ [m.name])
  | .function _, _, _ | .struct _, _, _ | .enum _, _, _ | .traitDef _, _, _ | .static _, _, _
  | .typeAlias _, _, _ => rfl

theorem itemFunctions_mapItemFunctions (f : Frames → Function → Function) : ∀ (is : List Item)
    (parents : List String) (frames : Frames),
    itemFunctions implMethods (mapItemFunctions implMethods f parents frames is) =
      (Duty.functions (itemDuties implMethods parents frames is)).map fun x => f x.1 x.2
  | [], _, _ => rfl
  | i :: is, parents, frames => by
    rw [mapItemFunctions, itemFunctions, itemDuties, Duty.functions_append, List.map_append,
      i.functions_mapFunctions f, itemFunctions_mapItemFunctions f is]

end

mutual

theorem Module.duties_alike : ∀ (m m' : Module) (parents : List String),
    m.withoutBodies = m'.withoutBodies → Function.Alike (m.functions implMethods)
      (m'.functions implMethods) (Duty.functions (m.duties implMethods parents))
      (Duty.functions (m'.duties implMethods parents))
  | ⟨name, uses, held⟩, ⟨name', uses', held'⟩, parents, h => by
    have hframe : Module.frame parents ⟨name, uses, held⟩ =
        Module.frame parents ⟨name', uses', held'⟩ := by
      rw [← Module.frame_withoutBodies, h, Module.frame_withoutBodies]
    injection h with _ _ hheld
    rw [Module.duties, Module.duties, hframe]
    exact itemDuties_alike held held' parents _ hheld

theorem Item.duties_alike : ∀ (i i' : Item) (parents : List String) (frames : Frames),
    i.withoutBodies = i'.withoutBodies → Function.Alike (i.functions implMethods)
      (i'.functions implMethods) (Duty.functions (i.duties implMethods parents frames))
      (Duty.functions (i'.duties implMethods parents frames))
  | i, i', parents, frames, h => by
    cases i <;> cases i' <;> simp only [Item.withoutBodies, reduceCtorEq] at h
    case function.function d d' => exact .cons (congrArg (frames, ·)) .nil
    case impl.impl d d' =>
      have hd : d.withoutBodies = d'.withoutBodies := Item.impl.inj h
      have hframe : d.frame = d'.frame := by
        rw [ImplBlock.frame, ← d.params_withoutBodies, hd, d'.params_withoutBodies, ImplBlock.frame]
      cases implMethods with
      | false => exact .nil
      | true =>
        rw [Duty.functions_impl, Duty.functions_impl, hframe]
        exact (Function.Alike.of_length (ImplBlock.length_functions hd)).map _
    case module.module m m' =>
      have hm : m.withoutBodies = m'.withoutBodies := Item.module.inj h
      have hname : m.name = m'.name := by rw [← m.name_withoutBodies, hm, m'.name_withoutBodies]
      rw [Item.duties, Item.duties, ← hname]
      exact Module.duties_alike m m' _ hm
    all_goals exact .nil

theorem itemDuties_alike : ∀ (is is' : List Item) (parents : List String) (frames : Frames),
    itemsWithoutBodies is = itemsWithoutBodies is' → Function.Alike (itemFunctions implMethods is)
      (itemFunctions implMethods is') (Duty.functions (itemDuties implMethods parents frames is))
      (Duty.functions (itemDuties implMethods parents frames is'))
  | [], is', parents, frames, h => by
    cases is' with
    | nil => exact .nil
    | cons i' is' => contradiction
  | i :: is, is', parents, frames, h => by
    cases is' with
    | nil => contradiction
    | cons i' is' =>
      obtain ⟨hhead, htail⟩ := List.cons.inj h
      rw [itemDuties, itemDuties, Duty.functions_append, Duty.functions_append]
      exact (Item.duties_alike i i' parents frames hhead).append
        (itemDuties_alike is is' parents frames htail)

end

end

namespace Program

theorem bound_alike {source source' : Module} {p p' : Program}
    (h : source.withoutBodies = source'.withoutBodies) (hp : ofModule source = .ok p)
    (hp' : ofModule source' = .ok p') : p.symbols = p'.symbols ∧
      p.root.withoutBodies = p'.root.withoutBodies ∧ ∀ implMethods,
      Function.Alike (source.functions implMethods) (source'.functions implMethods)
        (p.root.functions implMethods) (p'.root.functions implMethods) := by
  simp only [ofModule, Result.bind_eq_ok, Result.pure_eq_ok] at hp hp'
  obtain ⟨root, hr, symbols, hs, rfl⟩ := hp
  obtain ⟨root', hr', symbols', hs', rfl⟩ := hp'
  have hroots : root.withoutBodies = root'.withoutBodies := Except.ok.inj
    ((Module.bindNames_withoutBodies hr).symm.trans (h ▸ Module.bindNames_withoutBodies hr'))
  refine ⟨?_, hroots, fun implMethods => ?_⟩
  · rw [← Symbols.ofModule_withoutBodies, hroots, Symbols.ofModule_withoutBodies] at hs
    exact Except.ok.inj (hs.symm.trans hs')
  · have hindex : Index.ofModule source = Index.ofModule source' := by
      rw [Index.ofModule, ← source.entries_withoutBodies, h, source'.entries_withoutBodies,
        Index.ofModule]
    rw [Module.bindNames, hindex] at hr
    exact Names.bindModule_alike source source' h hr hr'

theorem check_eq_ok {p : Program} {options : CheckOptions} {root : Module}
    (h : p.check options = .ok root) : root.functions options.implMethods =
      (Duty.functions (p.root.duties options.implMethods [])).map fun x =>
        x.2.alone ⟨p.symbols, options⟩ x.1 := by
  rw [Program.check, Check.run_module, Duty.outcome_eq_ok] at h
  rw [← h.2]
  exact p.root.functions_mapFunctions (Function.alone ⟨p.symbols, options⟩) []

theorem checked_alike {p p' : Program} {options : CheckOptions} {root root' : Module}
    (hs : p.symbols = p'.symbols) (h : p.root.withoutBodies = p'.root.withoutBodies)
    (hr : p.check options = .ok root) (hr' : p'.check options = .ok root') :
    Function.Alike (p.root.functions options.implMethods) (p'.root.functions options.implMethods)
      (root.functions options.implMethods) (root'.functions options.implMethods) := by
  rw [check_eq_ok hr, check_eq_ok hr', ← hs]
  exact (Module.duties_alike p.root p'.root [] h).map _

end Program

/-- A module is accepted when each of its functions is by a checker of its own that has only the
frame of the function's module and that of its impl, and the parameters of every impl are; it is
refused for the first of these that is not. So a function stays what it becomes when the bodies of
others are replaced. -/
theorem Check.module_separately :
    (∀ (env : Env) (parents : List String) (m : Module) (frames : Frames),
      (∀ checked, ((Check.module env parents m).run frames).1 = .ok checked ↔
        (∀ duty ∈ m.duties env.options.implMethods parents, duty.check env = .ok ()) ∧
        m.mapFunctions env.options.implMethods (Function.alone env) parents = checked) ∧
      ∀ e, ((Check.module env parents m).run frames).1 = .error e ↔ ∃ before duty after,
        m.duties env.options.implMethods parents = before ++ duty :: after ∧
        (∀ done ∈ before, done.check env = .ok ()) ∧ duty.check env = .error e) ∧
    (∀ p p' : Program, p.symbols = p'.symbols → p.root.withoutBodies = p'.root.withoutBodies →
      ∀ options root root', p.check options = .ok root → p'.check options = .ok root' →
      ∀ (i : Nat) (d : Function), (p.root.functions options.implMethods)[i]? = some d →
        (p'.root.functions options.implMethods)[i]? = some d →
        ∃ checked, (root.functions options.implMethods)[i]? = some checked ∧
          (root'.functions options.implMethods)[i]? = some checked) ∧
    ∀ source source' p p', source.withoutBodies = source'.withoutBodies →
      Program.ofModule source = .ok p → Program.ofModule source' = .ok p' →
      p.symbols = p'.symbols ∧ p.root.withoutBodies = p'.root.withoutBodies ∧
      ∀ (implMethods : Bool) (i : Nat) (d : Function), (source.functions implMethods)[i]? = some d →
        (source'.functions implMethods)[i]? = some d →
        ∃ bound, (p.root.functions implMethods)[i]? = some bound ∧
          (p'.root.functions implMethods)[i]? = some bound := by
  refine ⟨fun env parents m frames => ?_, ?_, ?_⟩
  · rw [Check.run_module]
    exact ⟨fun checked => Duty.outcome_eq_ok, fun e => Duty.outcome_eq_error⟩
  · intro p p' hs h options root root' hr hr' i d hd hd'
    exact (Program.checked_alike hs h hr hr').getElem? hd hd'
  · intro source source' p p' h hp hp'
    obtain ⟨hs, hroots, hfunctions⟩ := Program.bound_alike h hp hp'
    exact ⟨hs, hroots, fun implMethods i d hd hd' => (hfunctions implMethods).getElem? hd hd'⟩

/-- In source form, `fn f() -> bool { true } fn g() -> bool { f() }`, or with `false` for `true`. -/
def Module.flag (value : Bool) : Module :=
  let function (name : String) (kind : ExprKind) : Item :=
    .function ⟨name, ⟨[], []⟩, [], .primitive .bool, some ⟨kind, .wildcard, default⟩, default⟩
  ⟨"", [], [function "f" (.literal (.bool value)), function "g" (.callPath (.bare "f") [])]⟩

theorem Check.module_separately_flag : ∃ p p' root root',
    Program.ofModule (.flag true) = .ok p ∧ Program.ofModule (.flag false) = .ok p' ∧
    p.check .standard = .ok root ∧ p'.check .standard = .ok root' ∧
    (∀ duty ∈ p.root.duties true [], duty.check ⟨p.symbols, .standard⟩ = .ok ()) ∧
    ∃ checked, (root.functions true)[1]? = some checked ∧ (root'.functions true)[1]? = some checked := by
  obtain ⟨heach, hreplaced, hbound⟩ := Check.module_separately
  obtain ⟨hs, hroots, hfunctions⟩ := hbound (.flag true) (.flag false) _ _ rfl rfl rfl
  obtain ⟨_, hg, hg'⟩ := hfunctions true 1 _ rfl rfl
  refine ⟨_, _, _, _, rfl, rfl, rfl, rfl, ?_, hreplaced _ _ hs hroots .standard _ _ rfl rfl 1 _ hg hg'⟩
  intro duty hduty
  exact (((heach ⟨_, .standard⟩ [] _ []).1 _).mp rfl).1 duty hduty

end BorrowLang
