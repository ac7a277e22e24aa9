import Mathlib.Data.List.Forall2
import BorrowLang.Check.Module

/-! What a successful computation has done, step by step. -/
namespace BorrowLang

theorem Result.bind_eq_ok {α β : Type} {x : Result α} {f : α → Result β} {b : β} :
    x >>= f = .ok b ↔ ∃ a, x = .ok a ∧ f a = .ok b := by
  cases x with
  | error e => simp [bind, Except.bind]
  | ok a => simp [bind, Except.bind]

theorem Result.bind_eq_error {α β : Type} {x : Result α} {f : α → Result β} {e : Error} :
    x >>= f = .error e ↔ x = .error e ∨ ∃ a, x = .ok a ∧ f a = .error e := by
  cases x with
  | error e' => simp [bind, Except.bind]
  | ok a => simp [bind, Except.bind]

theorem Result.pure_eq_ok {α : Type} {a b : α} : (pure a : Result α) = .ok b ↔ a = b := by
  simp [pure, Except.pure]

theorem Result.map_eq_ok {α β : Type} {x : Result α} {f : α → β} {b : β} :
    f <$> x = .ok b ↔ ∃ a, x = .ok a ∧ f a = b := by
  cases x <;> simp [Functor.map, Except.map]

theorem Result.throw_ne_ok {α : Type} {e : Error} {a : α} : (throw e : Result α) ≠ .ok a := nofun

theorem Result.mapM_eq_ok {α β : Type} {f : α → Result β} {as : List α} {bs : List β} :
    as.mapM f = .ok bs ↔ List.Forall₂ (fun a b => f a = .ok b) as bs := by
  induction as generalizing bs with
  | nil => rw [List.mapM_nil, pure_eq_ok, List.forall₂_nil_left_iff, eq_comm]
  | cons a as ih =>
    simp only [List.mapM_cons, bind_eq_ok, pure_eq_ok, List.forall₂_cons_left_iff, ih]
    grind

theorem Result.forall_of_mapM {α β : Type} {f : α → Result β} {R : α → Prop} {R' : β → Prop}
    {as : List α} {bs : List β} (h : as.mapM f = .ok bs) (ha : ∀ a ∈ as, R a)
    (hf : ∀ a b, R a → f a = .ok b → R' b) : ∀ b ∈ bs, R' b := by
  induction mapM_eq_ok.mp h with
  | nil => exact List.forall_mem_nil _
  | cons hab hrest ih =>
    obtain ⟨hhead, htail⟩ := List.forall_mem_cons.mp ha
    exact List.forall_mem_cons.mpr ⟨hf _ _ hhead hab, ih (mapM_eq_ok.mpr hrest) htail⟩

theorem Result.forall_of_foldlM {α β : Type} {f : β → α → Result β} {R : β → Prop} {as : List α}
    {b c : β} (hf : ∀ a ∈ as, ∀ b c, R b → f b a = .ok c → R c) (hb : R b)
    (h : as.foldlM f b = .ok c) : R c := by
  induction as generalizing b with
  | nil =>
    rw [List.foldlM_nil, Result.pure_eq_ok] at h
    exact h ▸ hb
  | cons a as ih =>
    rw [List.foldlM_cons, Result.bind_eq_ok] at h
    obtain ⟨mid, hmid, h⟩ := h
    obtain ⟨ha, has⟩ := List.forall_mem_cons.mp hf
    exact ih has (ha b mid hb hmid) h

/-- What every step keeps of an element, the whole keeps. -/
theorem Result.map_eq_map_of_mapM {α β γ : Type} {f : α → Result β} {g : α → γ} {g' : β → γ}
    {as : List α} {bs : List β} (h : as.mapM f = .ok bs) (hf : ∀ a b, f a = .ok b → g' b = g a) :
    bs.map g' = as.map g := by
  induction mapM_eq_ok.mp h with
  | nil => rfl
  | cons hab hrest ih => rw [List.map_cons, List.map_cons, hf _ _ hab, ih (mapM_eq_ok.mpr hrest)]

theorem mem_of_lookup_eq_some {α : Type} {entries : List (String × α)} {name : String} {value : α}
    (h : entries.lookup name = some value) : (name, value) ∈ entries := by
  obtain ⟨before, after, hsplit, -⟩ := List.lookup_eq_some_iff.mp h
  exact hsplit ▸ List.mem_append_right before (.head after)

theorem exists_of_forall₂ {α β : Type} {R : α → β → Prop} {as : List α} {bs : List β}
    (h : List.Forall₂ R as bs) {b : β} (hb : b ∈ bs) : ∃ a ∈ as, R a b := by
  induction h with
  | nil => contradiction
  | cons hab _ ih =>
    rcases List.mem_cons.mp hb with rfl | hb
    · exact ⟨_, .head _, hab⟩
    · obtain ⟨a, ha, hr⟩ := ih hb
      exact ⟨a, .tail _ ha, hr⟩

theorem Table.find_eq_ok {α : Type} {t : Table α} {key : Key} {span : Span} {value : α} :
    t.find key span = .ok value ↔ t.get? key = some value := by
  unfold find
  split <;> simp_all

theorem Symbols.variant_eq_ok {s : Symbols} {enumKey : Key} {index : Nat} {span : Span}
    {d : EnumDef} {v : Variant} : s.variant enumKey index span = .ok (d, v) ↔
      s.enums.get? enumKey = some d ∧ d.variants[index]? = some v := by
  simp only [variant, Result.bind_eq_ok, Table.find_eq_ok]
  constructor
  · rintro ⟨e, he, h⟩
    split at h
    · next w hw =>
      obtain ⟨rfl, rfl⟩ := Prod.mk.inj (Except.ok.inj h)
      exact ⟨he, hw⟩
    · contradiction
  · rintro ⟨hd, hv⟩
    exact ⟨d, hd, by rw [hv]; rfl⟩

/-- A function is called as soon as it has no parameters of its own, none are written, and the number
of the arguments is right. -/
theorem Symbols.callType_function_eq_ok {s : Symbols} {path : Path} {found : List Ty} {span : Span}
    {t : Ty} {key : Key} (hk : path.binding = .function key) :
    s.callType path found span = .ok t ↔
      ∃ f, s.functions.get? key = some f ∧ f.params.names = [] ∧ path.lastArgs = [] ∧
        f.args.length = found.length ∧ f.ret = t := by
  simp only [callType, hk, Result.bind_eq_ok, Table.find_eq_ok]
  refine exists_congr fun f => and_congr_right fun _ => ⟨fun h => ?_, ?_⟩
  · split_ifs at h with hgeneric hcount <;>
      simp only [Result.bind_eq_ok, Result.throw_ne_ok, false_and, exists_false,
        Result.pure_eq_ok] at h
    simp_all
  · rintro ⟨hparams, hargs, hcount, rfl⟩
    simp [hparams, hargs, hcount, Result.pure_eq_ok]

/-- A variant without field names that is applied to values: the arguments that are written for its
enum, refined by one value after another. -/
theorem Symbols.exists_of_variantType {s : Symbols} {path : Path} {enumKey : Key} {index : Nat}
    {found : List Ty} {span : Span} {t : Ty}
    (h : s.variantType path enumKey index found span = .ok t) :
    ∃ d v templates written args, s.enums.get? enumKey = some d ∧ d.variants[index]? = some v ∧
      v.data.positional? = some templates ∧ templates.length = found.length ∧
      d.args path span = .ok written ∧
      (templates.zip found).foldlM (d.refineArgs span) written = .ok args ∧
      t = path.enumType enumKey args := by
  simp only [variantType, Result.bind_eq_ok] at h
  obtain ⟨⟨d, v⟩, hvariant, h⟩ := h
  obtain ⟨hd, hv⟩ := variant_eq_ok.mp hvariant
  dsimp only at h
  split at h
  · contradiction
  · next templates htemplates =>
    split_ifs at h with hcount
    · contradiction
    · simp only [Result.bind_eq_ok, Result.pure_eq_ok] at h
      obtain ⟨written, hwritten, args, hargs, rfl⟩ := h
      exact ⟨d, v, templates, written, args, hd, hv, htemplates, not_not.mp hcount, hwritten, hargs,
        rfl⟩

/-- Only functions and variants are called. -/
theorem Symbols.callType_eq_ok {s : Symbols} {path : Path} {found : List Ty} {span : Span} {t : Ty} :
    s.callType path found span = .ok t ↔
      (∃ key f, path.binding = .function key ∧ s.functions.get? key = some f ∧
        f.params.names = [] ∧ path.lastArgs = [] ∧ f.args.length = found.length ∧ f.ret = t) ∨
      ∃ enumKey index, path.binding = .variant enumKey index ∧
        s.variantType path enumKey index found span = .ok t := by
  cases hb : path.binding with
  | function key => simp [callType_function_eq_ok hb]
  | _ => simp [callType, hb, Result.throw_ne_ok]

namespace Check
variable {α β : Type} {frames after : Frames}

theorem bind_eq_ok {c : Check α} {f : α → Check β} {b : β} :
    run (c >>= f) frames = (.ok b, after) ↔
      ∃ a mid, c.run frames = (.ok a, mid) ∧ (f a).run mid = (.ok b, after) := by
  rw [run_bind]
  rcases hc : c.run frames with ⟨e | a, mid⟩
  · simp
  · simp [and_assoc]

theorem pure_eq_ok {a b : α} :
    run (pure a) frames = (.ok b, after) ↔ a = b ∧ frames = after := by
  simp

theorem ofResult_eq_ok {x : Result α} {a : α} :
    (ofResult x).run frames = (.ok a, after) ↔ x = .ok a ∧ frames = after := by
  simp

theorem merge_eq_ok {t u v : Ty} {span : Span} :
    (merge t u span).run frames = (.ok v, after) ↔ t.mergeAt u span = .ok v ∧ frames = after :=
  ofResult_eq_ok

theorem resolveType_eq_ok {env : Env} {span : Span} {t u : Ty} :
    (resolveType env span t).run frames = (.ok u, after) ↔
      BorrowLang.resolveType env frames span t = .ok u ∧ frames = after :=
  Prod.mk.injEq .. ▸ Iff.rfl

theorem inFrame_eq_ok {c : Check α} {a : α} :
    (inFrame c).run frames = (.ok a, after) ↔
      ∃ mid, c.run (.empty :: frames) = (.ok a, mid) ∧ mid.tail = after := by
  rw [run_inFrame]
  rcases hc : c.run (.empty :: frames) with ⟨x, mid⟩
  simp [and_assoc]

theorem isolated_eq_ok {g : Frame} {c : Check α} {a : α} :
    (isolated g c).run frames = (.ok a, after) ↔
      (∃ mid, c.run [g] = (.ok a, mid)) ∧ frames = after := by
  rw [run_isolated]
  rcases hc : c.run [g] with ⟨x, mid⟩
  simp

theorem useLocal_eq_ok {name : String} {expected t : Ty} {span : Span} :
    (useLocal name expected span).run frames = (.ok t, after) ↔
      ∃ v, frames.local? name = some v ∧ expected.mergeAt v.type span = .ok t ∧
        frames.retype name t = after := by
  simp only [run, useLocal]
  cases frames.local? name with
  | none => simp
  | some v =>
    cases h : expected.mergeAt v.type span with
    | error e => simp [h]
    | ok u =>
      simp only [h]
      grind

end Check
end BorrowLang
