import BorrowLang.Proofs.ReachedItems
import BorrowLang.Proofs.Runs
import BorrowLang.Symbols.Alias

/-!
What the index of a program binds a path to is found among its symbols. The two are made by walks of
their own: the index keeps the last item of a key, whatever its kind, and the symbols keep the last
item of each kind.
-/
namespace BorrowLang

/-- There is an entry for what is bound. Traits are found by path and have none. -/
def Binding.Known (s : Symbols) : Binding → Prop
  | unbound | traitItem _ => True
  | staticItem key => (s.statics.get? key).isSome
  | structType key => (s.structs.get? key).isSome
  | enumType key => (s.enums.get? key).isSome
  | variant enumKey index => ∃ d, s.enums.get? enumKey = some d ∧ index < d.variants.length
  | function key => (s.functions.get? key).isSome
  | typeAlias key => (s.aliases.get? key).isSome

/-- The absolute path of the names is the name of what is bound: its key, or for a variant the key of
its enum with the name of the variant behind it. The variants of a root enum with an empty name are
also reached by their own name alone, since the key of no names is the key of that enum. -/
def Binding.SpelledBy (s : Symbols) (names : List String) : Binding → Prop
  | unbound => False
  | staticItem key | structType key | enumType key | function key | traitItem key | typeAlias key =>
    Key.ofNames names = key
  | variant enumKey index => ∃ parents d v, names = parents ++ [v.name] ∧
    Key.ofNames parents = enumKey ∧
    (parents ≠ [] → Key.ofNames names = enumKey ++ "::" ++ v.name) ∧
    s.enums.get? enumKey = some d ∧ d.variants[index]? = some v

theorem Key.ofNames_concat {parents : List String} (h : parents ≠ []) (name : String) :
    Key.ofNames (parents ++ [name]) = Key.ofNames parents ++ "::" ++ name := by
  rw [ofNames, ofNames, String.intercalate_append_of_ne_nil h (List.cons_ne_nil name []),
    String.intercalate_singleton]
  simp only [String.append_assoc]

/-- An absolute path that names what it is bound to, which is there. -/
structure Path.Denotes (s : Symbols) (p : Path) : Prop where
  absolute : p.absolute = true
  spelled : p.binding.SpelledBy s p.names
  known : p.binding.Known s

namespace Symbols

/-- There is an item of the kind with this key. -/
def Has (s : Symbols) (key : Key) : ItemKind → Prop
  | .module | .traitItem => True
  | .structType => (s.structs.get? key).isSome
  | .enumType variants => ∃ d, s.enums.get? key = some d ∧ d.variants.map (·.name) = variants
  | .function => (s.functions.get? key).isSome
  | .staticItem => (s.statics.get? key).isSome
  | .typeAlias => (s.aliases.get? key).isSome

/-- Whatever kind the last of the entries with some key has, there is an item of that kind. -/
def Covers (s : Symbols) (entries : List (Key × ItemKind)) : Prop :=
  ∀ key kind, entries.reverse.lookup key = some kind → s.Has key kind

theorem Covers.append {s s' : Symbols} {entries : List (Key × ItemKind)} (h : s.Covers entries)
    {key : Key} {kind : ItemKind} (hkey : s'.Has key kind)
    (hs : ∀ k ≠ key, ∀ kind, s.Has k kind → s'.Has k kind) :
    s'.Covers (entries ++ [(key, kind)]) := by
  intro k found hk
  rw [List.reverse_append, List.reverse_singleton, List.singleton_append, List.lookup_cons] at hk
  by_cases he : k = key
  · simp only [he, beq_self_eq_true, Option.some.injEq] at hk
    exact he ▸ hk ▸ hkey
  · simp only [beq_eq_false_iff_ne.mpr he] at hk
    exact hs k he found (h k found hk)

theorem covers_nil (s : Symbols) : s.Covers [] := nofun

section
variable {s : Symbols} {entries : List (Key × ItemKind)} (h : s.Covers entries) (key : Key)
include h

theorem Covers.function (value : Signature) :
    Covers { s with functions := s.functions.insert key value }
      (entries ++ [(key, ItemKind.function)]) := by
  refine h.append (by simp [Has, Table.get?_insert]) fun k hk kind hkind => ?_
  cases kind <;> simp_all [Has, Table.get?_insert]

theorem Covers.struct (value : StructDef) : Covers { s with structs := s.structs.insert key value }
    (entries ++ [(key, ItemKind.structType)]) := by
  refine h.append (by simp [Has, Table.get?_insert]) fun k hk kind hkind => ?_
  cases kind <;> simp_all [Has, Table.get?_insert]

theorem Covers.enum (value : EnumDef) : Covers { s with enums := s.enums.insert key value }
    (entries ++ [(key, ItemKind.enumType (value.variants.map (·.name)))]) := by
  refine h.append (by simp [Has, Table.get?_insert]) fun k hk kind hkind => ?_
  cases kind <;> simp_all [Has, Table.get?_insert]

theorem Covers.static (value : Ty) : Covers { s with statics := s.statics.insert key value }
    (entries ++ [(key, ItemKind.staticItem)]) := by
  refine h.append (by simp [Has, Table.get?_insert]) fun k hk kind hkind => ?_
  cases kind <;> simp_all [Has, Table.get?_insert]

theorem Covers.typeAlias (value : AliasDef) :
    Covers { s with aliases := s.aliases.insert key value } (entries ++ [(key, ItemKind.typeAlias)]) := by
  refine h.append (by simp [Has, Table.get?_insert]) fun k hk kind hkind => ?_
  cases kind <;> simp_all [Has, Table.get?_insert]

end

theorem Covers.enter {s : Symbols} {entries : List (Key × ItemKind)} (h : s.Covers entries)
    (names : List String) (item : Item) :
    (s.enter (names, item)).Covers (entries ++ (item.kind?.map (Key.ofNames names, ·)).toList) := by
  cases item with
  | function d => exact h.function _ d.signature
  | struct d => exact h.struct _ d
  | enum d => exact h.enum _ d
  | static d => exact h.static _ d.type
  | typeAlias d => exact h.typeAlias _ d
  | traitDef _ | module _ => exact h.append trivial fun _ _ _ => id
  | impl _ => exact (List.append_nil entries).symm ▸ h

theorem Covers.foldl_enter {s : Symbols} {entries : List (Key × ItemKind)} (h : s.Covers entries)
    (items : List (List String × Item)) :
    (items.foldl Symbols.enter s).Covers (entries ++ keyed items Item.kind?) := by
  induction items generalizing s entries with
  | nil => exact (List.append_nil entries).symm ▸ h
  | cons e items ih =>
    rw [List.foldl_cons, keyed_cons, ← List.append_assoc]
    exact ih (h.enter e.1 e.2)

end Symbols

/-- The entries of a changed table are those of the old one, changed key by key. -/
theorem Table.rel_get?_mapValuesM {α : Type} {f : α → Result α} {t t' : Table α}
    (h : t.mapValuesM f = .ok t') (key : Key) :
    Option.Rel (fun value value' => f value = .ok value') (t.get? key) (t'.get? key) := by
  induction t generalizing t' with
  | nil =>
    cases h
    exact .none
  | cons entry t ih =>
    obtain ⟨k, v⟩ := entry
    simp only [mapValuesM, List.mapM_cons, Result.bind_eq_ok, Result.pure_eq_ok] at h
    obtain ⟨_, ⟨v', hf, rfl⟩, rest, hr, rfl⟩ := h
    rw [get?_cons, get?_cons]
    by_cases hk : key = k
    · rw [if_pos hk, if_pos hk]
      exact .some hf
    · rw [if_neg hk, if_neg hk]
      exact ih hr

theorem Table.get?_mapValuesM {α : Type} {f : α → Result α} {t t' : Table α}
    (h : t.mapValuesM f = .ok t') {key : Key} {value : α} (hv : t.get? key = some value) :
    ∃ value', f value = .ok value' ∧ t'.get? key = some value' := by
  have hrel := rel_get?_mapValuesM h key
  rw [hv] at hrel
  cases hv' : t'.get? key with
  | none =>
    rw [hv'] at hrel
    contradiction
  | some value' =>
    rw [hv'] at hrel
    cases hrel with
    | some hf => exact ⟨value', hf, rfl⟩

theorem Table.get?_of_mapValuesM {α : Type} {f : α → Result α} {t t' : Table α}
    (h : t.mapValuesM f = .ok t') {key : Key} {value' : α} (hv : t'.get? key = some value') :
    ∃ value, t.get? key = some value ∧ f value = .ok value' := by
  have hrel := rel_get?_mapValuesM h key
  rw [hv] at hrel
  cases hv' : t.get? key with
  | none =>
    rw [hv'] at hrel
    contradiction
  | some value =>
    rw [hv'] at hrel
    cases hrel with
    | some hf => exact ⟨value, rfl, hf⟩

theorem Table.isSome_get?_mapValuesM {α : Type} {f : α → Result α} {t t' : Table α}
    (h : t.mapValuesM f = .ok t') {key : Key} (hv : (t.get? key).isSome) :
    (t'.get? key).isSome := by
  obtain ⟨value, hv⟩ := Option.isSome_iff_exists.mp hv
  obtain ⟨value', -, hv'⟩ := get?_mapValuesM h hv
  exact hv' ▸ rfl

namespace Aliases

theorem expandVariant_name {aliases : Aliases} {v w : Variant}
    (h : aliases.expandVariant v = .ok w) : w.name = v.name := by
  unfold expandVariant at h
  split at h
  · simp only [Result.pure_eq_ok] at h
    exact h ▸ rfl
  · simp only [Result.bind_eq_ok, Result.pure_eq_ok] at h
    obtain ⟨_, -, rfl⟩ := h
    rfl
  · simp only [Result.bind_eq_ok, Result.pure_eq_ok] at h
    obtain ⟨_, -, rfl⟩ := h
    rfl

theorem expandEnum_names {aliases : Aliases} {d d' : EnumDef} (h : aliases.expandEnum d = .ok d') :
    d'.variants.map (·.name) = d.variants.map (·.name) := by
  simp only [expandEnum, Result.bind_eq_ok, Result.pure_eq_ok] at h
  obtain ⟨variants, hv, rfl⟩ := h
  exact Result.map_eq_map_of_mapM hv fun _ _ => expandVariant_name

end Aliases

namespace Symbols

/-- The expansion of aliases removes no item and no variant. -/
theorem Covers.expandAliases {s s' : Symbols} {entries : List (Key × ItemKind)}
    (h : s.Covers entries) (he : s.expandAliases = .ok s') : s'.Covers entries := by
  simp only [Symbols.expandAliases, Result.bind_eq_ok, Result.pure_eq_ok] at he
  obtain ⟨structs, hs, enums, hen, statics, hst, functions, hf, impls, -, rfl⟩ := he
  intro key kind hk
  have hkind := h key kind hk
  cases kind with
  | module | traitItem => trivial
  | structType => exact Table.isSome_get?_mapValuesM hs hkind
  | enumType variants =>
    obtain ⟨d, hd, rfl⟩ := hkind
    obtain ⟨d', hd', hget⟩ := Table.get?_mapValuesM hen hd
    exact ⟨d', hget, Aliases.expandEnum_names hd'⟩
  | function => exact Table.isSome_get?_mapValuesM hf hkind
  | staticItem => exact Table.isSome_get?_mapValuesM hst hkind
  | typeAlias => exact hkind

theorem covers_collect (root : Module) : (collect [] empty root).Covers (root.entries []) := by
  rw [collect_eq_foldl, root.entries_eq_keyed]
  exact (covers_nil empty).foldl_enter _

theorem covers_ofModule {root : Module} {s : Symbols} (h : ofModule root = .ok s) :
    s.Covers (root.entries []) := (covers_collect root).expandAliases h

end Symbols

/-- What the names are bound to is spelled by them, and it is there. -/
theorem Index.binding?_spec {s : Symbols} {index : Index} (h : s.Covers index.entries)
    {names : List String} {b : Binding} (hb : index.binding? names = some b) :
    b.SpelledBy s names ∧ b.Known s := by
  unfold binding? at hb
  split at hb
  · next kind hfind =>
    have hkind := h _ _ hfind
    cases kind with
    | module => cases hb
    | enumType variants =>
      obtain ⟨d, hd, -⟩ := hkind
      cases hb
      exact ⟨rfl, Option.isSome_iff_exists.mpr ⟨d, hd⟩⟩
    | structType | traitItem | function | staticItem | typeAlias =>
      cases hb
      exact ⟨rfl, hkind⟩
  · split at hb
    · contradiction
    · next last hlast =>
      split at hb
      · next variants hfind =>
        obtain ⟨d, hd, hvariants⟩ := h _ _ hfind
        obtain ⟨i, hi, rfl⟩ := Option.map_eq_some_iff.mp hb
        obtain ⟨hlt, hname, -⟩ := List.findIdx?_eq_some_iff_getElem.mp hi
        subst hvariants
        rw [List.length_map] at hlt
        rw [List.getElem_map, beq_iff_eq] at hname
        have hnames : names = names.dropLast ++ [(d.variants[i]).name] :=
          hname ▸ (List.dropLast_append_getLast? _ hlast).symm
        have hkey (hparents : names.dropLast ≠ []) :
            Key.ofNames names = Key.ofNames names.dropLast ++ "::" ++ (d.variants[i]).name := by
          conv_lhs => rw [hnames]
          exact Key.ofNames_concat hparents _
        exact ⟨⟨names.dropLast, d, d.variants[i], hnames, rfl, hkey, hd,
          List.getElem?_eq_getElem hlt⟩, d, hd, hlt⟩
      · contradiction

end BorrowLang
