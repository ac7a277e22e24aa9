import BorrowLang.Proofs.BoundPlaces

/-!
Types, patterns and expressions whose names are bound a second time. Of the paths that the first run
leaves, each is bound to what its names reach from the root, or is a bare name that nothing has where
it stands; so the second run leaves them as they are.
-/
namespace BorrowLang

/-- An absolute path that is bound to what its names reach. -/
structure Path.Indexed (index : Index) (p : Path) : Prop where
  absolute : p.absolute = true
  binding : index.binding? p.names = some p.binding

namespace Names

/-- The path names an item or a type parameter. -/
def Context.Resolves (cx : Context) (p : Path) : Prop :=
  (∃ name, p.bareName? = some name ∧ name ∈ cx.generics) ∨ (cx.find? p).isSome = true

namespace Context
variable {cx : Context}

/-- A bare name that nothing has here. -/
def Unplaced (cx : Context) (p : Path) : Prop :=
  p.bareName?.isSome = true ∧ cx.scope.Leaves p ∧ cx.find? p = none

/-- There is nothing left to bind in the path. -/
def Final (cx : Context) (p : Path) : Prop := p.Indexed cx.index ∨ cx.Unplaced p

/-- An import is known by its last name, and what `Self` stands for means the same everywhere. -/
structure Steady (cx : Context) : Prop where
  imports : ∀ i ∈ cx.imports, i.2.getLast? = some i.1
  selfType : ∀ t ∈ cx.selfType?, ∀ p ∈ t.paths, p.Indexed cx.index

theorem Unplaced.not_resolves {p : Path} (h : cx.Unplaced p) : ¬ cx.Resolves p := by
  obtain ⟨-, hleaves, hfind⟩ := h
  rintro (⟨name, hname, hparam⟩ | hsome)
  · exact (hleaves name hname).1 hparam
  · rw [hfind] at hsome
    contradiction

theorem Steady.withGenerics (h : cx.Steady) (names : List String) : (cx.withGenerics names).Steady :=
  ⟨h.imports, h.selfType⟩

theorem Steady.withSelf (h : cx.Steady) {t : Ty} (ht : ∀ p ∈ t.paths, p.Indexed cx.index) :
    (cx.withSelf t).Steady :=
  ⟨h.imports, fun _ hu => Option.some.inj hu ▸ ht⟩

theorem Steady.enter (h : cx.Steady) (name : String) : (cx.enter name).Steady :=
  ⟨List.forall_mem_nil _, h.selfType⟩

end Context

theorem find?_of_indexed {cx : Context} {p : Path} (h : p.Indexed cx.index) :
    cx.find? p = some ([], p.binding) := by
  simp [Context.find?, Context.findFrom?, h.absolute, h.binding]

theorem absolutize_nil {p : Path} (h : p.absolute = true) : absolutize p [] p.binding = p := by
  obtain ⟨absolute, segments, binding⟩ := p
  obtain rfl : absolute = true := h
  rfl

theorem indexed_absolutize {cx : Context} (h : cx.Steady) {p : Path} {parents : List String}
    {b : Binding} (hf : cx.find? p = some (parents, b)) :
    (absolutize p parents b).Indexed cx.index :=
  ⟨rfl, names_absolutize p parents b ▸ Context.binding?_of_find? h.imports hf⟩

/-! ### Types -/

section
variable {cx : Context}

theorem bindTypePath_of_final (span : Span) {p : Path} (h : cx.Final p) :
    bindTypePath cx span p = .ok (.path p) := by
  rcases h with hp | ⟨hbare, hleaves, hfind⟩
  · have hbare : p.bareName? = none := by
      refine Option.eq_none_iff_forall_ne_some.mpr fun name hname => ?_
      have habsolute := ((Path.bareName?_eq_some_iff p name).mp hname).1
      exact Bool.false_ne_true (habsolute.symm.trans hp.absolute)
    simp only [bindTypePath, hbare, find?_of_indexed hp, absolutize_nil hp.absolute]
  · obtain ⟨name, hname⟩ := Option.isSome_iff_exists.mp hbare
    obtain ⟨hfree, hself⟩ := hleaves name hname
    simp only [bindTypePath, hname, hfind]
    have hparam : ¬ cx.generics.contains name = true := mt List.contains_iff_mem.mp hfree
    rw [if_neg hparam]
    split
    · next t ht hn => exact absurd (ht.symm.trans (hself (beq_iff_eq.mp hn))) nofun
    · rfl

theorem paths_of_bindTypePath (h : cx.Steady) {span : Span} {p : Path} {u : Ty}
    (hu : bindTypePath cx span p = .ok u) : ∀ q ∈ u.paths, q.Indexed cx.index ∨ q ∈ p.argPaths ∨
      q = p ∧ cx.Unplaced p := by
  have hitem {parents : List String} {b : Binding} (hf : cx.find? p = some (parents, b)) :
      ∀ q ∈ (Ty.path (absolutize p parents b)).paths,
        q.Indexed cx.index ∨ q ∈ p.argPaths ∨ q = p ∧ cx.Unplaced p := by
    rw [Ty.paths_path, argPaths_absolutize]
    exact List.forall_mem_cons.mpr ⟨.inl (indexed_absolutize h hf), fun q hq => .inr (.inl hq)⟩
  unfold bindTypePath at hu
  split at hu
  · next name hname =>
    split_ifs at hu with hg
    · cases hu
      exact List.forall_mem_nil _
    · have hfree : name ∉ cx.generics := fun hm => hg (List.contains_iff_mem.mpr hm)
      split at hu
      · next t hself _ =>
        cases hu
        exact fun q hq => .inl (h.selfType _ hself q hq)
      · next hself =>
        split at hu
        · next hf =>
          cases hu
          exact hitem hf
        · next hf =>
          cases hu
          rw [Ty.paths_path]
          refine List.forall_mem_cons.mpr ⟨.inr (.inr ⟨rfl, hname ▸ rfl, ?_, hf⟩),
            fun q hq => .inr (.inl hq)⟩
          intro other hother
          obtain rfl : name = other := Option.some.inj (hname.symm.trans hother)
          refine ⟨hfree, fun hn => Option.eq_none_iff_forall_ne_some.mpr fun t ht => ?_⟩
          exact hself t ht (beq_iff_eq.mpr hn)
  · split at hu
    · next hf =>
      cases hu
      exact hitem hf
    · contradiction

mutual

theorem bindType_of_final (span : Span) : ∀ t : Ty, (∀ p ∈ t.paths, cx.Final p) →
    bindType cx span t = .ok t
  | .path ⟨absolute, segments, binding⟩, h => by
    obtain ⟨hp, hargs⟩ := List.forall_mem_cons.mp h
    rw [bindType, bindSegments_of_final span segments hargs]
    exact bindTypePath_of_final span hp
  | .borrow kind inner, h => by
    rw [bindType, bindType_of_final span inner h]
    rfl
  | .array inner size, h => by
    rw [bindType, bindType_of_final span inner h]
    rfl
  | .tuple items, h => by
    rw [bindType, bindTypes_of_final span items h]
    rfl
  | .wildcard, _ | .unit, _ | .primitive _, _ | .generic _, _ => rfl

theorem bindTypes_of_final (span : Span) : ∀ ts : List Ty, (∀ p ∈ Ty.pathsAll ts, cx.Final p) →
    bindTypes cx span ts = .ok ts
  | [], _ => rfl
  | t :: ts, h => by
    obtain ⟨ht, hts⟩ := List.forall_mem_append.mp h
    rw [bindTypes, bindType_of_final span t ht, bindTypes_of_final span ts hts]
    rfl

theorem bindSegments_of_final (span : Span) : ∀ segments : List Segment,
    (∀ p ∈ Ty.pathsSegments segments, cx.Final p) → bindSegments cx span segments = .ok segments
  | [], _ => rfl
  | ⟨name, args⟩ :: rest, h => by
    obtain ⟨hargs, hrest⟩ := List.forall_mem_append.mp h
    rw [bindSegments, bindTypes_of_final span args hargs, bindSegments_of_final span rest hrest]
    rfl

end

theorem bindTypes_eq_nil {span : Span} {ts : List Ty} (h : bindTypes cx span ts = .ok []) :
    ts = [] := by
  cases ts with
  | nil => rfl
  | cons t ts =>
    simp only [bindTypes, Result.bind_eq_ok, Result.pure_eq_ok] at h
    obtain ⟨_, -, _, -, ⟨⟩⟩ := h

/-- A bare name is none before it is bound. -/
theorem bindSegments_eq_bare {span : Span} {segments : List Segment} {name : String}
    (h : bindSegments cx span segments = .ok [⟨name, []⟩]) : segments = [⟨name, []⟩] := by
  match segments, h with
  | [], h => cases h
  | [⟨n, args⟩], h =>
    simp only [bindSegments, Result.bind_eq_ok, Result.pure_eq_ok] at h
    obtain ⟨found, hargs, _, -, ⟨⟩⟩ := h
    rw [bindTypes_eq_nil hargs]
  | ⟨_, _⟩ :: ⟨_, _⟩ :: _, h =>
    simp only [bindSegments, Result.bind_eq_ok, Result.pure_eq_ok] at h
    obtain ⟨_, -, _, ⟨_, -, _, -, rfl⟩, ⟨⟩⟩ := h

mutual

/-- Where a path is left as it is, it is written so. -/
theorem paths_of_bindType (h : cx.Steady) {span : Span} : ∀ (t : Ty) {u : Ty},
    bindType cx span t = .ok u →
      ∀ q ∈ u.paths, q.Indexed cx.index ∨ q ∈ t.paths ∧ cx.Unplaced q
  | .path ⟨absolute, segments, binding⟩, u, hu => by
    simp only [bindType, Result.bind_eq_ok] at hu
    obtain ⟨bound, hs, hu⟩ := hu
    intro q hq
    rcases paths_of_bindTypePath h hu q hq with hindexed | hargs | ⟨rfl, hunplaced⟩
    · exact .inl hindexed
    · refine (paths_of_bindSegments h segments hs q hargs).imp_right fun hq => ?_
      exact ⟨.tail _ hq.1, hq.2⟩
    · obtain ⟨name, hname⟩ := Option.isSome_iff_exists.mp hunplaced.1
      obtain rfl : bound = [⟨name, []⟩] := ((Path.bareName?_eq_some_iff _ name).mp hname).2
      rw [bindSegments_eq_bare hs]
      exact .inr ⟨.head _, hunplaced⟩
  | .borrow kind inner, u, hu => by
    simp only [bindType, Result.bind_eq_ok, Result.pure_eq_ok] at hu
    obtain ⟨bound, hi, rfl⟩ := hu
    exact fun q hq => paths_of_bindType h inner hi q hq
  | .array inner size, u, hu => by
    simp only [bindType, Result.bind_eq_ok, Result.pure_eq_ok] at hu
    obtain ⟨bound, hi, rfl⟩ := hu
    exact fun q hq => paths_of_bindType h inner hi q hq
  | .tuple items, u, hu => by
    simp only [bindType, Result.bind_eq_ok, Result.pure_eq_ok] at hu
    obtain ⟨bound, hi, rfl⟩ := hu
    exact paths_of_bindTypes h items hi
  | .wildcard, u, hu | .unit, u, hu | .primitive _, u, hu | .generic _, u, hu => by
    cases hu
    exact List.forall_mem_nil _

theorem paths_of_bindTypes (h : cx.Steady) {span : Span} : ∀ (ts : List Ty) {us : List Ty},
    bindTypes cx span ts = .ok us →
      ∀ q ∈ Ty.pathsAll us, q.Indexed cx.index ∨ q ∈ Ty.pathsAll ts ∧ cx.Unplaced q
  | [], us, hus => by
    cases hus
    exact List.forall_mem_nil _
  | t :: ts, us, hus => by
    simp only [bindTypes, Result.bind_eq_ok, Result.pure_eq_ok] at hus
    obtain ⟨u, hu, us, hus, rfl⟩ := hus
    refine List.forall_mem_append.mpr ⟨fun q hq => ?_, fun q hq => ?_⟩
    · exact (paths_of_bindType h t hu q hq).imp_right
        fun hq => ⟨List.mem_append_left _ hq.1, hq.2⟩
    · exact (paths_of_bindTypes h ts hus q hq).imp_right
        fun hq => ⟨List.mem_append_right _ hq.1, hq.2⟩

theorem paths_of_bindSegments (h : cx.Steady) {span : Span} : ∀ (segments : List Segment)
    {bound : List Segment}, bindSegments cx span segments = .ok bound →
      ∀ q ∈ Ty.pathsSegments bound,
        q.Indexed cx.index ∨ q ∈ Ty.pathsSegments segments ∧ cx.Unplaced q
  | [], bound, hb => by
    cases hb
    exact List.forall_mem_nil _
  | ⟨name, args⟩ :: rest, bound, hb => by
    simp only [bindSegments, Result.bind_eq_ok, Result.pure_eq_ok] at hb
    obtain ⟨found, hf, others, ho, rfl⟩ := hb
    refine List.forall_mem_append.mpr ⟨fun q hq => ?_, fun q hq => ?_⟩
    · exact (paths_of_bindTypes h args hf q hq).imp_right
        fun hq => ⟨List.mem_append_left _ hq.1, hq.2⟩
    · exact (paths_of_bindSegments h rest ho q hq).imp_right
        fun hq => ⟨List.mem_append_right _ hq.1, hq.2⟩

end

theorem bindPath_of_indexed (span : Span) {p : Path} (hp : p.Indexed cx.index)
    (hargs : ∀ q ∈ p.argPaths, cx.Final q) : bindPath cx span p = .ok p := by
  obtain ⟨absolute, segments, binding⟩ := p
  simp only [bindPath, bindSegments_of_final span segments hargs, bind, Except.bind,
    find?_of_indexed hp]
  exact congrArg Except.ok (absolutize_nil hp.absolute)

variable (h : cx.Steady) {span : Span}
include h

theorem bindType_again {t u : Ty} (hu : bindType cx span t = .ok u) :
    bindType cx span u = .ok u :=
  bindType_of_final span u fun q hq => (paths_of_bindType h t hu q hq).imp_right (·.2)

theorem bindTypes_again {ts us : List Ty} (hus : bindTypes cx span ts = .ok us) :
    bindTypes cx span us = .ok us :=
  bindTypes_of_final span us fun q hq => (paths_of_bindTypes h ts hus q hq).imp_right (·.2)

/-- A type whose paths all resolve means the same everywhere once it is bound. -/
theorem indexed_of_bindType {t u : Ty} (ht : ∀ p ∈ t.paths, cx.Resolves p)
    (hu : bindType cx span t = .ok u) : ∀ q ∈ u.paths, q.Indexed cx.index := fun q hq =>
  (paths_of_bindType h t hu q hq).resolve_right fun hq => hq.2.not_resolves (ht q hq.1)

theorem indexed_of_bindPath {p q : Path} (hq : bindPath cx span p = .ok q) :
    q.Indexed cx.index ∧ ∀ r ∈ q.argPaths, cx.Final r := by
  simp only [bindPath, Result.bind_eq_ok] at hq
  obtain ⟨bound, hs, hq⟩ := hq
  split at hq
  · next hf =>
    obtain rfl := Except.ok.inj hq
    refine ⟨indexed_absolutize h hf, fun r hr => ?_⟩
    rw [argPaths_absolutize] at hr
    exact (paths_of_bindSegments h _ hs r hr).imp_right (·.2)
  · contradiction

theorem bindPath_again {p q : Path} (hq : bindPath cx span p = .ok q) :
    bindPath cx span q = .ok q :=
  have hbound := indexed_of_bindPath h hq
  bindPath_of_indexed span hbound.1 hbound.2

theorem bindNamed_again {p q : Path} (hq : bindNamed cx span p = .ok q) :
    bindNamed cx span q = .ok q := by
  unfold bindNamed at hq
  split_ifs at hq with hitem
  · have hbound := bindPath_again h hq
    rw [bindNamed, if_pos, hbound]
    rw [(indexed_of_bindPath h hq).1.absolute, Bool.true_or]
  · obtain rfl := Except.ok.inj hq
    exact if_neg hitem

end

/-! ### Patterns and expressions -/

theorem mapM_again {α : Type} {f : α → Result α} {as bs : List α}
    (hf : ∀ a b, f a = .ok b → f b = .ok b) (h : as.mapM f = .ok bs) : bs.mapM f = .ok bs := by
  rw [Result.mapM_eq_ok] at h ⊢
  induction h with
  | nil => exact .nil
  | cons hab _ ih => exact .cons (hf _ _ hab) ih

theorem optionMapM_again {α : Type} {f : α → Result α} {o o' : Option α}
    (hf : ∀ a b, f a = .ok b → f b = .ok b) (h : o.mapM f = .ok o') : o'.mapM f = .ok o' := by
  cases o with
  | none =>
    cases h
    rfl
  | some a =>
    simp only [Option.mapM_some, Result.map_eq_ok] at h
    obtain ⟨b, hb, rfl⟩ := h
    rw [Option.mapM_some, hf a b hb]
    rfl

section
variable {cx : Context}

mutual

theorem bindPattern_again (h : cx.Steady) : ∀ (p : Pattern) {q : Pattern},
    bindPattern cx p = .ok q → bindPattern cx q = .ok q
  | .wildcard _, q, hq | .identifier .., q, hq | .literal .., q, hq => by
    cases hq
    rfl
  | .tuple items span, q, hq => by
    simp only [bindPattern, Result.bind_eq_ok, Result.pure_eq_ok] at hq
    obtain ⟨items', hi, rfl⟩ := hq
    rw [bindPattern, bindPatterns_again h items hi]
    rfl
  | .reference inner span, q, hq => by
    simp only [bindPattern, Result.bind_eq_ok, Result.pure_eq_ok] at hq
    obtain ⟨inner', hi, rfl⟩ := hq
    rw [bindPattern, bindPattern_again h inner hi]
    rfl
  | .variant path items span, q, hq => by
    simp only [bindPattern, Result.bind_eq_ok, Result.pure_eq_ok] at hq
    obtain ⟨path', hp, items', hi, rfl⟩ := hq
    rw [bindPattern, bindPath_again h hp, bindPatterns_again h items hi]
    rfl
  | .fields path fields span, q, hq => by
    simp only [bindPattern, Result.bind_eq_ok, Result.pure_eq_ok] at hq
    obtain ⟨path', hp, fields', hf, rfl⟩ := hq
    rw [bindPattern, bindPath_again h hp, bindFieldPatterns_again h fields hf]
    rfl

theorem bindPatterns_again (h : cx.Steady) : ∀ (ps : List Pattern) {qs : List Pattern},
    bindPatterns cx ps = .ok qs → bindPatterns cx qs = .ok qs
  | [], qs, hqs => by
    cases hqs
    rfl
  | p :: ps, qs, hqs => by
    simp only [bindPatterns, Result.bind_eq_ok, Result.pure_eq_ok] at hqs
    obtain ⟨q, hq, qs, hqs, rfl⟩ := hqs
    rw [bindPatterns, bindPattern_again h p hq, bindPatterns_again h ps hqs]
    rfl

theorem bindFieldPatterns_again (h : cx.Steady) : ∀ (fields : List (String × Pattern))
    {bound : List (String × Pattern)}, bindFieldPatterns cx fields = .ok bound →
      bindFieldPatterns cx bound = .ok bound
  | [], bound, hb => by
    cases hb
    rfl
  | (name, p) :: rest, bound, hb => by
    simp only [bindFieldPatterns, Result.bind_eq_ok, Result.pure_eq_ok] at hb
    obtain ⟨q, hq, others, ho, rfl⟩ := hb
    rw [bindFieldPatterns, bindPattern_again h p hq, bindFieldPatterns_again h rest ho]
    rfl

end

theorem bindAliases_again (h : cx.Steady) {span : Span} {aliases bound : List (String × Ty)}
    (hb : bindAliases cx span aliases = .ok bound) : bindAliases cx span bound = .ok bound := by
  refine mapM_again (fun a b hab => ?_) hb
  simp only [Result.bind_eq_ok, Result.pure_eq_ok] at hab
  obtain ⟨t, ht, rfl⟩ := hab
  simp only [bindType_again h ht]
  rfl

mutual

theorem bindExpr_again (h : cx.Steady) : ∀ (e : Expr) {e' : Expr}, bindExpr cx e = .ok e' →
    bindExpr cx e' = .ok e'
  | ⟨kind, type, span⟩, e', he => by
    simp only [bindExpr, Result.bind_eq_ok, Result.pure_eq_ok] at he
    obtain ⟨kind', hk, rfl⟩ := he
    rw [bindExpr, bindKind_again h kind hk]
    rfl

theorem bindKind_again (h : cx.Steady) {span : Span} : ∀ (kind : ExprKind) {bound : ExprKind},
    bindKind cx span kind = .ok bound → bindKind cx span bound = .ok bound
  | .block ⟨statements, tail, traits, aliases⟩, bound, hb => by
    simp only [bindKind, Result.bind_eq_ok, Result.pure_eq_ok] at hb
    obtain ⟨traits', ht, aliases', ha, statements', hs, tail', hl, rfl⟩ := hb
    rw [bindKind, mapM_again (fun _ _ => bindPath_again h) ht, bindAliases_again h ha,
      bindExprs_again h statements hs, bindOption_again h tail hl]
    rfl
  | .letIn pattern type value, bound, hb => by
    simp only [bindKind, Result.bind_eq_ok, Result.pure_eq_ok] at hb
    obtain ⟨type', ht, pattern', hp, value', hv, rfl⟩ := hb
    rw [bindKind, bindType_again h ht, bindPattern_again h pattern hp, bindExpr_again h value hv]
    rfl
  | .assign place value, bound, hb => by
    simp only [bindKind, Result.bind_eq_ok, Result.pure_eq_ok] at hb
    obtain ⟨place', hp, value', hv, rfl⟩ := hb
    rw [bindKind, bindExpr_again h place hp, bindExpr_again h value hv]
    rfl
  | .ret value, bound, hb => by
    simp only [bindKind, Result.bind_eq_ok, Result.pure_eq_ok] at hb
    obtain ⟨value', hv, rfl⟩ := hb
    rw [bindKind, bindOption_again h value hv]
    rfl
  | .cond condition thenBranch elseBranch, bound, hb => by
    simp only [bindKind, Result.bind_eq_ok, Result.pure_eq_ok] at hb
    obtain ⟨condition', hc, thenBranch', ht, elseBranch', he, rfl⟩ := hb
    rw [bindKind, bindExpr_again h condition hc, bindExpr_again h thenBranch ht,
      bindOption_again h elseBranch he]
    rfl
  | .matchOn value arms, bound, hb => by
    simp only [bindKind, Result.bind_eq_ok, Result.pure_eq_ok] at hb
    obtain ⟨value', hv, arms', ha, rfl⟩ := hb
    rw [bindKind, bindExpr_again h value hv, bindArms_again h arms ha]
    rfl
  | .callPath path args, bound, hb => by
    simp only [bindKind, Result.bind_eq_ok, Result.pure_eq_ok] at hb
    obtain ⟨path', hp, args', ha, rfl⟩ := hb
    rw [bindKind, bindPath_again h hp, bindExprs_again h args ha]
    rfl
  | .callMethod receiver ⟨name, types⟩ args, bound, hb => by
    simp only [bindKind, Result.bind_eq_ok, Result.pure_eq_ok] at hb
    obtain ⟨types', ht, receiver', hr, args', ha, rfl⟩ := hb
    rw [bindKind, bindTypes_again h ht, bindExpr_again h receiver hr, bindExprs_again h args ha]
    rfl
  | .callValue callee args, bound, hb => by
    simp only [bindKind, Result.bind_eq_ok, Result.pure_eq_ok] at hb
    obtain ⟨callee', hc, args', ha, rfl⟩ := hb
    rw [bindKind, bindExpr_again h callee hc, bindExprs_again h args ha]
    rfl
  | .named path, bound, hb => by
    simp only [bindKind, Result.bind_eq_ok, Result.pure_eq_ok] at hb
    obtain ⟨path', hp, rfl⟩ := hb
    rw [bindKind, bindNamed_again h hp]
    rfl
  | .field object name, bound, hb => by
    simp only [bindKind, Result.bind_eq_ok, Result.pure_eq_ok] at hb
    obtain ⟨object', ho, rfl⟩ := hb
    rw [bindKind, bindExpr_again h object ho]
    rfl
  | .index value index, bound, hb => by
    simp only [bindKind, Result.bind_eq_ok, Result.pure_eq_ok] at hb
    obtain ⟨value', hv, index', hi, rfl⟩ := hb
    rw [bindKind, bindExpr_again h value hv, bindExpr_again h index hi]
    rfl
  | .deref value, bound, hb | .borrow kind value, bound, hb => by
    simp only [bindKind, Result.bind_eq_ok, Result.pure_eq_ok] at hb
    obtain ⟨value', hv, rfl⟩ := hb
    rw [bindKind, bindExpr_again h value hv]
    rfl
  | .cast value target, bound, hb => by
    simp only [bindKind, Result.bind_eq_ok, Result.pure_eq_ok] at hb
    obtain ⟨target', ht, value', hv, rfl⟩ := hb
    rw [bindKind, bindType_again h ht, bindExpr_again h value hv]
    rfl
  | .tuple items, bound, hb => by
    simp only [bindKind, Result.bind_eq_ok, Result.pure_eq_ok] at hb
    obtain ⟨items', hi, rfl⟩ := hb
    rw [bindKind, bindExprs_again h items hi]
    rfl
  | .literal value, bound, hb => by
    cases hb
    rfl
  | .binary op left right, bound, hb => by
    simp only [bindKind, Result.bind_eq_ok, Result.pure_eq_ok] at hb
    obtain ⟨left', hl, right', hr, rfl⟩ := hb
    rw [bindKind, bindExpr_again h left hl, bindExpr_again h right hr]
    rfl

theorem bindOption_again (h : cx.Steady) : ∀ (e : Option Expr) {e' : Option Expr},
    bindOption cx e = .ok e' → bindOption cx e' = .ok e'
  | none, e', he => by
    cases he
    rfl
  | some e, e', he => by
    simp only [bindOption, Result.bind_eq_ok, Result.pure_eq_ok] at he
    obtain ⟨bound, hb, rfl⟩ := he
    rw [bindOption, bindExpr_again h e hb]
    rfl

theorem bindExprs_again (h : cx.Steady) : ∀ (es : List Expr) {es' : List Expr},
    bindExprs cx es = .ok es' → bindExprs cx es' = .ok es'
  | [], es', hes => by
    cases hes
    rfl
  | e :: es, es', hes => by
    simp only [bindExprs, Result.bind_eq_ok, Result.pure_eq_ok] at hes
    obtain ⟨e', he, es', hes, rfl⟩ := hes
    rw [bindExprs, bindExpr_again h e he, bindExprs_again h es hes]
    rfl

theorem bindArms_again (h : cx.Steady) : ∀ (arms : List Arm) {arms' : List Arm},
    bindArms cx arms = .ok arms' → bindArms cx arms' = .ok arms'
  | [], arms', ha => by
    cases ha
    rfl
  | ⟨patterns, guard, code⟩ :: rest, arms', ha => by
    simp only [bindArms, Result.bind_eq_ok, Result.pure_eq_ok] at ha
    obtain ⟨patterns', hp, guard', hg, code', hc, rest', hr, rfl⟩ := ha
    rw [bindArms, bindPatterns_again h patterns hp, bindOption_again h guard hg,
      bindExpr_again h code hc, bindArms_again h rest hr]
    rfl

end

end

end Names
end BorrowLang
