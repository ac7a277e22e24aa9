import BorrowLang.Proofs.KnownSymbols

/-! The expansion of aliases fails on chains that are longer than its limit and on nothing else,
and what it gives holds no alias. -/
namespace BorrowLang

def Binding.NotAlias (b : Binding) : Prop := ∀ key, b ≠ .typeAlias key

namespace Ty

/-- The alias occurs in the type, at any depth. -/
def Mentions (t : Ty) (key : Key) : Prop := ∃ p ∈ t.paths, p.binding = .typeAlias key

abbrev AliasFree (t : Ty) : Prop := t.AllBindings Binding.NotAlias

theorem mentions_iff_not_allBindings {t : Ty} {key : Key} :
    t.Mentions key ↔ ¬ t.AllBindings (· ≠ .typeAlias key) := by
  simp [Mentions, AllBindings]

theorem mentions_tuple {items : List Ty} {key : Key} :
    (tuple items).Mentions key ↔ ∃ t ∈ items, t.Mentions key := by
  simp only [mentions_iff_not_allBindings, allBindings_tuple]
  grind

theorem mentions_path {p : Path} {key : Key} : (path p).Mentions key ↔
    p.binding = .typeAlias key ∨ ∃ s ∈ p.segments, ∃ t ∈ s.args, t.Mentions key := by
  simp only [mentions_iff_not_allBindings, allBindings_path, SegmentsBindings]
  grind

/-! ### Parameters of an alias -/

section
variable {P : Binding → Prop} {s : Substitution}

mutual

/-- A substitution leaves every path of the type in place. -/
theorem AllBindings.of_substitute : ∀ {t : Ty}, (t.substitute s).AllBindings P → t.AllBindings P
  | .generic _, _ => allBindings_generic _
  | .borrow _ inner, h => AllBindings.of_substitute (t := inner) h
  | .array inner _, h => AllBindings.of_substitute (t := inner) h
  | .path ⟨_, _, _⟩, h => by
    obtain ⟨hb, hs⟩ := allBindings_path.mp h
    exact allBindings_path.mpr ⟨hb, segmentsBindings_of_substitute hs⟩
  | .tuple _, h =>
    allBindings_tuple.mpr (allBindings_of_substituteAll (allBindings_tuple.mp h))
  | .wildcard, _ => allBindings_wildcard
  | .unit, _ => allBindings_unit
  | .primitive _, _ => allBindings_primitive _

theorem allBindings_of_substituteAll : ∀ {ts : List Ty},
    (∀ t ∈ substituteAll s ts, t.AllBindings P) → ∀ t ∈ ts, t.AllBindings P
  | [], _ => List.forall_mem_nil _
  | _ :: _, h => by
    obtain ⟨ht, hts⟩ := List.forall_mem_cons.mp h
    exact List.forall_mem_cons.mpr
      ⟨AllBindings.of_substitute ht, allBindings_of_substituteAll hts⟩

theorem segmentsBindings_of_substitute : ∀ {segments : List Segment},
    SegmentsBindings P (substituteSegments s segments) → SegmentsBindings P segments
  | [], _ => segmentsBindings_nil
  | ⟨_, _⟩ :: _, h => by
    obtain ⟨hargs, hrest⟩ := segmentsBindings_cons.mp h
    exact segmentsBindings_cons.mpr
      ⟨allBindings_of_substituteAll hargs, segmentsBindings_of_substitute hrest⟩

end

/-- Arguments without aliases bring no alias into a type. -/
theorem mentions_substitute (hs : ∀ e ∈ s, e.2.AliasFree) {t : Ty} {key : Key} :
    (t.substitute s).Mentions key ↔ t.Mentions key := by
  have hs' : ∀ e ∈ s, e.2.AllBindings (· ≠ .typeAlias key) := fun e he p hp => hs e he p hp key
  rw [mentions_iff_not_allBindings, mentions_iff_not_allBindings, not_iff_not]
  exact ⟨AllBindings.of_substitute, AllBindings.substitute hs'⟩

end

/-! ### A type without aliases -/

mutual

theorem AliasFree.expandWith (unfold : Key → List Ty → Result Ty) :
    ∀ {t : Ty}, t.AliasFree → t.expandWith unfold = .ok t
  | .path ⟨absolute, segments, binding⟩, h => by
    obtain ⟨hb, hs⟩ := allBindings_path.mp h
    rw [Ty.expandWith, expandSegmentsWith_of_aliasFree unfold hs]
    cases binding with
    | typeAlias key => exact absurd rfl (hb key)
    | _ => rfl
  | .borrow _ inner, h => by rw [Ty.expandWith, AliasFree.expandWith unfold (t := inner) h]; rfl
  | .array inner _, h => by rw [Ty.expandWith, AliasFree.expandWith unfold (t := inner) h]; rfl
  | .tuple _, h => by
    rw [Ty.expandWith, expandAllWith_of_aliasFree unfold (allBindings_tuple.mp h)]
    rfl
  | .wildcard, _ | .unit, _ | .primitive _, _ | .generic _, _ => rfl

theorem expandAllWith_of_aliasFree (unfold : Key → List Ty → Result Ty) :
    ∀ {ts : List Ty}, (∀ t ∈ ts, t.AliasFree) → expandAllWith unfold ts = .ok ts
  | [], _ => rfl
  | _ :: _, h => by
    obtain ⟨ht, hts⟩ := List.forall_mem_cons.mp h
    rw [expandAllWith, AliasFree.expandWith unfold ht, expandAllWith_of_aliasFree unfold hts]
    rfl

theorem expandSegmentsWith_of_aliasFree (unfold : Key → List Ty → Result Ty) :
    ∀ {segments : List Segment}, SegmentsBindings Binding.NotAlias segments →
      expandSegmentsWith unfold segments = .ok segments
  | [], _ => rfl
  | ⟨_, _⟩ :: _, h => by
    obtain ⟨hargs, hrest⟩ := segmentsBindings_cons.mp h
    rw [expandSegmentsWith, expandAllWith_of_aliasFree unfold hargs,
      expandSegmentsWith_of_aliasFree unfold hrest]
    rfl

end

end Ty

/-! ### What decides an expansion -/

namespace Result
variable {α β : Type} {names names' good good' : Key → Prop} {bad bad' : Key → Error → Prop}
  {Q : α → Prop} {R : β → Prop}

/-- A value of the kind, and all the aliases named are good; or the error of one that is bad. -/
def Depends (names good : Key → Prop) (bad : Key → Error → Prop) (Q : α → Prop) : Result α → Prop
  | .ok a => Q a ∧ ∀ key, names key → good key
  | .error e => ∃ key, names key ∧ bad key e

theorem depends_pure {a : α} (h : Q a) : Depends (fun _ => False) good bad Q (pure a) :=
  ⟨h, fun _ => False.elim⟩

theorem Depends.imp {x : Result α} (h : x.Depends names good bad Q)
    (hgood : (∀ key, names key → good key) → ∀ key, names' key → good' key)
    (hbad : ∀ key e, names key → bad key e → ∃ key', names' key' ∧ bad' key' e) :
    x.Depends names' good' bad' Q := by
  cases x with
  | error e =>
    obtain ⟨key, hkey, he⟩ := h
    exact hbad key e hkey he
  | ok a => exact h.imp_right hgood

theorem Depends.bind {x : Result α} {f : α → Result β} {all : Key → Prop}
    (h : x.Depends names good bad Q) (hf : ∀ a, Q a → (f a).Depends names' good bad R)
    (hall : ∀ key, all key ↔ names key ∨ names' key) : (x >>= f).Depends all good bad R := by
  cases x with
  | error e =>
    obtain ⟨key, hkey, hbad⟩ := h
    exact ⟨key, (hall key).mpr (.inl hkey), hbad⟩
  | ok a =>
    obtain ⟨ha, hgood⟩ := h
    have hfa := hf a ha
    change (f a).Depends all good bad R
    cases hb : f a with
    | error e =>
      rw [hb] at hfa
      obtain ⟨key, hkey, hbad⟩ := hfa
      exact ⟨key, (hall key).mpr (.inr hkey), hbad⟩
    | ok b =>
      rw [hb] at hfa
      exact ⟨hfa.1, fun key hkey => ((hall key).mp hkey).elim (hgood key) (hfa.2 key)⟩

theorem Depends.map {x : Result α} {f : α → β} (h : x.Depends names good bad Q)
    (hf : ∀ a, Q a → R (f a)) : (x >>= fun a => pure (f a)).Depends names good bad R :=
  h.bind (fun a ha => depends_pure (hf a ha)) fun _ => (or_iff_left id).symm

end Result

namespace Ty
variable {stored good : Key → Prop} {bad : Key → Error → Prop} {unfold : Key → List Ty → Result Ty}
open Result

/-- What becomes of an alias that is there depends on the alias alone, not on its arguments. -/
def Judges (stored good : Key → Prop) (bad : Key → Error → Prop)
    (unfold : Key → List Ty → Result Ty) : Prop :=
  ∀ key args, stored key → (∀ t ∈ args, t.AliasFree) →
    (unfold key args).Depends (· = key) good bad AliasFree

mutual

theorem depends_expandWith (hu : Judges stored good bad unfold) : ∀ {t : Ty},
    (∀ key, t.Mentions key → stored key) →
      (t.expandWith unfold).Depends t.Mentions good bad AliasFree
  | .path ⟨absolute, segments, binding⟩, h => by
    have hsegments := depends_expandSegmentsWith hu fun key hkey =>
      h key (mentions_path.mpr (.inr hkey))
    cases binding with
    | typeAlias key =>
      refine hsegments.bind (fun found hf => hu key _ (h key (mentions_path.mpr (.inl rfl)))
        (Path.lastArgs_allBindings hf)) fun k => ?_
      rw [mentions_path, or_comm, Binding.typeAlias.injEq, eq_comm]
    | _ =>
      refine hsegments.bind (fun found hf => depends_pure (allBindings_path.mpr ⟨nofun, hf⟩))
        fun k => ?_
      rw [mentions_path, or_comm]
      exact or_congr_right ⟨nofun, False.elim⟩
  | .borrow _ inner, h => (depends_expandWith hu (t := inner) h).map fun _ => allBindings_borrow.mpr
  | .array inner _, h => (depends_expandWith hu (t := inner) h).map fun _ => allBindings_array.mpr
  | .tuple items, h => by
    have hitems := depends_expandAllWith hu fun key hkey => h key (mentions_tuple.mpr hkey)
    refine hitems.bind (fun found hf => depends_pure (allBindings_tuple.mpr hf)) fun k => ?_
    rw [mentions_tuple, or_iff_left id]
  | .wildcard, _ => ⟨allBindings_wildcard, fun _ ⟨_, hp, _⟩ => nomatch hp⟩
  | .unit, _ => ⟨allBindings_unit, fun _ ⟨_, hp, _⟩ => nomatch hp⟩
  | .primitive _, _ => ⟨allBindings_primitive _, fun _ ⟨_, hp, _⟩ => nomatch hp⟩
  | .generic _, _ => ⟨allBindings_generic _, fun _ ⟨_, hp, _⟩ => nomatch hp⟩

theorem depends_expandAllWith (hu : Judges stored good bad unfold) : ∀ {ts : List Ty},
    (∀ key, (∃ t ∈ ts, t.Mentions key) → stored key) →
      (expandAllWith unfold ts).Depends (fun key => ∃ t ∈ ts, t.Mentions key) good bad
        fun us => ∀ u ∈ us, u.AliasFree
  | [], _ => ⟨List.forall_mem_nil _, fun _ ⟨_, ht, _⟩ => nomatch ht⟩
  | t :: ts, h => by
    have ht := depends_expandWith hu fun key hkey => h key ⟨t, .head _, hkey⟩
    have hts := depends_expandAllWith hu fun key ⟨u, hu, hkey⟩ => h key ⟨u, .tail _ hu, hkey⟩
    exact ht.bind (fun u hu => hts.map fun us hus => List.forall_mem_cons.mpr ⟨hu, hus⟩)
      fun _ => List.exists_mem_cons_iff ..

theorem depends_expandSegmentsWith (hu : Judges stored good bad unfold) :
    ∀ {segments : List Segment}, (∀ key, (∃ s ∈ segments, ∃ t ∈ s.args, t.Mentions key) → stored key) →
      (expandSegmentsWith unfold segments).Depends
        (fun key => ∃ s ∈ segments, ∃ t ∈ s.args, t.Mentions key) good bad
        (SegmentsBindings Binding.NotAlias)
  | [], _ => ⟨segmentsBindings_nil, fun _ ⟨_, hs, _⟩ => nomatch hs⟩
  | ⟨name, args⟩ :: rest, h => by
    have hargs := depends_expandAllWith hu fun key hkey => h key ⟨⟨name, args⟩, .head _, hkey⟩
    have hrest := depends_expandSegmentsWith hu fun key ⟨s, hs, hkey⟩ => h key ⟨s, .tail _ hs, hkey⟩
    exact hargs.bind (fun ts hts => hrest.map fun _ hs => segmentsBindings_cons.mpr ⟨hts, hs⟩)
      fun _ => List.exists_mem_cons_iff ..

end

end Ty

namespace Aliases
variable (aliases : Aliases)

/-- Aliases that are there, the first in the type and each one in the target of the one before. -/
def Chain : Ty → List Key → Prop
  | _, [] => True
  | t, key :: keys => t.Mentions key ∧ ∃ d, aliases.get? key = some d ∧ Chain d.type keys

/-- The aliases that occur in the type are there. -/
def Stores (t : Ty) : Prop := ∀ key, t.Mentions key → (aliases.get? key).isSome

/-- The aliases that occur in the targets of aliases are there. -/
def Closed : Prop := ∀ key d, aliases.get? key = some d → aliases.Stores d.type

/-- Chains of `n + 1` aliases start at the alias. -/
def Leads (n : Nat) (key : Key) (keys : List Key) : Prop :=
  keys.length = n ∧ ∃ d, aliases.get? key = some d ∧ aliases.Chain d.type keys

/-- What is said of the last alias of a chain that is too long. -/
def circular (key : Key) (span : Span) : Error :=
  .unsupported ("recursive type alias `" ++ key ++ "`") span

variable {aliases}

/-- An alias that occurs in its own target starts chains of every length. -/
theorem chain_replicate {key : Key} {d : AliasDef} (hd : aliases.get? key = some d)
    (hself : d.type.Mentions key) (n : Nat) {t : Ty} (ht : t.Mentions key) :
    aliases.Chain t (List.replicate n key) := by
  induction n generalizing t with
  | zero => trivial
  | succ n ih => exact ⟨ht, d, hd, ih hself⟩

/-- Whether an alias can be unfolded within `n` further aliases is decided by the chains that start
at it. -/
theorem depends_expandAt (hclosed : aliases.Closed) (span : Span) (n : Nat) {t : Ty}
    (ht : aliases.Stores t) : (aliases.expandAt span n t).Depends t.Mentions
      (fun key => ¬ ∃ keys, aliases.Leads n key keys)
      (fun key e => ∃ keys, aliases.Leads n key keys ∧ e = circular (keys.getLastD key) span)
      Ty.AliasFree := by
  induction n generalizing t with
  | zero =>
    refine Ty.depends_expandWith (fun key args hkey _ => ?_) ht
    obtain ⟨d, hd⟩ := Option.isSome_iff_exists.mp hkey
    exact ⟨key, rfl, [], ⟨rfl, d, hd, trivial⟩, rfl⟩
  | succ n ih =>
    refine Ty.depends_expandWith (fun key args hkey hargs => ?_) ht
    obtain ⟨d, hd⟩ := Option.isSome_iff_exists.mp hkey
    -- The arguments hold no alias, so the chains go on from the target as it is written.
    have hmentions (k : Key) : (d.type.substitute (.ofArgs d.params.names args)).Mentions k ↔
        d.type.Mentions k := Ty.mentions_substitute (Substitution.allBindings_ofArgs _ hargs)
    rw [Table.find_eq_ok.mpr hd]
    refine (ih fun k hk => hclosed key d hd k ((hmentions k).mp hk)).imp ?_ ?_
    · rintro hgood _ rfl ⟨keys, hlength, d', hd', hchain⟩
      cases Option.some.inj (hd.symm.trans hd')
      cases keys with
      | nil => contradiction
      | cons k keys =>
        obtain ⟨hk, hnext⟩ := hchain
        exact hgood k ((hmentions k).mpr hk) ⟨keys, Nat.succ.inj hlength, hnext⟩
    · rintro k _ hk ⟨keys, ⟨hlength, hnext⟩, rfl⟩
      refine ⟨key, rfl, k :: keys, ⟨congrArg (· + 1) hlength, d, hd, (hmentions k).mp hk, hnext⟩, ?_⟩
      rw [List.getLastD_cons]

/-- Whatever the table, an expansion leaves no alias or fails for one that is not there or comes too
late. -/
theorem depends_expandAt_any (aliases : Aliases) (span : Span) (n : Nat) (t : Ty) :
    (aliases.expandAt span n t).Depends t.Mentions (fun _ => True)
      (fun _ e => ∃ key, e = .unresolvedName .item key span ∨ e = circular key span)
      Ty.AliasFree := by
  have hany : ∀ key, t.Mentions key → True := fun _ _ => trivial
  induction n generalizing t with
  | zero =>
    refine Ty.depends_expandWith ?_ hany
    exact fun key _ _ _ => ⟨key, rfl, key, .inr rfl⟩
  | succ n ih =>
    refine Ty.depends_expandWith ?_ hany
    intro key args _ _
    have hfind : (aliases.find key span).Depends (· = key) (fun _ => True)
        (fun _ e => ∃ key, e = .unresolvedName .item key span ∨ e = circular key span)
        fun _ => True := by
      unfold Table.find
      split
      · exact ⟨trivial, fun _ _ => trivial⟩
      · exact ⟨key, rfl, key, .inl rfl⟩
    refine hfind.bind (fun d _ => ?_) fun _ => (or_self_iff).symm
    refine (ih _ fun _ _ => trivial).imp (fun _ _ _ => trivial) fun _ e _ he => ?_
    exact ⟨key, rfl, he⟩

theorem aliasFree_of_expand {span : Span} {t u : Ty} (h : aliases.expand span t = .ok u) :
    u.AliasFree := by
  have hrun := depends_expandAt_any aliases span depthLimit t
  rw [expand] at h
  rw [h] at hrun
  exact hrun.1

theorem error_of_expand {span : Span} {t : Ty} {e : Error} (h : aliases.expand span t = .error e) :
    ∃ key, e = .unresolvedName .item key span ∨ e = circular key span := by
  have hrun := depends_expandAt_any aliases span depthLimit t
  rw [expand] at h
  rw [h] at hrun
  obtain ⟨_, _, he⟩ := hrun
  exact he

end Aliases

theorem Phrase.ofType_true (a : Phrase) : a.OfType fun _ => True := by
  cases a <;> trivial

theorem Symbols.types_aliasFree {root : Module} {s : Symbols} (h : ofModule root = .ok s) :
    s.Types Ty.AliasFree := by
  have hplaces : ∀ pl ∈ root.places, pl.OfType fun _ _ => True := fun pl _ => pl.phrase.ofType_true
  have hcollected : (collect [] empty root).TypesIn fun _ _ => True :=
    (collect_types root hplaces ⟨types_empty, nofun⟩).1
  exact Types.expandAliases (types_iff.mpr hcollected)
    (fun _ _ _ _ => Aliases.aliasFree_of_expand) h

/-- Types are refused for a chain of 65 aliases and for nothing else, and lose all their aliases
otherwise; no type among the symbols of a program has an alias left. -/
theorem Aliases.expand_chains_and_symbols_aliasFree :
    (∀ (aliases : Aliases) (span : Span) (t : Ty), aliases.Stores t → aliases.Closed →
      ((∃ e, aliases.expand span t = .error e) ↔
        ∃ keys : List Key, keys.length = 65 ∧ aliases.Chain t keys) ∧
      (∀ e, aliases.expand span t = .error e → ∃ keys last, keys.length = 65 ∧
        aliases.Chain t keys ∧ keys.getLast? = some last ∧
        e = .unsupported ("recursive type alias `" ++ last ++ "`") span) ∧
      ∀ u, aliases.expand span t = .ok u →
        u.AliasFree ∧ ∀ span', aliases.expand span' u = .ok u) ∧
    ∀ source p, Program.ofModule source = .ok p → p.symbols.Types Ty.AliasFree := by
  refine ⟨fun aliases span t ht hclosed => ?_, fun source p h => ?_⟩
  · have hrun := depends_expandAt hclosed span depthLimit ht
    have hcause (e : Error) (he : aliases.expand span t = .error e) : ∃ keys last,
        keys.length = 65 ∧ aliases.Chain t keys ∧ keys.getLast? = some last ∧
        e = circular last span := by
      rw [expand] at he
      rw [he] at hrun
      obtain ⟨key, hkey, keys, ⟨hlength, hnext⟩, rfl⟩ := hrun
      refine ⟨key :: keys, keys.getLastD key, congrArg (· + 1) hlength, ⟨hkey, hnext⟩, ?_, rfl⟩
      rw [List.getLast?_cons, List.getLastD_eq_getLast?]
    refine ⟨⟨fun ⟨e, he⟩ => ?_, fun ⟨keys, hlength, hchain⟩ => ?_⟩, hcause, fun u hu => ?_⟩
    · obtain ⟨keys, _, hlength, hchain, -⟩ := hcause e he
      exact ⟨keys, hlength, hchain⟩
    · cases he : aliases.expand span t with
      | error e => exact ⟨e, rfl⟩
      | ok u =>
        rw [expand] at he
        rw [he] at hrun
        cases keys with
        | nil => contradiction
        | cons key keys => exact absurd ⟨keys, Nat.succ.inj hlength, hchain.2⟩ (hrun.2 key hchain.1)
    · have hfree := aliasFree_of_expand hu
      exact ⟨hfree, fun _ => hfree.expandWith _⟩
  · simp only [Program.ofModule, Result.bind_eq_ok, Result.pure_eq_ok] at h
    obtain ⟨root, -, symbols, hs, rfl⟩ := h
    exact Symbols.types_aliasFree hs

/-- In source form, `Knot`, the alias of the table below. -/
def Path.knot : Path := ⟨true, [⟨"Knot", []⟩], .typeAlias "::Knot"⟩

/-- In source form, `type Pair<T> = (T, T); type Knot = &Knot`. -/
def Aliases.knotted : Aliases :=
  [("::Pair", ⟨"Pair", ⟨["T"], []⟩, .tuple [.generic "T", .generic "T"], default⟩),
    ("::Knot", ⟨"Knot", ⟨[], []⟩, .borrow .shared (.path .knot), default⟩)]

/-- In source form, `type Pair<T> = (T, T); struct Row { cells: Pair<Pair<u8>> }`. -/
def Module.paired : Module :=
  let pair (t : Ty) : Ty := .path ⟨false, [⟨"Pair", [t]⟩], .unbound⟩
  ⟨"", [], [
    .typeAlias ⟨"Pair", ⟨["T"], []⟩, .tuple [.generic "T", .generic "T"], default⟩,
    .struct ⟨"Row", ⟨[], []⟩, [⟨"cells", pair (pair (.primitive .u8)), default⟩], default⟩]⟩

/-- In source form, `Knot`, what `Pair<u8>` stands for, and the module of rows. -/
theorem Aliases.expand_chains_and_symbols_aliasFree_knotted :
    (∃ e, knotted.expand default (.path .knot) = .error e) ∧
    (∃ u, knotted.expand default (.path ⟨true, [⟨"Pair", [.primitive .u8]⟩], .typeAlias "::Pair"⟩) =
      .ok u ∧ u.AliasFree ∧ ∀ span, knotted.expand span u = .ok u) ∧
    ∃ p, Program.ofModule .paired = .ok p ∧ p.symbols.Types Ty.AliasFree := by
  obtain ⟨hexpand, hsymbols⟩ := Aliases.expand_chains_and_symbols_aliasFree
  have hstores {t : Ty} (ht : ∀ p ∈ t.paths, p.binding = .typeAlias "::Knot" ∨
      p.binding = .typeAlias "::Pair") : knotted.Stores t := by
    rintro key ⟨p, hp, hb⟩
    rcases ht p hp with h | h <;> cases h.symm.trans hb <;> rfl
  have hclosed : knotted.Closed := by
    intro key d hd
    rcases List.mem_cons.mp (mem_of_lookup_eq_some hd) with h | h
    · cases h
      exact hstores (by decide)
    · cases List.mem_singleton.mp h
      exact hstores (by decide)
  refine ⟨?_, ⟨_, rfl, ?_⟩, _, rfl, hsymbols .paired _ rfl⟩
  · have hget : knotted.get? "::Knot" = some _ := rfl
    have hknot : (Ty.path .knot).Mentions "::Knot" := ⟨.knot, .head _, rfl⟩
    refine (hexpand knotted default _ (hstores (by decide)) hclosed).1.mpr ?_
    exact ⟨_, List.length_replicate, chain_replicate hget hknot 65 hknot⟩
  · exact (hexpand knotted default (.path ⟨true, [⟨"Pair", [.primitive .u8]⟩], .typeAlias "::Pair"⟩)
      (hstores (by decide)) hclosed).2.2 _ rfl

end BorrowLang
