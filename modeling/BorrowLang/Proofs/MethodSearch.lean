import BorrowLang.Proofs.ExprSteps
import BorrowLang.Proofs.Refinement

/-!
The method that a call means is that of the first type with such a method, starting from the
receiver's own and removing one reference after another; the call then dereferences its receiver
as often as references were removed.
-/
namespace BorrowLang
namespace Ty

/-- The type behind `n` references. -/
def derefs? : Nat → Ty → Option Ty
  | 0, t => some t
  | n + 1, t => t.pointee?.bind (derefs? n)

theorem getElem?_derefChain (t : Ty) (n : Nat) : t.derefChain[n]? = t.derefs? n := by
  fun_induction derefChain t generalizing n with
  | case1 kind inner ih =>
    cases n with
    | zero => rfl
    | succ n => exact ih n
  | case2 t h =>
    cases n with
    | zero => rfl
    | succ n =>
      obtain ⟨hpointee, -, -⟩ := bare_of_ne_borrow h
      simp [derefs?, hpointee]

theorem le_layers_of_derefs? {n : Nat} {t u : Ty} (h : t.derefs? n = some u) : n ≤ t.layers := by
  have hlt : n < t.derefChain.length := by
    rw [← getElem?_derefChain] at h
    exact (List.getElem?_eq_some_iff.mp h).1
  rw [length_derefChain] at hlt
  exact Nat.le_of_lt_succ hlt

theorem exists_derefs?_of_le {m n : Nat} {t u : Ty} (h : t.derefs? n = some u) (hle : m ≤ n) :
    ∃ v, t.derefs? m = some v := by
  have hlt : m < t.derefChain.length := by
    rw [length_derefChain]
    exact Nat.lt_succ_of_le (hle.trans (le_layers_of_derefs? h))
  exact ⟨t.derefChain[m], by rw [← getElem?_derefChain, List.getElem?_eq_getElem hlt]⟩

/-- Parameters in scope stand for types without references. -/
theorem layers_of_resolveArgs {frames : Frames} {span : Span} {t u : Ty}
    (h : t.resolveArgs (frames.typeParam span) = .ok u) : u.layers = t.layers := by
  induction t using Ty.layers.induct generalizing u with
  | case1 kind inner ih =>
    simp only [resolveArgs, Result.bind_eq_ok, Result.pure_eq_ok] at h
    obtain ⟨inner', hi, rfl⟩ := h
    simp only [layers, ih hi]
  | case2 t ht =>
    cases t with
    | borrow kind inner => exact absurd rfl (ht kind inner)
    | generic name =>
      simp only [resolveArgs, Frames.typeParam] at h
      split_ifs at h
      cases h
      rfl
    | path p =>
      obtain ⟨absolute, segments, binding⟩ := p
      simp only [resolveArgs, Result.bind_eq_ok, Result.pure_eq_ok] at h
      obtain ⟨_, -, rfl⟩ := h
      rfl
    | tuple items | array inner size =>
      simp only [resolveArgs, Result.bind_eq_ok, Result.pure_eq_ok] at h
      obtain ⟨_, -, rfl⟩ := h
      rfl
    | wildcard | unit | primitive p =>
      cases h
      rfl

end Ty

namespace Symbols
variable (s : Symbols)

/-- The impl selected for the type, of the trait or else inherent, and its method of the name. -/
def Offers (traitPath : Option Path) (t : Ty) (name : String) (d : ImplSignature)
    (f : Signature) : Prop :=
  s.impl? traitPath t = some d ∧ d.method? name = some f

/-- An inherent impl or an impl of a trait that is in scope has the method for the type. -/
def HasMethod (frames : Frames) (t : Ty) (name : String) : Prop :=
  (∃ d f, s.Offers none t name d f) ∨
    ∃ g ∈ frames, ∃ p ∈ g.traits, ∃ d f, s.Offers (some p) t name d f

/-- The inherent method; where there is none, that of the first trait that has one, from the
innermost frame outwards and in each frame from the latest trait back. -/
inductive Selects (frames : Frames) (t : Ty) (name : String) (d : ImplSignature)
    (f : Signature) : Prop
  | inherent : s.Offers none t name d f → Selects frames t name d f
  | ofTrait {inner outer : Frames} {g : Frame} {later earlier : List Path} {p : Path} :
    (∀ d f, ¬ s.Offers none t name d f) →
    frames = inner ++ g :: outer → g.traits = later ++ p :: earlier →
    (∀ h ∈ inner, ∀ q ∈ h.traits, ∀ d f, ¬ s.Offers (some q) t name d f) →
    (∀ q ∈ later, ∀ d f, ¬ s.Offers (some q) t name d f) →
    s.Offers (some p) t name d f → Selects frames t name d f

variable {s} {frames : Frames} {t : Ty} {name : String}

theorem methodOf?_eq_some_iff {traitPath : Option Path} {d : ImplSignature} {f : Signature} :
    s.methodOf? traitPath t name = some (d, f) ↔ s.Offers traitPath t name d f := by
  simp only [methodOf?, Offers, Option.bind_eq_bind, Option.bind_eq_some_iff, Option.pure_def,
    Option.some.injEq, Prod.mk.injEq]
  grind

/-- The impl is selected because the type is one of its self type. -/
theorem Offers.exists_bindSelf? {traitPath : Option Path} {d : ImplSignature} {f : Signature}
    (h : s.Offers traitPath t name d f) : ∃ found, d.bindSelf? t = some found := by
  have hselected := List.find?_some h.1
  rw [Bool.and_eq_true] at hselected
  exact Option.isSome_iff_exists.mp hselected.2

theorem methodOf?_eq_none_iff {traitPath : Option Path} :
    s.methodOf? traitPath t name = none ↔ ∀ d f, ¬ s.Offers traitPath t name d f := by
  simp only [Option.eq_none_iff_forall_ne_some, Prod.forall, ne_eq, methodOf?_eq_some_iff]

theorem methodAt?_eq_none_iff :
    s.methodAt? frames.traits t name = none ↔ ¬ s.HasMethod frames t name := by
  simp only [methodAt?, Option.orElse_eq_orElse, Option.orElse_eq_or, Option.or_eq_none_iff,
    List.findSome?_eq_none_iff, methodOf?_eq_none_iff, Frames.traits, List.mem_flatMap, HasMethod]
  grind

theorem findSome?_traits {α : Type} (ask : Path → Option α) (frames : Frames) :
    frames.traits.findSome? ask = frames.findSome? fun g => g.traits.findSome? ask := by
  induction frames with
  | nil => rfl
  | cons f fs ih =>
    rw [Frames.traits, List.flatMap_cons, List.findSome?_append, List.findSome?_cons]
    rw [Frames.traits] at ih
    cases f.traits.findSome? ask with
    | none => exact ih
    | some a => rfl

theorem selects_of_methodAt? {d : ImplSignature} {f : Signature}
    (h : s.methodAt? frames.traits t name = some (d, f)) : s.Selects frames t name d f := by
  simp only [methodAt?, Option.orElse_eq_orElse, Option.orElse_eq_or, Option.or_eq_some_iff] at h
  obtain h | ⟨hnone, h⟩ := h
  · exact .inherent (methodOf?_eq_some_iff.mp h)
  · rw [findSome?_traits] at h
    obtain ⟨inner, g, outer, hframes, hg, hinner⟩ := List.findSome?_eq_some_iff.mp h
    obtain ⟨later, p, earlier, htraits, hp, hlater⟩ := List.findSome?_eq_some_iff.mp hg
    refine .ofTrait (methodOf?_eq_none_iff.mp hnone) hframes htraits ?_ ?_
      (methodOf?_eq_some_iff.mp hp)
    · intro h hh q hq
      exact methodOf?_eq_none_iff.mp (List.findSome?_eq_none_iff.mp (hinner h hh) q hq)
    · exact fun q hq => methodOf?_eq_none_iff.mp (hlater q hq)

theorem searchMethod_eq_ok_iff {traits : List Path} {missing unknown : Error} {ts : List Ty}
    {derefs : Nat} {c : Candidate} :
    s.searchMethod traits name missing unknown derefs ts = .ok c ↔ ∃ k, c.derefs = derefs + k ∧
      ts[k]? = some c.receiver ∧ s.methodAt? traits c.receiver name = some (c.impl, c.signature) ∧
      (∀ j ≤ k, ∀ u ∈ ts[j]?, u ≠ .wildcard) ∧
      ∀ j < k, ∀ u ∈ ts[j]?, s.methodAt? traits u name = none := by
  induction ts generalizing derefs with
  | nil => simp [searchMethod]
  | cons t ts ih =>
    rw [searchMethod]
    constructor
    · intro h
      split_ifs at h with hw
      have ht : t ≠ .wildcard := fun he => hw (he ▸ rfl)
      cases hm : s.methodAt? traits t name with
      | some found =>
        rw [hm] at h
        cases h
        refine ⟨0, rfl, rfl, hm, fun j hj u hu => ?_, nofun⟩
        obtain rfl := Nat.le_zero.mp hj
        exact Option.some.inj hu ▸ ht
      | none =>
        rw [hm] at h
        obtain ⟨k, hk, hget, hfound, hknown, hfirst⟩ := ih.mp h
        refine ⟨k + 1, by omega, hget, hfound, fun j hj u hu => ?_, fun j hj u hu => ?_⟩
        · cases j with
          | zero => exact Option.some.inj hu ▸ ht
          | succ j => exact hknown j (Nat.le_of_succ_le_succ hj) u hu
        · cases j with
          | zero => exact Option.some.inj hu ▸ hm
          | succ j => exact hfirst j (Nat.lt_of_succ_lt_succ hj) u hu
    · rintro ⟨k, hk, hget, hfound, hknown, hfirst⟩
      have ht : t ≠ .wildcard := hknown 0 (Nat.zero_le k) t rfl
      rw [if_neg (mt Ty.isWildcard_iff.mp ht)]
      cases k with
      | zero =>
        obtain rfl : t = c.receiver := Option.some.inj hget
        rw [hfound]
        exact congrArg Except.ok (by cases c; simp_all)
      | succ k =>
        rw [hfirst 0 (Nat.succ_pos k) t rfl]
        refine ih.mpr ⟨k, by omega, hget, hfound, fun j hj => ?_, fun j hj => ?_⟩
        · exact hknown (j + 1) (Nat.succ_le_succ hj)
        · exact hfirst (j + 1) (Nat.succ_lt_succ hj)

end Symbols

namespace Env
variable {env : Env} {frames : Frames} {t : Ty} {name : String}

/-- The method is found once `n` references are removed: so many may be removed, what was under them
is known at every step, and only the last of these types has the method. -/
structure Reaches (env : Env) (frames : Frames) (t : Ty) (name : String) (n : Nat) : Prop where
  allowed : n ≤ env.options.derefLimit
  known : ∀ j ≤ n, ∃ u, t.derefs? j = some u ∧ u ≠ .wildcard
  found : ∃ u, t.derefs? n = some u ∧ env.symbols.HasMethod frames u name
  first : ∀ j < n, ∀ u, t.derefs? j = some u → ¬ env.symbols.HasMethod frames u name

theorem method_eq_ok_iff {span : Span} {c : Candidate} :
    env.method frames t name span = .ok c ↔
      c.derefs ≤ env.options.derefLimit ∧ t.derefs? c.derefs = some c.receiver ∧
      env.symbols.methodAt? frames.traits c.receiver name = some (c.impl, c.signature) ∧
      (∀ j ≤ c.derefs, ∀ u, t.derefs? j = some u → u ≠ .wildcard) ∧
      ∀ j < c.derefs, ∀ u, t.derefs? j = some u → ¬ env.symbols.HasMethod frames u name := by
  have htake (j : Nat) : (t.derefChain.take (env.options.derefLimit + 1))[j]? =
      if j ≤ env.options.derefLimit then t.derefs? j else none := by
    rw [List.getElem?_take, Ty.getElem?_derefChain]
    simp only [Nat.lt_succ_iff]
  rw [method, Symbols.searchMethod_eq_ok_iff]
  simp only [htake, Option.mem_def, Nat.zero_add, Symbols.methodAt?_eq_none_iff]
  constructor
  · rintro ⟨k, rfl, hget, hfound, hknown, hfirst⟩
    split_ifs at hget with hk
    refine ⟨hk, hget, hfound, fun j hj u hu => ?_, fun j hj u hu => ?_⟩
    · exact hknown j hj u (by rw [if_pos (hj.trans hk), hu])
    · exact hfirst j hj u (by rw [if_pos (hj.le.trans hk), hu])
  · rintro ⟨hk, hget, hfound, hknown, hfirst⟩
    refine ⟨c.derefs, rfl, by rw [if_pos hk, hget], hfound, fun j hj u hu => ?_, fun j hj u hu => ?_⟩
    · exact hknown j hj u (by rwa [if_pos (hj.trans hk)] at hu)
    · exact hfirst j hj u (by rwa [if_pos (hj.le.trans hk)] at hu)

theorem exists_method_iff {span : Span} {n : Nat} :
    (∃ c, env.method frames t name span = .ok c ∧ c.derefs = n) ↔ env.Reaches frames t name n := by
  constructor
  · rintro ⟨c, hc, rfl⟩
    obtain ⟨hk, hget, hfound, hknown, hfirst⟩ := method_eq_ok_iff.mp hc
    refine ⟨hk, fun j hj => ?_, ⟨c.receiver, hget, ?_⟩, hfirst⟩
    · obtain ⟨u, hu⟩ := Ty.exists_derefs?_of_le hget hj
      exact ⟨u, hu, hknown j hj u hu⟩
    · by_contra hno
      rw [Symbols.methodAt?_eq_none_iff.mpr hno] at hfound
      contradiction
  · rintro ⟨hk, hknown, ⟨u, hu, hhas⟩, hfirst⟩
    obtain ⟨⟨d, f⟩, hfound⟩ : ∃ found, env.symbols.methodAt? frames.traits u name = some found :=
      Option.ne_none_iff_exists'.mp fun hno => Symbols.methodAt?_eq_none_iff.mp hno hhas
    refine ⟨⟨d, f, u, n⟩, method_eq_ok_iff.mpr ⟨hk, hu, hfound, fun j hj v hv => ?_, hfirst⟩, rfl⟩
    obtain ⟨w, hw, hne⟩ := hknown j hj
    rw [hw, Option.some.injEq] at hv
    exact hv ▸ hne

end Env

namespace Expr

/-- The second expression is the first dereferenced `n` times, and each time what is dereferenced
is a reference to a value of the type that results. -/
inductive Dereferenced : Nat → Expr → Expr → Prop
  | none (e : Expr) : Dereferenced 0 e e
  | once {n : Nat} {e inner : Expr} {t : Ty} : Dereferenced n e inner →
    inner.type.pointee? = some t → Dereferenced (n + 1) e ⟨.deref inner, t, inner.span⟩

theorem Dereferenced.under {n : Nat} {e outer : Expr} {t : Ty} (ht : e.type.pointee? = some t)
    (h : Dereferenced n ⟨.deref e, t, e.span⟩ outer) : Dereferenced (n + 1) e outer := by
  generalize hinner : (⟨.deref e, t, e.span⟩ : Expr) = inner at h
  induction h with
  | none _ => exact hinner ▸ .once (.none e) ht
  | once _ hu ih => exact .once (ih hinner) hu

theorem dereferenced_derefTimes {n : Nat} {e : Expr} (h : n ≤ e.type.layers) :
    Dereferenced n e (e.derefTimes n) := by
  induction n generalizing e with
  | zero => exact .none e
  | succ n ih =>
    obtain ⟨kind, inner, htype⟩ : ∃ kind inner, e.type = .borrow kind inner := by
      cases ht : e.type with
      | borrow kind inner => exact ⟨kind, inner, rfl⟩
      | _ =>
        rw [ht] at h
        exact absurd h (Nat.not_succ_le_zero n)
    have hpointee : e.type.pointee? = some inner := htype ▸ rfl
    have hpeel : e.type.peel = inner := htype ▸ rfl
    rw [htype, Ty.layers] at h
    rw [derefTimes, hpeel]
    exact (ih (e := ⟨.deref e, inner, e.span⟩) (Nat.le_of_succ_le_succ h)).under hpointee

end Expr

namespace Check

theorem method_eq_ok {env : Env} {t : Ty} {method : Segment} {given : Nat} {span : Span}
    {c : Candidate} {frames after : Frames}
    (h : (Check.method env t method given span).run frames = (.ok c, after)) : after = frames ∧
      ∃ u, t.resolveArgs (frames.typeParam span) = .ok u ∧
        env.method frames u method.name span = .ok c := by
  obtain ⟨hfound, rfl⟩ := Prod.mk.inj h
  simp only [Result.bind_eq_ok, Result.pure_eq_ok] at hfound
  obtain ⟨u, hu, found, hf, _, -, rfl⟩ := hfound
  exact ⟨rfl, u, hu, hf⟩

/-- A method that is called has no parameters of its own, and one argument for the receiver. -/
theorem arity_of_method {env : Env} {t : Ty} {method : Segment} {given : Nat} {span : Span}
    {c : Candidate} {frames after : Frames}
    (h : (Check.method env t method given span).run frames = (.ok c, after)) :
    c.signature.params.names = [] ∧ c.signature.args.length = given + 1 := by
  obtain ⟨hfound, -⟩ := Prod.mk.inj h
  simp only [Result.bind_eq_ok, Result.pure_eq_ok] at hfound
  obtain ⟨_, -, _, -, ⟨⟩, hcheck, rfl⟩ := hfound
  unfold Candidate.checkArity at hcheck
  dsimp only at hcheck
  split at hcheck
  · contradiction
  · next hparams =>
    split at hcheck
    · contradiction
    · next hnone =>
      split at hcheck
      · contradiction
      · next hargs =>
        have hlength := (not_not.mp hparams).trans (not_not.mp hnone)
        exact ⟨List.length_eq_zero_iff.mp hlength, not_not.mp hargs⟩

/-- An accepted method call has the receiver and the arguments as they were checked, and so many
dereferences around the receiver as its method is found behind. -/
theorem callMethod_eq_ok {env : Env} {span : Span} {receiver : Expr} {method : Segment}
    {args : List Expr} {expected : Ty} {kind : ExprKind} {type : Ty} {frames after : Frames}
    (h : (exprKind env span (.callMethod receiver method args) expected).run frames =
      (.ok (kind, type), after)) :
    ∃ visited mid args' t c outer, (expr env receiver receiver.type).run frames = (.ok visited, mid) ∧
      (exprs env args).run mid = (.ok args', after) ∧
      visited.type.resolveArgs (after.typeParam span) = .ok t ∧
      env.method after t method.name span = .ok c ∧
      kind = .callMethod outer method args' ∧ visited.Dereferenced c.derefs outer := by
  cases exprStep_of_run h with
  | callMethod hv ha hc _ =>
    obtain ⟨rfl, t, ht, hm⟩ := method_eq_ok hc
    refine ⟨_, _, _, t, _, _, hv, ha, ht, hm, rfl, Expr.dereferenced_derefTimes ?_⟩
    -- The search is over the instantiated type, which has as many references as the receiver's own.
    rw [← Ty.layers_of_resolveArgs ht]
    exact Ty.le_layers_of_derefs? (Env.method_eq_ok_iff.mp hm).2.1

end Check

/-- A method is found behind exactly as many references as have to be removed before the receiver
has it; it is the one that the order of impls and traits selects; and a call that is accepted has so
many dereferences around its receiver. -/
theorem Env.method_search_and_receiver (env : Env) :
    (∀ (frames : Frames) (t : Ty) (name : String) (span : Span) (n : Nat),
      (∃ c, env.method frames t name span = .ok c ∧ c.derefs = n) ↔ env.Reaches frames t name n) ∧
    (∀ (frames : Frames) (t : Ty) (name : String) (span : Span) (c : Candidate),
      env.method frames t name span = .ok c → t.derefs? c.derefs = some c.receiver ∧
        env.symbols.Selects frames c.receiver name c.impl c.signature) ∧
    ∀ (span : Span) (receiver : Expr) (method : Segment) (args : List Expr) (expected : Ty)
      (frames : Frames) (kind : ExprKind) (type : Ty) (after : Frames),
      (Check.exprKind env span (.callMethod receiver method args) expected).run frames =
        (.ok (kind, type), after) →
      ∃ visited mid args' t c outer,
        (Check.expr env receiver receiver.type).run frames = (.ok visited, mid) ∧
        (Check.exprs env args).run mid = (.ok args', after) ∧
        visited.type.resolveArgs (after.typeParam span) = .ok t ∧
        env.method after t method.name span = .ok c ∧
        kind = .callMethod outer method args' ∧ visited.Dereferenced c.derefs outer := by
  refine ⟨fun frames t name span n => exists_method_iff, fun frames t name span c hc => ?_,
    fun span receiver method args expected frames kind type after => Check.callMethod_eq_ok⟩
  obtain ⟨-, hget, hfound, -, -⟩ := method_eq_ok_iff.mp hc
  exact ⟨hget, Symbols.selects_of_methodAt? hfound⟩

/-- In source form, `impl Counter { fn get(&self) -> u32; }`. -/
def Env.counter : Env :=
  let counter : Ty := .path ⟨true, [⟨"Counter", []⟩], .structType "::Counter"⟩
  let get : Signature := ⟨⟨[], []⟩, [.borrow .shared counter], .primitive .u32⟩
  ⟨{ Symbols.empty with impls := [⟨⟨[], []⟩, none, counter, [("get", get)], default⟩] }, .standard⟩

/-- In source form, inside `fn f(c: &&Counter)`. -/
def Frames.counter : Frames :=
  let counter : Ty := .path ⟨true, [⟨"Counter", []⟩], .structType "::Counter"⟩
  [{ Frame.empty with locals := [⟨"c", .immutable, .borrow .shared (.borrow .shared counter)⟩] }]

/-- In source form, `c.get()`. -/
theorem Env.method_search_and_receiver_counter :
    ∃ (visited : Expr) (c : Candidate) (outer : Expr) (type : Ty) (after : Frames),
    (Check.exprKind .counter default (.callMethod ⟨.named (.bare "c"), .wildcard, default⟩
      ⟨"get", []⟩ []) .wildcard).run .counter = (.ok (.callMethod outer ⟨"get", []⟩ [], type), after) ∧
    visited.Dereferenced 2 outer ∧
    Env.counter.method after visited.type "get" default = .ok c ∧ c.derefs = 2 ∧
    visited.type.derefs? c.derefs = some c.receiver ∧
    Env.counter.symbols.Selects after c.receiver "get" c.impl c.signature := by
  obtain ⟨-, hselect, hcall⟩ := Env.method_search_and_receiver .counter
  obtain ⟨visited, mid, args', t, c, outer, hv, ha, ht, hm, hk, hd⟩ :=
    hcall default ⟨.named (.bare "c"), .wildcard, default⟩ ⟨"get", []⟩ [] .wildcard .counter _ _ _ rfl
  cases hv
  cases ha
  cases ht
  obtain ⟨hget, hselects⟩ := hselect _ _ _ _ _ hm
  cases hm
  cases hk
  exact ⟨_, _, _, _, _, rfl, hd, rfl, rfl, hget, hselects⟩

end BorrowLang
