import BorrowLang.Proofs.ScopeEvents
import BorrowLang.Proofs.TwinFrames

/-!
Checks that take the same steps under different names for the locals. Where every name still refers
to the declaration that it referred to, they end alike.
-/
namespace BorrowLang
namespace Check

/-- The checks take the same steps, those of the events, but where event `k` declares or uses `x` in
the first it declares or uses `f k x` in the second. Their results are related. -/
inductive Alike (f : Nat → String → String) :
    {α : Type} → Nat → List ScopeEvent → Check α → Check α → (α → α → Prop) → Prop
  | pure {α : Type} {k : Nat} {R : α → α → Prop} {a b : α} : R a b →
    Alike f k [] (pure a) (pure b) R
  | blind {α β : Type} {k : Nat} {events : List ScopeEvent} {c : Check α} {g h : α → Check β}
    {R : β → β → Prop} : c.Blind → (∀ a, c.Yields a → Alike f k events (g a) (h a) R) →
    Alike f k events (c >>= g) (c >>= h) R
  | declare {k : Nat} (v : Local) (span : Span) :
    Alike f k [.declare v.name] (declare v span) (declare { v with name := f k v.name } span) Eq
  | use {k : Nat} (name : String) (expected : Ty) (span : Span) :
    Alike f k [.use name] (useLocal name expected span) (useLocal (f k name) expected span) Eq
  | bind {α β : Type} {k : Nat} {events events' : List ScopeEvent} {c d : Check α}
    {g h : α → Check β} {R : α → α → Prop} {S : β → β → Prop} : Alike f k events c d R →
    (∀ a b, R a b → Alike f (k + events.length) events' (g a) (h b) S) →
    Alike f k (events ++ events') (c >>= g) (d >>= h) S
  | inFrame {α : Type} {k : Nat} {events : List ScopeEvent} {c d : Check α} {R : α → α → Prop} :
    Alike f (k + 1) events c d R →
    Alike f k (.enter :: (events ++ [.leave])) (inFrame c) (inFrame d) R

end Check

namespace ScopeEvent

/-- The name that event `j` declares. -/
def declared (events : List ScopeEvent) (j : Nat) : String :=
  match events[j]? with
  | some (.declare name) => name
  | _ => ""

/-- Under the new names every use finds the declaration that it finds under the old ones, and keeps
its name where it finds none. -/
def Respects (f : Nat → String → String) (events : List ScopeEvent) : Prop :=
  ∀ i x, events[i]? = some (.use x) →
    let js := openDeclarations (events.take i)
    js.find? (fun j => f j (declared events j) = f i x) = js.find? (declared events · = x) ∧
      (js.find? (declared events · = x) = none → f i x = x)

end ScopeEvent

namespace Check
open ScopeEvent

section
variable (f : Nat → String → String) (all : List ScopeEvent) (outer : Nat)

/-- Frames of the two checks after these of all events. -/
abbrev TwinsAfter (before : List ScopeEvent) (fs gs : Frames) : Prop :=
  Frames.Twins (declared all) (fun j => f j (declared all j)) outer (opened before) fs gs

/-- Both runs fail in the same way, or both succeed with related results and twin frames. -/
inductive Ends {α : Type} (before events : List ScopeEvent) (c d : Check α) (R : α → α → Prop)
    (fs gs : Frames) : Prop
  | error {e : Error} {fs' gs' : Frames} :
    c.run fs = (.error e, fs') → d.run gs = (.error e, gs') → Ends before events c d R fs gs
  | ok {a b : α} {fs' gs' : Frames} :
    c.run fs = (.ok a, fs') → d.run gs = (.ok b, gs') → R a b →
    TwinsAfter f all outer (before ++ events) fs' gs' →
    (opened (before ++ events)).length = (opened before).length → Ends before events c d R fs gs

end

section
variable {f : Nat → String → String} {all : List ScopeEvent} {outer : Nat}

theorem opened_use (before : List ScopeEvent) (x : String) :
    opened (before ++ [.use x]) = opened before := opened_concat before _

theorem opened_enter (before : List ScopeEvent) :
    opened (before ++ [.enter]) = [] :: opened before := opened_concat before _

theorem opened_leave (before : List ScopeEvent) :
    opened (before ++ [.leave]) = (opened before).tail := opened_concat before _

section
variable {before : List ScopeEvent} {fs gs : Frames}

/-- Uses of locals that have the same type end alike. -/
theorem ends_use {x y : String} (expected : Ty) (span : Span)
    (htype : (fs.local? x).map (·.type) = (gs.local? y).map (·.type))
    (hnone : fs.local? x = none → y = x)
    (hretype : ∀ t, TwinsAfter f all outer before (fs.retype x t) (gs.retype y t)) :
    Ends f all outer before [.use x] (useLocal x expected span) (useLocal y expected span) Eq
      fs gs := by
  cases hv : fs.local? x with
  | none =>
    obtain rfl := hnone hv
    rw [hv, eq_comm, Option.map_none, Option.map_eq_none_iff] at htype
    exact .error (run_useLocal_of_none hv ..) (run_useLocal_of_none htype ..)
  | some v =>
    rw [hv, eq_comm, Option.map_some, Option.map_eq_some_iff] at htype
    obtain ⟨w, hw, htype⟩ := htype
    have hf := run_useLocal hv expected span
    have hg := run_useLocal hw expected span
    rw [htype] at hg
    cases ht : expected.mergeAt v.type span with
    | error e =>
      rw [ht] at hf hg
      exact .error hf hg
    | ok t =>
      rw [ht] at hf hg
      have hopened := opened_use before x
      refine .ok hf hg rfl ?_ (by rw [hopened])
      rw [TwinsAfter, hopened]
      exact hretype t

theorem ends_declare (v : Local) (span : Span) (hfg : TwinsAfter f all outer before fs gs)
    (hopen : opened before ≠ []) (hv : declared all before.length = v.name) :
    Ends f all outer before [.declare v.name] (declare v span)
      (declare { v with name := f before.length v.name } span) Eq fs gs := by
  have hopened := opened_concat before (.declare v.name)
  cases hrows : opened before with
  | nil => contradiction
  | cons row rows =>
    rw [hrows] at hopened
    rw [TwinsAfter, hrows] at hfg
    cases hfg with
    | scope hcleared hrow hrest =>
      obtain ⟨name, mutability, type⟩ := v
      subst hv
      refine .ok rfl rfl rfl ?_ (by rw [hopened, hrows]; rfl)
      rw [TwinsAfter, hopened]
      exact .scope hcleared (.cons mutability type hrow) hrest

/-- A step that is blind comes before. -/
theorem Ends.after_blind {α β : Type} {events : List ScopeEvent} {c : Check α}
    {g h : α → Check β} {R : β → β → Prop} (hc : c.Blind)
    (hfg : TwinsAfter f all outer before fs gs)
    (hend : ∀ a fs' gs', c.Yields a → TwinsAfter f all outer before fs' gs' →
      Ends f all outer before events (g a) (h a) R fs' gs') :
    Ends f all outer before events (c >>= g) (c >>= h) R fs gs := by
  obtain ⟨hresult, htwins⟩ := hfg.blind hc
  rcases hf : c.run fs with ⟨r, fs'⟩
  rcases hg : c.run gs with ⟨r', gs'⟩
  rw [hf, hg] at hresult htwins
  obtain rfl : r' = r := hresult
  cases r' with
  | error e => exact .error (by rw [run_bind, hf]) (by rw [run_bind, hg])
  | ok a =>
    have hrunf : run (c >>= g) fs = (g a).run fs' := by rw [run_bind, hf]
    have hrung : run (c >>= h) gs = (h a).run gs' := by rw [run_bind, hg]
    cases hend a fs' gs' ⟨fs, fs', hf⟩ htwins with
    | error hf' hg' => exact .error (hrunf.trans hf') (hrung.trans hg')
    | ok hf' hg' hr htwins' hlen =>
      exact .ok (hrunf.trans hf') (hrung.trans hg') hr htwins' hlen

theorem Ends.bind {α β : Type} {events events' : List ScopeEvent} {c d : Check α}
    {g h : α → Check β} {R : α → α → Prop} {S : β → β → Prop}
    (hc : Ends f all outer before events c d R fs gs)
    (hend : ∀ a b fs' gs', R a b → (opened (before ++ events)).length = (opened before).length →
      TwinsAfter f all outer (before ++ events) fs' gs' →
      Ends f all outer (before ++ events) events' (g a) (h b) S fs' gs') :
    Ends f all outer before (events ++ events') (c >>= g) (d >>= h) S fs gs := by
  cases hc with
  | error hf hg => exact .error (by rw [run_bind, hf]) (by rw [run_bind, hg])
  | @ok a b fs' gs' hf hg hr htwins hlen =>
    have hrunf : run (c >>= g) fs = (g a).run fs' := by rw [run_bind, hf]
    have hrung : run (d >>= h) gs = (h b).run gs' := by rw [run_bind, hg]
    cases hend a b fs' gs' hr hlen htwins with
    | error hf' hg' => exact .error (hrunf.trans hf') (hrung.trans hg')
    | ok hf' hg' hs htwins' hlen' =>
      rw [List.append_assoc] at htwins' hlen'
      exact .ok (hrunf.trans hf') (hrung.trans hg') hs htwins' (hlen'.trans hlen)

/-- The events inside a frame stand between its opening and its closing. -/
theorem Ends.inFrame {α : Type} {events : List ScopeEvent} {c d : Check α} {R : α → α → Prop}
    (h : Ends f all outer (before ++ [.enter]) events c d R (.empty :: fs) (.empty :: gs)) :
    Ends f all outer before (.enter :: (events ++ [.leave])) (Check.inFrame c) (Check.inFrame d) R
      fs gs := by
  cases h with
  | error hf hg => exact .error (by rw [run_inFrame, hf]) (by rw [run_inFrame, hg])
  | ok hf hg hr htwins hlen =>
    have hsplit : before ++ .enter :: (events ++ [.leave]) =
        before ++ [.enter] ++ events ++ [.leave] := by simp
    have hopened : opened (before ++ .enter :: (events ++ [.leave])) =
        (opened (before ++ [.enter] ++ events)).tail := by rw [hsplit, opened_leave]
    rw [opened_enter, List.length_cons] at hlen
    refine .ok (by rw [run_inFrame, hf]) (by rw [run_inFrame, hg]) hr ?_ ?_
    · rw [TwinsAfter, hopened]
      exact Frames.Twins.tail htwins (List.ne_nil_of_length_eq_add_one hlen)
    · rw [hopened, List.length_tail, hlen, Nat.add_sub_cancel]

theorem twinsAfter_enter (hfg : TwinsAfter f all outer before fs gs) :
    TwinsAfter f all outer (before ++ [.enter]) (.empty :: fs) (.empty :: gs) := by
  rw [TwinsAfter, opened_enter]
  exact .scope rfl .nil hfg

end

/-- Alike checks end alike wherever they stand in a body. -/
theorem Alike.ends {α : Type} {k : Nat} {events : List ScopeEvent} {c d : Check α}
    {R : α → α → Prop} (h : Alike f k events c d R) (hrespects : Respects f all)
    {before rest : List ScopeEvent} (hall : all = before ++ events ++ rest)
    (hk : k = before.length) (hopen : opened before ≠ []) {fs gs : Frames}
    (hfg : TwinsAfter f all outer before fs gs) :
    Ends f all outer before events c d R fs gs := by
  induction h generalizing before rest fs gs with
  | pure hr =>
    have hnil : before ++ [] = before := List.append_nil before
    exact .ok rfl rfl hr (hnil.symm ▸ hfg) (by rw [hnil])
  | blind hc _ ih =>
    exact .after_blind hc hfg fun a fs' gs' ha htwins => ih a ha hall hk hopen htwins
  | declare v span =>
    subst hk
    have hget : all[before.length]? = some (.declare v.name) := by simp [hall]
    exact ends_declare v span hfg hopen (by rw [declared, hget])
  | use name expected span =>
    subst hk
    have hget : all[before.length]? = some (.use name) := by simp [hall]
    have htake : all.take before.length = before := by simp [hall]
    obtain ⟨hfind, hkeep⟩ := hrespects _ _ hget
    rw [htake] at hfind hkeep
    cases hj : (openDeclarations before).find? (declared all · = name) with
    | some j =>
      obtain ⟨v, w, hv, hw, htype, hretype⟩ := hfg.use hj (hfind.trans hj)
      refine ends_use expected span ?_ ?_ hretype
      · rw [hv, hw, Option.map_some, Option.map_some, htype]
      · intro hnone
        rw [hv] at hnone
        contradiction
    | none =>
      have hname := hkeep hj
      rw [hname] at hfind ⊢
      obtain ⟨hlocal, hretype⟩ := hfg.use_outside hj (hfind.trans hj)
      exact ends_use expected span (by rw [hlocal]) (fun _ => rfl) hretype
  | @bind _ _ _ events events' _ _ _ _ _ _ _ _ ih ih' =>
    subst hk
    have hfirst : all = before ++ events ++ (events' ++ rest) := by simp [hall]
    have hsecond : all = before ++ events ++ events' ++ rest := by simp [hall]
    refine .bind (ih hfirst rfl hopen hfg) fun a b fs' gs' hr hlen htwins => ?_
    refine ih' a b hr hsecond (by rw [List.length_append]) ?_ htwins
    intro hnil
    rw [hnil, List.length_nil, eq_comm, List.length_eq_zero_iff] at hlen
    exact hopen hlen
  | @inFrame _ _ events _ _ _ _ ih =>
    subst hk
    have hinside : all = before ++ [.enter] ++ events ++ (.leave :: rest) := by simp [hall]
    refine .inFrame (ih hinside ?_ ?_ (twinsAfter_enter hfg))
    · rw [List.length_append, List.length_singleton]
    · rw [opened_enter]
      exact List.cons_ne_nil _ _

end
end Check
end BorrowLang
