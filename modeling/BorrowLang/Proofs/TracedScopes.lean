import BorrowLang.Proofs.RenamedChecks
import BorrowLang.Proofs.ScopeTraces

/-!
The trace of a check goes through the scope events of the body in order, and comes to each with the
frames that the events before it leave.
-/
namespace BorrowLang

/-- What a step does to the frames that it finds. -/
inductive ScopeEvent.Does (frames : Frames) : ScopeEvent → Frames → Prop
  | enter : Does frames .enter (.empty :: frames)
  | leave : Does frames .leave frames.tail
  | declare (v : Local) (span : Span) :
    Does frames (.declare v.name) ((Check.declare v span).run frames).2
  | use (name : String) (expected : Ty) (span : Span) :
    Does frames (.use name) ((Check.useLocal name expected span).run frames).2

namespace Check
open ScopeEvent

/-- From the first frames to the last ones no local changes but by these steps. -/
inductive Chained : Frames → List ScopeStep → Frames → Prop
  | nil {fs gs : Frames} : fs.map (·.locals) = gs.map (·.locals) → Chained fs [] gs
  | cons {fs after gs : Frames} {s : ScopeStep} {l : List ScopeStep} :
    fs.map (·.locals) = s.before.map (·.locals) → s.event.Does s.before after →
    Chained after l gs → Chained fs (s :: l) gs

theorem Chained.congr {fs fs' gs : Frames} {l : List ScopeStep}
    (hfs : fs'.map (·.locals) = fs.map (·.locals)) (h : Chained fs l gs) : Chained fs' l gs := by
  cases h with
  | nil hgs => exact .nil (hfs.trans hgs)
  | cons hs hdoes hrest => exact .cons (hfs.trans hs) hdoes hrest

theorem Chained.append {fs mid gs : Frames} {l l' : List ScopeStep} (h : Chained fs l mid)
    (h' : Chained mid l' gs) : Chained fs (l ++ l') gs := by
  induction h with
  | nil hmid => exact h'.congr hmid
  | cons hs hdoes _ ih => exact .cons hs hdoes (ih h')

theorem Chained.first {fs gs : Frames} {l : List ScopeStep} {s : ScopeStep}
    (h : Chained fs l gs) (hs : l[0]? = some s) :
    s.before.map (·.locals) = fs.map (·.locals) := by
  cases h with
  | nil => contradiction
  | cons hfs =>
    cases hs
    exact hfs.symm

theorem Chained.next {fs gs : Frames} {l : List ScopeStep} {i : Nat} {s t : ScopeStep}
    (h : Chained fs l gs) (hs : l[i]? = some s) (ht : l[i + 1]? = some t) : ∃ after,
      s.event.Does s.before after ∧ after.map (·.locals) = t.before.map (·.locals) := by
  induction h generalizing i with
  | nil => contradiction
  | @cons _ after _ _ _ _ hdoes hrest ih =>
    cases i with
    | zero =>
      cases hs
      cases hrest with
      | nil => contradiction
      | cons hnext =>
        cases ht
        exact ⟨after, hdoes, hnext⟩
    | succ i => exact ih hs ht

/-- Between its steps a run leaves all locals as they are. -/
theorem Plan.chained {α : Type} {events : List ScopeEvent} {c : Check α} (p : Plan events c)
    (fs : Frames) : ∃ gs, Chained fs (p.trace fs) gs ∧
      ∀ a mid, c.run fs = (.ok a, mid) → gs.map (·.locals) = mid.map (·.locals) := by
  induction p generalizing fs with
  | @blind _ c hc =>
    refine ⟨fs, .nil rfl, fun a mid h => ?_⟩
    have hlocals := hc.locals fs
    rw [h] at hlocals
    exact hlocals.symm
  | declare v span =>
    exact ⟨_, .cons rfl (.declare v span) (.nil rfl), fun a mid h => by rw [h]⟩
  | use name expected span =>
    exact ⟨_, .cons rfl (.use name expected span) (.nil rfl), fun a mid h => by rw [h]⟩
  | @bind _ _ _ _ c g p q ih ih' =>
    obtain ⟨gs, hchained, hend⟩ := ih fs
    rcases hc : c.run fs with ⟨e | a, mid⟩
    · refine ⟨gs, ?_, fun b mid' h => ?_⟩
      · rw [trace, hc]
        exact hchained.append (.nil rfl)
      · rw [run_bind, hc] at h
        cases h
    · obtain ⟨gs', hchained', hend'⟩ := ih' a mid
      refine ⟨gs', ?_, fun b mid' h => ?_⟩
      · rw [trace, hc]
        exact hchained.append (hchained'.congr (hend a mid hc))
      · rw [run_bind, hc] at h
        exact hend' b mid' h
  | @after _ _ _ c g hc q ih =>
    rcases hrun : c.run fs with ⟨e | a, mid⟩
    · refine ⟨fs, ?_, fun b mid' h => ?_⟩
      · rw [trace_after_of_error hrun]
        exact .nil rfl
      · rw [run_bind, hrun] at h
        cases h
    · have hlocals := hc.locals fs
      rw [hrun] at hlocals
      obtain ⟨gs, hchained, hend⟩ := ih a ⟨fs, mid, hrun⟩ mid
      refine ⟨gs, ?_, fun b mid' h => ?_⟩
      · rw [trace_after_of_ok hrun]
        exact hchained.congr hlocals.symm
      · rw [run_bind, hrun] at h
        exact hend b mid' h
  | @last _ _ _ c g p hg ih =>
    obtain ⟨gs, hchained, hend⟩ := ih fs
    refine ⟨gs, hchained, fun b mid h => ?_⟩
    obtain ⟨a, mid', hc, hrest⟩ := bind_eq_ok.mp h
    have hlocals := (hg a).locals mid'
    rw [hrest] at hlocals
    exact (hend a mid' hc).trans hlocals.symm
  | @inFrame _ _ c p ih =>
    obtain ⟨gs, hchained, hend⟩ := ih (.empty :: fs)
    rcases hc : c.run (.empty :: fs) with ⟨e | a, mid⟩
    · refine ⟨gs, ?_, fun b mid' h => ?_⟩
      · rw [trace, hc]
        exact .cons rfl .enter (hchained.append (.nil rfl))
      · rw [run_inFrame, hc] at h
        cases h
    · refine ⟨mid.tail, ?_, fun b mid' h => ?_⟩
      · rw [trace, hc]
        exact .cons rfl .enter (hchained.append (.cons (hend a mid hc) .leave (.nil rfl)))
      · rw [run_inFrame, hc] at h
        cases h
        rfl

theorem Plan.alike {α : Type} {events : List ScopeEvent} {c : Check α} (p : Plan events c)
    (k : Nat) : Alike (fun _ x => x) k events c c Eq := by
  induction p generalizing k with
  | blind hc => exact .of_blind hc
  | declare v span => exact .declare v span
  | use name expected span => exact .use name expected span
  | bind _ _ ih ih' =>
    refine (ih k).bind fun a b hab => ?_
    subst hab
    exact ih' a _
  | after hc _ ih => exact .blind hc fun a ha => ih a ha k
  | last _ hg ih =>
    refine (ih k).last fun a b hab => ?_
    subst hab
    exact .of_blind (hg a)
  | inFrame _ ih => exact .inFrame (ih (k + 1))

section
variable (all : List ScopeEvent) (outer : Nat)

/-- The locals of the frames are those that the events declare. -/
abbrev LaidOut (before : List ScopeEvent) (frames : Frames) : Prop :=
  TwinsAfter (fun _ x => x) all outer before frames frames

/-- The step finds the frames as the events before it leave them, with a scope for it to be in. -/
def Fits (before : List ScopeEvent) (s : ScopeStep) : Prop :=
  LaidOut all outer before s.before ∧ (s.event = .enter ∨ opened before ≠ [])

/-- Every step of the trace fits. -/
def Follows : List ScopeEvent → List ScopeStep → Prop
  | _, [] => True
  | before, s :: rest => Fits all outer before s ∧ Follows (before ++ [s.event]) rest

end

section
variable {all : List ScopeEvent} {outer : Nat}

theorem follows_append {before : List ScopeEvent} {l l' : List ScopeStep} :
    Follows all outer before (l ++ l') ↔
      Follows all outer before l ∧ Follows all outer (before ++ l.map (·.event)) l' := by
  induction l generalizing before with
  | nil => simp [Follows]
  | cons s l ih => simp [Follows, ih, and_assoc]

theorem Follows.fits {before : List ScopeEvent} {l : List ScopeStep} {i : Nat} {s : ScopeStep}
    (h : Follows all outer before l) (hs : l[i]? = some s) :
    Fits all outer (before ++ (l.map (·.event)).take i) s := by
  induction l generalizing before i with
  | nil => contradiction
  | cons first l ih =>
    cases i with
    | zero =>
      cases hs
      simpa using h.1
    | succ i => simpa using ih h.2 hs

/-- Where no name is changed nothing refers to anything else. -/
theorem respects_self (events : List ScopeEvent) : Respects (fun _ x => x) events :=
  fun _ _ _ => ⟨rfl, fun _ => rfl⟩

section
variable {before rest : List ScopeEvent} {fs : Frames}

theorem opened_ne_nil {before' : List ScopeEvent} (hopen : opened before ≠ [])
    (hlen : (opened before').length = (opened before).length) : opened before' ≠ [] := by
  intro hnil
  rw [hnil, List.length_nil, eq_comm, List.length_eq_zero_iff] at hlen
  exact hopen hlen

theorem Plan.laidOut {α : Type} {events : List ScopeEvent} {c : Check α} (p : Plan events c)
    (hall : all = before ++ events ++ rest) (hopen : opened before ≠ [])
    (hfs : LaidOut all outer before fs) {a : α} {mid : Frames} (hc : c.run fs = (.ok a, mid)) :
    LaidOut all outer (before ++ events) mid ∧
      (opened (before ++ events)).length = (opened before).length := by
  cases (p.alike before.length).ends (respects_self all) hall rfl hopen hfs with
  | error hf _ =>
    rw [hc] at hf
    cases hf
  | ok hf hg _ htwins hlen =>
    rw [hc] at hf hg
    obtain ⟨-, rfl⟩ := Prod.mk.inj hf
    obtain ⟨-, rfl⟩ := Prod.mk.inj hg
    exact ⟨htwins, hlen⟩

/-- What is laid out inside a scope still is when the scope is about to be left. -/
theorem Plan.fits_leave {α : Type} {events : List ScopeEvent} {c : Check α} (p : Plan events c)
    (hall : all = before ++ [.enter] ++ events ++ rest) (hfs : LaidOut all outer before fs) {a : α}
    {mid : Frames} (hc : c.run (.empty :: fs) = (.ok a, mid)) :
    Fits all outer (before ++ [.enter] ++ events) ⟨.leave, mid⟩ := by
  have hopen : opened (before ++ [.enter]) ≠ [] := by
    rw [opened_enter]
    exact List.cons_ne_nil _ _
  obtain ⟨hmid, hlen⟩ := p.laidOut hall hopen (twinsAfter_enter hfs) hc
  exact ⟨hmid, .inr (opened_ne_nil hopen hlen)⟩

/-- The trace goes through the events as far as the run gets, and follows what they leave. -/
structure Plan.Traces {α : Type} {events : List ScopeEvent} {c : Check α} (p : Plan events c)
    (all : List ScopeEvent) (outer : Nat) (before : List ScopeEvent) (fs : Frames) : Prop where
  follows : Follows all outer before (p.trace fs)
  isPrefix : (p.trace fs).map (·.event) <+: events
  complete : ∀ a mid, c.run fs = (.ok a, mid) → (p.trace fs).map (·.event) = events

theorem Plan.Traces.bind {α β : Type} {events events' : List ScopeEvent} {c : Check α}
    {g : α → Check β} {p : Plan events c} {q : ∀ a, Plan events' (g a)}
    (hp : p.Traces all outer before fs)
    (hq : ∀ a mid, c.run fs = (.ok a, mid) → (q a).Traces all outer (before ++ events) mid) :
    (Plan.bind p q).Traces all outer before fs := by
  rcases hc : c.run fs with ⟨e | a, mid⟩
  · have htrace : (Plan.bind p q).trace fs = p.trace fs := by
      rw [trace, hc]
      exact List.append_nil _
    refine ⟨htrace ▸ hp.follows, ?_, fun b mid' h => ?_⟩
    · rw [htrace]
      exact hp.isPrefix.trans (List.prefix_append _ _)
    · rw [run_bind, hc] at h
      cases h
  · have htrace : (Plan.bind p q).trace fs = p.trace fs ++ (q a).trace mid := by rw [trace, hc]
    have hevents := hp.complete a mid hc
    have hqa := hq a mid hc
    refine ⟨?_, ?_, fun b mid' h => ?_⟩
    · rw [htrace, follows_append, hevents]
      exact ⟨hp.follows, hqa.follows⟩
    · rw [htrace, List.map_append, hevents]
      exact (List.prefix_append_right_inj events).mpr hqa.isPrefix
    · rw [run_bind, hc] at h
      rw [htrace, List.map_append, hevents, hqa.complete b mid' h]

theorem Plan.Traces.after {α β : Type} {events : List ScopeEvent} {c : Check α} {g : α → Check β}
    {hc : c.Blind} {q : ∀ a, c.Yields a → Plan events (g a)}
    (hq : ∀ a mid (h : c.run fs = (.ok a, mid)), (q a ⟨fs, mid, h⟩).Traces all outer before mid) :
    (Plan.after hc q).Traces all outer before fs := by
  rcases hrun : c.run fs with ⟨e | a, mid⟩
  · have htrace : (Plan.after hc q).trace fs = [] := trace_after_of_error hrun
    refine ⟨htrace ▸ trivial, htrace ▸ List.nil_prefix, fun b mid' h => ?_⟩
    rw [run_bind, hrun] at h
    cases h
  · have htrace : (Plan.after hc q).trace fs = (q a ⟨fs, mid, hrun⟩).trace mid :=
      trace_after_of_ok hrun
    have hqa := hq a mid hrun
    refine ⟨htrace ▸ hqa.follows, htrace ▸ hqa.isPrefix, fun b mid' h => ?_⟩
    rw [run_bind, hrun] at h
    rw [htrace, hqa.complete b mid' h]

theorem Plan.Traces.last {α β : Type} {events : List ScopeEvent} {c : Check α} {g : α → Check β}
    {p : Plan events c} {hg : ∀ a, (g a).Blind} (hp : p.Traces all outer before fs) :
    (Plan.last p hg).Traces all outer before fs := by
  refine ⟨hp.follows, hp.isPrefix, fun b mid h => ?_⟩
  obtain ⟨a, mid', ha, -⟩ := bind_eq_ok.mp h
  exact hp.complete a mid' ha

theorem Plan.Traces.inFrame {α : Type} {events : List ScopeEvent} {c : Check α} {p : Plan events c}
    (hfs : LaidOut all outer before fs)
    (hp : p.Traces all outer (before ++ [.enter]) (.empty :: fs))
    (hend : ∀ a mid, c.run (.empty :: fs) = (.ok a, mid) →
      Fits all outer (before ++ [.enter] ++ events) ⟨.leave, mid⟩) :
    (Plan.inFrame p).Traces all outer before fs := by
  rcases hc : c.run (.empty :: fs) with ⟨e | a, mid⟩
  · have htrace : (Plan.inFrame p).trace fs = ⟨.enter, fs⟩ :: p.trace (.empty :: fs) := by
      rw [trace, hc, List.append_nil]
    refine ⟨?_, ?_, fun b mid' h => ?_⟩
    · rw [htrace]
      exact ⟨⟨hfs, .inl rfl⟩, hp.follows⟩
    · rw [htrace]
      exact (List.prefix_cons_inj _).mpr (hp.isPrefix.trans (List.prefix_append _ _))
    · rw [run_inFrame, hc] at h
      cases h
  · have htrace : (Plan.inFrame p).trace fs =
        ⟨.enter, fs⟩ :: (p.trace (.empty :: fs) ++ [⟨.leave, mid⟩]) := by rw [trace, hc]
    have hevents : ((Plan.inFrame p).trace fs).map (·.event) =
        .enter :: (events ++ [.leave]) := by
      rw [htrace, List.map_cons, List.map_append, hp.complete a mid hc]
      rfl
    refine ⟨?_, ⟨[], by rw [List.append_nil, hevents]⟩, fun _ _ _ => hevents⟩
    rw [htrace]
    refine ⟨⟨hfs, .inl rfl⟩, follows_append.mpr ⟨hp.follows, ?_, trivial⟩⟩
    rw [hp.complete a mid hc]
    exact hend a mid hc

theorem Plan.traces {α : Type} {events : List ScopeEvent} {c : Check α} (p : Plan events c)
    (hall : all = before ++ events ++ rest) (hopen : opened before ≠ [])
    (hfs : LaidOut all outer before fs) : p.Traces all outer before fs := by
  induction p generalizing before rest fs with
  | blind => exact ⟨trivial, List.nil_prefix, fun _ _ _ => rfl⟩
  | declare => exact ⟨⟨⟨hfs, .inr hopen⟩, trivial⟩, List.prefix_refl _, fun _ _ _ => rfl⟩
  | use => exact ⟨⟨⟨hfs, .inr hopen⟩, trivial⟩, List.prefix_refl _, fun _ _ _ => rfl⟩
  | @bind _ _ events events' c g p q ih ih' =>
    have hfirst : all = before ++ events ++ (events' ++ rest) := by simp [hall]
    have hsecond : all = before ++ events ++ events' ++ rest := by simp [hall]
    refine .bind (ih hfirst hopen hfs) fun a mid hc => ?_
    obtain ⟨hmid, hlen⟩ := p.laidOut hfirst hopen hfs hc
    exact ih' a hsecond (opened_ne_nil hopen hlen) hmid
  | after hc q ih =>
    refine .after fun a mid h => ih a ⟨fs, mid, h⟩ hall hopen ?_
    have hmid := (hfs.blind hc).2
    rwa [h] at hmid
  | last _ _ ih => exact .last (ih hall hopen hfs)
  | @inFrame _ events c p ih =>
    have hinside : all = before ++ [.enter] ++ events ++ (.leave :: rest) := by simp [hall]
    have hopen' : opened (before ++ [.enter]) ≠ [] := by
      rw [opened_enter]
      exact List.cons_ne_nil _ _
    exact .inFrame hfs (ih hinside hopen' (twinsAfter_enter hfs)) fun a mid h =>
      p.fits_leave hinside hfs h

/-- A function is a scope of its own. -/
theorem functionPlan_traces (env : Env) (d : Function) (frames : Frames) :
    (functionPlan env d).Traces d.events frames.slots.length [] frames := by
  have htraces {α : Type} {events : List ScopeEvent} {c : Check α} (p : Plan events c) :
      (Plan.inFrame p).Traces (.enter :: (events ++ [.leave])) frames.slots.length [] frames := by
    have hbase : LaidOut (.enter :: (events ++ [.leave])) frames.slots.length [] frames := .base rfl
    have hopen : opened ([] ++ [.enter]) ≠ [] := List.cons_ne_nil [] []
    have hall : .enter :: (events ++ [.leave]) = [] ++ [.enter] ++ events ++ [.leave] := rfl
    exact .inFrame hbase (p.traces hall hopen (twinsAfter_enter hbase)) fun a mid h =>
      p.fits_leave hall hbase h
  obtain ⟨name, params, args, ret, code, span⟩ := d
  cases code with
  | none => exact htraces _
  | some code => exact htraces _

end
end
end Check

end BorrowLang
