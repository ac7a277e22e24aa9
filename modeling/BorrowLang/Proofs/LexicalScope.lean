import Mathlib.Data.List.Find
import BorrowLang.Proofs.TracedScopes

/-!
Lexical scoping. A name uses the slot of the latest declaration of that name whose scope is still
open, so that a local can be given any name that is not in use.
-/
namespace BorrowLang

namespace Frames

/-- The slots are those of the open declarations, on top of those outside. -/
theorem Twins.exists_slots {old new : Nat → String} {outer : Nat} {rows : List (List Nat)}
    {fs gs : Frames} (h : Twins old new outer rows fs gs) : ∃ own rest, fs.slots = own ++ rest ∧
      own.map (·.name) = rows.flatten.map old ∧ rest.length = outer := by
  induction h with
  | @base frames hlen => exact ⟨[], frames.slots, rfl, rfl, hlen⟩
  | @scope row rows f g fs gs _ hrow _ ih =>
    obtain ⟨own, rest, hs, hown, hrest⟩ := ih
    refine ⟨f.locals ++ own, rest, ?_, ?_, hrest⟩
    · rw [List.append_assoc, ← hs]
      rfl
    · rw [List.map_append, hown, hrow.map_name_left, List.flatten_cons, List.map_append]

end Frames

namespace ScopeEvent

theorem declared_eq {events : List ScopeEvent} {j : Nat} {x : String}
    (h : events[j]? = some (.declare x)) : declared events j = x := by rw [declared, h]

theorem OpenAt.getElem? {events : List ScopeEvent} {i j : Nat} {x : String}
    (h : OpenAt (events.take i) x j) : events[j]? = some (.declare x) := by
  have hget := h.declares
  rw [List.getElem?_take] at hget
  split at hget
  · exact hget
  · contradiction

theorem openAt_declared {events : List ScopeEvent} {i j : Nat}
    (h : j ∈ openDeclarations (events.take i)) : OpenAt (events.take i) (declared events j) j := by
  obtain ⟨name, hname⟩ := mem_openDeclarations.mp h
  rwa [declared_eq hname.getElem?]

/-- The declaration that a name refers to is the first of that name among those that are open. -/
theorem find?_declared (events : List ScopeEvent) (i : Nat) (x : String) :
    (openDeclarations (events.take i)).find? (declared events · = x) =
      referent? (events.take i) x := by
  rw [referent?]
  refine List.find?_congr fun j hj => ?_
  rw [(openAt_declared hj).declares]
  simp

section
variable {events : List ScopeEvent} {i j p : Nat} {x y z : String}

theorem renames_of_open (hp : p ∈ openDeclarations (events.take i)) :
    Renames events j p x ↔ p = j := by
  rw [Renames, (openAt_declared hp).getElem?]
  simp

theorem renames_of_use (hj : events[j]? = some (.declare x)) (hi : events[i]? = some (.use z)) :
    Renames events j i z ↔ Refers (events.take i) z j := by
  rw [Renames, hi, or_iff_right]
  · simp
  · rintro rfl
    rw [hi] at hj
    cases hj

/-- Of the open declarations only the renamed one has a new name. -/
theorem newNames_eq_iff (hp : p ∈ openDeclarations (events.take i)) :
    newNames events j y p (declared events p) = z ↔
      p = j ∧ z = y ∨ p ≠ j ∧ declared events p = z := by
  have hiff : Renames events j p (declared events p) ↔ p = j := renames_of_open hp
  by_cases hpj : p = j
  · rw [newNames, if_pos (hiff.mpr hpj)]
    simp [hpj, eq_comm]
  · rw [newNames, if_neg (mt hiff.mp hpj)]
    simp [hpj]

/-- What is found for `q` is found for `r` too, if it has it and no other has `r` without `q`. -/
theorem find?_eq_some_of_imp {α : Type} {q r : α → Bool} {l : List α} {a : α}
    (h : l.find? q = some a) (ha : r a = true) (himp : ∀ b ∈ l, b ≠ a → r b = true → q b = true) :
    l.find? r = some a := by
  obtain ⟨hq, above, below, rfl, habove⟩ := List.find?_eq_some_iff_append.mp h
  refine List.find?_eq_some_iff_append.mpr ⟨ha, above, below, rfl, fun b hb => ?_⟩
  have hqb : q b = false := by simpa using habove b hb
  have hba : b ≠ a := by
    rintro rfl
    rw [hq] at hqb
    contradiction
  rw [Bool.not_eq_true', Bool.eq_false_iff]
  intro hrb
  rw [himp b (List.mem_append_left _ hb) hba hrb] at hqb
  contradiction

/-- A name that nothing has can be given to a declaration and the uses that refer to it. -/
theorem respects_newNames (hj : events[j]? = some (.declare x)) (hdeclare : .declare y ∉ events)
    (huse : .use y ∉ events) : Respects (newNames events j y) events := by
  intro i z hi js
  have hzy : z ≠ y := fun h => huse (h ▸ List.mem_of_getElem? hi)
  have hfind : js.find? (declared events · = z) = referent? (events.take i) z :=
    find?_declared events i z
  rw [hfind]
  by_cases href : Refers (events.take i) z j
  · -- The use gets the new name, which of the open declarations only `j` has.
    have hsome := referent?_eq_some.mpr href
    have hjs : j ∈ js := List.mem_of_find?_eq_some (hfind.trans hsome)
    have hnew : newNames events j y j (declared events j) = y :=
      (newNames_eq_iff hjs).mpr (.inl ⟨rfl, rfl⟩)
    rw [newNames, if_pos ((renames_of_use hj hi).mpr href), hsome]
    refine ⟨?_, nofun⟩
    refine find?_eq_some_of_imp (hfind.trans hsome) (decide_eq_true hnew) fun p hp hpj hpy => ?_
    obtain ⟨hpj', -⟩ | ⟨-, hpy⟩ := (newNames_eq_iff hp).mp (of_decide_eq_true hpy)
    · contradiction
    · exact absurd (hpy ▸ List.mem_of_getElem? (openAt_declared hp).getElem?) hdeclare
  · -- The use keeps its name, and so does the declaration it refers to, if any.
    rw [newNames, if_neg (mt (renames_of_use hj hi).mp href)]
    refine ⟨?_, fun _ => rfl⟩
    have hiff {p : Nat} (hp : p ∈ js) : newNames events j y p (declared events p) = z ↔
        p ≠ j ∧ declared events p = z := by
      rw [newNames_eq_iff hp, or_iff_right fun h => hzy h.2]
    have himp (p : Nat) (hp : p ∈ js) (h : newNames events j y p (declared events p) = z) :
        decide (declared events p = z) = true := decide_eq_true ((hiff hp).mp h).2
    cases hr : referent? (events.take i) z with
    | none =>
      rw [hr, List.find?_eq_none] at hfind
      exact List.find?_eq_none.mpr fun p hp h => hfind p hp (himp p hp (of_decide_eq_true h))
    | some q =>
      have hq := hfind.trans hr
      have hqj : q ≠ j := by
        rintro rfl
        exact href (referent?_eq_some.mp hr)
      have hname : declared events q = z := by simpa using List.find?_some hq
      have hkept := (hiff (List.mem_of_find?_eq_some hq)).mpr ⟨hqj, hname⟩
      exact find?_eq_some_of_imp hq (decide_eq_true hkept) fun p hp _ h =>
        himp p hp (of_decide_eq_true h)

end

end ScopeEvent

namespace Frames
open ScopeEvent
variable {all : List ScopeEvent} {outer i j : Nat} {x : String} {frames : Frames}

theorem length_slots_of_open (h : Check.LaidOut all outer (all.take i) frames) :
    frames.slots.length = (openDeclarations (all.take i)).length + outer := by
  obtain ⟨own, rest, hs, hown, hrest⟩ := h.exists_slots
  have hlen := congrArg List.length hown
  rw [List.length_map, List.length_map] at hlen
  rw [hs, List.length_append, hlen, hrest, openDeclarations]

/-- Below an open declaration are the slots that were there when it was made. -/
theorem exists_openDeclarations_take (hr : OpenAt (all.take i) x j) :
    ∃ above, openDeclarations (all.take i) = above ++ j :: openDeclarations (all.take j) := by
  have hj : j ∈ openDeclarations (all.take i) := mem_openDeclarations.mpr ⟨x, hr⟩
  obtain ⟨above, hsplit⟩ := exists_openDeclarations_eq hj
  have hlt : j < i := (List.length_take_le i all).trans_lt' (openDeclarations_lt hj)
  rw [List.take_take, Nat.min_eq_left hlt.le] at hsplit
  exact ⟨above, hsplit⟩

/-- The slot of an open declaration is still there. -/
theorem lt_length_slots (h : Check.LaidOut all outer (all.take i) frames)
    (hr : OpenAt (all.take i) x j) :
    (openDeclarations (all.take j)).length + outer < frames.slots.length := by
  obtain ⟨above, hsplit⟩ := exists_openDeclarations_take hr
  rw [length_slots_of_open h, hsplit, List.length_append, List.length_cons]
  omega

theorem usesSlot_of_refers (h : Check.LaidOut all outer (all.take i) frames)
    (hr : Refers (all.take i) x j) :
    frames.UsesSlot x ((openDeclarations (all.take j)).length + outer) := by
  obtain ⟨own, rest, hs, hown, hrest⟩ := h.exists_slots
  obtain ⟨above, hsplit⟩ := exists_openDeclarations_take hr.1
  change own.map (·.name) = (openDeclarations (all.take i)).map (declared all) at hown
  rw [hsplit, List.map_append, List.map_cons] at hown
  obtain ⟨own', below, rfl, habove, hbelow⟩ := List.map_eq_append_iff.mp hown
  obtain ⟨v, below, rfl, hv, hbelow⟩ := List.map_eq_cons_iff.mp hbelow
  have hlen : (below ++ rest).length = (openDeclarations (all.take j)).length + outer := by
    have hlen := congrArg List.length hbelow
    rw [List.length_map, List.length_map] at hlen
    rw [List.length_append, hlen, hrest]
  rw [← hlen]
  refine usesSlot_of_slots_eq (by rw [hs, List.append_assoc, List.cons_append]) ?_
    (hv.trans (declared_eq hr.1.getElem?))
  -- A slot of the name further up would be that of a later declaration.
  intro u hu hux
  have hmem : u.name ∈ above.map (declared all) := habove ▸ List.mem_map_of_mem hu
  obtain ⟨p, hp, hpu⟩ := List.mem_map.mp hmem
  have hlater : j < p := by
    have hsorted := pairwise_openDeclarations (all.take i)
    rw [hsplit] at hsorted
    exact (List.pairwise_append.mp hsorted).2.2 p hp j (.head _)
  have hopen := openAt_declared (hsplit ▸ List.mem_append_left _ hp)
  rw [hpu, hux] at hopen
  exact hr.2 p hlater hopen

/-- A name that refers to no declaration stands for a local outside, if for any. -/
theorem usesSlot_of_dangling (h : Check.LaidOut all outer (all.take i) frames)
    (hr : ∀ j, ¬Refers (all.take i) x j) :
    frames.local? x = none ∨ ∃ height < outer, frames.UsesSlot x height := by
  obtain ⟨own, rest, hs, hown, hrest⟩ := h.exists_slots
  have howned : ∀ u ∈ own, u.name ≠ x := by
    intro u hu hux
    have hmem : u.name ∈ (openDeclarations (all.take i)).map (declared all) :=
      hown ▸ List.mem_map_of_mem hu
    obtain ⟨j, hj, hju⟩ := List.mem_map.mp hmem
    obtain ⟨p, hp⟩ : ∃ p, referent? (all.take i) x = some p := by
      rw [← find?_declared, ← Option.isSome_iff_exists, List.find?_isSome]
      exact ⟨j, hj, decide_eq_true (hju.trans hux)⟩
    exact hr p (referent?_eq_some.mp hp)
  cases hv : rest.find? (·.name == x) with
  | none =>
    refine .inl ?_
    rw [local?_eq_find?, hs, List.find?_append, hv, Option.or_none]
    exact List.find?_eq_none.mpr fun u hu hux => howned u hu (by simpa using hux)
  | some v =>
    obtain ⟨hname, above, below, rfl, habove⟩ := List.find?_eq_some_iff_append.mp hv
    refine .inr ⟨below.length, ?_, ?_⟩
    · rw [← hrest, List.length_append, List.length_cons]
      omega
    · refine usesSlot_of_slots_eq (hs.trans (List.append_assoc ..).symm) ?_ (by simpa using hname)
      intro u hu
      rcases List.mem_append.mp hu with hu | hu
      · exact howned u hu
      · simpa using habove u hu

end Frames

/-- The steps of a run of the function's check. -/
def Function.scopeTrace (env : Env) (d : Function) (frames : Frames) : List ScopeStep :=
  (Check.functionPlan env d).trace frames

/-- The steps of a run that starts with these frames keep to the scopes of the function. -/
structure Function.LexicallyScoped (d : Function) (frames : Frames) (steps : List ScopeStep) :
    Prop where
  events : steps.map (·.event) <+: d.events
  first : ∀ s, steps[0]? = some s → s.before.map (·.locals) = frames.map (·.locals)
  /-- From one step to the next only what the step does changes a local. -/
  next : ∀ i s t, steps[i]? = some s → steps[i + 1]? = some t → ∃ after,
    s.event.Does s.before after ∧ after.map (·.locals) = t.before.map (·.locals)
  /-- A use that refers to a declaration uses the slot added by it, which is there until then. -/
  refers : ∀ i s x j, steps[i]? = some s → s.event = .use x →
    ScopeEvent.Refers (d.events.take i) x j → ∃ r height, steps[j]? = some r ∧
      r.event = .declare x ∧ r.before.DeclaresSlot height ∧
      (∀ k t, j < k → k ≤ i → steps[k]? = some t → height < t.before.slots.length) ∧
      s.before.UsesSlot x height
  /-- Any other use leaves the slots of the function alone. -/
  dangles : ∀ i s x, steps[i]? = some s → s.event = .use x →
    (∀ j, ¬ScopeEvent.Refers (d.events.take i) x j) →
    s.before.local? x = none ∨ ∃ height < frames.slots.length, s.before.UsesSlot x height

namespace Check

theorem Fits.ne_nil {all before : List ScopeEvent} {outer : Nat} {s : ScopeStep}
    (h : Fits all outer before s) (hs : s.event ≠ .enter) : s.before ≠ [] := by
  obtain ⟨hlaid, henter | hopen⟩ := h
  · contradiction
  · intro hnil
    rw [hnil] at hlaid
    cases hrows : ScopeEvent.opened before with
    | nil => contradiction
    | cons row rows =>
      rw [LaidOut, TwinsAfter, hrows] at hlaid
      contradiction

theorem lexicallyScoped_of_follows {d : Function} {frames gs : Frames} {steps : List ScopeStep}
    (hfollows : Follows d.events frames.slots.length [] steps) (hchained : Chained frames steps gs)
    (hevents : steps.map (·.event) <+: d.events) : d.LexicallyScoped frames steps := by
  obtain ⟨rest, hrest⟩ := hevents
  have hfits {i : Nat} {s : ScopeStep} (hs : steps[i]? = some s) :
      Fits d.events frames.slots.length (d.events.take i) s := by
    have hlt : i < (steps.map (·.event)).length := by
      rw [List.length_map]
      exact (List.getElem?_eq_some_iff.mp hs).1
    have htake : d.events.take i = (steps.map (·.event)).take i := by
      rw [← hrest, List.take_append_of_le_length hlt.le]
    rw [htake]
    exact hfollows.fits hs
  refine ⟨⟨rest, hrest⟩, fun s => hchained.first, fun i s t => hchained.next,
    fun i s x j hs _ hr => ?_, fun i s x hs _ hr => Frames.usesSlot_of_dangling (hfits hs).1 hr⟩
  have hji : j < i := by
    have hlt := (List.getElem?_eq_some_iff.mp hr.1.declares).1
    exact (List.length_take_le i d.events).trans_lt' hlt
  have hjn : j < steps.length := hji.trans (List.getElem?_eq_some_iff.mp hs).1
  have hstep : steps[j]? = some steps[j] := List.getElem?_eq_getElem hjn
  have hdeclare : steps[j].event = .declare x := by
    have hget := hr.1.getElem?
    rw [← hrest, List.getElem?_append_left (by rwa [List.length_map]), List.getElem?_map,
      hstep] at hget
    exact Option.some.inj hget
  have hne : steps[j].before ≠ [] := (hfits hstep).ne_nil (by simp [hdeclare])
  have hheight := Frames.length_slots_of_open (hfits hstep).1
  refine ⟨steps[j], _, hstep, hdeclare, Frames.declaresSlot_of_ne_nil hne, ?_, ?_⟩
  · intro k t hjk hki ht
    have hopen := hr.1.take hjk
    rw [List.take_take, Nat.min_eq_left hki] at hopen
    rw [hheight]
    exact Frames.lt_length_slots (hfits ht).1 hopen
  · rw [hheight]
    exact Frames.usesSlot_of_refers (hfits hs).1 hr

end Check

section
variable (env : Env) (frames : Frames) (d : Function)

theorem Function.lexicallyScoped_scopeTrace :
    d.LexicallyScoped frames (d.scopeTrace env frames) := by
  have htraces := Check.functionPlan_traces env d frames
  obtain ⟨gs, hchained, -⟩ := (Check.functionPlan env d).chained frames
  exact Check.lexicallyScoped_of_follows htraces.follows hchained htraces.isPrefix

/-- A check that succeeds comes to all of the scopes. -/
theorem Function.map_event_scopeTrace {checked : Function} {after : Frames}
    (h : (Check.function env d).run frames = (.ok checked, after)) :
    (d.scopeTrace env frames).map (·.event) = d.events :=
  (Check.functionPlan_traces env d frames).complete checked after h

/-- The check does the same to a function in which a local has got another name. -/
theorem Function.run_rename {j : Nat} {x y : String} (hj : d.events[j]? = some (.declare x))
    (hdeclare : .declare y ∉ d.events) (huse : .use y ∉ d.events) :
    ((Check.function env (d.rename j y)).run frames).1 =
      ((Check.function env d).run frames).1.map (·.rename j y) := by
  have hrespects := ScopeEvent.respects_newNames hj hdeclare huse
  cases Check.ends_function env d hrespects frames with
  | error hold hnew =>
    rw [Function.rename, hold, hnew]
    rfl
  | ok hold hnew hr =>
    obtain ⟨hevents, rfl⟩ := hr
    rw [Function.rename, hold, hnew]
    simp only [Except.map, Function.rename, hevents]

end

/-- Scoping is lexical, so that a local and the uses that refer to it can be given any name that is
not in use: the check has the same outcome and finds the same types. -/
theorem Function.lexical_scoping (env : Env) (frames : Frames) (d : Function) :
    d.LexicallyScoped frames (d.scopeTrace env frames) ∧
    (∀ checked after, (Check.function env d).run frames = (.ok checked, after) →
      (d.scopeTrace env frames).map (·.event) = d.events) ∧
    ∀ j x y, d.events[j]? = some (.declare x) → .declare y ∉ d.events → .use y ∉ d.events →
      (d.rename j y).events = d.events.mapIdx (fun i e => e.relabel (newNames d.events j y i)) ∧
      (d.rename j y).signature = d.signature ∧
      ((Check.function env (d.rename j y)).run frames).1 =
        ((Check.function env d).run frames).1.map (·.rename j y) ∧
      ((Check.function env (d.rename j y)).run frames).1.map Function.annotations =
        ((Check.function env d).run frames).1.map Function.annotations := by
  refine ⟨d.lexicallyScoped_scopeTrace env frames,
    fun _ _ h => d.map_event_scopeTrace env frames h, fun j x y hj hdeclare huse => ?_⟩
  have hrun := d.run_rename env frames hj hdeclare huse
  refine ⟨d.events_rename j y, ?_, hrun, ?_⟩
  · simp only [Function.signature, Function.rename, Function.relabel, map_type_argRelabel]
  · rw [hrun]
    cases ((Check.function env d).run frames).1 with
    | error e => rfl
    | ok checked => exact congrArg Except.ok checked.annotations_relabel

/-- In source form, `fn shadowing(x: u8) -> u8 { let x = x; { let x = true; x }; x }`. -/
def Function.shadowing : Function :=
  let raw (kind : ExprKind) : Expr := ⟨kind, .wildcard, default⟩
  let x := raw (.named (.bare "x"))
  let bindX (value : Expr) := raw (.letIn (.identifier "x" .immutable default) .wildcard value)
  let inner := raw (.block ⟨[bindX (raw (.literal (.bool true)))], some x, [], []⟩)
  { name := "shadowing"
    params := ⟨[], []⟩
    args := [⟨.identifier "x" .immutable default, .primitive .u8⟩]
    ret := .primitive .u8
    code := some (raw (.block ⟨[bindX x, inner], some x, [], []⟩))
    span := default }

/-- The second of the three locals named `x` can be named `y`, and so can its use at the end. -/
theorem Function.lexical_scoping_shadowing :
    let env : Env := ⟨.empty, .standard⟩
    Function.shadowing.LexicallyScoped [] (Function.shadowing.scopeTrace env []) ∧
    (∃ checked after, (Check.function env .shadowing).run [] = (.ok checked, after) ∧
      (Function.shadowing.scopeTrace env []).map (·.event) = Function.shadowing.events) ∧
    ((Check.function env (Function.shadowing.rename 4 "y")).run []).1 =
      ((Check.function env .shadowing).run []).1.map (·.rename 4 "y") := by
  intro env
  obtain ⟨hscoped, hevents, hrename⟩ := Function.lexical_scoping env [] .shadowing
  refine ⟨hscoped, ⟨_, _, rfl, hevents _ _ rfl⟩, ?_⟩
  exact (hrename 4 "x" "y" rfl (by decide) (by decide)).2.2.1

example : (Function.shadowing.rename 4 "y").events =
    [.enter, .declare "x", .enter, .use "x", .declare "y", .enter, .declare "x", .use "x", .leave,
      .use "y", .leave, .leave] := by decide

end BorrowLang
