import BorrowLang.Check.Scope

/-! The locals of all open frames in one list, and what a name does to it. -/
namespace BorrowLang
namespace Frames

/-- The locals of all frames, those of the innermost first. -/
def slots (frames : Frames) : List Local := frames.flatMap (·.locals)

theorem slots_eq_flatten (frames : Frames) : frames.slots = (frames.map (·.locals)).flatten :=
  List.flatMap_def

theorem local?_eq_find? (frames : Frames) (name : String) :
    frames.local? name = frames.slots.find? (·.name == name) := List.find?_flatMap.symm

theorem retypeLocal_of_ne {name : String} (t : Ty) {above : List Local} (vs : List Local)
    (h : ∀ u ∈ above, u.name ≠ name) :
    retypeLocal name t (above ++ vs) = above ++ retypeLocal name t vs := by
  induction above with
  | nil => rfl
  | cons u above ih =>
    obtain ⟨hu, habove⟩ := List.forall_mem_cons.mp h
    rw [List.cons_append, retypeLocal, if_neg hu, ih habove, List.cons_append]

theorem retypeLocal_append_of_mem {name : String} (t : Ty) {vs : List Local} (ws : List Local)
    (h : ∃ v ∈ vs, v.name = name) :
    retypeLocal name t (vs ++ ws) = retypeLocal name t vs ++ ws := by
  induction vs with
  | nil => simp at h
  | cons v vs ih =>
    rw [List.cons_append, retypeLocal, retypeLocal]
    split
    · rfl
    · next hv => rw [ih (by simpa [hv] using h), List.cons_append]

/-- The first slot of the name is retyped, in whichever frame it is. -/
theorem slots_retype (name : String) (t : Ty) (frames : Frames) :
    (frames.retype name t).slots = retypeLocal name t frames.slots := by
  fun_induction retype name t frames with
  | case1 => rfl
  | case2 f fs h =>
    have hmem : ∃ v ∈ f.locals, v.name = name := by simpa using h
    exact (retypeLocal_append_of_mem t _ hmem).symm
  | case3 f fs h ih =>
    have hne : ∀ u ∈ f.locals, u.name ≠ name := by simpa using h
    exact (congrArg (f.locals ++ ·) ih).trans (retypeLocal_of_ne t _ hne).symm

theorem length_slots_retype (name : String) (t : Ty) (frames : Frames) :
    (frames.retype name t).slots.length = frames.slots.length := by
  rw [slots_retype, length_retypeLocal]

end Frames

theorem Check.run_useLocal {frames : Frames} {name : String} {v : Local}
    (hv : frames.local? name = some v) (expected : Ty) (span : Span) :
    (useLocal name expected span).run frames =
      match expected.mergeAt v.type span with
      | .error e => (.error e, frames)
      | .ok t => (.ok t, frames.retype name t) := by
  rw [run, useLocal, hv]
  rfl

theorem Check.run_useLocal_of_none {frames : Frames} {name : String}
    (hv : frames.local? name = none) (expected : Ty) (span : Span) :
    (useLocal name expected span).run frames =
      (.error (.unresolvedName .localVariable name span), frames) := by
  rw [run, useLocal, hv]

namespace Frames

/-- A use of the name reads the slot that has this many slots below it, refines its type, and touches
no other slot. -/
def UsesSlot (frames : Frames) (name : String) (height : Nat) : Prop :=
  ∃ v, frames.slots.reverse[height]? = some v ∧ ∀ expected span,
    (∀ e, expected.mergeAt v.type span = .error e →
      (Check.useLocal name expected span).run frames = (.error e, frames)) ∧
    ∀ t, expected.mergeAt v.type span = .ok t → ∃ after,
      (Check.useLocal name expected span).run frames = (.ok t, after) ∧
        after.slots.reverse = frames.slots.reverse.set height { v with type := t }

/-- A declaration adds its slot on top of this many. -/
def DeclaresSlot (frames : Frames) (height : Nat) : Prop :=
  frames.slots.length = height ∧ ∀ v span, ∃ after,
    (Check.declare v span).run frames = (.ok (), after) ∧
      after.slots.reverse = frames.slots.reverse ++ [v]

theorem declaresSlot_of_ne_nil {frames : Frames} (h : frames ≠ []) :
    frames.DeclaresSlot frames.slots.length := by
  cases frames with
  | nil => contradiction
  | cons f fs => exact ⟨rfl, fun v span => ⟨_, rfl, List.reverse_cons⟩⟩

theorem usesSlot_of_slots_eq {frames : Frames} {name : String} {above below : List Local} {v : Local}
    (hs : frames.slots = above ++ v :: below) (habove : ∀ u ∈ above, u.name ≠ name)
    (hv : v.name = name) : frames.UsesSlot name below.length := by
  have hreverse : frames.slots.reverse = below.reverse ++ v :: above.reverse := by simp [hs]
  have hlocal : frames.local? name = some v := by
    rw [local?_eq_find?, List.find?_eq_some_iff_append]
    exact ⟨by simpa using hv, above, below, hs, by simpa using habove⟩
  refine ⟨v, by simp [hreverse], fun expected span => ⟨fun e he => ?_, fun t ht => ?_⟩⟩
  · rw [Check.run_useLocal hlocal, he]
  · refine ⟨frames.retype name t, by rw [Check.run_useLocal hlocal, ht], ?_⟩
    rw [slots_retype, hreverse, hs, retypeLocal_of_ne t _ habove, retypeLocal, if_pos hv]
    simp

end Frames
end BorrowLang
