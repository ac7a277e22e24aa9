import BorrowLang.Check.Module
import BorrowLang.Proofs.FrameTypes
import BorrowLang.Proofs.KnownLookups

/-! Checks that start in frames whose types name only what is there, look items up only where they
are there and leave such frames behind. -/
namespace BorrowLang

structure Frame.Known (s : Symbols) (f : Frame) : Prop where
  locals : ∀ v ∈ f.locals, v.type.Known s
  aliases : ∀ a ∈ f.aliases, a.2.Known s

def Frames.Known (s : Symbols) (frames : Frames) : Prop := ∀ f ∈ frames, f.Known s

theorem Frame.known_iff {s : Symbols} {f : Frame} : f.Known s ↔ f.TypesHave (Ty.Known s) :=
  ⟨fun h => ⟨h.locals, h.aliases⟩, fun h => ⟨h.locals, h.aliases⟩⟩

theorem Frame.known_empty (s : Symbols) : Frame.empty.Known s := known_iff.mpr (typesHave_empty _)

namespace Frames
variable {s : Symbols} {frames : Frames}

theorem known_iff : frames.Known s ↔ frames.TypesHave (Ty.Known s) :=
  forall₂_congr fun _ _ => Frame.known_iff

variable (h : frames.Known s)
include h

theorem Known.cons {f : Frame} (hf : f.Known s) : Known s (f :: frames) :=
  List.forall_mem_cons.mpr ⟨hf, h⟩

theorem Known.tail : Known s frames.tail := known_iff.mpr (known_iff.mp h).tail

theorem Known.local? {name : String} {v : Local} (hv : frames.local? name = some v) :
    v.type.Known s := (known_iff.mp h).local? hv

theorem Known.alias? {name : String} {t : Ty} (ht : frames.alias? name = some t) : t.Known s :=
  (known_iff.mp h).alias? ht

theorem Known.retype {t : Ty} (ht : t.Known s) (name : String) :
    Known s (frames.retype name t) := known_iff.mpr ((known_iff.mp h).retype ht name)

end Frames

namespace Check
variable {α β : Type} {s : Symbols} {Q : α → Prop} {R : β → Prop} {c : Check α}

/-- In such frames the check looks items up only where they are there, what it gives has the
property, and however it ends it leaves such frames. -/
structure Finds (s : Symbols) (Q : α → Prop) (c : Check α) : Prop where
  run : ∀ frames, Frames.Known s frames →
    (c.run frames).1.Finds Q ∧ Frames.Known s (c.run frames).2

theorem finds_ofResult {x : Result α} (h : x.Finds Q) : (ofResult x).Finds s Q :=
  ⟨fun _ hk => ⟨h, hk⟩⟩

theorem finds_pure {a : α} (h : Q a) : Finds s Q (pure a) := finds_ofResult (Result.finds_pure h)

theorem finds_throw {e : Error} (h : ¬ e.MissesItem) : Finds s Q (throw e) :=
  finds_ofResult (Result.finds_throw h)

theorem finds_get : Finds s (Frames.Known s) (get : Check Frames) := ⟨fun _ hk => ⟨hk, hk⟩⟩

theorem Finds.bind {f : α → Check β} (h : c.Finds s Q) (hf : ∀ a, Q a → (f a).Finds s R) :
    (c >>= f).Finds s R := by
  constructor
  intro frames hk
  have hc := h.run frames hk
  rw [run_bind]
  rcases hrun : c.run frames with ⟨e | a, after⟩
  · rw [hrun] at hc
    exact hc
  · rw [hrun] at hc
    exact (hf a hc.1).run after hc.2

theorem Finds.inFrame (h : c.Finds s Q) : (inFrame c).Finds s Q := by
  constructor
  intro frames hk
  have hc := h.run (.empty :: frames) (hk.cons (Frame.known_empty s))
  exact ⟨hc.1, hc.2.tail⟩

theorem Finds.isolated (h : c.Finds s Q) {g : Frame} (hg : g.Known s) : (isolated g c).Finds s Q :=
  ⟨fun _ hk => ⟨(h.run [g] (List.forall_mem_singleton.mpr hg)).1, hk⟩⟩

theorem finds_modifyFrame {span : Span} {change : Frame → Frame}
    (h : ∀ f : Frame, f.Known s → (change f).Known s) :
    (modifyFrame span change).Finds s fun _ => True := by
  constructor
  intro frames hk
  cases frames with
  | nil => exact ⟨id, hk⟩
  | cons f fs =>
    obtain ⟨hf, hfs⟩ := List.forall_mem_cons.mp hk
    exact ⟨trivial, Frames.Known.cons hfs (h f hf)⟩

theorem finds_declare {v : Local} (hv : v.type.Known s) (span : Span) :
    (declare v span).Finds s fun _ => True :=
  finds_modifyFrame fun _ hf => ⟨List.forall_mem_cons.mpr ⟨hv, hf.locals⟩, hf.aliases⟩

theorem finds_merge {t u : Ty} (ht : t.Known s) (hu : u.Known s) (span : Span) :
    (merge t u span).Finds s (Ty.Known s) := finds_ofResult (Ty.finds_mergeAt ht hu span)

theorem finds_useLocal {expected : Ty} (ht : expected.Known s) (name : String) (span : Span) :
    (useLocal name expected span).Finds s (Ty.Known s) := by
  constructor
  intro frames hk
  simp only [run, useLocal]
  cases hv : frames.local? name with
  | none => exact ⟨id, hk⟩
  | some v =>
    have hmerged := Ty.finds_mergeAt ht (hk.local? hv) span
    dsimp only
    cases hm : expected.mergeAt v.type span with
    | error e =>
      rw [hm] at hmerged
      exact ⟨hmerged, hk⟩
    | ok t =>
      rw [hm] at hmerged
      exact ⟨hmerged, hk.retype hmerged name⟩

end Check
end BorrowLang
