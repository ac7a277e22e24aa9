import Mathlib.Data.List.TFAE
import Mathlib.Tactic.TFAE
import BorrowLang.Proofs.ReadTexts
import BorrowLang.Ty.Display

/-! A printed type is written as the grammar of types says, so it reads as the type it was printed
from. -/
namespace BorrowLang
namespace Ty
open Text Text.Reader

theorem writtenItems_displayAll {ts : List Ty} (hne : ts ≠ [])
    (h : ∀ t ∈ ts, Written t.display.toList t) :
    WrittenItems Written (displayAll ts).toList ts := by
  induction ts with
  | nil => contradiction
  | cons t ts ih =>
    obtain ⟨ht, hts⟩ := List.forall_mem_cons.mp h
    cases ts with
    | nil => exact .one ht.spaced
    | cons u ts =>
      have hblank : Blank [' '] := List.all_eq_true.mp (by decide)
      have hrest := WrittenItems.prepend (ih (List.cons_ne_nil u ts) hts) hblank
      simpa [displayAll] using Separated.more ht.spaced hrest

theorem writtenSegment_display {s : Segment} (hn : IsName s.name)
    (h : ∀ t ∈ s.args, Written t.display.toList t) :
    WrittenSegment Written s.display.toList s := by
  obtain ⟨name, args⟩ := s
  cases args with
  | nil => exact .bare hn
  | cons t ts =>
    have hitems := writtenItems_displayAll (List.cons_ne_nil t ts) h
    simpa [Segment.display] using WrittenSegment.args hn blank_nil (.some hitems)

theorem writtenSegments_display {segments : List Segment} (hne : segments ≠ [])
    (h : ∀ s ∈ segments, WrittenSegment Written s.display.toList s) :
    WrittenSegments Written (displaySegments segments).toList segments := by
  induction segments with
  | nil => contradiction
  | cons s segments ih =>
    obtain ⟨hs, hsegments⟩ := List.forall_mem_cons.mp h
    cases segments with
    | nil => exact .one hs
    | cons u segments =>
      simpa [displaySegments] using Separated.more hs (ih (List.cons_ne_nil u segments) hsegments)

theorem writtenSize_toString (n : UInt64) : WrittenSize (toString n.toNat).toList n := by
  rw [Nat.toString_eq_repr, Nat.toList_repr]
  exact ⟨Nat.toDigits_ne_nil, fun c hc => Nat.isDigit_of_mem_toDigits (by omega) (by omega) hc,
    Nat.ofDigitChars_toDigits (by omega) (by omega)⟩

theorem isName_ofList {c : Char} {cs : List Char} (hc : isNameStart c = true)
    (hcs : cs.all isNamePart = true) : IsName (String.ofList (c :: cs)) :=
  ⟨c, cs, String.toList_ofList, hc, List.all_eq_true.mp hcs⟩

theorem isName_name (p : Primitive) : IsName p.name := by
  cases p <;> exact isName_ofList (by decide) (by decide)

/-- A bare name, as what it denotes. -/
theorem written_name {name : String} (h : IsName name) {t : Ty}
    (ht : ofSegments false [⟨name, []⟩] = t) : Written name.toList t :=
  ht ▸ WrittenForm.written (.relative (.one (.bare h)))

theorem ofSegments_eq_path {absolute : Bool} {segments : List Segment}
    (hbare : ∀ name, Path.bareName? ⟨absolute, segments, .unbound⟩ = some name →
      name ≠ "_" ∧ Primitive.ofName? name = none) :
    ofSegments absolute segments = path ⟨absolute, segments, .unbound⟩ := by
  unfold ofSegments
  split
  · next name =>
    obtain ⟨hname, hscalar⟩ := hbare name rfl
    rw [if_neg hname, hscalar]
  · rfl

/-- A printed path starts with a word, and no blank comes after it. -/
theorem displaySegments_eq_append (s : Segment) (segments : List Segment) : ∃ more,
    (displaySegments (s :: segments)).toList = s.name.toList ++ more ∧ StopsWord more ∧
      skipBlanks more = more := by
  obtain ⟨name, args⟩ := s
  rcases args with _ | ⟨t, ts⟩ <;> rcases segments with _ | ⟨u, segments⟩
  · exact ⟨[], by simp [displaySegments, Segment.display], trivial, rfl⟩
  · exact ⟨':' :: ':' :: (displaySegments (u :: segments)).toList,
      by simp [displaySegments, Segment.display], Eq.refl false, rfl⟩
  · exact ⟨'<' :: ((displayAll (t :: ts)).toList ++ ['>']),
      by simp [displaySegments, Segment.display], Eq.refl false, rfl⟩
  · exact ⟨'<' :: ((displayAll (t :: ts)).toList ++ '>' :: ':' :: ':' ::
      (displaySegments (u :: segments)).toList), by simp [displaySegments, Segment.display],
      Eq.refl false, rfl⟩

/-- No blank comes after the word that a printed type starts with. -/
theorem WellFormed.skipBlanks_display {t : Ty} (h : t.WellFormed) :
    skipBlanks (t.display.toList.dropWhile isNamePart) = t.display.toList.dropWhile isNamePart := by
  have hword {name : String} (hname : IsName name) :
      skipBlanks (name.toList.dropWhile isNamePart) = name.toList.dropWhile isNamePart := by
    rw [List.dropWhile_eq_nil_iff.mpr hname.isNamePart]
    rfl
  cases h with
  | wildcard => exact hword (isName_ofList (by decide) (by decide))
  | unit => rfl
  | primitive p => exact hword (isName_name p)
  | borrow kind _ => cases kind <;> simp [display, BorrowKind.sigil] <;> rfl
  | @path absolute segments hne hn _ _ =>
    obtain ⟨s, segments, rfl⟩ := List.exists_cons_of_ne_nil hne
    cases absolute with
    | true => simp [Ty.display]; rfl
    | false =>
      obtain ⟨more, hmore, hstops, hskip⟩ := displaySegments_eq_append s segments
      have hname := (hn s (.head _)).isNamePart
      simp only [Ty.display, Bool.false_eq_true, if_false, String.empty_append, hmore,
        hstops.dropWhile_append hname, hskip]
  | @tuple items hne _ =>
    rcases items with _ | ⟨t, _ | ⟨u, ts⟩⟩ <;> simp [display] <;> rfl
  | array size _ => cases size <;> simp [display] <;> rfl

/-- A borrow of a type that starts with `mut` is not read as a unique borrow. -/
theorem WellFormed.isBlank_of_display {t : Ty} (h : t.WellFormed) {c : Char} {rest : List Char}
    (heq : t.display.toList = 'm' :: 'u' :: 't' :: c :: rest) : isBlank c = false := by
  cases hc : isNamePart c with
  | true => exact isBlank_of_isNamePart hc
  | false =>
    have hstops : StopsWord (c :: rest) := hc
    have hmut : ∀ d ∈ ['m', 'u', 't'], isNamePart d = true := List.all_eq_true.mp (by decide)
    have hdrop : t.display.toList.dropWhile isNamePart = c :: rest := by
      rw [heq]
      exact hstops.dropWhile_append hmut
    have hskip := h.skipBlanks_display
    rw [hdrop] at hskip
    exact isBlank_of_skipBlanks_eq hskip

theorem WellFormed.written_display {t : Ty} (h : t.WellFormed) : Written t.display.toList t := by
  induction h with
  | wildcard => exact written_name (isName_ofList (by decide) (by decide)) rfl
  | unit => exact WrittenForm.written .unit
  | primitive p => exact written_name (isName_name p) (by cases p <;> rfl)
  | @borrow kind t ht ih =>
    cases kind with
    | shared =>
      have hform := WrittenForm.shared blank_nil ih fun c rest => ht.isBlank_of_display
      simpa [display, BorrowKind.sigil] using hform.written
    | unique =>
      have hblank : Blank [' '] := List.all_eq_true.mp (by decide)
      have hform := WrittenForm.unique blank_nil hblank (List.cons_ne_nil ' ' []) ih
      simpa [display, BorrowKind.sigil] using hform.written
  | @path absolute segments hne hname _ hbare ih =>
    have hof := ofSegments_eq_path hbare
    have hsegments := writtenSegments_display hne fun s hs =>
      writtenSegment_display (hname s hs) (ih s hs)
    rw [← hof]
    cases absolute with
    | true =>
      have hform := WrittenForm.absolute hsegments
      simpa [hof, display] using hform.written
    | false =>
      have hform := WrittenForm.relative hsegments
      simpa [hof, display] using hform.written
  | @tuple items hne _ ih =>
    have hitems := writtenItems_displayAll hne ih
    rcases items with _ | ⟨t, _ | ⟨u, ts⟩⟩
    · contradiction
    · have hform := WrittenForm.itemsComma (.some hitems) blank_nil
      simpa [display, displayAll, ofItems] using hform.written
    · have hform := WrittenForm.items hitems
      simpa [display, ofItems] using hform.written
  | array size _ ih =>
    cases size with
    | none => simpa [display] using (WrittenForm.array ih.spaced).written
    | some size =>
      have hblank : Blank [' '] := List.all_eq_true.mp (by decide)
      have hform := WrittenForm.sizedArray ih.spaced hblank (writtenSize_toString size) blank_nil
      simpa [display] using hform.written

theorem WellFormed.parse_display {t : Ty} (h : t.WellFormed) : parse t.display = .ok t := by
  rw [parse_eq_ok_iff]
  exact h.written_display.spaced

/-- The types that can be written down are those whose printed form reads as the type, and those that
some text reads as. -/
theorem wellFormed_tfae (t : Ty) :
    [t.WellFormed, parse t.display = .ok t, ∃ source, parse source = .ok t].TFAE := by
  tfae_have 1 → 2 := WellFormed.parse_display
  tfae_have 2 → 3 := fun h => ⟨_, h⟩
  tfae_have 3 → 1 := by
    rintro ⟨source, h⟩
    exact wellFormed_of_parse h
  tfae_finish

end Ty
end BorrowLang
