import BorrowLang.Proofs.ReadTexts

/-! Blanks around a type. They do not matter, but for those after a borrow of a bare `mut`. -/
namespace BorrowLang
namespace Text

/-- A text that starts with no blank is not reached by blanks in front. -/
theorem Blank.exists_of_append_eq {bs cs before text : List Char} (hbs : Blank bs)
    (ht : StartsUnblank text) (h : bs ++ cs = before ++ text) :
    ∃ before', before = bs ++ before' ∧ cs = before' ++ text := by
  rcases List.append_eq_append_iff.mp h with ⟨middle, rfl, rfl⟩ | ⟨middle, rfl, rfl⟩
  · exact ⟨middle, rfl, rfl⟩
  · cases middle with
    | nil => exact ⟨[], by simp, rfl⟩
    | cons c middle =>
      have hc : isBlank c = false := ht
      exact (hbs.not_mem hc (by simp)).elim

/-- A text that ends with no blank is not reached by blanks behind it. -/
theorem Blank.exists_of_eq_append {bs cs text after : List Char} (hbs : Blank bs)
    (ht : EndsUnblank text) (h : cs ++ bs = text ++ after) :
    ∃ after', after = after' ++ bs ∧ cs = text ++ after' := by
  rcases List.append_eq_append_iff.mp h with ⟨middle, htext, rfl⟩ | ⟨middle, rfl, rfl⟩
  · obtain ⟨front, c, rfl, hc⟩ := ht
    rcases List.eq_nil_or_concat middle with rfl | ⟨middle', d, rfl⟩
    · exact ⟨[], rfl, by rw [htext, List.append_nil, List.append_nil]⟩
    · rw [List.concat_eq_append, ← List.append_assoc] at htext
      obtain ⟨-, hcd⟩ := List.append_inj' htext rfl
      obtain ⟨rfl, -⟩ := List.cons.inj hcd
      exact (hbs.not_mem hc (by simp)).elim
  · exact ⟨middle, rfl, rfl⟩

theorem Blank.eq_nil_of_endsInBareMut {bs cs : List Char} (hbs : Blank bs)
    (h : EndsInBareMut (cs ++ bs)) : bs = [] := by
  rcases List.eq_nil_or_concat bs with rfl | ⟨bs', c, rfl⟩
  · rfl
  · rw [List.concat_eq_append, ← List.append_assoc] at h
    have hc : isBlank c = true := hbs c (by simp)
    refine absurd h (not_endsInBareMut_concat _ ?_)
    rintro rfl
    contradiction

end Text

namespace Ty
open Text

theorem writtenSpaced_iff {cs : List Char} {t : Ty} : WrittenSpaced Written cs t ↔
    ∃ before text after, cs = before ++ (text ++ after) ∧ Blank before ∧ Written text t ∧
      Blank after ∧ (EndsInBareMut text → after = []) := by
  constructor
  · rintro ⟨hbefore, ht, hafter, hmut⟩
    exact ⟨_, _, _, rfl, hbefore, ht, hafter, hmut⟩
  · rintro ⟨before, text, after, rfl, hbefore, ht, hafter, hmut⟩
    exact .mk hbefore ht hafter hmut

/-- Blanks in front and behind may be taken away, and put there but behind a bare `mut`. -/
theorem writtenSpaced_between_iff {bs cs bs' : List Char} {t : Ty} (hbs : Blank bs) (hbs' : Blank bs') :
    WrittenSpaced Written (bs ++ (cs ++ bs')) t ↔
      WrittenSpaced Written cs t ∧ (bs' = [] ∨ ¬ EndsInBareMut cs) := by
  constructor
  · intro h
    obtain ⟨before, text, after, heq, hbefore, ⟨n, ht⟩, hafter, hmut⟩ := writtenSpaced_iff.mp h
    obtain ⟨before, rfl, hcs⟩ :=
      hbs.exists_of_append_eq (ht.startsUnblank.append after) heq
    rw [← List.append_assoc] at hcs
    obtain ⟨after, rfl, rfl⟩ := hbs'.exists_of_eq_append (ht.endsUnblank.append before) hcs
    obtain ⟨-, hbefore⟩ := List.forall_mem_append.mp hbefore
    obtain ⟨hafter, -⟩ := List.forall_mem_append.mp hafter
    refine ⟨?_, ?_⟩
    · rw [List.append_assoc]
      exact .mk hbefore ⟨n, ht⟩ hafter fun hm => (List.append_eq_nil_iff.mp (hmut hm)).1
    · by_cases hm : EndsInBareMut (before ++ text ++ after)
      · obtain rfl := Blank.eq_nil_of_endsInBareMut hafter hm
        rw [List.append_nil] at hm
        have htext := (endsInBareMut_append_iff (Blank.not_mem hbefore rfl)).mp hm
        exact .inl (hmut htext)
      · exact .inr hm
  · rintro ⟨h, hbare⟩
    obtain ⟨before, text, after, rfl, hbefore, ht, hafter, hmut⟩ := writtenSpaced_iff.mp h
    have hnil (hm : EndsInBareMut text) : after ++ bs' = [] := by
      obtain rfl := hmut hm
      rcases hbare with rfl | hbare
      · rfl
      · rw [List.append_nil] at hbare
        exact (hbare (hm.append before)).elim
    rw [show bs ++ (before ++ (text ++ after) ++ bs') = (bs ++ before) ++ (text ++ (after ++ bs')) by
      simp]
    exact .mk (hbs.append hbefore) ht (hafter.append hbs') hnil

/-- Blanks around a type do not change what it reads as, but for blanks behind a text that ends in a
borrow of a bare `mut`: then `mut` asks for a type after the blanks, and none is there. -/
theorem parse_between_blanks {u s v : String} {t : Ty} (hu : Blank u.toList) (hv : Blank v.toList) :
    parse (u ++ s ++ v) = .ok t ↔ parse s = .ok t ∧ (v = "" ∨ ¬ EndsInBareMut s.toList) := by
  rw [parse_eq_ok_iff, parse_eq_ok_iff, String.toList_append, String.toList_append, List.append_assoc,
    writtenSpaced_between_iff hu hv, String.toList_eq_nil_iff]

theorem parse_between_blanks_unique :
    Blank "\n".toList ∧ Blank " \t".toList ∧
      parse ("\n" ++ "&mut T" ++ " \t") = .ok (borrow .unique (path (Path.bare "T"))) := by
  have hfront : Blank "\n".toList := List.all_eq_true.mp (by decide)
  have hback : Blank " \t".toList := List.all_eq_true.mp (by decide)
  have hmut : ¬ EndsInBareMut "&mut T".toList := not_endsInBareMut_concat "&mut ".toList (by decide)
  exact ⟨hfront, hback, (parse_between_blanks hfront hback).mpr ⟨rfl, .inr hmut⟩⟩

/-- A blank behind `&mut`, the borrow of a path of the one name `mut`. -/
theorem parse_bare_mut : Blank " ".toList ∧
    parse "&mut" = .ok (borrow .shared (path (Path.bare "mut"))) ∧
    parse ("" ++ "&mut" ++ " ") = .error (unexpected "&mut ") :=
  ⟨List.all_eq_true.mp (by decide), rfl, rfl⟩

end Ty
end BorrowLang
