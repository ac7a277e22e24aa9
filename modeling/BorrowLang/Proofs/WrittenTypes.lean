import Mathlib.Data.List.DropRight
import BorrowLang.Proofs.WellFormed

/-!
How types are written: a grammar of their texts, with the blanks that may stand between the parts. It
does not say how a text is read.
-/
namespace BorrowLang
namespace Text

/-- Nothing but blanks. -/
def Blank (cs : List Char) : Prop := ∀ c ∈ cs, isBlank c = true

theorem blank_nil : Blank [] := List.forall_mem_nil _

theorem Blank.append {cs ds : List Char} (h : Blank cs) (k : Blank ds) : Blank (cs ++ ds) :=
  List.forall_mem_append.mpr ⟨h, k⟩

/-- Parts of a text with a mark between every two of them. -/
inductive Separated {α : Type} (mark : List Char) (P : List Char → α → Prop) :
    List Char → List α → Prop
  | one {text : List Char} {a : α} : P text a → Separated mark P text [a]
  | more {text rest : List Char} {a : α} {as : List α} : P text a → Separated mark P rest as →
    Separated mark P (text ++ (mark ++ rest)) (a :: as)

theorem Separated.mono {α : Type} {mark text : List Char} {P Q : List Char → α → Prop} {as : List α}
    (h : Separated mark P text as)
    (hPQ : ∀ part a, part.length ≤ text.length → P part a → Q part a) : Separated mark Q text as := by
  induction h with
  | one ha => exact .one (hPQ _ _ (Nat.le_refl _) ha)
  | @more part rest a as ha _ ih =>
    simp only [List.length_append] at hPQ
    refine .more (hPQ _ _ (by omega) ha) (ih fun other b hlen => hPQ other b (by omega))

theorem Separated.length_le {α : Type} {c : Char} {mark text : List Char} {P : List Char → α → Prop}
    {as : List α} (h : Separated (c :: mark) P text as) : as.length ≤ text.length + 1 := by
  induction h with
  | one _ => simp
  | more _ _ ih =>
    simp only [List.length_append, List.length_cons] at ih ⊢
    omega

/-- Neither empty nor with a blank in front. -/
def StartsUnblank : List Char → Prop
  | [] => False
  | c :: _ => isBlank c = false

theorem StartsUnblank.append {cs : List Char} (h : StartsUnblank cs) (ds : List Char) :
    StartsUnblank (cs ++ ds) := by
  cases cs with
  | nil => exact h.elim
  | cons c cs => exact h

/-- Neither empty nor with a blank at the end. -/
def EndsUnblank (cs : List Char) : Prop := ∃ front c, cs = front ++ [c] ∧ isBlank c = false

theorem EndsUnblank.append {cs : List Char} (h : EndsUnblank cs) (ds : List Char) :
    EndsUnblank (ds ++ cs) := by
  obtain ⟨front, c, rfl, hc⟩ := h
  exact ⟨ds ++ front, c, (List.append_assoc ds front [c]).symm, hc⟩

theorem isNamePart_of_isBlank {c : Char} (h : isBlank c = true) : Reader.isNamePart c = false := by
  simp only [isBlank, Bool.or_eq_true, beq_iff_eq] at h
  rcases h with ((rfl | rfl) | rfl) | rfl <;> decide

theorem isNamePart_of_isNameStart {c : Char} (h : Reader.isNameStart c = true) :
    Reader.isNamePart c = true := by
  simp only [Reader.isNameStart, Reader.isNamePart, Char.isAlphanum, Bool.or_eq_true] at h ⊢
  exact h.imp .inl id

theorem IsName.isNamePart {s : String} (h : IsName s) : ∀ c ∈ s.toList, Reader.isNamePart c = true := by
  obtain ⟨c, cs, hs, hc, hcs⟩ := h
  rw [hs]
  exact List.forall_mem_cons.mpr ⟨isNamePart_of_isNameStart hc, hcs⟩

theorem isBlank_of_isNamePart {c : Char} (h : Reader.isNamePart c = true) : isBlank c = false := by
  cases hb : isBlank c with
  | false => rfl
  | true =>
    rw [isNamePart_of_isBlank hb] at h
    contradiction

/-- A borrow sign, blanks and the word `mut` at the end: a blank after it would make the borrow one of
what comes after the blank. -/
def EndsInBareMut (cs : List Char) : Prop :=
  ∃ before bs, Blank bs ∧ cs = before ++ '&' :: (bs ++ ['m', 'u', 't'])

theorem EndsInBareMut.append {cs : List Char} (h : EndsInBareMut cs) (front : List Char) :
    EndsInBareMut (front ++ cs) := by
  obtain ⟨before, bs, hbs, rfl⟩ := h
  exact ⟨front ++ before, bs, hbs, (List.append_assoc _ _ _).symm⟩

theorem Blank.not_mem {bs : List Char} (h : Blank bs) {c : Char} (hc : isBlank c = false) : c ∉ bs := by
  intro hmem
  rw [h c hmem] at hc
  contradiction

/-- Only what follows the last borrow sign counts. -/
theorem endsInBareMut_append_iff {front cs : List Char} (h : '&' ∉ front) :
    EndsInBareMut (front ++ cs) ↔ EndsInBareMut cs := by
  constructor
  · rintro ⟨before, bs, hbs, heq⟩
    rcases List.append_eq_append_iff.mp heq with ⟨middle, -, rfl⟩ | ⟨middle, rfl, hcs⟩
    · exact ⟨middle, bs, hbs, rfl⟩
    · cases middle with
      | nil => exact ⟨[], bs, hbs, hcs.symm⟩
      | cons c middle =>
        obtain ⟨rfl, -⟩ := List.cons.inj hcs
        simp at h
  · exact fun hcs => hcs.append front

theorem not_endsInBareMut_concat {c : Char} (front : List Char) (h : c ≠ 't') :
    ¬ EndsInBareMut (front ++ [c]) := by
  rintro ⟨before, bs, -, heq⟩
  have hlast : front ++ [c] = (before ++ '&' :: (bs ++ ['m', 'u'])) ++ ['t'] := by simpa using heq
  exact h (List.cons.inj (List.append_inj' hlast rfl).2).1

/-- A word at the end after nothing or a colon. -/
theorem not_endsInBareMut_word {front word : List Char} (hw : ∀ c ∈ word, Reader.isNamePart c = true)
    (hf : front = [] ∨ ∃ front', front = front' ++ [':']) : ¬ EndsInBareMut (front ++ word) := by
  have hamp : '&' ∉ word := by
    intro hmem
    have hpart := hw _ hmem
    contradiction
  rintro ⟨before, bs, hbs, heq⟩
  rcases List.append_eq_append_iff.mp heq with ⟨middle, -, rfl⟩ | ⟨middle, hfront, hword⟩
  · simp at hamp
  · -- What stands between the borrow sign and the word has no colon in it.
    have hmiddle : ':' ∉ middle := by
      intro hmem
      have hcolon : ':' ∈ '&' :: (bs ++ ['m', 'u', 't']) := hword ▸ List.mem_append_left word hmem
      simp at hcolon
      exact hbs.not_mem rfl hcolon
    have hempty : middle = [] := by
      rcases hf with rfl | ⟨front', rfl⟩
      · exact (List.append_eq_nil_iff.mp hfront.symm).2
      · rcases List.eq_nil_or_concat middle with rfl | ⟨middle', c, rfl⟩
        · rfl
        · have hlast := congrArg List.getLast? hfront
          simp at hlast hmiddle
          exact absurd hlast hmiddle.2
    subst hempty
    rw [List.nil_append] at hword
    rw [← hword] at hamp
    simp at hamp

end Text

namespace Ty
open Text Text.Reader

section
variable (W : List Char → Ty → Prop)

/-- A type between blanks. -/
inductive WrittenSpaced : List Char → Ty → Prop
  | mk {before text after : List Char} {t : Ty} : Blank before → W text t → Blank after →
    (EndsInBareMut text → after = []) → WrittenSpaced (before ++ (text ++ after)) t

abbrev WrittenItems : List Char → List Ty → Prop := Separated [','] (WrittenSpaced W)

/-- Items, or blanks where there are none. -/
inductive WrittenList : List Char → List Ty → Prop
  | none {bs : List Char} : Blank bs → WrittenList bs []
  | some {text : List Char} {ts : List Ty} : WrittenItems W text ts → WrittenList text ts

/-- The decimal digits of a number. -/
structure WrittenSize (digits : List Char) (n : UInt64) : Prop where
  ne_nil : digits ≠ []
  isDigit : ∀ c ∈ digits, c.isDigit = true
  value : Nat.ofDigitChars 10 digits 0 = n.toNat

theorem WrittenSize.startsUnblank {digits : List Char} {n : UInt64} (h : WrittenSize digits n)
    (rest : List Char) : StartsUnblank (digits ++ rest) := by
  obtain ⟨c, cs, rfl⟩ := List.exists_cons_of_ne_nil h.ne_nil
  have hc : isNamePart c = true := by simp [isNamePart, Char.isAlphanum, h.isDigit c (.head _)]
  exact isBlank_of_isNamePart hc

/-- A name, with arguments or without. -/
inductive WrittenSegment : List Char → Segment → Prop
  | bare {name : String} : IsName name → WrittenSegment name.toList ⟨name, []⟩
  | args {name : String} {bs text : List Char} {ts : List Ty} : IsName name → Blank bs →
    WrittenList W text ts → WrittenSegment (name.toList ++ (bs ++ '<' :: (text ++ ['>']))) ⟨name, ts⟩

abbrev WrittenSegments : List Char → List Segment → Prop := Separated [':', ':'] (WrittenSegment W)

/-- The forms of a type whose parts are written as `W` says. -/
inductive WrittenForm : List Char → Ty → Prop
  | shared {bs text : List Char} {t : Ty} : Blank bs → W text t →
    (∀ c rest, text = 'm' :: 'u' :: 't' :: c :: rest → isBlank c = false) →
    WrittenForm ('&' :: (bs ++ text)) (borrow .shared t)
  | unique {bs bs' text : List Char} {t : Ty} : Blank bs → Blank bs' → bs' ≠ [] → W text t →
    WrittenForm ('&' :: (bs ++ 'm' :: 'u' :: 't' :: (bs' ++ text))) (borrow .unique t)
  | unit : WrittenForm ['(', ')'] unit
  | items {text : List Char} {ts : List Ty} : WrittenItems W text ts →
    WrittenForm ('(' :: (text ++ [')'])) (ofItems ts false)
  | itemsComma {text bs : List Char} {ts : List Ty} : WrittenList W text ts → Blank bs →
    WrittenForm ('(' :: (text ++ ',' :: (bs ++ [')']))) (ofItems ts true)
  | array {text : List Char} {t : Ty} : WrittenSpaced W text t →
    WrittenForm ('[' :: (text ++ [']'])) (array t none)
  | sizedArray {text bs digits bs' : List Char} {t : Ty} {n : UInt64} : WrittenSpaced W text t →
    Blank bs → WrittenSize digits n → Blank bs' →
    WrittenForm ('[' :: (text ++ ';' :: (bs ++ (digits ++ (bs' ++ [']']))))) (array t (some n))
  | relative {text : List Char} {segments : List Segment} : WrittenSegments W text segments →
    WrittenForm text (ofSegments false segments)
  | absolute {text : List Char} {segments : List Segment} : WrittenSegments W text segments →
    WrittenForm (':' :: ':' :: text) (ofSegments true segments)

end

section
variable {W V : List Char → Ty → Prop}

theorem WrittenSpaced.mono {text : List Char} {t : Ty} (h : WrittenSpaced W text t)
    (hWV : ∀ part u, part.length ≤ text.length → W part u → V part u) : WrittenSpaced V text t := by
  cases h with
  | mk hbefore ht hafter hmut =>
    refine .mk hbefore (hWV _ _ ?_ ht) hafter hmut
    simp only [List.length_append]
    omega

theorem WrittenItems.mono {text : List Char} {ts : List Ty} (h : WrittenItems W text ts)
    (hWV : ∀ part u, part.length ≤ text.length → W part u → V part u) : WrittenItems V text ts :=
  Separated.mono h fun _ _ hlen ht => ht.mono fun part u hpart => hWV part u (hpart.trans hlen)

theorem WrittenList.mono {text : List Char} {ts : List Ty} (h : WrittenList W text ts)
    (hWV : ∀ part u, part.length ≤ text.length → W part u → V part u) : WrittenList V text ts := by
  cases h with
  | none hbs => exact .none hbs
  | some hts => exact .some (hts.mono hWV)

theorem WrittenSegment.mono {text : List Char} {s : Segment} (h : WrittenSegment W text s)
    (hWV : ∀ part u, part.length < text.length → W part u → V part u) : WrittenSegment V text s := by
  cases h with
  | bare hname => exact .bare hname
  | args hname hbs hts =>
    simp only [List.length_append, List.length_cons] at hWV
    exact .args hname hbs (hts.mono fun part u hpart => hWV part u (by omega))

theorem WrittenSegments.mono {text : List Char} {segments : List Segment}
    (h : WrittenSegments W text segments)
    (hWV : ∀ part u, part.length < text.length → W part u → V part u) :
    WrittenSegments V text segments :=
  Separated.mono h fun _ _ hlen hs => hs.mono fun part u hpart => hWV part u (hpart.trans_le hlen)

/-- The parts of a type are written in less than the whole. -/
theorem WrittenForm.mono {text : List Char} {t : Ty} (h : WrittenForm W text t)
    (hWV : ∀ part u, part.length < text.length → W part u → V part u) : WrittenForm V text t := by
  cases h with
  | shared hbs ht hkind =>
    refine .shared hbs (hWV _ _ ?_ ht) hkind
    simp only [List.length_cons, List.length_append]
    omega
  | unique hbs hbs' hne ht =>
    refine .unique hbs hbs' hne (hWV _ _ ?_ ht)
    simp only [List.length_cons, List.length_append]
    omega
  | unit => exact .unit
  | items hts =>
    simp only [List.length_append, List.length_cons] at hWV
    exact .items (hts.mono fun part u hpart => hWV part u (by omega))
  | itemsComma hts hbs =>
    simp only [List.length_append, List.length_cons] at hWV
    exact .itemsComma (hts.mono fun part u hpart => hWV part u (by omega)) hbs
  | array ht =>
    simp only [List.length_append, List.length_cons] at hWV
    exact .array (ht.mono fun part u hpart => hWV part u (by omega))
  | sizedArray ht hbs hsize hbs' =>
    simp only [List.length_append, List.length_cons] at hWV
    exact .sizedArray (ht.mono fun part u hpart => hWV part u (by omega)) hbs hsize hbs'
  | relative hs => exact .relative (hs.mono hWV)
  | absolute hs =>
    simp only [List.length_cons] at hWV
    exact .absolute (hs.mono fun part u hpart => hWV part u (by omega))

theorem WrittenSpaced.prepend {text bs : List Char} {t : Ty} (h : WrittenSpaced W text t)
    (hbs : Blank bs) : WrittenSpaced W (bs ++ text) t := by
  cases h with
  | mk hbefore ht hafter hmut =>
    rw [← List.append_assoc]
    exact .mk (hbs.append hbefore) ht hafter hmut

theorem WrittenItems.prepend {text bs : List Char} {ts : List Ty} (h : WrittenItems W text ts)
    (hbs : Blank bs) : WrittenItems W (bs ++ text) ts := by
  cases h with
  | one ht => exact .one (ht.prepend hbs)
  | more ht hts =>
    rw [← List.append_assoc]
    exact .more (ht.prepend hbs) hts

theorem WrittenSegment.exists_nameStart {text : List Char} {s : Segment}
    (h : WrittenSegment W text s) : ∃ c cs, text = c :: cs ∧ isNameStart c = true := by
  cases h with
  | bare hname | args hname _ _ =>
    obtain ⟨c, cs, hcs, hc, -⟩ := hname
    rw [hcs]
    exact ⟨c, _, rfl, hc⟩

theorem WrittenSegments.exists_nameStart {text : List Char} {segments : List Segment}
    (h : WrittenSegments W text segments) : ∃ c cs, text = c :: cs ∧ isNameStart c = true := by
  cases h with
  | one hs => exact hs.exists_nameStart
  | more hs _ =>
    obtain ⟨c, cs, rfl, hc⟩ := hs.exists_nameStart
    exact ⟨c, _, rfl, hc⟩

theorem WrittenForm.startsUnblank {text : List Char} {t : Ty} (h : WrittenForm W text t) :
    StartsUnblank text := by
  cases h with
  | relative hs =>
    obtain ⟨c, cs, rfl, hc⟩ := hs.exists_nameStart
    exact isBlank_of_isNamePart (isNamePart_of_isNameStart hc)
  | _ => exact Eq.refl false

/-- A path ends with a bracket, or with a name that comes first in it or after a colon. -/
theorem WrittenSegments.closes {text : List Char} {segments : List Segment}
    (h : WrittenSegments W text segments) : (∃ front, text = front ++ ['>']) ∨
      ∃ front word, text = front ++ word ∧ word ≠ [] ∧ (∀ c ∈ word, isNamePart c = true) ∧
        (front = [] ∨ ∃ front', front = front' ++ [':']) := by
  induction h with
  | one hs =>
    cases hs with
    | @bare name hname =>
      refine .inr ⟨[], name.toList, rfl, ?_, hname.isNamePart, .inl rfl⟩
      obtain ⟨c, cs, hcs, -⟩ := hname
      rw [hcs]
      exact List.cons_ne_nil c cs
    | @args name bs inside ts hname _ _ =>
      exact .inl ⟨name.toList ++ (bs ++ '<' :: inside), by simp⟩
  | @more text rest s segments _ _ ih =>
    rcases ih with ⟨front, rfl⟩ | ⟨front, word, rfl, hne, hword, hfront⟩
    · exact .inl ⟨text ++ ([':', ':'] ++ front), by simp⟩
    · refine .inr ⟨text ++ ([':', ':'] ++ front), word, by simp, hne, hword, .inr ?_⟩
      rcases hfront with rfl | ⟨front', rfl⟩
      · exact ⟨text ++ [':'], by simp⟩
      · exact ⟨text ++ ([':', ':'] ++ front'), by simp⟩

theorem WrittenSegments.not_endsInBareMut {text : List Char} {segments : List Segment}
    (h : WrittenSegments W text segments) : ¬ EndsInBareMut text := by
  rcases h.closes with ⟨front, rfl⟩ | ⟨front, word, rfl, -, hword, hfront⟩
  · exact not_endsInBareMut_concat front (by decide)
  · exact not_endsInBareMut_word hword hfront

end

/-- The text of a type nested at most `n` deep. -/
def WrittenWithin : (n : Nat) → List Char → Ty → Prop
  | 0 => fun _ _ => False
  | n + 1 => WrittenForm (WrittenWithin n)

def Written (text : List Char) (t : Ty) : Prop := ∃ n, WrittenWithin n text t

theorem WrittenWithin.startsUnblank {n : Nat} {text : List Char} {t : Ty}
    (h : WrittenWithin n text t) : StartsUnblank text := by
  cases n with
  | zero => exact h.elim
  | succ n => exact WrittenForm.startsUnblank h

/-- The length of a text bounds how deep a type in it is nested. -/
theorem WrittenWithin.of_length_lt {n m : Nat} {text : List Char} {t : Ty}
    (h : WrittenWithin n text t) (hm : text.length < m) : WrittenWithin m text t := by
  induction m generalizing n text t with
  | zero => omega
  | succ m ih =>
    cases n with
    | zero => exact h.elim
    | succ n => exact WrittenForm.mono h fun part u hpart hu => ih hu (by omega)

theorem Written.spaced {text : List Char} {t : Ty} (h : Written text t) :
    WrittenSpaced Written text t := by
  have hmk := WrittenSpaced.mk blank_nil h blank_nil fun _ => rfl
  rwa [List.append_nil] at hmk

/-- A form of parts that are written down is written down. -/
theorem WrittenForm.written {text : List Char} {t : Ty} (h : WrittenForm Written text t) :
    Written text t :=
  ⟨text.length + 1, h.mono fun _ _ hpart ⟨_, hu⟩ => hu.of_length_lt hpart⟩

theorem WrittenSegments.endsUnblank {W : List Char → Ty → Prop} {text : List Char}
    {segments : List Segment} (h : WrittenSegments W text segments) : EndsUnblank text := by
  rcases h.closes with ⟨front, rfl⟩ | ⟨front, word, rfl, hne, hword, -⟩
  · exact ⟨front, '>', rfl, rfl⟩
  · have hlast := isBlank_of_isNamePart (hword _ (List.getLast_mem hne))
    have hends : EndsUnblank word :=
      ⟨word.dropLast, word.getLast hne, (List.dropLast_append_getLast hne).symm, hlast⟩
    exact hends.append front

theorem WrittenWithin.endsUnblank {n : Nat} {text : List Char} {t : Ty} (h : WrittenWithin n text t) :
    EndsUnblank text := by
  induction n generalizing text t with
  | zero => exact h.elim
  | succ n ih =>
    cases h with
    | @shared bs _ _ _ ht _ => exact (ih ht).append ('&' :: bs)
    | @unique bs bs' _ _ _ _ _ ht =>
      simpa using (ih ht).append ('&' :: (bs ++ 'm' :: 'u' :: 't' :: bs'))
    | unit => exact ⟨['('], ')', rfl, rfl⟩
    | @items text _ _ => exact ⟨'(' :: text, ')', rfl, rfl⟩
    | @itemsComma text bs _ _ _ => exact ⟨'(' :: (text ++ ',' :: bs), ')', by simp, rfl⟩
    | @array text _ _ => exact ⟨'[' :: text, ']', rfl, rfl⟩
    | @sizedArray text bs digits bs' _ _ _ _ _ _ =>
      exact ⟨'[' :: (text ++ ';' :: (bs ++ (digits ++ bs'))), ']', by simp, rfl⟩
    | relative hs => exact hs.endsUnblank
    | absolute hs => exact hs.endsUnblank.append [':', ':']

end Ty
end BorrowLang
