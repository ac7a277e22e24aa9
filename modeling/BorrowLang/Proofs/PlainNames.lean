import Mathlib.Data.List.Find
import BorrowLang.Check.Pattern

/-!
Names that are not empty and have no colon can be read back from the key they are joined in. So paths
of such names are compared by their keys as they are by the items they name, where an impl block of a
trait is looked for and where a value is taken apart.
-/
namespace BorrowLang

/-- A name that is told from the separator of a key and from several names joined by it. -/
def PlainName (name : String) : Prop := name ≠ "" ∧ ':' ∉ name.toList

instance : DecidablePred PlainName := fun _ => inferInstanceAs (Decidable (_ ∧ _))

namespace Key

/-- The characters of the names, each with the separator in front. -/
def spell (names : List String) : List Char := names.flatMap fun name => ':' :: ':' :: name.toList

@[simp] theorem spell_nil : spell [] = [] := rfl

@[simp] theorem spell_cons (name : String) (names : List String) :
    spell (name :: names) = ':' :: ':' :: (name.toList ++ spell names) := by simp [spell]

theorem toList_intercalate_cons (name : String) (names : List String) :
    ("::".intercalate (name :: names)).toList = name.toList ++ spell names := by
  induction names generalizing name with
  | nil => simp
  | cons next names ih =>
    rw [String.intercalate_cons_cons, String.toList_append, ih]
    simp

theorem toList_ofNames (names : List String) :
    (ofNames names).toList = ':' :: ':' :: ("::".intercalate names).toList := by
  simp [ofNames]

theorem takeWhile_spell (names : List String) : (spell names).takeWhile (· != ':') = [] := by
  cases names with
  | nil => rfl
  | cons name names => simp

/-- A name without colon ends where the next separator starts. -/
theorem takeWhile_append_spell {name : String} (h : ':' ∉ name.toList) (names : List String) :
    (name.toList ++ spell names).takeWhile (· != ':') = name.toList := by
  have hname : ∀ c ∈ name.toList, (c != ':') = true := by
    intro c hc
    rw [bne_iff_ne]
    rintro rfl
    exact h hc
  rw [List.takeWhile_append_of_pos hname, takeWhile_spell, List.append_nil]

theorem append_spell_inj {m n : String} {ms ns : List String} (hm : ':' ∉ m.toList)
    (hn : ':' ∉ n.toList) (h : m.toList ++ spell ms = n.toList ++ spell ns) :
    m = n ∧ spell ms = spell ns := by
  have hname : m.toList = n.toList :=
    calc m.toList = (m.toList ++ spell ms).takeWhile (· != ':') := (takeWhile_append_spell hm ms).symm
      _ = (n.toList ++ spell ns).takeWhile (· != ':') := by rw [h]
      _ = n.toList := takeWhile_append_spell hn ns
  rw [hname] at h
  exact ⟨String.toList_inj.mp hname, List.append_cancel_left h⟩

section
variable {ms ns : List String} (hm : ∀ m ∈ ms, PlainName m) (hn : ∀ n ∈ ns, PlainName n)
include hm hn

theorem spell_inj (h : spell ms = spell ns) : ms = ns := by
  induction ms generalizing ns with
  | nil =>
    cases ns with
    | nil => rfl
    | cons n ns => cases h
  | cons m ms ih =>
    cases ns with
    | nil => cases h
    | cons n ns =>
      obtain ⟨hplain, hms⟩ := List.forall_mem_cons.mp hm
      obtain ⟨hplain', hns⟩ := List.forall_mem_cons.mp hn
      simp only [spell_cons, List.cons.injEq, true_and] at h
      obtain ⟨rfl, hrest⟩ := append_spell_inj hplain.2 hplain'.2 h
      rw [ih hms hns hrest]

/-- No names and the one empty name are joined alike; it is here that names must not be empty. -/
theorem intercalate_inj (h : "::".intercalate ms = "::".intercalate ns) : ms = ns := by
  have hne {name : String} {names : List String} (hname : PlainName name) :
      "::".intercalate (name :: names) ≠ "" := by
    intro hempty
    have hchars := congrArg String.toList hempty
    rw [toList_intercalate_cons] at hchars
    exact hname.1 (String.toList_eq_nil_iff.mp (List.append_eq_nil_iff.mp hchars).1)
  cases ms with
  | nil =>
    cases ns with
    | nil => rfl
    | cons n ns => exact absurd h.symm (hne (hn n (.head _)))
  | cons m ms =>
    cases ns with
    | nil => exact absurd h (hne (hm m (.head _)))
    | cons n ns =>
      have hchars := congrArg String.toList h
      rw [toList_intercalate_cons, toList_intercalate_cons] at hchars
      refine spell_inj hm hn ?_
      rw [spell_cons, spell_cons, hchars]

theorem ofNames_inj : ofNames ms = ofNames ns ↔ ms = ns := by
  refine ⟨fun h => intercalate_inj hm hn ?_, congrArg ofNames⟩
  have hchars := congrArg String.toList h
  simp only [toList_ofNames, List.cons.injEq, true_and] at hchars
  exact String.toList_inj.mp hchars

end

/-- The key of an absolute path starts with a colon, that of a relative path does not. -/
theorem ofNames_ne_intercalate (ms : List String) {ns : List String} (hn : ∀ n ∈ ns, PlainName n) :
    ofNames ms ≠ "::".intercalate ns := by
  intro h
  have hchars := congrArg String.toList h
  rw [toList_ofNames] at hchars
  cases ns with
  | nil => cases hchars
  | cons n ns =>
    obtain ⟨hne, hcolon⟩ := hn n (.head _)
    rw [toList_intercalate_cons] at hchars
    cases hname : n.toList with
    | nil => exact hne (String.toList_eq_nil_iff.mp hname)
    | cons c cs =>
      rw [hname, List.cons_append, List.cons.injEq] at hchars
      rw [hname, ← hchars.1] at hcolon
      exact hcolon (.head _)

end Key

namespace Path

/-- All names of the path are plain. -/
def Plain (p : Path) : Prop := ∀ name ∈ p.names, PlainName name

instance (p : Path) : Decidable p.Plain := inferInstanceAs (Decidable (∀ name ∈ p.names, _))

theorem key_eq_iff_sameItem {p q : Path} (hp : p.Plain) (hq : q.Plain) :
    p.key = q.key ↔ p.sameItem q = true := by
  refine ⟨fun h => (sameItem_iff p q).mpr ?_, key_eq_of_sameItem⟩
  cases hpa : p.absolute with
  | false =>
    rw [key_of_relative hpa] at h
    cases hqa : q.absolute with
    | false =>
      rw [key_of_relative hqa] at h
      exact ⟨rfl, Key.intercalate_inj hp hq h⟩
    | true =>
      rw [key_of_absolute hqa] at h
      exact absurd h.symm (Key.ofNames_ne_intercalate _ hp)
  | true =>
    rw [key_of_absolute hpa] at h
    cases hqa : q.absolute with
    | false =>
      rw [key_of_relative hqa] at h
      exact absurd h (Key.ofNames_ne_intercalate _ hq)
    | true =>
      rw [key_of_absolute hqa] at h
      exact ⟨rfl, (Key.ofNames_inj hp hq).mp h⟩

example : (ofNames false ["", "a"]).key = (ofNames true ["a"]).key := by decide
example : (ofNames true ["a::b"]).key = (ofNames true ["a", "b"]).key := by decide

end Path

section
variable {p q : Path}

theorem ImplSignature.isOf_some (d : ImplSignature) (hp : p.Plain)
    (hd : ∀ r ∈ d.traitPath, r.Plain) : d.isOf (some p) = d.traitPath.any p.sameItem := by
  unfold isOf
  cases hr : d.traitPath with
  | none => rfl
  | some r =>
    rw [Option.any_some, Bool.eq_iff_iff, beq_iff_eq]
    exact Path.key_eq_iff_sameItem hp (hd r hr)

theorem Symbols.impl?_some (s : Symbols) (t : Ty) (hp : p.Plain)
    (hs : ∀ d ∈ s.impls, ∀ r ∈ d.traitPath, r.Plain) : s.impl? (some p) t =
      s.impls.find? fun d => d.traitPath.any p.sameItem && (d.bindSelf? t).isSome :=
  List.find?_congr fun d hd => by rw [d.isOf_some hp (hs d hd)]

theorem Ty.argsOf_key {t : Ty} (hp : p.Plain) (hq : q.Plain) (ht : t.stripped = .path q)
    (span : Span) : t.argsOf p.key span =
      if p.sameItem q then .ok q.lastArgs else .error (.typeMismatch p.key q.display span) := by
  unfold argsOf
  rw [ht]
  simp only [eq_comm (a := q.key), Path.key_eq_iff_sameItem hp hq]

end
end BorrowLang
