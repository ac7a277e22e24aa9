import BorrowLang.Proofs.WrittenTypes

/-! What the readers take off a text is written as the grammar of types says. -/
namespace BorrowLang
namespace Text

/-- The blanks in front of a text. -/
theorem exists_blank_append (cs : List Char) : ∃ bs, Blank bs ∧ cs = bs ++ skipBlanks cs :=
  ⟨cs.takeWhile isBlank, List.all_eq_true.mp List.all_takeWhile,
    List.takeWhile_append_dropWhile.symm⟩

@[simp] theorem skipBlanks_skipBlanks (cs : List Char) : skipBlanks (skipBlanks cs) = skipBlanks cs :=
  List.dropWhile_idempotent isBlank cs

theorem Blank.skipBlanks_append {bs : List Char} (h : Blank bs) (cs : List Char) :
    skipBlanks (bs ++ cs) = skipBlanks cs :=
  List.dropWhile_append_of_pos h

theorem skipBlanks_cons {c : Char} (cs : List Char) (h : isBlank c = false) :
    skipBlanks (c :: cs) = c :: cs := by
  simp [skipBlanks, h]

theorem isBlank_of_skipBlanks_eq {c : Char} {cs : List Char} (h : skipBlanks (c :: cs) = c :: cs) :
    isBlank c = false := by
  cases hc : isBlank c with
  | false => rfl
  | true =>
    have hlen := (List.dropWhile_sublist isBlank (l := cs)).length_le
    rw [skipBlanks, List.dropWhile_cons_of_pos hc] at h
    rw [h, List.length_cons] at hlen
    omega

theorem StartsUnblank.skipBlanks_eq {cs : List Char} (h : StartsUnblank cs) : skipBlanks cs = cs := by
  cases cs with
  | nil => rfl
  | cons c cs => exact skipBlanks_cons cs h

section
variable {bs bs' text : List Char} (hbs : Blank bs)
include hbs

theorem endsInBareMut_of_shared (ht : StartsUnblank text) (h : EndsInBareMut ('&' :: (bs ++ text))) :
    text = ['m', 'u', 't'] ∨ EndsInBareMut text := by
  obtain ⟨before, bs'', hbs'', heq⟩ := h
  cases before with
  | nil =>
    have hskip := congrArg skipBlanks (List.cons.inj heq).2
    rw [hbs.skipBlanks_append, hbs''.skipBlanks_append, ht.skipBlanks_eq] at hskip
    exact .inl hskip
  | cons c before =>
    have hends : EndsInBareMut (bs ++ text) := ⟨before, bs'', hbs'', (List.cons.inj heq).2⟩
    exact .inr ((endsInBareMut_append_iff (hbs.not_mem rfl)).mp hends)

theorem endsInBareMut_of_unique (hbs' : Blank bs') (hne : bs' ≠ [])
    (h : EndsInBareMut ('&' :: (bs ++ 'm' :: 'u' :: 't' :: (bs' ++ text)))) : EndsInBareMut text := by
  have hstart : StartsUnblank ('m' :: 'u' :: 't' :: (bs' ++ text)) := Eq.refl false
  rcases endsInBareMut_of_shared hbs hstart h with heq | hends
  · simp [hne] at heq
  · have hamp : '&' ∉ ['m', 'u', 't'] ++ bs' := by simpa using hbs'.not_mem rfl
    refine (endsInBareMut_append_iff hamp).mp ?_
    simpa using hends

end

namespace Reader
variable {α : Type} {sep : Reader Unit} {item : Reader α}

/-- A mark is read after blanks and with those after it. -/
theorem spaced_symbol_eq_some {c : Char} {cs rest : List Char}
    (h : spaced (symbol c) cs = some ((), rest)) :
    ∃ ds, skipBlanks cs = c :: ds ∧ rest = skipBlanks ds := by
  rw [spaced] at h
  cases hcs : skipBlanks cs with
  | nil => simp [hcs, symbol] at h
  | cons d ds =>
    by_cases hd : c = d
    · subst hd
      simp only [hcs, symbol, if_true, Option.map_some, Option.some.injEq, Prod.mk.injEq,
        true_and] at h
      exact ⟨ds, rfl, h.symm⟩
    · simp [hcs, symbol, hd] at h

theorem spaced_skipBlanks (cs : List Char) : spaced item (skipBlanks cs) = spaced item cs := by
  rw [spaced, spaced, skipBlanks_skipBlanks]

section
variable {mark : List Char} {P : List Char → α → Prop} {Q : List Char → Prop}
  (hsep : ∀ {cs ds}, Q cs → sep cs = some ((), ds) → ∃ es, cs = mark ++ es ∧ item ds = item es)
  (hitem : ∀ {cs a rest}, item cs = some (a, rest) → ∃ text, cs = text ++ rest ∧ P text a ∧ Q rest)
include hsep hitem

theorem sepTail_takes {n : Nat} {cs rest : List Char} {as : List α} (hcs : Q cs)
    (h : sepTail sep item n cs = (as, rest)) : Q rest ∧
      ((as = [] ∧ rest = cs) ∨ ∃ text, cs = mark ++ (text ++ rest) ∧ Separated mark P text as) := by
  induction n generalizing cs as with
  | zero =>
    cases h
    exact ⟨hcs, .inl ⟨rfl, rfl⟩⟩
  | succ n ih =>
    rw [sepTail] at h
    cases hs : sep cs with
    | none =>
      simp only [hs] at h
      cases h
      exact ⟨hcs, .inl ⟨rfl, rfl⟩⟩
    | some found =>
      obtain ⟨⟨⟩, ds⟩ := found
      cases hi : item ds with
      | none =>
        simp only [hs, hi] at h
        cases h
        exact ⟨hcs, .inl ⟨rfl, rfl⟩⟩
      | some found =>
        obtain ⟨a, later⟩ := found
        simp only [hs, hi] at h
        cases h
        obtain ⟨es, rfl, hes⟩ := hsep hcs hs
        obtain ⟨text, rfl, ha, hlater⟩ := hitem (hes ▸ hi)
        obtain ⟨hrest, ⟨has, hsame⟩ | ⟨more, hmore, has⟩⟩ := ih hlater rfl
        · rw [has, hsame]
          exact ⟨hlater, .inr ⟨text, rfl, .one ha⟩⟩
        · refine ⟨hrest, .inr ⟨text ++ (mark ++ more), ?_, .more ha has⟩⟩
          rw [List.append_assoc, List.append_assoc, ← hmore]

theorem sepBy_takes {cs rest : List Char} {as : List α} (h : sepBy sep item cs = (as, rest)) :
    (as = [] ∧ rest = cs) ∨ (Q rest ∧ ∃ text, cs = text ++ rest ∧ Separated mark P text as) := by
  rw [sepBy] at h
  cases hi : item cs with
  | none =>
    simp only [hi] at h
    cases h
    exact .inl ⟨rfl, rfl⟩
  | some found =>
    obtain ⟨a, later⟩ := found
    simp only [hi] at h
    cases h
    obtain ⟨text, rfl, ha, hlater⟩ := hitem hi
    obtain ⟨hrest, ⟨has, hsame⟩ | ⟨more, hmore, has⟩⟩ := sepTail_takes hsep hitem hlater rfl
    · rw [has, hsame]
      exact .inr ⟨hlater, text, rfl, .one ha⟩
    · refine .inr ⟨hrest, text ++ (mark ++ more), ?_, .more ha has⟩
      rw [List.append_assoc, List.append_assoc, ← hmore]

end

theorem name_takes {cs rest : List Char} {s : String} (h : name cs = some (s, rest)) :
    IsName s ∧ cs = s.toList ++ rest := by
  refine ⟨gives_name.of_eq h, ?_⟩
  cases cs with
  | nil => contradiction
  | cons c cs =>
    rw [name] at h
    split at h
    · cases h
      rw [String.toList_ofList, List.cons_append, List.takeWhile_append_dropWhile]
    · contradiction

end Reader
end Text

namespace Ty
open Text Text.Reader

theorem size_takes {cs rest : List Char} {n : UInt64} (h : size cs = some (n, rest)) :
    ∃ digits, cs = digits ++ rest ∧ WrittenSize digits n := by
  rw [size] at h
  split at h
  · contradiction
  · next hsize =>
    obtain ⟨hne, hlt⟩ := not_or.mp hsize
    cases h
    refine ⟨_, List.takeWhile_append_dropWhile.symm, hne, List.all_eq_true.mp List.all_takeWhile, ?_⟩
    exact (UInt64.toNat_ofNat_of_lt' (Nat.not_le.mp hlt)).symm

theorem readRoot_cases (cs : List Char) :
    ((readRoot cs).1 = true ∧ cs = ':' :: ':' :: (readRoot cs).2) ∨
      ((readRoot cs).1 = false ∧ (readRoot cs).2 = cs) := by
  rw [readRoot]
  split
  · next hcolons =>
    unfold readColons at hcolons
    split at hcolons
    · cases hcolons
      exact .inl ⟨rfl, rfl⟩
    · contradiction
  · exact .inr ⟨rfl, rfl⟩

theorem readKind_cases (cs : List Char) :
    (∃ bs, Blank bs ∧ bs ≠ [] ∧ (readKind cs).1 = .unique ∧
      cs = 'm' :: 'u' :: 't' :: (bs ++ (readKind cs).2)) ∨
    ((readKind cs).1 = .shared ∧ (readKind cs).2 = cs ∧
      ∀ c rest, cs = 'm' :: 'u' :: 't' :: c :: rest → isBlank c = false) := by
  unfold readKind
  split
  · next c cs =>
    cases hc : isBlank c with
    | true =>
      obtain ⟨bs, hbs, hcs⟩ := exists_blank_append cs
      refine .inl ⟨c :: bs, List.forall_mem_cons.mpr ⟨hc, hbs⟩, List.cons_ne_nil c bs, rfl, ?_⟩
      simp only [if_true, List.cons_append, ← hcs]
    | false =>
      refine .inr ⟨rfl, rfl, fun d rest heq => ?_⟩
      simp only [List.cons.injEq, true_and] at heq
      exact heq.1 ▸ hc
  · next hword => exact .inr ⟨rfl, rfl, fun c rest heq => (hword c rest heq).elim⟩

/-- A semicolon that no size follows is left. -/
theorem readSize_cases {cs rest : List Char} {size : Option UInt64} (h : readSize cs = (size, rest)) :
    (size = none ∧ rest = cs) ∨ ∃ n bs digits bs', Blank bs ∧ WrittenSize digits n ∧ Blank bs' ∧
      size = some n ∧ skipBlanks cs = ';' :: (bs ++ (digits ++ (bs' ++ rest))) := by
  rw [readSize] at h
  split at h
  · cases h
    exact .inl ⟨rfl, rfl⟩
  · next later hmark =>
    obtain ⟨ds, hds, rfl⟩ := spaced_symbol_eq_some hmark
    split at h
    · cases h
      exact .inl ⟨rfl, rfl⟩
    · next n back hsize =>
      cases h
      rw [spaced_skipBlanks, spaced, Option.map_eq_some_iff] at hsize
      obtain ⟨⟨m, back'⟩, hm, heq⟩ := hsize
      cases heq
      obtain ⟨digits, hdigits, hn⟩ := size_takes hm
      obtain ⟨bs, hbs, hbs'⟩ := exists_blank_append ds
      obtain ⟨bs', hbs'', hback⟩ := exists_blank_append back'
      refine .inr ⟨n, bs, digits, bs', hbs, hn, hbs'', rfl, ?_⟩
      rw [hds, ← hback, ← hdigits, ← hbs']

/-- A form between brackets does not end in `mut`. -/
theorem takes_enclosed {W : List Char → Ty → Prop} {cs rest : List Char} {t : Ty} (first last : Char)
    (text : List Char) (hlast : last ≠ 't') (hcs : cs = first :: (text ++ last :: rest))
    (ht : WrittenForm W (first :: (text ++ [last])) t) :
    ∃ text, cs = text ++ rest ∧ WrittenForm W text t ∧ ¬ EndsInBareMut text :=
  ⟨first :: (text ++ [last]), by simp [hcs], ht, not_endsInBareMut_concat (first :: text) hlast⟩

/-- What the reader takes off a text is written as `W` says; it does not leave a blank after a borrow
of a bare `mut`. -/
structure Takes (inner : Reader Ty) (W : List Char → Ty → Prop) : Prop where
  startsUnblank : ∀ {text t}, W text t → StartsUnblank text
  of_eq : ∀ {cs t rest}, inner cs = some (t, rest) →
    ∃ text, cs = text ++ rest ∧ W text t ∧ (EndsInBareMut text → skipBlanks rest = rest)

section
variable {inner : Reader Ty} {W : List Char → Ty → Prop} (h : Takes inner W)
include h

theorem takes_spaced {cs rest : List Char} {t : Ty} (hr : spaced inner cs = some (t, rest)) :
    ∃ text, cs = text ++ rest ∧ WrittenSpaced W text t ∧ skipBlanks rest = rest := by
  rw [Reader.spaced, Option.map_eq_some_iff] at hr
  obtain ⟨⟨u, later⟩, hu, heq⟩ := hr
  cases heq
  obtain ⟨text, htext, ht, hmut⟩ := h.of_eq hu
  obtain ⟨before, hbefore, hcs⟩ := exists_blank_append cs
  obtain ⟨after, hafter, hlater⟩ := exists_blank_append later
  have hnone (hm : EndsInBareMut text) : after = [] := by
    rw [hmut hm] at hlater
    simpa using hlater
  refine ⟨before ++ (text ++ after), ?_, .mk hbefore ht hafter hnone, skipBlanks_skipBlanks later⟩
  rw [List.append_assoc, List.append_assoc, ← hlater, ← htext, ← hcs]

theorem takes_readItems {cs rest : List Char} {ts : List Ty} (hr : readItems inner cs = (ts, rest)) :
    (ts = [] ∧ rest = cs) ∨
      (skipBlanks rest = rest ∧ ∃ text, cs = text ++ rest ∧ WrittenItems W text ts) := by
  refine sepBy_takes (Q := fun rest => skipBlanks rest = rest) ?_ (takes_spaced h) hr
  intro cs ds hcs hds
  obtain ⟨es, hes, rfl⟩ := spaced_symbol_eq_some hds
  exact ⟨es, hcs.symm.trans hes, spaced_skipBlanks es⟩

theorem takes_readArgs {cs rest : List Char} {ts : List Ty} (hr : readArgs inner cs = some (ts, rest)) :
    ∃ bs text, Blank bs ∧ cs = bs ++ '<' :: (text ++ '>' :: rest) ∧ WrittenList W text ts := by
  rw [readArgs] at hr
  split at hr
  · contradiction
  · next after hopen =>
    obtain ⟨bs, hbs, hcs⟩ := exists_blank_append cs
    obtain ⟨ds, hds, rfl⟩ := spaced_symbol_eq_some hopen
    obtain ⟨bs', hbs', hds'⟩ := exists_blank_append ds
    split at hr
    · next hitems =>
      cases hr
      rw [hcs, hds, hds']
      rcases takes_readItems h hitems with ⟨rfl, hrest⟩ | ⟨-, text, htext, hts⟩
      · exact ⟨bs, bs', hbs, by rw [← hrest], .none hbs'⟩
      · exact ⟨bs, bs' ++ text, hbs, by rw [htext, List.append_assoc], .some (hts.prepend hbs')⟩
    · contradiction

theorem takes_readSegment {cs rest : List Char} {s : Segment}
    (hr : readSegment inner cs = some (s, rest)) :
    ∃ text, cs = text ++ rest ∧ WrittenSegment W text s := by
  rw [readSegment] at hr
  split at hr
  · contradiction
  · next name later hread =>
    obtain ⟨hname, rfl⟩ := name_takes hread
    split at hr
    · next hargs =>
      cases hr
      obtain ⟨bs, text, hbs, rfl, hts⟩ := takes_readArgs h hargs
      exact ⟨_, by simp, .args hname hbs hts⟩
    · cases hr
      exact ⟨_, rfl, .bare hname⟩

theorem takes_readSegments {cs rest : List Char} {segments : List Segment}
    (hr : sepBy readColons (readSegment inner) cs = (segments, rest)) (hne : segments ≠ []) :
    ∃ text, cs = text ++ rest ∧ WrittenSegments W text segments := by
  have hsep {cs ds : List Char} (_ : True) (hds : readColons cs = some ((), ds)) :
      ∃ es, cs = [':', ':'] ++ es ∧ readSegment inner ds = readSegment inner es := by
    unfold readColons at hds
    split at hds
    · cases hds
      exact ⟨ds, rfl, rfl⟩
    · contradiction
  have hitem {cs rest : List Char} {s : Segment} (hs : readSegment inner cs = some (s, rest)) :
      ∃ text, cs = text ++ rest ∧ WrittenSegment W text s ∧ True := by
    obtain ⟨text, htext, hwritten⟩ := takes_readSegment h hs
    exact ⟨text, htext, hwritten, trivial⟩
  rcases sepBy_takes (Q := fun _ => True) hsep hitem hr with ⟨rfl, -⟩ | ⟨-, htext⟩
  · contradiction
  · exact htext

theorem takes_readPath {cs rest : List Char} {t : Ty} (hr : readPath inner cs = some (t, rest)) :
    ∃ text, cs = text ++ rest ∧ WrittenForm W text t ∧ ¬ EndsInBareMut text := by
  rw [readPath] at hr
  cases hread : sepBy readColons (readSegment inner) (readRoot cs).2 with
  | mk segments later =>
    simp only [hread] at hr
    split at hr
    · contradiction
    · next hne heq =>
      cases heq
      cases hr
      obtain ⟨text, htext, hsegments⟩ := takes_readSegments h hread hne
      have hmut := hsegments.not_endsInBareMut
      rcases readRoot_cases cs with ⟨hroot, hcs⟩ | ⟨hroot, hcs⟩
      · rw [hroot, hcs, htext]
        refine ⟨':' :: ':' :: text, rfl, .absolute hsegments, ?_⟩
        have hfront : '&' ∉ [':', ':'] := by decide
        exact fun hm => hmut ((endsInBareMut_append_iff hfront).mp hm)
      · rw [hroot, ← hcs, htext]
        exact ⟨text, rfl, .relative hsegments, hmut⟩

theorem takes_readBorrow {cs rest : List Char} {t : Ty} (hr : readBorrow inner cs = some (t, rest)) :
    ∃ text, cs = text ++ rest ∧ WrittenForm W text t ∧
      (EndsInBareMut text → skipBlanks rest = rest) := by
  unfold readBorrow at hr
  split at hr
  · next cs =>
    rw [Option.map_eq_some_iff] at hr
    obtain ⟨⟨u, later⟩, hu, heq⟩ := hr
    cases heq
    obtain ⟨text, htext, ht, hmut⟩ := h.of_eq hu
    obtain ⟨bs, hbs, hcs⟩ := exists_blank_append cs
    rcases readKind_cases (skipBlanks cs) with ⟨bs', hbs', hne, hkind, hskip⟩ | ⟨hkind, hskip, hword⟩
    · rw [hkind, hcs, hskip, htext]
      exact ⟨'&' :: (bs ++ 'm' :: 'u' :: 't' :: (bs' ++ text)), by simp, .unique hbs hbs' hne ht,
        fun hm => hmut (endsInBareMut_of_unique hbs hbs' hne hm)⟩
    · rw [hskip] at htext
      rw [hkind, hcs, htext]
      refine ⟨'&' :: (bs ++ text), by simp, .shared hbs ht ?_, ?_⟩
      · intro c more hc
        exact hword c (more ++ rest) (by rw [htext, hc]; rfl)
      · intro hm
        rcases endsInBareMut_of_shared hbs (h.startsUnblank ht) hm with rfl | hm
        · cases rest with
          | nil => rfl
          | cons c more => exact skipBlanks_cons more (hword c more htext)
        · exact hmut hm
  · contradiction

theorem takes_readTuple {cs rest : List Char} {t : Ty} (hr : readTuple inner cs = some (t, rest)) :
    ∃ text, cs = text ++ rest ∧ WrittenForm W text t ∧ ¬ EndsInBareMut text := by
  unfold readTuple at hr
  split at hr
  · next cs =>
    cases hitems : readItems inner cs with
    | mk ts later =>
      simp only [hitems] at hr
      split at hr
      · next hcomma =>
        cases hr
        obtain ⟨ds, hlater, hds⟩ := spaced_symbol_eq_some hcomma
        obtain ⟨bs, hbs, hds'⟩ := exists_blank_append ds
        rw [← hds] at hds'
        rcases takes_readItems h hitems with ⟨rfl, rfl⟩ | ⟨hskip, text, rfl, hts⟩
        · obtain ⟨bs', hbs', hcs⟩ := exists_blank_append later
          refine takes_enclosed '(' ')' (bs' ++ ',' :: bs) (by decide) ?_ ?_
          · rw [hcs, hlater, hds']
            simp
          · simpa using WrittenForm.itemsComma (.none hbs') hbs
        · refine takes_enclosed '(' ')' (text ++ ',' :: bs) (by decide) ?_ ?_
          · rw [← hskip, hlater, hds']
            simp
          · simpa using WrittenForm.itemsComma (.some hts) hbs
      · contradiction
      · split at hr
        · cases hr
          rcases takes_readItems h hitems with ⟨rfl, rfl⟩ | ⟨-, text, rfl, hts⟩
          · exact takes_enclosed '(' ')' [] (by decide) rfl .unit
          · exact takes_enclosed '(' ')' text (by decide) rfl (.items hts)
        · contradiction
  · contradiction

theorem takes_readArray {cs rest : List Char} {t : Ty} (hr : readArray inner cs = some (t, rest)) :
    ∃ text, cs = text ++ rest ∧ WrittenForm W text t ∧ ¬ EndsInBareMut text := by
  unfold readArray at hr
  split at hr
  · next cs =>
    split at hr
    · contradiction
    · next u later hu =>
      obtain ⟨text, rfl, ht, hskip⟩ := takes_spaced h hu
      split at hr
      · next size rest' hsize =>
        cases hr
        rcases readSize_cases hsize with
          ⟨rfl, rfl⟩ | ⟨n, bs, digits, bs', hbs, hdigits, hbs', rfl, hlater⟩
        · exact takes_enclosed '[' ']' text (by decide) rfl (.array ht)
        · rw [hskip] at hlater
          refine takes_enclosed '[' ']' (text ++ ';' :: (bs ++ (digits ++ bs'))) (by decide) ?_ ?_
          · simp [hlater]
          · simpa using WrittenForm.sizedArray ht hbs hdigits hbs'
      · contradiction
  · contradiction

end

/-- What is read of a text is written as the grammar says. -/
theorem takes_read (n : Nat) : Takes (read n) (WrittenWithin n) := by
  induction n with
  | zero => exact ⟨fun h => h.elim, fun h => nomatch h⟩
  | succ n ih =>
    refine ⟨fun h => WrittenForm.startsUnblank h, fun {cs t rest} hr => ?_⟩
    have hopen {P : List Char → Prop} (h : ∃ text, cs = text ++ rest ∧ P text ∧ ¬ EndsInBareMut text) :
        ∃ text, cs = text ++ rest ∧ P text ∧ (EndsInBareMut text → skipBlanks rest = rest) := by
      obtain ⟨text, htext, hP, hmut⟩ := h
      exact ⟨text, htext, hP, fun hm => (hmut hm).elim⟩
    simp only [read, Option.orElse_eq_orElse, Option.orElse_eq_or, Option.or_eq_some_iff] at hr
    rcases hr with hr | ⟨-, hr | ⟨-, hr | ⟨-, hr⟩⟩⟩
    · exact takes_readBorrow ih hr
    · exact hopen (takes_readTuple ih hr)
    · exact hopen (takes_readArray ih hr)
    · exact hopen (takes_readPath ih hr)

end Ty
end BorrowLang
