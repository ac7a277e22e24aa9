import BorrowLang.Proofs.TakenTexts

/-! Every text of the grammar of types reads as its type, wherever a type may end. -/
namespace BorrowLang
namespace Text

/-- What may follow a type: nothing, or a mark that belongs to a type around it. -/
def Ends : List Char → Prop
  | [] => True
  | c :: _ => c ∈ [',', ';', ')', ']', '>']

theorem ends_cons {c : Char} (cs : List Char) (h : c ∈ [',', ';', ')', ']', '>']) : Ends (c :: cs) := h

/-- A word does not go on in it. -/
def StopsWord : List Char → Prop
  | [] => True
  | c :: _ => Reader.isNamePart c = false

theorem Ends.skipBlanks_eq {cs : List Char} (h : Ends cs) : skipBlanks cs = cs := by
  cases cs with
  | nil => rfl
  | cons c cs =>
    simp only [Ends, List.mem_cons, List.not_mem_nil, or_false] at h
    rcases h with rfl | rfl | rfl | rfl | rfl <;> rfl

theorem Ends.stopsWord {cs : List Char} (h : Ends (skipBlanks cs)) : StopsWord cs := by
  cases cs with
  | nil => trivial
  | cons c cs =>
    cases hc : isBlank c with
    | true => exact isNamePart_of_isBlank hc
    | false =>
      rw [skipBlanks_cons cs hc] at h
      simp only [Ends, List.mem_cons, List.not_mem_nil, or_false] at h
      rcases h with rfl | rfl | rfl | rfl | rfl <;> exact Eq.refl false

theorem Ends.symbol_eq_none {c : Char} {cs : List Char} (h : Ends cs)
    (hc : c ∉ [',', ';', ')', ']', '>']) : Reader.symbol c cs = none := by
  cases cs with
  | nil => rfl
  | cons d cs =>
    have hne : c ≠ d := by
      rintro rfl
      exact hc h
    simp [Reader.symbol, hne]

theorem Blank.stopsWord_append {bs cs : List Char} (h : Blank bs) (hcs : StopsWord cs) :
    StopsWord (bs ++ cs) := by
  cases bs with
  | nil => exact hcs
  | cons c bs => exact isNamePart_of_isBlank (h c (.head _))

/-- What may follow a segment of a path: the same after blanks, or the next segment. -/
def FollowsSegment (cs : List Char) : Prop := Ends (skipBlanks cs) ∨ ∃ ds, cs = ':' :: ':' :: ds

theorem FollowsSegment.stopsWord {cs : List Char} (h : FollowsSegment cs) : StopsWord cs := by
  rcases h with h | ⟨ds, rfl⟩
  · exact Ends.stopsWord h
  · exact Eq.refl false

theorem FollowsSegment.symbol_eq_none {cs : List Char} (h : FollowsSegment cs) :
    Reader.symbol '<' (skipBlanks cs) = none := by
  rcases h with h | ⟨ds, rfl⟩
  · exact h.symbol_eq_none (by decide)
  · rfl

theorem StopsWord.takeWhile_append {cs : List Char} (h : StopsWord cs) {word : List Char}
    (hw : ∀ c ∈ word, Reader.isNamePart c = true) :
    (word ++ cs).takeWhile Reader.isNamePart = word := by
  rw [List.takeWhile_append_of_pos hw]
  cases cs with
  | nil => simp
  | cons c cs =>
    have hc : Reader.isNamePart c = false := h
    simp [hc]

theorem StopsWord.dropWhile_append {cs : List Char} (h : StopsWord cs) {word : List Char}
    (hw : ∀ c ∈ word, Reader.isNamePart c = true) :
    (word ++ cs).dropWhile Reader.isNamePart = cs := by
  rw [List.dropWhile_append_of_pos hw]
  cases cs with
  | nil => rfl
  | cons c cs =>
    have hc : Reader.isNamePart c = false := h
    simp [hc]

namespace Reader

theorem name_append {s : String} (h : IsName s) (rest : List Char) (hr : StopsWord rest) :
    name (s.toList ++ rest) = some (s, rest) := by
  obtain ⟨c, cs, hs, hc, hcs⟩ := h
  rw [hs, List.cons_append, name, if_pos hc, hr.takeWhile_append hcs, hr.dropWhile_append hcs, ← hs,
    String.ofList_toList]

section
variable {α : Type} {sep : Reader Unit} {item : Reader α} {c : Char} {mark : List Char}
  {P : List Char → α → Prop} {F : List Char → Prop} (hmark : ∀ more, F (c :: mark ++ more))
  (hsep : ∀ more, ∃ ds, sep (c :: mark ++ more) = some ((), ds) ∧ item ds = item more)
  (hitem : ∀ {text a rest}, P text a → F rest → item (text ++ rest) = some (a, rest))
include hmark hsep hitem

theorem sepTail_append {text rest : List Char} {as : List α} (h : Separated (c :: mark) P text as)
    (hr : F rest) (hstop : ∀ n, sepTail sep item n rest = ([], rest)) {n : Nat} (hn : as.length ≤ n) :
    sepTail sep item n (c :: mark ++ (text ++ rest)) = (as, rest) := by
  induction h generalizing n with
  | @one text a ha =>
    obtain ⟨n, rfl⟩ := Nat.exists_eq_succ_of_ne_zero (Nat.ne_zero_of_lt hn)
    obtain ⟨ds, hds, hsame⟩ := hsep (text ++ rest)
    rw [sepTail, hds]
    simp only [hsame, hitem ha hr, hstop]
  | @more text later a as ha _ ih =>
    obtain ⟨n, rfl⟩ := Nat.exists_eq_succ_of_ne_zero (Nat.ne_zero_of_lt hn)
    have hrest := ih (Nat.le_of_succ_le_succ hn)
    obtain ⟨ds, hds, hsame⟩ := hsep (text ++ (c :: mark ++ later) ++ rest)
    rw [sepTail, hds]
    simp only [hsame, List.append_assoc, hitem ha (hmark _), hrest]

theorem sepBy_append {text rest : List Char} {as : List α} (h : Separated (c :: mark) P text as)
    (hr : F rest) (hstop : ∀ n, sepTail sep item n rest = ([], rest)) :
    sepBy sep item (text ++ rest) = (as, rest) := by
  cases h with
  | one ha =>
    rw [sepBy, hitem ha hr]
    simp only [hstop]
  | @more text later a as ha has =>
    have hlen := has.length_le
    rw [sepBy, List.append_assoc, hitem ha (by rw [List.append_assoc]; exact hmark _)]
    simp only [List.append_assoc]
    rw [sepTail_append hmark hsep hitem has hr hstop]
    simp only [List.length_append, List.length_cons]
    omega

end

/-- A list that is not empty does not depend on what its first item does not depend on. -/
theorem sepBy_congr {α : Type} {sep : Reader Unit} {item : Reader α} {cs ds rest : List Char} {a : α}
    {as : List α} (hsame : item cs = item ds) (h : sepBy sep item ds = (a :: as, rest)) :
    sepBy sep item cs = (a :: as, rest) := by
  rw [sepBy] at h ⊢
  rw [hsame]
  cases hi : item ds with
  | none => simp [hi] at h
  | some found => rwa [hi] at h

theorem spaced_symbol_append {c : Char} {bs bs' : List Char} (hbs : Blank bs) (hbs' : Blank bs')
    (hc : isBlank c = false) (rest : List Char) :
    spaced (symbol c) (bs ++ c :: (bs' ++ rest)) = some ((), skipBlanks rest) := by
  rw [spaced, hbs.skipBlanks_append, skipBlanks_cons _ hc, symbol, if_pos rfl]
  simp only [Option.map_some, hbs'.skipBlanks_append]

end Reader
end Text

namespace Ty
open Text Text.Reader

section
variable {inner : Reader Ty} {c : Char} (cs : List Char)

theorem readBorrow_eq_none (h : c ≠ '&') : readBorrow inner (c :: cs) = none := by
  simp [readBorrow, h]

theorem readTuple_eq_none (h : c ≠ '(') : readTuple inner (c :: cs) = none := by
  simp [readTuple, h]

theorem readArray_eq_none (h : c ≠ '[') : readArray inner (c :: cs) = none := by
  simp [readArray, h]

theorem readRoot_cons (h : c ≠ ':') : readRoot (c :: cs) = (false, c :: cs) := by
  simp [readRoot, readColons, h]

theorem readPath_eq_none (hc : c ≠ ':') (hn : isNameStart c = false) :
    readPath inner (c :: cs) = none := by
  have hs : sepBy readColons (readSegment inner) (c :: cs) = ([], c :: cs) := by
    simp [sepBy, readSegment, name, hn]
  simp only [readPath, readRoot_cons cs hc, hs]

end

theorem read_of_readPath {n : Nat} {cs : List Char} {x : Ty × List Char}
    (h : readPath (read n) cs = some x) : read (n + 1) cs = some x := by
  cases cs with
  | nil => cases h
  | cons c cs =>
    have hc : c ≠ '&' ∧ c ≠ '(' ∧ c ≠ '[' := by
      refine ⟨?_, ?_, ?_⟩ <;> rintro rfl <;> cases h
    simp only [read, readBorrow_eq_none cs hc.1, readTuple_eq_none cs hc.2.1,
      readArray_eq_none cs hc.2.2, h]
    rfl

theorem read_of_readBorrow {n : Nat} {cs : List Char} {x : Ty × List Char}
    (h : readBorrow (read n) cs = some x) : read (n + 1) cs = some x := by
  simp only [read, h]
  rfl

theorem read_of_readTuple {n : Nat} {cs : List Char} {x : Ty × List Char}
    (h : readTuple (read n) ('(' :: cs) = some x) : read (n + 1) ('(' :: cs) = some x := by
  simp only [read, readBorrow_eq_none cs (show '(' ≠ '&' by decide), h]
  rfl

theorem read_of_readArray {n : Nat} {cs : List Char} {x : Ty × List Char}
    (h : readArray (read n) ('[' :: cs) = some x) : read (n + 1) ('[' :: cs) = some x := by
  simp only [read, readBorrow_eq_none cs (show '[' ≠ '&' by decide),
    readTuple_eq_none cs (show '[' ≠ '(' by decide), h]
  rfl

theorem read_eq_none {c : Char} (cs : List Char) (n : Nat)
    (h : c ∉ ['&', '(', '[', ':'] ∧ isNameStart c = false) : read n (c :: cs) = none := by
  simp only [List.mem_cons, List.not_mem_nil, or_false, not_or] at h
  obtain ⟨⟨hb, ht, ha, hp⟩, hn⟩ := h
  cases n with
  | zero => rfl
  | succ n =>
    simp only [read, readBorrow_eq_none cs hb, readTuple_eq_none cs ht, readArray_eq_none cs ha,
      readPath_eq_none cs hp hn]
    rfl

/-- Every text of a type nested at most `n` deep reads as it wherever it may end: not before a blank
after a borrow of a bare `mut`. -/
def ReadsWritten (n : Nat) : Prop := ∀ {text rest : List Char} {t : Ty}, WrittenWithin n text t →
  Ends (skipBlanks rest) → (EndsInBareMut text → skipBlanks rest = rest) →
    read n (text ++ rest) = some (t, rest)

theorem readArgs_eq_none {inner : Reader Ty} {rest : List Char}
    (h : symbol '<' (skipBlanks rest) = none) : readArgs inner rest = none := by
  have hopen : spaced (symbol '<') rest = none := by rw [spaced, h]; rfl
  rw [readArgs, hopen]

theorem readColons_eq_none {rest : List Char} (h : Ends (skipBlanks rest)) :
    readColons rest = none := by
  unfold readColons
  split
  · next cs =>
    rw [skipBlanks_cons _ rfl] at h
    simp [Ends] at h
  · rfl

/-- The list does not go on where neither a comma nor, after a comma, a type comes. -/
theorem sepTail_eq_nil {n : Nat} {rest : List Char} (h : symbol ',' (skipBlanks rest) = none)
    (k : Nat) : sepTail (spaced (symbol ',')) (spaced (read n)) k rest = ([], rest) := by
  cases k with
  | zero => rfl
  | succ k => rw [sepTail, Reader.spaced, h]; rfl

theorem size_append {digits rest : List Char} {n : UInt64} (h : WrittenSize digits n)
    (hr : StopsWord rest) : size (digits ++ rest) = some (n, rest) := by
  have hstop : rest.takeWhile Char.isDigit = [] ∧ rest.dropWhile Char.isDigit = rest := by
    cases rest with
    | nil => exact ⟨rfl, rfl⟩
    | cons c cs =>
      have hpart : isNamePart c = false := hr
      have hc : c.isDigit = false := by
        simp only [isNamePart, Char.isAlphanum, Bool.or_eq_false_iff] at hpart
        exact hpart.1.2
      simp [hc]
  have hlt : ¬ UInt64.size ≤ n.toNat := Nat.not_le.mpr n.toNat_lt
  rw [size, List.takeWhile_append_of_pos h.isDigit, List.dropWhile_append_of_pos h.isDigit, hstop.1,
    hstop.2, List.append_nil, h.value, if_neg (not_or.mpr ⟨h.ne_nil, hlt⟩)]
  simp

theorem readSize_append {bs digits bs' rest : List Char} {n : UInt64} (hbs : Blank bs)
    (hn : WrittenSize digits n) (hbs' : Blank bs') (hr : StopsWord rest) :
    readSize (';' :: (bs ++ (digits ++ (bs' ++ rest)))) = (some n, skipBlanks rest) := by
  have hmark := spaced_symbol_append (c := ';') blank_nil hbs rfl (digits ++ (bs' ++ rest))
  have hread := size_append hn (hbs'.stopsWord_append hr)
  rw [List.nil_append] at hmark
  rw [readSize, hmark]
  simp only [spaced, (hn.startsUnblank _).skipBlanks_eq, hread, Option.map_some,
    hbs'.skipBlanks_append]

theorem spaced_read_eq_none {n : Nat} {c : Char} {cs ds : List Char} (hcs : skipBlanks cs = c :: ds)
    (hc : c ∈ [',', ')', '>']) : spaced (read n) cs = none := by
  have hread : read n (c :: ds) = none := by
    apply read_eq_none
    simp only [List.mem_cons, List.not_mem_nil, or_false] at hc
    rcases hc with rfl | rfl | rfl <;> decide
  rw [spaced, hcs, hread]
  rfl

theorem readItems_eq_nil {inner : Reader Ty} {cs : List Char} (h : spaced inner cs = none) :
    readItems inner cs = ([], cs) := by
  rw [readItems, sepBy, h]

/-- After a borrow sign, a text that does not start with `mut` and a blank is all of the type. -/
theorem readKind_shared {n : Nat} {bs text rest : List Char} {t : Ty} (hbs : Blank bs)
    (ht : WrittenWithin n text t)
    (hword : ∀ c more, text = 'm' :: 'u' :: 't' :: c :: more → isBlank c = false)
    (hr : Ends (skipBlanks rest))
    (hmut : EndsInBareMut ('&' :: (bs ++ text)) → skipBlanks rest = rest) :
    readKind (text ++ rest) = (.shared, text ++ rest) := by
  have hstop (c : Char) (more : List Char) (htext : text = ['m', 'u', 't'])
      (hrest : rest = c :: more) : isBlank c = false := by
    subst htext hrest
    exact isBlank_of_skipBlanks_eq (hmut ⟨[], bs, hbs, rfl⟩)
  have hblank (c : Char) (more : List Char) (heq : text ++ rest = ['m', 'u', 't'] ++ c :: more) :
      isBlank c = false := by
    rcases List.append_eq_append_iff.mp heq with ⟨middle, hm, hrest⟩ | ⟨middle, htext, hc⟩
    · cases middle with
      | nil => exact hstop c more (by simpa using hm.symm) hrest
      | cons d middle =>
        -- The word would go on behind the type.
        have hd : isNamePart d = false := by
          have hstops := Ends.stopsWord hr
          rwa [hrest] at hstops
        have hmem : d ∈ ['m', 'u', 't'] := by rw [hm]; simp
        simp only [List.mem_cons, List.not_mem_nil, or_false] at hmem
        rcases hmem with rfl | rfl | rfl <;> contradiction
    · cases middle with
      | nil => exact hstop c more (by simpa using htext) hc.symm
      | cons d middle =>
        obtain ⟨rfl, -⟩ := List.cons.inj hc
        exact hword c middle htext
  unfold readKind
  split
  · next c more heq => rw [hblank c more heq, heq]; rfl
  · rfl

theorem readTuple_unit {n : Nat} (rest : List Char) :
    readTuple (read n) ('(' :: ')' :: rest) = some (unit, rest) := by
  have hitems : readItems (read n) (')' :: rest) = ([], ')' :: rest) :=
    readItems_eq_nil (spaced_read_eq_none rfl (by decide))
  have hcomma : spaced (symbol ',') (')' :: rest) = none := rfl
  simp only [readTuple, hitems, hcomma, ofItems]

section
variable {n : Nat} (h : ReadsWritten n)
include h

theorem spaced_append {text rest : List Char} {t : Ty} (ht : WrittenSpaced (WrittenWithin n) text t)
    (hr : Ends rest) : spaced (read n) (text ++ rest) = some (t, rest) := by
  cases ht with
  | @mk before text after _ hbefore ht hafter hmut =>
    have hskip : skipBlanks (after ++ rest) = rest :=
      (hafter.skipBlanks_append rest).trans hr.skipBlanks_eq
    have hread : read n (text ++ (after ++ rest)) = some (t, after ++ rest) := by
      refine h ht (by rwa [hskip]) fun hm => ?_
      rw [hmut hm]
      exact hr.skipBlanks_eq
    have hstart : skipBlanks (text ++ (after ++ rest)) = text ++ (after ++ rest) :=
      (ht.startsUnblank.append _).skipBlanks_eq
    rw [spaced, List.append_assoc, List.append_assoc, hbefore.skipBlanks_append, hstart, hread]
    simp only [Option.map_some, hskip]

/-- The list does not go on where neither a comma nor, after a comma, a type comes. -/
theorem readItems_append {text rest : List Char} {ts : List Ty}
    (hts : WrittenItems (WrittenWithin n) text ts) (hr : Ends rest)
    (hstop : ∀ k, sepTail (spaced (symbol ',')) (spaced (read n)) k rest = ([], rest)) :
    readItems (read n) (text ++ rest) = (ts, rest) := by
  have hsep (more : List Char) : ∃ ds, spaced (symbol ',') ([','] ++ more) = some ((), ds) ∧
      spaced (read n) ds = spaced (read n) more :=
    ⟨skipBlanks more, rfl, spaced_skipBlanks more⟩
  exact sepBy_append (fun more => ends_cons more (.head _)) hsep (spaced_append h) hts hr hstop

theorem readArgs_append {bs text : List Char} {ts : List Ty} (hbs : Blank bs)
    (hts : WrittenList (WrittenWithin n) text ts) (rest : List Char) :
    readArgs (read n) (bs ++ '<' :: (text ++ '>' :: rest)) = some (ts, rest) := by
  have hopen := spaced_symbol_append (c := '<') hbs blank_nil rfl (text ++ '>' :: rest)
  rw [List.nil_append] at hopen
  rw [readArgs, hopen]
  cases hts with
  | none htext =>
    have hitems : readItems (read n) ('>' :: rest) = ([], '>' :: rest) :=
      readItems_eq_nil (spaced_read_eq_none rfl (by decide))
    simp only [htext.skipBlanks_append, skipBlanks_cons rest (show isBlank '>' = false from rfl),
      hitems]
  | some hts =>
    have hitems := readItems_append h hts (ends_cons rest (show '>' ∈ _ by decide))
      (sepTail_eq_nil rfl)
    have hskip : readItems (read n) (skipBlanks (text ++ '>' :: rest)) = (ts, '>' :: rest) := by
      cases hts <;> exact sepBy_congr (spaced_skipBlanks _) hitems
    simp only [hskip]

theorem readSegment_append {text rest : List Char} {s : Segment}
    (hs : WrittenSegment (WrittenWithin n) text s) (hr : FollowsSegment rest) :
    readSegment (read n) (text ++ rest) = some (s, rest) := by
  cases hs with
  | bare hname =>
    have hread := name_append hname rest hr.stopsWord
    simp only [readSegment, hread, readArgs_eq_none hr.symbol_eq_none]
  | @args name bs inside ts hname hbs hts =>
    have hstops : StopsWord (bs ++ '<' :: (inside ++ '>' :: rest)) :=
      hbs.stopsWord_append (Eq.refl false)
    have hread := name_append hname _ hstops
    have hargs := readArgs_append h hbs hts rest
    simp only [List.append_assoc, List.cons_append, List.nil_append, readSegment, hread, hargs]

theorem readSegments_append {text rest : List Char} {segments : List Segment}
    (hs : WrittenSegments (WrittenWithin n) text segments) (hr : Ends (skipBlanks rest)) :
    sepBy readColons (readSegment (read n)) (text ++ rest) = (segments, rest) := by
  have hsep (more : List Char) : ∃ ds, readColons ([':', ':'] ++ more) = some ((), ds) ∧
      readSegment (read n) ds = readSegment (read n) more := ⟨more, rfl, rfl⟩
  have hstop (k : Nat) : sepTail readColons (readSegment (read n)) k rest = ([], rest) := by
    cases k with
    | zero => rfl
    | succ k => rw [sepTail, readColons_eq_none hr]
  exact sepBy_append (fun more => .inr ⟨more, rfl⟩) hsep (readSegment_append h) hs (.inl hr) hstop

theorem readPath_relative {text rest : List Char} {segments : List Segment}
    (hs : WrittenSegments (WrittenWithin n) text segments) (hr : Ends (skipBlanks rest)) :
    readPath (read n) (text ++ rest) = some (ofSegments false segments, rest) := by
  have hroot : readRoot (text ++ rest) = (false, text ++ rest) := by
    obtain ⟨c, cs, rfl, hc⟩ := hs.exists_nameStart
    refine readRoot_cons _ ?_
    rintro rfl
    contradiction
  have hread := readSegments_append h hs hr
  cases hs <;> simp only [readPath, hroot, hread]

theorem readPath_absolute {text rest : List Char} {segments : List Segment}
    (hs : WrittenSegments (WrittenWithin n) text segments) (hr : Ends (skipBlanks rest)) :
    readPath (read n) (':' :: ':' :: (text ++ rest)) = some (ofSegments true segments, rest) := by
  have hroot : readRoot (':' :: ':' :: (text ++ rest)) = (true, text ++ rest) := rfl
  have hread := readSegments_append h hs hr
  cases hs <;> simp only [readPath, hroot, hread]

theorem readBorrow_shared {bs text rest : List Char} {t : Ty} (hbs : Blank bs)
    (ht : WrittenWithin n text t)
    (hword : ∀ c more, text = 'm' :: 'u' :: 't' :: c :: more → isBlank c = false)
    (hr : Ends (skipBlanks rest))
    (hmut : EndsInBareMut ('&' :: (bs ++ text)) → skipBlanks rest = rest) :
    readBorrow (read n) ('&' :: (bs ++ (text ++ rest))) = some (borrow .shared t, rest) := by
  have hskip : skipBlanks (bs ++ (text ++ rest)) = text ++ rest :=
    (hbs.skipBlanks_append _).trans (ht.startsUnblank.append rest).skipBlanks_eq
  have hread := h ht hr fun hm => hmut (hm.append ('&' :: bs))
  simp only [readBorrow, hskip, readKind_shared hbs ht hword hr hmut, hread, Option.map_some]

theorem readBorrow_unique {bs bs' text rest : List Char} {t : Ty} (hbs : Blank bs) (hbs' : Blank bs')
    (hne : bs' ≠ []) (ht : WrittenWithin n text t) (hr : Ends (skipBlanks rest))
    (hmut : EndsInBareMut text → skipBlanks rest = rest) :
    readBorrow (read n) ('&' :: (bs ++ 'm' :: 'u' :: 't' :: (bs' ++ (text ++ rest)))) =
      some (borrow .unique t, rest) := by
  obtain ⟨b, bs', rfl⟩ := List.exists_cons_of_ne_nil hne
  obtain ⟨hb, hbs'⟩ := List.forall_mem_cons.mp hbs'
  have hskip : skipBlanks (bs ++ 'm' :: 'u' :: 't' :: b :: (bs' ++ (text ++ rest))) =
      'm' :: 'u' :: 't' :: b :: (bs' ++ (text ++ rest)) :=
    (hbs.skipBlanks_append _).trans (skipBlanks_cons _ rfl)
  have hrest : skipBlanks (bs' ++ (text ++ rest)) = text ++ rest :=
    (Blank.skipBlanks_append hbs' _).trans (ht.startsUnblank.append rest).skipBlanks_eq
  have hread := h ht hr hmut
  simp only [List.cons_append, readBorrow, hskip, readKind, hb, if_true, hrest, hread, Option.map_some]

theorem readTuple_items {text : List Char} {ts : List Ty}
    (hts : WrittenItems (WrittenWithin n) text ts) (rest : List Char) :
    readTuple (read n) ('(' :: (text ++ ')' :: rest)) = some (ofItems ts false, rest) := by
  have hitems := readItems_append h hts (ends_cons rest (show ')' ∈ _ by decide)) (sepTail_eq_nil rfl)
  have hcomma : spaced (symbol ',') (')' :: rest) = none := rfl
  simp only [readTuple, hitems, hcomma]

theorem readTuple_itemsComma {text bs : List Char} {ts : List Ty}
    (hts : WrittenList (WrittenWithin n) text ts) (hbs : Blank bs) (rest : List Char) :
    readTuple (read n) ('(' :: (text ++ ',' :: (bs ++ ')' :: rest))) =
      some (ofItems ts true, rest) := by
  cases hts with
  | none htext =>
    have hcomma := spaced_symbol_append (c := ',') htext hbs rfl (')' :: rest)
    have hitem : spaced (read n) (text ++ ',' :: (bs ++ ')' :: rest)) = none := by
      refine spaced_read_eq_none ((htext.skipBlanks_append _).trans (skipBlanks_cons _ rfl)) (by decide)
    rw [skipBlanks_cons rest rfl] at hcomma
    simp only [readTuple, readItems_eq_nil hitem, hcomma]
  | some hts =>
    have hcomma := spaced_symbol_append (c := ',') blank_nil hbs rfl (')' :: rest)
    rw [List.nil_append, skipBlanks_cons rest rfl] at hcomma
    have hitem : spaced (read n) (')' :: rest) = none := spaced_read_eq_none rfl (by decide)
    have hstop (k : Nat) : sepTail (spaced (symbol ',')) (spaced (read n)) k
        (',' :: (bs ++ ')' :: rest)) = ([], ',' :: (bs ++ ')' :: rest)) := by
      cases k with
      | zero => rfl
      | succ k => simp only [sepTail, hcomma, hitem]
    have hitems := readItems_append h hts (ends_cons _ (show ',' ∈ _ by decide)) hstop
    simp only [readTuple, hitems, hcomma]

theorem readArray_unsized {text : List Char} {t : Ty} (ht : WrittenSpaced (WrittenWithin n) text t)
    (rest : List Char) :
    readArray (read n) ('[' :: (text ++ ']' :: rest)) = some (array t none, rest) := by
  have hitem := spaced_append h ht (ends_cons rest (show ']' ∈ _ by decide))
  have hsize : readSize (']' :: rest) = (none, ']' :: rest) := rfl
  simp only [readArray, hitem, hsize]

theorem readArray_sized {text bs digits bs' : List Char} {t : Ty} {m : UInt64}
    (ht : WrittenSpaced (WrittenWithin n) text t) (hbs : Blank bs) (hm : WrittenSize digits m)
    (hbs' : Blank bs') (rest : List Char) :
    readArray (read n) ('[' :: (text ++ ';' :: (bs ++ (digits ++ (bs' ++ ']' :: rest))))) =
      some (array t (some m), rest) := by
  have hitem := spaced_append h ht
    (ends_cons (bs ++ (digits ++ (bs' ++ ']' :: rest))) (show ';' ∈ _ by decide))
  have hstops : StopsWord (']' :: rest) := Eq.refl false
  have hsize := readSize_append hbs hm hbs' hstops
  rw [skipBlanks_cons rest rfl] at hsize
  simp only [readArray, hitem, hsize]

end

/-- The grammar says all that is read of a text that ends there. -/
theorem reads_written (n : Nat) : ReadsWritten n := by
  induction n with
  | zero => exact fun h => h.elim
  | succ n ih =>
    intro text rest t ht hr hmut
    cases ht with
    | shared hbs ht hword =>
      have hread := readBorrow_shared ih hbs ht hword hr hmut
      simpa using read_of_readBorrow hread
    | @unique bs bs' text t hbs hbs' hne ht =>
      have hread := readBorrow_unique ih hbs hbs' hne ht hr fun hm => hmut ?_
      · simpa using read_of_readBorrow hread
      · simpa using hm.append ('&' :: (bs ++ 'm' :: 'u' :: 't' :: bs'))
    | unit => exact read_of_readTuple (readTuple_unit rest)
    | items hts =>
      have hread := readTuple_items ih hts rest
      simpa using read_of_readTuple hread
    | itemsComma hts hbs =>
      have hread := readTuple_itemsComma ih hts hbs rest
      simpa using read_of_readTuple hread
    | array ht =>
      have hread := readArray_unsized ih ht rest
      simpa using read_of_readArray hread
    | sizedArray ht hbs hm hbs' =>
      have hread := readArray_sized ih ht hbs hm hbs' rest
      simpa using read_of_readArray hread
    | relative hs => exact read_of_readPath (readPath_relative ih hs hr)
    | absolute hs => exact read_of_readPath (readPath_absolute ih hs hr)

/-- The texts that read as the type are those that the grammar has for it, with blanks around. -/
theorem parse?_eq_some_iff {cs : List Char} {t : Ty} :
    parse? cs = some t ↔ WrittenSpaced Written cs t := by
  constructor
  · intro h
    unfold parse? at h
    split at h
    · next hread =>
      cases h
      obtain ⟨text, rfl, htext, -⟩ := takes_spaced (takes_read _) hread
      rw [List.append_nil]
      exact htext.mono fun part u _ hpart => ⟨_, hpart⟩
    · contradiction
  · intro h
    have hwithin : WrittenSpaced (WrittenWithin (cs.length + 1)) cs t :=
      h.mono fun part u hlen ⟨n, hn⟩ => hn.of_length_lt (Nat.lt_succ_of_le hlen)
    have hend : Ends [] := trivial
    have hread := spaced_append (reads_written _) hwithin hend
    rw [List.append_nil] at hread
    rw [parse?, hread]

theorem parse_eq_ok_iff {source : String} {t : Ty} :
    parse source = .ok t ↔ WrittenSpaced Written source.toList t := by
  rw [← parse?_eq_some_iff, parse]
  cases parse? source.toList <;> simp

end Ty
end BorrowLang
