import BorrowLang.Proofs.ReadTexts

/-!
The place at which a text that is not a type is refused. The readers of types are written once more,
now with the place of each failure: alternatives forget that of the first, what may be missing forgets
its own, a list that of all items but the first. They read the same, and what they leave of a refused
text is what `unread` says. The text before that place is the front of a type.
-/
namespace BorrowLang
namespace Text

namespace Reader

theorem symbol_cons_self (c : Char) (cs : List Char) : symbol c (c :: cs) = some ((), cs) := by
  simp [symbol]

theorem symbol_cases (c : Char) (cs : List Char) :
    (∃ rest, cs = c :: rest) ∨ (symbol c cs = none ∧ ∀ rest, cs ≠ c :: rest) := by
  cases cs with
  | nil => exact .inr ⟨rfl, fun rest h => nomatch h⟩
  | cons d cs =>
    by_cases hd : c = d
    · exact .inl ⟨cs, by rw [hd]⟩
    · exact .inr ⟨by simp [symbol, hd], fun rest h => hd (List.cons.inj h).1.symm⟩

end Reader

/-- A reader that fails with the text that is left at the place of the failure. -/
abbrev Locating := StateT (List Char) (Except (List Char))

namespace Locating
variable {α β : Type} {r : Locating α} {cs left rest : List Char}

/-- Marks, words and numbers fail where they start. -/
def ofReader (r : Reader α) : Locating α := fun cs =>
  match r cs with
  | some found => .ok found
  | none => .error cs

def blanks : Locating Unit := fun cs => .ok ((), skipBlanks cs)

def spaced (r : Locating α) : Locating α := do
  blanks
  let a ← r
  blanks
  return a

/-- Where both fail, the failure of the first is forgotten. -/
def orElse (first second : Locating α) : Locating α := fun cs =>
  match first cs with
  | .ok found => .ok found
  | .error _ => second cs

/-- Where it fails, all of the text is left. -/
def attempt (r : Locating α) : Locating (Option α) := fun cs =>
  match r cs with
  | .ok (a, rest) => .ok (some a, rest)
  | .error _ => .ok (none, cs)

/-- At most `n` items, each after a separator, up to the first that is missing. -/
def sepTail (sep : Locating Unit) (item : Locating α) : (n : Nat) → Locating (List α)
  | 0 => return []
  | n + 1 => do
    match ← attempt (do sep; item) with
    | some a =>
      let as ← sepTail sep item n
      return a :: as
    | none => return []

/-- A list with an item at least. -/
def sepBy1 (sep : Locating Unit) (item : Locating α) : Locating (List α) := do
  let a ← item
  let rest ← get
  let as ← sepTail sep item rest.length
  return a :: as

def sepBy (sep : Locating Unit) (item : Locating α) : Locating (List α) := do
  let items ← attempt (sepBy1 sep item)
  return items.getD []

/-- What it reads, without the places of its failures. -/
def toReader (r : Locating α) : Reader α := fun cs => (r cs).toOption

theorem toReader_eq_some_iff {a : α} : r.toReader cs = some (a, rest) ↔ r cs = .ok (a, rest) := by
  unfold toReader
  cases r cs <;> simp [Except.toOption]

theorem toReader_eq_none_iff : r.toReader cs = none ↔ ∃ left, r cs = .error left := by
  unfold toReader
  cases r cs <;> simp [Except.toOption]

theorem bind_apply (r : Locating α) (f : α → Locating β) (cs : List Char) :
    (r >>= f) cs = match r cs with
      | .ok (a, rest) => f a rest
      | .error left => .error left := by
  change (r cs >>= fun x => f x.1 x.2) = _
  cases r cs <;> rfl

@[simp] theorem toReader_pure (a : α) (cs : List Char) : toReader (pure a) cs = some (a, cs) := rfl

@[simp] theorem toReader_get (cs : List Char) : toReader get cs = some (cs, cs) := rfl

@[simp] theorem toReader_blanks (cs : List Char) : toReader blanks cs = some ((), skipBlanks cs) := rfl

@[simp] theorem toReader_bind (r : Locating α) (f : α → Locating β) (cs : List Char) :
    toReader (r >>= f) cs = (r.toReader cs).bind fun (a, rest) => (f a).toReader rest := by
  simp only [toReader, bind_apply]
  cases r cs <;> rfl

@[simp] theorem toReader_ofReader (r : Reader α) : toReader (ofReader r) = r := by
  funext cs
  simp only [toReader, ofReader]
  cases r cs <;> rfl

@[simp] theorem toReader_orElse (first second : Locating α) (cs : List Char) :
    toReader (orElse first second) cs = (first.toReader cs <|> second.toReader cs) := by
  simp only [toReader, orElse]
  cases first cs <;> rfl

@[simp] theorem toReader_attempt (r : Locating α) (cs : List Char) :
    toReader (attempt r) cs = some (match r.toReader cs with
      | some (a, rest) => (some a, rest)
      | none => (none, cs)) := by
  simp only [toReader, attempt]
  cases r cs <;> rfl

@[simp] theorem toReader_spaced (r : Locating α) : toReader (spaced r) = Reader.spaced r.toReader := by
  funext cs
  simp only [spaced, toReader_bind, toReader_blanks, toReader_pure, Option.bind_some, Reader.spaced]
  cases r.toReader (skipBlanks cs) <;> rfl

variable (sep : Locating Unit) (item : Locating α)

theorem toReader_sepTail (n : Nat) (cs : List Char) :
    toReader (sepTail sep item n) cs = some (Reader.sepTail sep.toReader item.toReader n cs) := by
  induction n generalizing cs with
  | zero => rfl
  | succ n ih =>
    simp only [sepTail, Reader.sepTail, toReader_bind, toReader_attempt, Option.bind_some]
    cases sep.toReader cs with
    | none => rfl
    | some found =>
      obtain ⟨⟨⟩, ds⟩ := found
      simp only [Option.bind_some]
      cases item.toReader ds with
      | none => rfl
      | some found =>
        obtain ⟨a, es⟩ := found
        simp only [toReader_bind, ih, Option.bind_some, toReader_pure]

theorem toReader_sepBy1 (cs : List Char) : toReader (sepBy1 sep item) cs =
    match Reader.sepBy sep.toReader item.toReader cs with
    | ([], _) => none
    | found => some found := by
  simp only [sepBy1, Reader.sepBy, toReader_bind, toReader_get, toReader_sepTail, toReader_pure,
    Option.bind_some]
  cases item.toReader cs <;> rfl

@[simp] theorem toReader_sepBy (cs : List Char) :
    toReader (sepBy sep item) cs = some (Reader.sepBy sep.toReader item.toReader cs) := by
  simp only [sepBy, toReader_bind, toReader_attempt, toReader_sepBy1, Option.bind_some, toReader_pure]
  cases hread : Reader.sepBy sep.toReader item.toReader cs with
  | mk items rest =>
    cases items with
    | nil =>
      have hitem : item.toReader cs = none := by
        cases hi : item.toReader cs with
        | none => rfl
        | some found => simp [Reader.sepBy, hi] at hread
      simp only [Reader.sepBy, hitem, Prod.mk.injEq, true_and] at hread
      simp [hread]
    | cons a items => rfl

theorem bind_eq_error {f : α → Locating β} (h : (r >>= f) cs = .error left) :
    r cs = .error left ∨ ∃ a rest, r cs = .ok (a, rest) ∧ f a rest = .error left := by
  rw [bind_apply] at h
  split at h
  · next a rest hr => exact .inr ⟨a, rest, hr, h⟩
  · next other hr =>
    cases h
    exact .inl hr

theorem ofReader_eq_error {r : Reader α} (h : ofReader r cs = .error left) : left = cs := by
  unfold ofReader at h
  split at h
  · contradiction
  · cases h
    rfl

theorem attempt_ne_error : attempt r cs ≠ .error left := by
  unfold attempt
  split <;> nofun

theorem orElse_eq_error {second : Locating α} (h : orElse r second cs = .error left) :
    second cs = .error left := by
  unfold orElse at h
  split at h
  · contradiction
  · exact h

theorem spaced_eq_error (h : spaced r cs = .error left) : r (skipBlanks cs) = .error left := by
  rcases bind_eq_error h with h | ⟨⟨⟩, rest, hrest, h⟩
  · contradiction
  · cases hrest
    rcases bind_eq_error h with h | ⟨a, later, -, h⟩
    · exact h
    · contradiction

variable {sep item}

theorem sepTail_ne_error {n : Nat} : sepTail sep item n cs ≠ .error left := by
  intro h
  have hnone := toReader_eq_none_iff.mpr ⟨left, h⟩
  rw [toReader_sepTail] at hnone
  contradiction

/-- Only the first item of a list can fail it. -/
theorem sepBy1_eq_error (h : sepBy1 sep item cs = .error left) : item cs = .error left := by
  rcases bind_eq_error h with h | ⟨a, rest, -, h⟩
  · exact h
  · rcases bind_eq_error h with h | ⟨more, rest, -, h⟩
    · contradiction
    · rcases bind_eq_error h with h | ⟨as, later, -, h⟩
      · exact (sepTail_ne_error h).elim
      · contradiction

end Locating
end Text

namespace Ty
open Text

section
open Text.Locating
variable (inner : Locating Ty)

def readMut : Reader Unit
  | 'm' :: 'u' :: 't' :: cs => some ((), cs)
  | _ => none

/-- One blank at least. -/
def readBlanks : Reader Unit
  | c :: cs => if isBlank c then some ((), skipBlanks cs) else none
  | [] => none

def locateMut : Locating Unit := do
  ofReader readMut
  ofReader readBlanks

def locateBorrow : Locating Ty := do
  ofReader (Reader.symbol '&')
  blanks
  let unique ← attempt locateMut
  let t ← inner
  return borrow (if unique.isSome then .unique else .shared) t

def locateItems : Locating (List Ty) :=
  sepBy (spaced (ofReader (Reader.symbol ','))) (spaced inner)

def locateTuple : Locating Ty := do
  ofReader (Reader.symbol '(')
  let items ← locateItems inner
  let trailing ← attempt (spaced (ofReader (Reader.symbol ',')))
  ofReader (Reader.symbol ')')
  return ofItems items trailing.isSome

def locateSize : Locating UInt64 := do
  spaced (ofReader (Reader.symbol ';'))
  spaced (ofReader Reader.size)

def locateArray : Locating Ty := do
  ofReader (Reader.symbol '[')
  let t ← spaced inner
  let size ← attempt locateSize
  ofReader (Reader.symbol ']')
  return array t size

def locateArgs : Locating (List Ty) := do
  spaced (ofReader (Reader.symbol '<'))
  let args ← locateItems inner
  ofReader (Reader.symbol '>')
  return args

def locateSegment : Locating Segment := do
  let name ← ofReader Reader.name
  let args ← attempt (locateArgs inner)
  return ⟨name, args.getD []⟩

def locatePath : Locating Ty := do
  let root ← attempt (ofReader readColons)
  let segments ← sepBy1 (ofReader readColons) (locateSegment inner)
  return ofSegments root.isSome segments

end

open Text.Locating

def locate : (n : Nat) → Locating Ty
  | 0 => ofReader fun _ => none
  | n + 1 => orElse (locateBorrow (locate n)) <| orElse (locateTuple (locate n)) <|
      orElse (locateArray (locate n)) (locatePath (locate n))

/-- A type and nothing behind it. -/
def locateAll : Locating Ty := do
  let source ← get
  let t ← spaced (locate (source.length + 1))
  ofReader fun cs => if cs = [] then some ((), cs) else none
  return t

theorem toReader_attempt_locateMut (cs : List Char) : toReader (attempt locateMut) cs =
    some (match readKind cs with
      | (.unique, rest) => (some (), rest)
      | (.shared, rest) => (none, rest)) := by
  simp only [locateMut, toReader_attempt, toReader_bind, toReader_ofReader]
  fun_cases readKind cs
  · next c cs hc => simp [readMut, readBlanks, hc]
  · next c cs hc => simp [readMut, readBlanks, hc]
  · next hword =>
    have hnone : (readMut cs).bind (fun x => readBlanks x.2) = none := by
      fun_cases readMut cs
      · next cs =>
        cases cs with
        | nil => rfl
        | cons c cs => exact absurd rfl (hword c cs)
      · rfl
    simp [hnone]

section
variable (inner : Locating Ty)

theorem toReader_locateBorrow : toReader (locateBorrow inner) = readBorrow inner.toReader := by
  funext cs
  obtain ⟨cs, rfl⟩ | ⟨hnone, hopen⟩ := Reader.symbol_cases '&' cs
  · simp only [locateBorrow, toReader_bind, toReader_ofReader, toReader_blanks,
      toReader_attempt_locateMut, toReader_pure, Reader.symbol_cons_self, Option.bind_some, readBorrow]
    rcases readKind (skipBlanks cs) with ⟨kind, rest⟩
    cases kind
    all_goals
      simp only
      cases inner.toReader rest <;> rfl
  · simp only [locateBorrow, toReader_bind, toReader_ofReader, hnone, Option.bind_none]
    unfold readBorrow
    split
    · exact absurd rfl (hopen _)
    · rfl

theorem toReader_locateTuple : toReader (locateTuple inner) = readTuple inner.toReader := by
  funext cs
  obtain ⟨cs, rfl⟩ | ⟨hnone, hopen⟩ := Reader.symbol_cases '(' cs
  · simp only [locateTuple, locateItems, toReader_bind, toReader_ofReader, toReader_sepBy,
      toReader_spaced, toReader_attempt, toReader_pure, Reader.symbol_cons_self, Option.bind_some,
      readTuple, readItems]
    rcases Reader.sepBy (Reader.spaced (Reader.symbol ',')) (Reader.spaced inner.toReader) cs with
      ⟨items, rest⟩
    rcases Reader.spaced (Reader.symbol ',') rest with _ | ⟨⟨⟩, later⟩
    · obtain ⟨later, rfl⟩ | ⟨hnone, hopen⟩ := Reader.symbol_cases ')' rest
      · rfl
      · simp only [hnone, Option.bind_none]
    · obtain ⟨later, rfl⟩ | ⟨hnone, hopen⟩ := Reader.symbol_cases ')' later
      · rfl
      · simp only [hnone, Option.bind_none]
        split
        · next heq =>
          cases heq
          exact absurd rfl (hopen _)
        · rfl
        · contradiction
  · simp only [locateTuple, toReader_bind, toReader_ofReader, hnone, Option.bind_none]
    unfold readTuple
    split
    · exact absurd rfl (hopen _)
    · rfl

theorem toReader_attempt_locateSize (cs : List Char) :
    toReader (attempt locateSize) cs = some (readSize cs) := by
  simp only [locateSize, toReader_attempt, toReader_bind, toReader_spaced, toReader_ofReader, readSize]
  rcases Reader.spaced (Reader.symbol ';') cs with _ | ⟨⟨⟩, rest⟩
  · rfl
  · simp only [Option.bind_some]
    cases Reader.spaced Reader.size rest <;> rfl

theorem toReader_locateArray : toReader (locateArray inner) = readArray inner.toReader := by
  funext cs
  obtain ⟨cs, rfl⟩ | ⟨hnone, hopen⟩ := Reader.symbol_cases '[' cs
  · simp only [locateArray, toReader_bind, toReader_ofReader, toReader_spaced,
      toReader_attempt_locateSize, toReader_pure, Reader.symbol_cons_self, Option.bind_some, readArray]
    rcases Reader.spaced inner.toReader cs with _ | ⟨t, rest⟩
    · rfl
    · simp only [Option.bind_some]
      rcases readSize rest with ⟨size, later⟩
      obtain ⟨later, rfl⟩ | ⟨hnone, hopen⟩ := Reader.symbol_cases ']' later
      · rfl
      · simp only [hnone, Option.bind_none]
        split
        · next heq =>
          cases heq
          exact absurd rfl (hopen _)
        · rfl
  · simp only [locateArray, toReader_bind, toReader_ofReader, hnone, Option.bind_none]
    unfold readArray
    split
    · exact absurd rfl (hopen _)
    · rfl

theorem toReader_locateArgs : toReader (locateArgs inner) = readArgs inner.toReader := by
  funext cs
  simp only [locateArgs, locateItems, toReader_bind, toReader_spaced, toReader_ofReader, toReader_sepBy,
    toReader_pure, readArgs, readItems]
  rcases Reader.spaced (Reader.symbol '<') cs with _ | ⟨⟨⟩, rest⟩
  · rfl
  · simp only [Option.bind_some]
    rcases Reader.sepBy (Reader.spaced (Reader.symbol ',')) (Reader.spaced inner.toReader) rest with
      ⟨args, later⟩
    obtain ⟨later, rfl⟩ | ⟨hnone, hopen⟩ := Reader.symbol_cases '>' later
    · rfl
    · simp only [hnone, Option.bind_none]
      split
      · next heq =>
        cases heq
        exact absurd rfl (hopen _)
      · rfl

theorem toReader_locateSegment : toReader (locateSegment inner) = readSegment inner.toReader := by
  funext cs
  simp only [locateSegment, toReader_bind, toReader_ofReader, toReader_attempt, toReader_locateArgs,
    toReader_pure, readSegment]
  rcases Reader.name cs with _ | ⟨name, rest⟩
  · rfl
  · simp only [Option.bind_some]
    cases readArgs inner.toReader rest <;> rfl

theorem toReader_locatePath : toReader (locatePath inner) = readPath inner.toReader := by
  funext cs
  simp only [locatePath, toReader_bind, toReader_attempt, toReader_ofReader, toReader_sepBy1,
    toReader_locateSegment, toReader_pure, Option.bind_some, readPath, readRoot]
  rcases readColons cs with _ | ⟨⟨⟩, rest⟩
  · rcases Reader.sepBy readColons (readSegment inner.toReader) cs with ⟨_ | ⟨s, segments⟩, rest⟩
    all_goals rfl
  · rcases Reader.sepBy readColons (readSegment inner.toReader) rest with ⟨_ | ⟨s, segments⟩, later⟩
    all_goals rfl

/-- Arguments that do not close are no failure of the segment. -/
theorem locateSegment_eq_error {cs left : List Char} (h : locateSegment inner cs = .error left) :
    left = cs := by
  rcases bind_eq_error h with h | ⟨name, rest, -, h⟩
  · exact ofReader_eq_error h
  · rcases bind_eq_error h with h | ⟨args, later, -, h⟩
    · exact (attempt_ne_error h).elim
    · contradiction

/-- A path fails where its first name is missing. -/
theorem locatePath_eq_error {cs left : List Char} (h : locatePath inner cs = .error left) :
    left = (readRoot cs).2 := by
  have hroot : ∃ root, attempt (ofReader readColons) cs = .ok (root, (readRoot cs).2) := by
    simp only [Locating.attempt, ofReader, readRoot]
    cases readColons cs <;> exact ⟨_, rfl⟩
  obtain ⟨root, hroot⟩ := hroot
  rcases bind_eq_error h with h | ⟨root', rest, hrest, h⟩
  · exact (attempt_ne_error h).elim
  · rw [hroot] at hrest
    cases hrest
    rcases bind_eq_error h with h | ⟨segments, later, -, h⟩
    · exact locateSegment_eq_error inner (sepBy1_eq_error h)
    · contradiction

end

theorem toReader_locate (n : Nat) : toReader (locate n) = read n := by
  induction n with
  | zero => rfl
  | succ n ih =>
    funext cs
    simp only [locate, read, toReader_orElse, toReader_locateBorrow, toReader_locateTuple,
      toReader_locateArray, toReader_locatePath, ih]

/-- Of the failures of all forms of a type, that of the path is left. -/
theorem locate_eq_error {n : Nat} {cs left : List Char} (h : locate (n + 1) cs = .error left) :
    left = (readRoot cs).2 :=
  locatePath_eq_error (locate n) (orElse_eq_error (orElse_eq_error (orElse_eq_error h)))

/-- The reader without places leaves unread what the failure leaves. -/
theorem locateAll_eq (cs : List Char) : locateAll cs = match parse? cs with
    | some t => .ok (t, [])
    | none => .error (unread cs) := by
  rw [locateAll, bind_apply]
  change (spaced (locate (cs.length + 1)) >>= _) cs = _
  rw [bind_apply, parse?, unread]
  cases hread : Reader.spaced (read (cs.length + 1)) cs with
  | none =>
    rw [← toReader_locate, ← toReader_spaced, toReader_eq_none_iff] at hread
    obtain ⟨left, hleft⟩ := hread
    have hplace := locate_eq_error (spaced_eq_error hleft)
    simp only [hleft, hplace]
  | some found =>
    obtain ⟨t, rest⟩ := found
    rw [← toReader_locate, ← toReader_spaced, toReader_eq_some_iff] at hread
    simp only [hread]
    cases rest <;> rfl

/-- Before the text that is left unread stands a type, or blanks and what a path may start with. -/
theorem exists_written_append_unread (cs : List Char) :
    ∃ front more t, cs = front ++ unread cs ∧ WrittenSpaced Written (front ++ more) t := by
  unfold unread
  cases hread : Reader.spaced (read (cs.length + 1)) cs with
  | some found =>
    obtain ⟨t, rest⟩ := found
    obtain ⟨text, htext, ht, -⟩ := takes_spaced (takes_read _) hread
    refine ⟨text, [], t, htext, ?_⟩
    rw [List.append_nil]
    exact ht.mono fun part u _ hpart => ⟨_, hpart⟩
  | none =>
    obtain ⟨bs, hbs, hcs⟩ := exists_blank_append cs
    have hname : WrittenSegments Written "a".toList [⟨"a", []⟩] :=
      .one (.bare ⟨'a', [], rfl, rfl, List.forall_mem_nil _⟩)
    rcases readRoot_cases (skipBlanks cs) with ⟨-, hroot⟩ | ⟨-, hroot⟩
    · have hpath := (WrittenForm.absolute hname).written.spaced.prepend hbs
      exact ⟨bs ++ [':', ':'], "a".toList, _, by simpa [← hroot] using hcs, by simpa using hpath⟩
    · have hpath := (WrittenForm.relative hname).written.spaced.prepend hbs
      exact ⟨bs, "a".toList, _, by rw [hroot]; exact hcs, hpath⟩

/-- The mark of a text that is refused runs from the place of the failure, which is one between
characters, to the end of the text; and what comes before that place is the front of a type. -/
theorem parse_refused {source : String} {e : SyntaxError} (h : parse source = .error e) :
    ∃ front back : String, source = front ++ back ∧ locateAll source.toList = .error back.toList ∧
      e.span = ⟨front.utf8ByteSize, source.utf8ByteSize⟩ ∧
      front.utf8ByteSize + back.utf8ByteSize = source.utf8ByteSize ∧
      ∃ more t, parse (front ++ more) = .ok t := by
  have hnone : parse? source.toList = none := by
    cases hread : parse? source.toList with
    | none => rfl
    | some t => simp [parse, hread] at h
  obtain ⟨front, more, t, hfront, ht⟩ := exists_written_append_unread source.toList
  have hsource : source = String.ofList front ++ String.ofList (unread source.toList) := by
    rw [← String.ofList_append, ← hfront, String.ofList_toList]
  have hsize : (String.ofList front).utf8ByteSize + byteLength (unread source.toList) =
      source.utf8ByteSize := by
    conv_rhs => rw [hsource]
    exact (String.utf8ByteSize_append).symm
  refine ⟨String.ofList front, String.ofList (unread source.toList), hsource, ?_, ?_, hsize,
    String.ofList more, t, ?_⟩
  · rw [locateAll_eq, hnone, String.toList_ofList]
  · rw [parse, hnone] at h
    cases h
    exact congrArg (Span.mk · source.utf8ByteSize) (Nat.sub_eq_of_eq_add hsize.symm)
  · rw [parse_eq_ok_iff, String.toList_append, String.toList_ofList, String.toList_ofList]
    exact ht

theorem parse_refused_trailing : parse "i32 >" = .error (unexpected "i32 >") ∧
    ∃ front back : String, "i32 >" = front ++ back ∧ locateAll "i32 >".toList = .error back.toList ∧
      (unexpected "i32 >").span = ⟨front.utf8ByteSize, "i32 >".utf8ByteSize⟩ ∧
      front.utf8ByteSize + back.utf8ByteSize = "i32 >".utf8ByteSize ∧
      ∃ more t, parse (front ++ more) = .ok t :=
  ⟨rfl, parse_refused rfl⟩

example : (unexpected "i32 >").span = ⟨4, 5⟩ := by decide
example : locateAll "&mut )".toList = .error "&mut )".toList := by rfl

end Ty
end BorrowLang
