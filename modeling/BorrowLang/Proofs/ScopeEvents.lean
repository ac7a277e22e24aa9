import Mathlib.Data.List.Induction
import BorrowLang.Syntax.Item

/-!
What happens to the scopes of a body, in the order in which its check comes to it, and which
declaration a name refers to: the latest one of the name whose scope is still open.
-/
namespace BorrowLang

inductive ScopeEvent
  | enter
  | leave
  | declare (name : String)
  | use (name : String)
deriving DecidableEq

namespace ScopeEvent

/-- What is open at the start is so throughout: at no point were more scopes closed than opened. -/
def StaysOpen (since : List ScopeEvent) : Prop :=
  ∀ n, (since.take n).count .leave ≤ (since.take n).count .enter

/-- Event `j` declares the name, in a scope that is still open after all these events. -/
structure OpenAt (before : List ScopeEvent) (name : String) (j : Nat) : Prop where
  declares : before[j]? = some (.declare name)
  open_since : StaysOpen (before.drop (j + 1))

/-- Event `j` is the latest open declaration of the name. -/
def Refers (before : List ScopeEvent) (name : String) (j : Nat) : Prop :=
  OpenAt before name j ∧ ∀ i, j < i → ¬OpenAt before name i

theorem Refers.unique {before : List ScopeEvent} {name : String} {i j : Nat}
    (hi : Refers before name i) (hj : Refers before name j) : i = j := by
  rcases Nat.lt_trichotomy i j with h | h | h
  · exact absurd hj.1 (hi.2 j h)
  · exact h
  · exact absurd hi.1 (hj.2 i h)

/-- A declaration that is open was so all the time since it was made. -/
theorem OpenAt.take {before : List ScopeEvent} {name : String} {j k : Nat}
    (h : OpenAt before name j) (hk : j < k) : OpenAt (before.take k) name j := by
  refine ⟨(List.getElem?_take_of_lt hk).trans h.declares, fun n => ?_⟩
  rw [List.drop_take, List.take_take]
  exact h.open_since _

/-- The open scopes after event `k`, as the declarations in them. -/
def step (k : Nat) (scopes : List (List Nat)) : ScopeEvent → List (List Nat)
  | enter => [] :: scopes
  | leave => scopes.tail
  | declare _ => (k :: scopes.headD []) :: scopes.tail
  | use _ => scopes

/-- The open scopes at the end, innermost first and in each the latest declaration first. -/
def opened (before : List ScopeEvent) : List (List Nat) :=
  before.zipIdx.foldl (fun scopes (e, k) => e.step k scopes) []

@[simp] theorem opened_nil : opened [] = [] := rfl

theorem opened_concat (before : List ScopeEvent) (e : ScopeEvent) :
    opened (before ++ [e]) = e.step before.length (opened before) := by
  simp [opened, List.zipIdx_append]

theorem staysOpen_nil : StaysOpen [] := by simp [StaysOpen]

theorem StaysOpen.count_le {since : List ScopeEvent} (h : StaysOpen since) :
    since.count .leave ≤ since.count .enter := by
  simpa using h since.length

theorem staysOpen_concat {since : List ScopeEvent} {e : ScopeEvent} :
    StaysOpen (since ++ [e]) ↔
      StaysOpen since ∧ (since ++ [e]).count .leave ≤ (since ++ [e]).count .enter := by
  constructor
  · intro h
    refine ⟨fun n => ?_, h.count_le⟩
    rcases Nat.le_total n since.length with hn | hn
    · have hle := h n
      rwa [List.take_append_of_le_length hn] at hle
    · have hle := h since.length
      rw [List.take_append_of_le_length (Nat.le_refl _), List.take_length] at hle
      rwa [List.take_of_length_le hn]
  · rintro ⟨h, hlast⟩ n
    rcases Nat.lt_or_ge since.length n with hn | hn
    · rwa [List.take_of_length_le (by rw [List.length_append]; exact hn)]
    · rw [List.take_append_of_le_length hn]
      exact h n

/-- The declaration is in the scope number `r`, counted from the innermost one. -/
def InScope (scopes : List (List Nat)) (r j : Nat) : Prop := ∃ row, scopes[r]? = some row ∧ j ∈ row

/-- An event moves the scopes of the declarations before it inwards or outwards. -/
theorem inScope_step {scopes : List (List Nat)} {e : ScopeEvent} {r j k : Nat} :
    InScope (e.step k scopes) r j ↔ (j = k ∧ r = 0 ∧ ∃ name, e = .declare name) ∨
      ∃ s, InScope scopes s j ∧ s + [e].count .enter = r + [e].count .leave := by
  cases e with
  | enter => cases r <;> simp [step, InScope]
  | leave => cases scopes <;> simp [step, InScope]
  | declare name => cases r <;> cases scopes <;> simp [step, InScope]
  | use name => simp [step, InScope]

/-- A declaration stays in its scope, below as many scopes as were opened since and not closed. -/
theorem inScope_opened {before : List ScopeEvent} {r j : Nat} :
    InScope (opened before) r j ↔ (∃ name, before[j]? = some (.declare name)) ∧
      StaysOpen (before.drop (j + 1)) ∧
      (before.drop (j + 1)).count .enter = (before.drop (j + 1)).count .leave + r := by
  induction before using List.reverseRecOn generalizing r with
  | nil => simp [InScope]
  | append_singleton before e ih =>
    rw [opened_concat, inScope_step]
    simp only [ih]
    rcases Nat.lt_trichotomy j before.length with hj | rfl | hj
    · have hdrop : (before ++ [e]).drop (j + 1) = before.drop (j + 1) ++ [e] :=
        List.drop_append_of_le_length hj
      rw [List.getElem?_append_left hj, hdrop, staysOpen_concat, List.count_append,
        List.count_append]
      constructor
      · rintro (⟨rfl, -⟩ | ⟨s, ⟨hd, hopen, hs⟩, hr⟩)
        · exact absurd hj (Nat.lt_irrefl _)
        · exact ⟨hd, ⟨hopen, by omega⟩, by omega⟩
      · rintro ⟨hd, ⟨hopen, -⟩, hr⟩
        have hle := hopen.count_le
        exact .inr ⟨(before.drop (j + 1)).count .enter - (before.drop (j + 1)).count .leave,
          ⟨hd, hopen, by omega⟩, by omega⟩
    · have hdrop : (before ++ [e]).drop (before.length + 1) = [] := by simp
      rw [hdrop]
      simp [staysOpen_nil, and_comm, eq_comm]
    · have hget : before[j]? = none := List.getElem?_eq_none (Nat.le_of_lt hj)
      have hget' : (before ++ [e])[j]? = none :=
        List.getElem?_eq_none (by rw [List.length_append]; exact hj)
      simp [hget, hget', Nat.ne_of_gt hj]

/-- The declarations in the open scopes, the latest first. -/
def openDeclarations (before : List ScopeEvent) : List Nat := (opened before).flatten

theorem flatten_declare {scopes : List (List Nat)} (k : Nat) :
    ((k :: scopes.headD []) :: scopes.tail).flatten = k :: scopes.flatten := by
  cases scopes <;> simp

theorem mem_openDeclarations {before : List ScopeEvent} {j : Nat} :
    j ∈ openDeclarations before ↔ ∃ name, OpenAt before name j := by
  have hscope : j ∈ openDeclarations before ↔ ∃ r, InScope (opened before) r j := by
    rw [openDeclarations, List.mem_flatten]
    constructor
    · rintro ⟨row, hrow, hj⟩
      obtain ⟨r, hr⟩ := List.mem_iff_getElem?.mp hrow
      exact ⟨r, row, hr, hj⟩
    · rintro ⟨r, row, hr, hj⟩
      exact ⟨row, List.mem_of_getElem? hr, hj⟩
  rw [hscope]
  constructor
  · rintro ⟨r, hr⟩
    obtain ⟨⟨name, hd⟩, hopen, -⟩ := inScope_opened.mp hr
    exact ⟨name, hd, hopen⟩
  · rintro ⟨name, hd, hopen⟩
    have hle := hopen.count_le
    exact ⟨(before.drop (j + 1)).count .enter - (before.drop (j + 1)).count .leave,
      inScope_opened.mpr ⟨⟨name, hd⟩, hopen, by omega⟩⟩

theorem openDeclarations_lt {before : List ScopeEvent} {j : Nat}
    (h : j ∈ openDeclarations before) : j < before.length := by
  obtain ⟨name, hd, -⟩ := mem_openDeclarations.mp h
  exact (List.getElem?_eq_some_iff.mp hd).1

/-- One event puts a declaration in front, or takes off those of the innermost scope. -/
theorem openDeclarations_concat (before : List ScopeEvent) (e : ScopeEvent) :
    openDeclarations (before ++ [e]) = before.length :: openDeclarations before ∨
      openDeclarations (before ++ [e]) <:+ openDeclarations before := by
  simp only [openDeclarations, opened_concat]
  cases e with
  | enter => exact .inr (List.suffix_refl _)
  | leave =>
    refine .inr ?_
    cases opened before with
    | nil => exact List.suffix_refl _
    | cons row rows => exact ⟨row, rfl⟩
  | declare name => exact .inl (flatten_declare _)
  | use name => exact .inr (List.suffix_refl _)

theorem pairwise_openDeclarations (before : List ScopeEvent) :
    (openDeclarations before).Pairwise (· > ·) := by
  induction before using List.reverseRecOn with
  | nil => exact .nil
  | append_singleton before e ih =>
    rcases openDeclarations_concat before e with h | h
    · rw [h]
      exact .cons (fun _ hj => openDeclarations_lt hj) ih
    · exact ih.sublist h.sublist

/-- Below an open declaration the same declarations are open as when it was made. -/
theorem exists_openDeclarations_eq {before : List ScopeEvent} {j : Nat}
    (hj : j ∈ openDeclarations before) :
    ∃ above, openDeclarations before = above ++ j :: openDeclarations (before.take j) := by
  induction before using List.reverseRecOn with
  | nil => simp [openDeclarations] at hj
  | append_singleton before e ih =>
    have hlt := openDeclarations_lt hj
    rw [List.length_append, List.length_singleton, Nat.lt_succ_iff] at hlt
    rw [List.take_append_of_le_length hlt]
    rcases openDeclarations_concat before e with h | ⟨closed, h⟩
    · rw [h, List.mem_cons] at hj
      rcases hj with rfl | hj
      · exact ⟨[], by rw [h, List.take_length]; rfl⟩
      · obtain ⟨above, ha⟩ := ih hj
        exact ⟨before.length :: above, by rw [h, ha]; rfl⟩
    · obtain ⟨above, ha⟩ := ih (h ▸ List.mem_append_right closed hj)
      have hnodup : (closed ++ openDeclarations (before ++ [e])).Nodup := by
        rw [h]
        exact (pairwise_openDeclarations before).imp Nat.ne_of_gt
      rw [← h, List.append_eq_append_iff] at ha
      obtain ⟨kept, -, hkept⟩ | ⟨lost, hlost, hrest⟩ := ha
      · exact ⟨kept, hkept⟩
      · cases lost with
        | nil => exact ⟨[], hrest.symm⟩
        | cons i lost =>
          obtain ⟨rfl, -⟩ := List.cons.inj hrest
          have hclosed : j ∈ closed := hlost ▸ List.mem_append_right above (.head lost)
          exact absurd rfl ((List.nodup_append.mp hnodup).2.2 j hclosed j hj)

/-- The declaration that a use of the name refers to. -/
def referent? (before : List ScopeEvent) (name : String) : Option Nat :=
  (openDeclarations before).find? fun j => before[j]? = some (.declare name)

theorem referent?_eq_some {before : List ScopeEvent} {name : String} {j : Nat} :
    referent? before name = some j ↔ Refers before name j := by
  have hsound {j : Nat} (h : referent? before name = some j) : Refers before name j := by
    obtain ⟨hj, later, earlier, hsplit, hlater⟩ := List.find?_eq_some_iff_append.mp h
    have hmem : j ∈ openDeclarations before := hsplit ▸ List.mem_append_right later (.head earlier)
    obtain ⟨_, -, hopen⟩ := mem_openDeclarations.mp hmem
    refine ⟨⟨of_decide_eq_true hj, hopen⟩, fun i hi hio => ?_⟩
    have hmem' : i ∈ openDeclarations before := mem_openDeclarations.mpr ⟨name, hio⟩
    have hsorted := pairwise_openDeclarations before
    rw [hsplit] at hmem' hsorted
    rcases List.mem_append.mp hmem' with h' | h'
    · simpa [hio.declares] using hlater i h'
    · rcases List.mem_cons.mp h' with rfl | h'
      · exact Nat.lt_irrefl i hi
      · have hlt := (List.pairwise_cons.mp (List.pairwise_append.mp hsorted).2.1).1 i h'
        exact Nat.lt_asymm hi hlt
  refine ⟨hsound, fun h => ?_⟩
  have hsome : (referent? before name).isSome := by
    rw [referent?, List.find?_isSome]
    exact ⟨j, mem_openDeclarations.mpr ⟨name, h.1⟩, decide_eq_true h.1.declares⟩
  obtain ⟨i, hi⟩ := Option.isSome_iff_exists.mp hsome
  rw [hi, (hsound hi).unique h]

instance (before : List ScopeEvent) (name : String) (j : Nat) : Decidable (Refers before name j) :=
  decidable_of_iff _ referent?_eq_some

end ScopeEvent
end BorrowLang
