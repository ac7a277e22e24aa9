import BorrowLang.Ty.Basic

/-! Tables by key, in the order in which the keys were first entered. -/
namespace BorrowLang

abbrev Table (α : Type) := List (Key × α)

namespace Table
variable {α : Type}

def get? (t : Table α) (key : Key) : Option α := t.lookup key

/-- A key that is already there keeps its place and takes the new value. -/
def insert : Table α → Key → α → Table α
  | [], key, value => [(key, value)]
  | (k, v) :: t, key, value => if k = key then (k, value) :: t else (k, v) :: insert t key value

@[simp] theorem get?_nil (key : Key) : get? ([] : Table α) key = none := rfl

theorem get?_cons (t : Table α) (key k : Key) (value : α) :
    get? ((k, value) :: t) key = if key = k then some value else t.get? key := by
  by_cases h : key = k
  · simp [get?, h]
  · simp [get?, List.lookup_cons, beq_eq_false_iff_ne.mpr h, h]

theorem get?_insert (t : Table α) (key k : Key) (value : α) :
    (t.insert key value).get? k = if k = key then some value else t.get? k := by
  fun_induction insert t key value <;> grind [get?_cons, get?_nil]

/-- Of the entries made for a key the last one is found. -/
theorem get?_foldl_insert (entries : List (Key × α)) (t : Table α) (key : Key) :
    (entries.foldl (fun t e => t.insert e.1 e.2) t).get? key =
      (entries.reverse.lookup key).or (t.get? key) := by
  induction entries generalizing t with
  | nil => rfl
  | cons e entries ih =>
    have he : List.lookup key [e] = if key = e.1 then some e.2 else none := get?_cons [] key e.1 e.2
    rw [List.foldl_cons, ih, get?_insert, List.reverse_cons, List.lookup_append, Option.or_assoc, he]
    split <;> rfl

end Table
end BorrowLang
