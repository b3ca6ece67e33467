namespace RowPipeline

-- Values under names, each name once.
abbrev Table (α : Type u) := List (String × α)

namespace Table

def get? (table : Table α) (name : String) : Option α :=
  table.lookup name

def put (name : String) (value : α) (table : Table α) : Table α :=
  (name, value) :: table.filter (·.1 ≠ name)

def erase (name : String) (table : Table α) : Table α :=
  table.filter (·.1 ≠ name)

theorem get?_put_self (table : Table α) (name : String) (value : α) :
    (table.put name value).get? name = some value := by
  simp [get?, put]

theorem get?_erase_self (table : Table α) (name : String) : (table.erase name).get? name = none := by
  simp only [get?, erase, List.lookup_eq_none_iff, List.mem_filter]
  intro m hm
  simpa using Ne.symm (of_decide_eq_true hm.2)

theorem get?_erase_of_ne (table : Table α) {name other : String} (h : other ≠ name) :
    (table.erase name).get? other = table.get? other := by
  induction table with
  | nil => rfl
  | cons m ms ih =>
    obtain ⟨k, v⟩ := m
    by_cases hk : k = name
    · subst hk
      simpa [get?, erase, List.lookup_cons, beq_false_of_ne h] using ih
    · by_cases ho : other = k
      · simp [get?, erase, hk, ho]
      · simpa [get?, erase, List.lookup_cons, hk, beq_false_of_ne ho] using ih

theorem get?_put_of_ne (table : Table α) {name other : String} (h : other ≠ name) (value : α) :
    (table.put name value).get? other = table.get? other := by
  have := get?_erase_of_ne table h
  simpa [get?, put, erase, List.lookup_cons, beq_false_of_ne h] using this

end Table

end RowPipeline
