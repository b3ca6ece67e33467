import RowPipeline.Value.Basic

namespace RowPipeline

namespace Members

def get? (ms : Members) (name : String) : Option Value :=
  ms.lookup name

-- Sets a member, at the place of its name in the order.
def insert (name : String) (value : Value) : Members → Members
  | [] => [(name, value)]
  | (other, v) :: rest =>
    if name = other then (name, value) :: rest
    else if name < other then (name, value) :: (other, v) :: rest
    else (other, v) :: insert name value rest

-- The names ascend, so each of them occurs once.
def Ordered (ms : Members) : Prop :=
  ms.Pairwise fun a b => a.1 < b.1

theorem get?_cons {name other : String} {value : Value} {ms : Members} :
    get? ((other, value) :: ms) name = if name = other then some value else ms.get? name := by
  rw [get?, List.lookup_cons]
  by_cases hn : name = other
  case pos => simp [hn]
  case neg => simp [get?, beq_false_of_ne hn, hn]

theorem get?_insert_self (name : String) (value : Value) (ms : Members) :
    (insert name value ms).get? name = some value := by
  induction ms with
  | nil => simp [insert, get?]
  | cons m ms ih =>
    obtain ⟨other, v⟩ := m
    simp only [insert]
    split
    · simp [get?]
    · split
      · simp [get?]
      · rename_i hne _
        simpa [get?, List.lookup_cons, beq_false_of_ne hne] using ih

theorem get?_insert_of_ne {name other : String} (h : other ≠ name) (value : Value) (ms : Members) :
    (insert name value ms).get? other = ms.get? other := by
  induction ms with
  | nil => simp [insert, get?, List.lookup_cons, beq_false_of_ne h]
  | cons m ms ih =>
    obtain ⟨k, v⟩ := m
    simp only [insert]
    split
    · rename_i he
      subst he
      simp [get?, List.lookup_cons, beq_false_of_ne h]
    · split
      · simp [get?, List.lookup_cons, beq_false_of_ne h]
      · by_cases hk : other = k
        · simp [get?, hk]
        · simpa [get?, List.lookup_cons, beq_false_of_ne hk] using ih

theorem mem_insert {name : String} {value : Value} {ms : Members} {m : String × Value}
    (h : m ∈ insert name value ms) : m = (name, value) ∨ m ∈ ms := by
  induction ms with
  | nil => simpa [insert] using h
  | cons k ms ih =>
    simp only [insert] at h
    split at h
    · rcases List.mem_cons.mp h with h | h
      · exact .inl h
      · exact .inr (List.mem_cons_of_mem _ h)
    · split at h
      · simpa using h
      · simp only [List.mem_cons] at h ⊢
        rcases h with h | h
        · exact .inr (.inl h)
        · rcases ih h with h | h
          · exact .inl h
          · exact .inr (.inr h)

theorem ordered_insert {ms : Members} (name : String) (value : Value) (h : Ordered ms) :
    Ordered (insert name value ms) := by
  induction ms with
  | nil => simp [insert, Ordered]
  | cons m ms ih =>
    obtain ⟨other, v⟩ := m
    obtain ⟨head, tail⟩ := List.pairwise_cons.mp h
    simp only [insert]
    split
    · rename_i he
      subst he
      exact List.pairwise_cons.mpr ⟨head, tail⟩
    · split
      · rename_i hlt
        refine List.pairwise_cons.mpr ⟨?_, h⟩
        intro m hm
        rcases List.mem_cons.mp hm with rfl | hm
        · exact hlt
        · exact String.lt_trans hlt (head m hm)
      · rename_i hne hnlt
        refine List.pairwise_cons.mpr ⟨?_, ih tail⟩
        intro m hm
        rcases mem_insert hm with rfl | hm
        · refine Decidable.byContradiction fun hngt => hne ?_
          exact String.le_antisymm (String.not_lt.mp hngt) (String.not_lt.mp hnlt)
        · exact head m hm

-- The last of several members of one name counts.
def ofList (ms : List (String × Value)) : Members :=
  ms.foldl (fun acc m => insert m.1 m.2 acc) []

theorem ordered_ofList (ms : List (String × Value)) : Ordered (ofList ms) := by
  suffices h : ∀ acc : Members, Ordered acc → Ordered (ms.foldl (fun acc m => insert m.1 m.2 acc) acc) from
    h [] List.Pairwise.nil
  induction ms with
  | nil => exact fun _ h => h
  | cons m ms ih => exact fun acc h => ih _ (ordered_insert _ _ h)

-- Writes a value below a chain of names. A value on the way that is no object gives way to one.
def setPath (ms : Members) : List String → Value → Members
  | [], _ => ms
  | [name], value => insert name value ms
  | name :: next :: rest, value =>
    let inner := ((get? ms name).getD .null).members
    insert name (.object (setPath inner (next :: rest) value)) ms

end Members

end RowPipeline
