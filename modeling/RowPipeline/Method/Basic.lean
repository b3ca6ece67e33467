import RowPipeline.Error

namespace RowPipeline

-- `call` gets the values in the order of the rows, nulls included.
structure Method where
  name : String
  call : List Value → Except EvaluationError Value

-- The methods that clauses may name, in the order of their names.
structure Registry where
  methods : List Method

namespace Registry

def empty : Registry where
  methods := []

def get? (registry : Registry) (name : String) : Option Method :=
  registry.methods.find? (·.name = name)

def names (registry : Registry) : List String :=
  registry.methods.map (·.name)

-- A method replaces the one of its name.
def register (registry : Registry) (method : Method) : Registry where
  methods := go registry.methods
where
  go : List Method → List Method
    | [] => [method]
    | m :: ms =>
      if method.name = m.name then method :: ms
      else if method.name < m.name then method :: m :: ms
      else m :: go ms

theorem get?_register_self (registry : Registry) (method : Method) :
    (registry.register method).get? method.name = some method := by
  obtain ⟨methods⟩ := registry
  simp only [get?, register]
  induction methods with
  | nil => simp [register.go]
  | cons m ms ih =>
    simp only [register.go]
    split
    · simp
    · split
      · simp
      · rename_i hne _
        simpa [Ne.symm hne] using ih

theorem get?_register_of_ne {registry : Registry} {method : Method} {name : String}
    (h : name ≠ method.name) : (registry.register method).get? name = registry.get? name := by
  obtain ⟨methods⟩ := registry
  simp only [get?, register]
  induction methods with
  | nil => simp [register.go, Ne.symm h]
  | cons m ms ih =>
    simp only [register.go]
    split
    · rename_i he
      simp [← he, Ne.symm h]
    · split
      · simp [Ne.symm h]
      · simp only [List.find?_cons, ih]

def ofList (methods : List Method) : Registry :=
  methods.foldl register empty

end Registry
end RowPipeline
