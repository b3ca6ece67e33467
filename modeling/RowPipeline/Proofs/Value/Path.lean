import RowPipeline.Value.Members

namespace RowPipeline

namespace Value

def at? : Value → List String → Option Value
  | value, [] => some value
  | value, name :: rest => (value.members.get? name).bind fun inner => inner.at? rest

-- Something other than null stands there.
def reaches (value : Value) (names : List String) : Bool :=
  (value.at? names).any fun inner => !inner.isNull

@[simp]
theorem at?_nil (value : Value) : value.at? [] = some value :=
  rfl

@[simp]
theorem at?_cons (value : Value) (name : String) (rest : List String) :
    value.at? (name :: rest) = (value.members.get? name).bind fun inner => inner.at? rest :=
  rfl

theorem at?_append (value : Value) (names rest : List String) :
    value.at? (names ++ rest) = (value.at? names).bind fun inner => inner.at? rest := by
  induction names generalizing value with
  | nil => rfl
  | cons name names ih =>
    rw [List.cons_append, at?_cons, at?_cons]
    cases value.members.get? name with
    | none => rfl
    | some inner => exact ih inner

-- Only objects have something below them.
theorem at?_of_members_eq_nil {value : Value} (h : value.members = []) {names : List String} (hn : names ≠ []) :
    value.at? names = none := by
  cases names with
  | nil => contradiction
  | cons name rest => rw [at?_cons, h]; rfl

theorem members_of_isNull {value : Value} (h : value.isNull) : value.members = [] := by
  cases value with
  | null => rfl
  | _ => cases h

theorem reaches_nil (value : Value) : value.reaches [] = !value.isNull :=
  rfl

theorem reaches_append {value inner : Value} {names : List String} (h : value.at? names = some inner)
    (rest : List String) : value.reaches (names ++ rest) = inner.reaches rest := by
  simp only [reaches, at?_append, h, Option.bind_some]

theorem reaches_append_of_none {value : Value} {names : List String} (h : value.at? names = none)
    (rest : List String) : value.reaches (names ++ rest) = false := by
  simp only [reaches, at?_append, h, Option.bind_none, Option.any_none]

theorem not_reaches_of_isNull {value : Value} (h : value.isNull) (names : List String) :
    value.reaches names = false := by
  cases names with
  | nil => rw [reaches_nil, h]; rfl
  | cons name rest =>
    simp only [reaches, at?_of_members_eq_nil (members_of_isNull h) (List.cons_ne_nil _ _), Option.any_none]

-- Whoever gets somewhere has been on the way there.
theorem reaches_of_append {value : Value} {names rest : List String} (h : value.reaches (names ++ rest)) :
    value.reaches names := by
  cases ha : value.at? names with
  | none => rw [reaches_append_of_none ha] at h; contradiction
  | some inner =>
    rw [reaches_append ha] at h
    cases hn : inner.isNull with
    | true => rw [not_reaches_of_isNull hn] at h; contradiction
    | false => simp [reaches, ha, hn]

-- What has a member is not null.
theorem reaches_dropLast_of_at? {value inner : Value} {names : List String} (h : value.at? names = some inner)
    (hn : names ≠ []) : value.reaches names.dropLast := by
  rw [← List.dropLast_concat_getLast hn, at?_append, Option.bind_eq_some_iff] at h
  have ⟨parent, hp, hi⟩ := h
  have hm : ¬parent.isNull := by
    intro hm
    rw [at?_of_members_eq_nil (members_of_isNull hm) (List.cons_ne_nil _ _)] at hi
    contradiction
  simpa [reaches, hp] using hm

-- Below nothing and below null there is nothing.
theorem getD_at?_append (value : Value) (names rest : List String) :
    (value.at? (names ++ rest)).getD null = (((value.at? names).getD null).at? rest).getD null := by
  rw [at?_append]
  cases value.at? names with
  | some inner => rfl
  | none =>
    cases rest with
    | nil => rfl
    | cons name rest => rfl

-- An object with nothing but a value below a chain of names.
def buried : List String → Value → Value
  | [], v => v
  | name :: rest, v => object [(name, buried rest v)]

theorem at?_buried (names : List String) (v : Value) : (buried names v).at? names = some v := by
  induction names with
  | nil => rfl
  | cons name rest ih => simpa [buried, members, Members.get?_cons] using ih

theorem at?_buried_of_not_isPrefix {v : Value} {names p : List String} (hv : v.members = []) (h : ¬p <+: names) :
    (buried names v).at? p = none := by
  induction names generalizing p with
  | nil => exact at?_of_members_eq_nil hv fun hp => h (hp ▸ List.nil_prefix)
  | cons name rest ih =>
    cases p with
    | nil => exact absurd List.nil_prefix h
    | cons other p =>
      rw [buried, at?_cons, members, Members.get?_cons]
      by_cases hn : other = name
      case pos =>
        rw [hn, List.prefix_cons_inj] at h
        rw [if_pos hn]
        exact ih h
      case neg => rw [if_neg hn]; rfl

end Value

namespace Members

open Value

variable {ms : Members} {path names : List String} {value : Value}

theorem setPath_cons (name : String) {rest : List String} (h : rest ≠ []) :
    ms.setPath (name :: rest) value =
      insert name (.object (setPath ((get? ms name).getD .null).members rest value)) ms := by
  cases rest with
  | nil => contradiction
  | cons next rest => rfl

-- Below the path stands what is below the value.
theorem at?_setPath_append (h : path ≠ []) (rest : List String) :
    (object (ms.setPath path value)).at? (path ++ rest) = value.at? rest := by
  induction path generalizing ms with
  | nil => contradiction
  | cons name tail ih =>
    rw [List.cons_append, at?_cons]
    by_cases ht : tail = []
    case pos => subst ht; simp only [members, setPath, get?_insert_self, Option.bind_some, List.nil_append]
    case neg => simp only [members, setPath_cons _ ht, get?_insert_self, Option.bind_some, ih ht]

theorem at?_setPath_self (h : path ≠ []) : (object (ms.setPath path value)).at? path = some value := by
  have ha : (object (ms.setPath path value)).at? (path ++ []) = value.at? [] := at?_setPath_append h []
  rwa [List.append_nil, at?_nil] at ha

-- On the way to the path stand objects.
theorem at?_setPath_of_append {rest : List String} (hn : names ≠ []) (hr : rest ≠ []) :
    ∃ inner, (object (ms.setPath (names ++ rest) value)).at? names = some (object inner) := by
  induction names generalizing ms with
  | nil => contradiction
  | cons name tail ih =>
    rw [List.cons_append, at?_cons]
    simp only [members, setPath_cons _ (List.append_ne_nil_of_right_ne_nil _ hr), get?_insert_self, Option.bind_some]
    by_cases ht : tail = []
    case pos => subst ht; exact ⟨_, rfl⟩
    case neg => exact ih ht

-- Nothing changes elsewhere.
theorem at?_setPath_of_not_isPrefix (h : ¬path <+: names) (h' : ¬names <+: path) :
    (object (ms.setPath path value)).at? names = (object ms).at? names := by
  induction path generalizing ms names with
  | nil => exact absurd names.nil_prefix h
  | cons name tail ih =>
    cases names with
    | nil => exact absurd List.nil_prefix h'
    | cons other rest =>
      rw [at?_cons, at?_cons]
      by_cases hne : other = name
      case neg =>
        have hg : (ms.setPath (name :: tail) value).get? other = ms.get? other := by
          cases tail with
          | nil => exact get?_insert_of_ne hne _ _
          | cons next tail => exact get?_insert_of_ne hne _ _
        simp only [members, hg]
      case pos =>
        subst hne
        rw [List.prefix_cons_inj] at h h'
        have ht : tail ≠ [] := fun ht => h (ht ▸ List.nil_prefix)
        have hr : rest ≠ [] := fun hr => h' (hr ▸ List.nil_prefix)
        simp only [members, setPath_cons _ ht, get?_insert_self, Option.bind_some, ih h h']
        cases ms.get? other with
        | none => exact at?_of_members_eq_nil rfl hr
        | some inner =>
          cases rest with
          | nil => contradiction
          | cons next rest => rfl

-- What is found after a write is found in the value, is an object on the way to it, or was there before.
theorem cases_of_at?_setPath {inner : Value} (h : (object (ms.setPath path value)).at? names = some inner) :
    (∃ rest, value.at? rest = some inner) ∨ (∃ own, inner = object own) ∨ (object ms).at? names = some inner := by
  by_cases hpn : path <+: names
  case pos =>
    obtain ⟨rest, rfl⟩ := hpn
    cases path with
    | nil => exact .inr (.inr h)
    | cons name tail => exact .inl ⟨rest, at?_setPath_append (List.cons_ne_nil name tail) rest ▸ h⟩
  case neg =>
    by_cases hnp : names <+: path
    case pos =>
      obtain ⟨rest, rfl⟩ := hnp
      have hr : rest ≠ [] := by
        rintro rfl
        rw [List.append_nil] at hpn
        exact hpn List.prefix_rfl
      cases names with
      | nil => exact .inr (.inl ⟨_, (Option.some.inj h).symm⟩)
      | cons name tail =>
        obtain ⟨own, ho⟩ := at?_setPath_of_append (List.cons_ne_nil name tail) hr
        exact .inr (.inl ⟨own, Option.some.inj (h.symm.trans ho)⟩)
    case neg => exact .inr (.inr (at?_setPath_of_not_isPrefix hpn hnp ▸ h))

end Members
end RowPipeline
