import RowPipeline.Row.Condition
import RowPipeline.Proofs.Clause.Contents
import RowPipeline.Proofs.Success
import RowPipeline.Proofs.Value.Path

namespace RowPipeline

namespace Access

-- Names as they are written, and no step into null.
def strict : Access where
  resolver        := .exact
  propagatesNulls := false

variable {row value : Value} {path : PropertyPath}

theorem go_eq_ok {names : List String} : read.go strict path row names = .ok value ↔
    (names ≠ [] → row.reaches names.dropLast) ∧ value = (row.at? names).getD .null := by
  induction names generalizing row with
  | nil =>
    rw [read.go, Except.ok.injEq, Value.at?_nil, Option.getD_some, eq_comm]
    exact (and_iff_right nofun).symm
  | cons name rest ih =>
    rw [read.go]
    by_cases hn : row.isNull
    case pos => simp [strict, hn, Value.not_reaches_of_isNull]
    case neg =>
      have hr : ∀ inner, row.members.get? name = some inner →
          (row.reaches (name :: rest).dropLast ↔ (rest ≠ [] → inner.reaches rest.dropLast)) := by
        intro inner hi
        cases rest with
        | nil => simp [Value.reaches_nil, hn]
        | cons next rest =>
          have ha : row.at? [name] = some inner := by simp [hi]
          simpa using iff_of_eq (congrArg (· = true) (Value.reaches_append ha (next :: rest).dropLast))
      cases hi : row.members.get? name with
      | some inner => simp [strict, Resolver.exact, hn, hi, hr inner hi, ← ih]
      | none =>
        cases rest with
        | nil => simp [strict, Resolver.exact, hn, hi, Value.reaches_nil, eq_comm]
        | cons next rest => simp [strict, Resolver.exact, hn, hi, Value.reaches]

-- All but the last name lead to something other than null. The last one may be missing.
theorem read_strict_eq_ok : strict.read row path = .ok value ↔
    (path ≠ [] → row.reaches path.dropLast) ∧ value = (row.at? path).getD .null :=
  go_eq_ok

section Exact

variable {propagates : Bool} {paths : List PropertyPath} {keys : List Value}

-- With propagating nulls every read succeeds.
theorem read_exact (row : Value) (path : PropertyPath) :
    read ⟨.exact, true⟩ row path = .ok ((row.at? path).getD .null) := by
  have go : ∀ names row, read.go ⟨.exact, true⟩ path row names = .ok ((row.at? names).getD .null) := by
    intro names
    induction names with
    | nil => exact fun _ => rfl
    | cons name rest ih =>
      intro row
      cases hi : row.members.get? name with
      | some inner => simpa [read.go, Resolver.exact, hi] using ih inner
      | none => simp [read.go, Resolver.exact, hi]
  exact go path row

-- Whatever is done with nulls, a successful read gives what stands at the path, and null where nothing does.
theorem eq_of_read_exact (h : read ⟨.exact, propagates⟩ row path = .ok value) : value = (row.at? path).getD .null := by
  cases propagates with
  | true => exact (Except.ok.inj ((read_exact row path).symm.trans h)).symm
  | false => exact (read_strict_eq_ok.mp h).right

theorem read_of_at? (h : row.at? path = some value) : read ⟨.exact, propagates⟩ row path = .ok value := by
  cases propagates with
  | true => rw [read_exact, h]; rfl
  | false => exact read_strict_eq_ok.mpr ⟨fun hn => Value.reaches_dropLast_of_at? h hn, by rw [h]; rfl⟩

theorem eq_of_readAll_exact (h : readAll ⟨.exact, propagates⟩ row paths = .ok keys) :
    keys = paths.map fun p => (row.at? p).getD .null := by
  have hk := (mapM_eq_ok.mp h).imp fun _ _ => eq_of_read_exact
  rw [← List.forall₂_eq_eq_eq, List.forall₂_map_right_iff]
  exact hk.flip

theorem readAll_exact (row : Value) (paths : List PropertyPath) :
    readAll ⟨.exact, true⟩ row paths = .ok (paths.map fun p => (row.at? p).getD .null) := by
  rw [readAll, mapM_eq_ok, List.forall₂_map_right_iff, List.forall₂_same]
  exact fun p _ => read_exact row p

end Exact

end Access

namespace Value

def Reads (row : Value) (path : PropertyPath) : Prop :=
  ∃ value, Access.strict.read row path = .ok value

variable {row : Value}

theorem reads_iff {path : PropertyPath} : row.Reads path ↔ (path ≠ [] → row.reaches path.dropLast) := by
  simp [Reads, Access.read_strict_eq_ok]

-- An object with all of the names as members, the same in each of them.
def full (names : List String) : Nat → Value
  | 0 => .object []
  | depth + 1 => .object (names.foldr (fun name ms => Members.insert name (full names depth) ms) [])

theorem get?_members_full (names : List String) (name : String) (depth : Nat) :
    (full names (depth + 1)).members.get? name = if name ∈ names then some (full names depth) else none := by
  have hg : ∀ others : List String,
      (others.foldr (fun n ms => Members.insert n (full names depth) ms) []).get? name =
        if name ∈ others then some (full names depth) else none := by
    intro others
    induction others with
    | nil => rfl
    | cons other others ih =>
      rw [List.foldr_cons]
      by_cases he : name = other
      case pos => rw [he, Members.get?_insert_self, if_pos List.mem_cons_self]
      case neg => rw [Members.get?_insert_of_ne he, ih]; simp [he]
  exact hg names

theorem reaches_full {names path : List String} {depth : Nat} (hn : ∀ name ∈ path, name ∈ names)
    (hd : path.length ≤ depth) : (full names depth).reaches path := by
  induction path generalizing depth with
  | nil => cases depth <;> rfl
  | cons name rest ih =>
    obtain ⟨hm, hr⟩ := List.forall_mem_cons.mp hn
    cases depth with
    | zero => cases hd
    | succ depth =>
      have ha : (full names (depth + 1)).at? [name] = some (full names depth) := by
        rw [at?_cons, get?_members_full, if_pos hm]
        rfl
      exact (reaches_append ha rest).trans (ih hr (Nat.le_of_succ_le_succ hd))

-- There is no number anywhere in the value.
def Numberless (value : Value) : Prop :=
  ∀ names inner, value.at? names = some inner → ¬inner.isNumber

theorem numberless_full (names : List String) (depth : Nat) : (full names depth).Numberless := by
  intro path inner h
  induction path generalizing depth with
  | nil =>
    cases h
    cases depth <;> exact Bool.false_ne_true
  | cons name rest ih =>
    rw [at?_cons, Option.bind_eq_some_iff] at h
    obtain ⟨next, hn, hi⟩ := h
    cases depth with
    | zero => cases hn
    | succ depth =>
      rw [get?_members_full] at hn
      cases (Option.ite_none_right_eq_some.mp hn).right
      exact ih depth hi

theorem numberless_empty : (object []).Numberless :=
  numberless_full [] 0

theorem numberless_null : null.Numberless := by
  intro names inner h
  cases names with
  | nil => cases h; exact Bool.false_ne_true
  | cons => cases h

-- There is a row for any paths, however long they are.
theorem exists_reads (paths : List PropertyPath) : ∃ row : Value, row.Numberless ∧ ∀ q ∈ paths, row.Reads q := by
  refine ⟨full paths.flatten paths.flatten.length, numberless_full _ _, fun q hq => ?_⟩
  refine reads_iff.mpr fun _ => reaches_full ?_ ?_
  case refine_1 => exact fun name hn => List.mem_flatten.mpr ⟨q, hq, List.dropLast_subset q hn⟩
  case refine_2 => exact ((List.dropLast_sublist q).trans (List.sublist_flatten_of_mem hq)).length_le

-- What is read of such a row is such a value too.
theorem Numberless.read {path : PropertyPath} {value : Value} (h : row.Numberless)
    (hr : Access.strict.read row path = .ok value) : value.Numberless := by
  obtain ⟨-, rfl⟩ := Access.read_strict_eq_ok.mp hr
  cases ha : row.at? path with
  | none => exact numberless_null
  | some v =>
    intro names inner hi
    rw [Option.getD_some] at hi
    exact h (path ++ names) inner (by rw [at?_append, ha, Option.bind_some, hi])

end Value

variable {access : Access} {row : Value}

-- What reads the row succeeds, if its paths can be read.
mutual
theorem Operand.exists_eval : (o : Operand) → (∀ p ∈ o.paths, ∃ value, access.read row p = .ok value) →
    ∃ value, o.eval access row = .ok value
  | .path p, h => h p (List.mem_singleton_self p)
  | .literal value, _ => ⟨value, rfl⟩
  | .call function args, h => by
    obtain ⟨values, hv⟩ := Operand.exists_evalAll args h
    exact ⟨_, bind_eq_ok.mpr ⟨values, hv, rfl⟩⟩

theorem Operand.exists_evalAll : (os : List Operand) →
    (∀ p ∈ Operand.allPaths os, ∃ value, access.read row p = .ok value) →
    ∃ values, Operand.evalAll access row os = .ok values
  | [], _ => ⟨[], rfl⟩
  | o :: os, h => by
    obtain ⟨hl, hr⟩ := List.forall_mem_append.mp h
    obtain ⟨value, hv⟩ := Operand.exists_eval o hl
    obtain ⟨values, hvs⟩ := Operand.exists_evalAll os hr
    exact ⟨_, bind_eq_ok.mpr ⟨value, hv, bind_eq_ok.mpr ⟨values, hvs, rfl⟩⟩⟩
end

-- Both sides of `and` and `or` can be evaluated, whether they are looked at or not.
theorem Filter.exists_eval (f : Filter) (h : ∀ p ∈ f.paths, ∃ value, access.read row p = .ok value) :
    ∃ b, f.eval access row = .ok b := by
  induction f with
  | compare op left right =>
    obtain ⟨hl, hr⟩ := List.forall_mem_append.mp h
    obtain ⟨a, ha⟩ := left.exists_eval hl
    obtain ⟨b, hb⟩ := right.exists_eval hr
    exact ⟨_, bind_eq_ok.mpr ⟨a, ha, bind_eq_ok.mpr ⟨b, hb, rfl⟩⟩⟩
  | and left right ihl ihr =>
    obtain ⟨hl, hr⟩ := List.forall_mem_append.mp h
    obtain ⟨a, ha⟩ := ihl hl
    obtain ⟨b, hb⟩ := ihr hr
    simp only [Filter.eval, bind_eq_ok, ha, Except.ok.injEq, exists_eq_left']
    cases a with
    | true => exact ⟨b, hb⟩
    | false => exact ⟨false, rfl⟩
  | or left right ihl ihr =>
    obtain ⟨hl, hr⟩ := List.forall_mem_append.mp h
    obtain ⟨a, ha⟩ := ihl hl
    obtain ⟨b, hb⟩ := ihr hr
    simp only [Filter.eval, bind_eq_ok, ha, Except.ok.injEq, exists_eq_left']
    cases a with
    | true => exact ⟨true, rfl⟩
    | false => exact ⟨b, hb⟩
  | not inner ih =>
    obtain ⟨b, hb⟩ := ih h
    exact ⟨_, bind_eq_ok.mpr ⟨b, hb, rfl⟩⟩
  | truthy operand =>
    obtain ⟨a, ha⟩ := operand.exists_eval h
    exact ⟨_, bind_eq_ok.mpr ⟨a, ha, rfl⟩⟩

end RowPipeline
