import RowPipeline.Json.Document

namespace RowPipeline.Document

-- The documents of a name. Of a name that is repeated there is more than one.
def named (name : String) (members : List (Option String × Document)) : List Document :=
  members.filterMap fun (n, d) => if n = some name then some d else none

-- The fields of a record, by their names or in their order, each present or not. A field that is written twice, a name without characters
-- and an array longer than the record are refused; fields of other names are passed over.
def fields? (names : List String) : Document → Option (List (Option Document))
  | object members =>
    if members.any (·.1.isNone) then none
    else
      names.mapM fun name =>
        match named name members with
        | [] => some none
        | [d] => some (some d)
        | _ => none
  | array items =>
    if names.length < items.length then none
    else some ((List.range names.length).map fun i => items[i]?)
  | _ => none

def bool? : Document → Option Bool
  | bool b => some b
  | _ => none

def text? : Document → Option String
  | text s => s
  | _ => none

-- The bound is 2 ^ 64.
def natural64? : Document → Option Nat
  | int n => if 0 ≤ n ∧ n < 18446744073709551616 then some n.toNat else none
  | _ => none

-- Null stands for an absent value.
def nullable? (read : Document → Option α) : Document → Option (Option α)
  | null => some none
  | d => (read d).map some

def list? (read : Document → Option α) : Document → Option (List α)
  | array items => items.mapM read
  | _ => none

-- A name of a closed set: a text, or an object whose only member has the name, and null as its value.
def choice? (options : List (String × α)) : Document → Option α
  | text s => s.bind fun name => options.lookup name
  | object [(name, null)] => name.bind fun name => options.lookup name
  | _ => none

-- A field that may be left out.
def optional (field : Option Document) (read : Document → Option α) (default : α) : Option α :=
  match field with
  | none => some default
  | some d => read d

end RowPipeline.Document
