import RowPipeline.Proofs.Value.Path

namespace RowPipeline.Members

open Value

variable {ms : Members} {p q rest : List String} {v w x : Value}

theorem insert_insert_self (name : String) (v w : Value) (ms : Members) :
    insert name v (insert name w ms) = insert name v ms := by
  induction ms with
  | nil => simp [insert]
  | cons m ms ih =>
    simp only [insert]
    split
    case isTrue => simp [insert]
    case isFalse hne =>
      split
      case isTrue => simp [insert]
      case isFalse hlt => simp [insert, hne, hlt, ih]

theorem insert_comm {a b : String} (h : a ≠ b) (v w : Value) (ms : Members) :
    insert a v (insert b w ms) = insert b w (insert a v ms) := by
  induction ms with
  | nil => grind [insert]
  | cons m ms ih => grind [insert]

-- A write sets one member, to something that only depends on what this member was.
theorem exists_setPath_cons (name : String) (rest : List String) (v : Value) :
    ∃ f : Option Value → Value, ∀ ms : Members, ms.setPath (name :: rest) v = insert name (f (ms.get? name)) ms := by
  cases rest with
  | nil => exact ⟨fun _ => v, fun _ => rfl⟩
  | cons next rest => exact ⟨fun old => object (setPath (old.getD .null).members (next :: rest) v), fun _ => rfl⟩

-- Of two writes at one place the second one counts.
theorem setPath_setPath_self (ms : Members) (p : List String) (v w : Value) :
    (ms.setPath p v).setPath p w = ms.setPath p w := by
  induction p generalizing ms with
  | nil => rfl
  | cons name rest ih =>
    by_cases hr : rest = []
    case pos => subst hr; exact insert_insert_self name w v ms
    case neg =>
      simp only [setPath_cons _ hr, get?_insert_self, Option.getD_some, members, insert_insert_self, ih]

-- A write below a value keeps nothing of it but its members.
theorem setPath_setPath_append (hp : p ≠ []) (hr : rest ≠ []) (h : v.members = w.members) :
    (ms.setPath p v).setPath (p ++ rest) x = (ms.setPath p w).setPath (p ++ rest) x := by
  induction p generalizing ms with
  | nil => contradiction
  | cons name tail ih =>
    have hn : tail ++ rest ≠ [] := List.append_ne_nil_of_right_ne_nil _ hr
    rw [List.cons_append, setPath_cons _ hn, setPath_cons _ hn]
    by_cases ht : tail = []
    case pos => subst ht; simp only [setPath, get?_insert_self, Option.getD_some, insert_insert_self, h]
    case neg =>
      simp only [setPath_cons _ ht, get?_insert_self, Option.getD_some, members, insert_insert_self, ih ht]

-- Writes at places apart from each other may come in any order.
theorem setPath_comm (h : ¬p <+: q) (h' : ¬q <+: p) (v w : Value) :
    (ms.setPath p v).setPath q w = (ms.setPath q w).setPath p v := by
  induction p generalizing ms q with
  | nil => exact absurd List.nil_prefix h
  | cons a p ih =>
    cases q with
    | nil => exact absurd List.nil_prefix h'
    | cons b q =>
      by_cases hab : a = b
      case neg =>
        have ⟨f, hf⟩ := exists_setPath_cons a p v
        have ⟨g, hg⟩ := exists_setPath_cons b q w
        rw [hf, hg, hg, hf, get?_insert_of_ne hab, get?_insert_of_ne (Ne.symm hab)]
        exact (insert_comm hab _ _ ms).symm
      case pos =>
        subst hab
        rw [List.prefix_cons_inj] at h h'
        have hp : p ≠ [] := fun hp => h (hp ▸ List.nil_prefix)
        have hq : q ≠ [] := fun hq => h' (hq ▸ List.nil_prefix)
        simp only [setPath_cons _ hp, setPath_cons _ hq, get?_insert_self, Option.getD_some, members,
          insert_insert_self, ih h h']

-- Values at their paths, written from left to right.
def setPaths (ms : Members) (writes : List (List String × Value)) : Members :=
  writes.foldl (fun out write => out.setPath write.1 write.2) ms

variable {writes : List (List String × Value)}

theorem setPaths_cons (ms : Members) (write : List String × Value) (writes : List (List String × Value)) :
    ms.setPaths (write :: writes) = (ms.setPath write.1 write.2).setPaths writes :=
  rfl

theorem setPaths_append (ms : Members) (before after : List (List String × Value)) :
    ms.setPaths (before ++ after) = (ms.setPaths before).setPaths after :=
  List.foldl_append

-- What all writes after some place keep, the whole keeps.
theorem setPaths_induction {P : Members → Prop} (h : P ms)
    (step : ∀ write ∈ writes, ∀ ms, P ms → P (ms.setPath write.1 write.2)) : P (ms.setPaths writes) :=
  List.foldlRecOn writes _ h fun ms h write hw => step write hw ms h

-- What is written apart from some place leaves it alone.
theorem at?_setPaths_of_not_isPrefix (h : ∀ write ∈ writes, ¬write.1 <+: p ∧ ¬p <+: write.1) :
    (object (ms.setPaths writes)).at? p = (object ms).at? p := by
  apply setPaths_induction (P := fun out => (object out).at? p = (object ms).at? p) rfl
  intro write hw out ho
  rw [at?_setPath_of_not_isPrefix (h write hw).left (h write hw).right, ho]

-- A value can be found at its path, if no other is written there, above or below.
theorem at?_setPaths (hp : p ≠ []) (hw : (p, v) ∈ writes)
    (h : ∀ write ∈ writes, write.1 <+: p ∨ p <+: write.1 → write = (p, v)) :
    (object (ms.setPaths writes)).at? p = some v := by
  obtain ⟨before, after, rfl⟩ := List.append_of_mem hw
  rw [setPaths_append, setPaths_cons]
  refine setPaths_induction (P := fun ms => (object ms).at? p = some v) (at?_setPath_self hp) fun write hm ms ha => ?_
  by_cases hc : write.1 <+: p ∨ p <+: write.1
  case pos =>
    cases h write (List.mem_append_right before (List.mem_cons_of_mem _ hm)) hc
    exact at?_setPath_self hp
  case neg =>
    have ⟨hc, hc'⟩ := not_or.mp hc
    rw [at?_setPath_of_not_isPrefix hc hc', ha]

end RowPipeline.Members
