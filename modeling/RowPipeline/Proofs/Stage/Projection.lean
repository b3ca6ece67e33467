import RowPipeline.Stage.Run
import RowPipeline.Proofs.Row.Reading

namespace RowPipeline

namespace PropertyPath

-- One of the paths goes on from the other.
def Meets (p q : PropertyPath) : Prop :=
  p <+: q ∨ q <+: p

-- What the last name is looked up in is a part of one of the projected values, or has one as a part.
def Covers (ps : List PropertyPath) (q : PropertyPath) : Prop :=
  q.dropLast = [] ∨ ∃ p ∈ ps, p.Meets q.dropLast

instance (p q : PropertyPath) : Decidable (p.Meets q) :=
  inferInstanceAs (Decidable (_ ∨ _))

instance (ps : List PropertyPath) (q : PropertyPath) : Decidable (Covers ps q) :=
  inferInstanceAs (Decidable (_ ∨ _))

end PropertyPath

open PropertyPath

namespace Members

variable {row value : Value} {ms : Members} {p : PropertyPath} {names : List String}

-- The written value is that of the row.
theorem reaches_setPath_append (hr : Access.strict.read row p = .ok value) (hp : p ≠ []) (rest : List String) :
    (Value.object (ms.setPath p value)).reaches (p ++ rest) = row.reaches (p ++ rest) := by
  obtain ⟨-, rfl⟩ := Access.read_strict_eq_ok.mp hr
  rw [Value.reaches, at?_setPath_append hp]
  cases ha : row.at? p with
  | some inner => rw [Value.reaches_append ha]; rfl
  | none =>
    rw [Value.reaches_append_of_none ha]
    exact Value.not_reaches_of_isNull rfl rest

-- On the way to a written value there are objects, and the row has been read along the same way.
theorem reaches_setPath_of_append {rest : List String} (hr : Access.strict.read row (names ++ rest) = .ok value)
    (hn : names ≠ []) (hs : rest ≠ []) :
    (Value.object (ms.setPath (names ++ rest) value)).reaches names = row.reaches names := by
  obtain ⟨hd, -⟩ := Access.read_strict_eq_ok.mp hr
  have hw : row.reaches names := by
    have hd := hd (List.append_ne_nil_of_left_ne_nil hn _)
    rw [List.dropLast_append_of_ne_nil hs] at hd
    exact Value.reaches_of_append hd
  obtain ⟨inner, hi⟩ : ∃ inner, (Value.object (ms.setPath (names ++ rest) value)).at? names = some (.object inner) :=
    at?_setPath_of_append hn hs
  rw [hw, Value.reaches, hi]
  rfl

theorem reaches_setPath_of_meets (hr : Access.strict.read row p = .ok value) (hp : p ≠ []) (hn : names ≠ [])
    (hm : p.Meets names) : (Value.object (ms.setPath p value)).reaches names = row.reaches names := by
  by_cases hpn : p <+: names
  case pos =>
    obtain ⟨rest, rfl⟩ := hpn
    exact reaches_setPath_append hr hp rest
  case neg =>
    obtain ⟨rest, rfl⟩ := hm.resolve_left hpn
    refine reaches_setPath_of_append hr hn ?_
    rintro rfl
    rw [List.append_nil] at hpn
    exact hpn List.prefix_rfl

theorem reaches_setPath_of_not_meets (hm : ¬p.Meets names) :
    (Value.object (ms.setPath p value)).reaches names = (Value.object ms).reaches names := by
  rw [Value.reaches, at?_setPath_of_not_isPrefix (hm ∘ .inl) (hm ∘ .inr)]
  rfl

-- A write of a value adds no other number than those in the value.
theorem numberless_setPath (hm : (Value.object ms).Numberless) (hv : value.Numberless) :
    (Value.object (ms.setPath p value)).Numberless := by
  intro names inner hi
  rcases cases_of_at?_setPath hi with ⟨rest, hr⟩ | ⟨own, rfl⟩ | ho
  case inl => exact hv rest inner hr
  case inr.inl => exact Bool.false_ne_true
  case inr.inr => exact hm names inner ho

end Members

namespace Stage

variable {row : Value} {ps : List PropertyPath} {ms out : Members}

theorem exists_project {access : Access} (h : ∀ p ∈ ps, ∃ value, access.read row p = .ok value) (out : Members) :
    ∃ ms, project access row ps out = .ok ms := by
  induction ps generalizing out with
  | nil => exact ⟨out, rfl⟩
  | cons p ps ih =>
    obtain ⟨⟨value, hv⟩, hps⟩ := List.forall_mem_cons.mp h
    obtain ⟨ms, hms⟩ := ih hps (out.setPath p value)
    exact ⟨ms, bind_eq_ok.mpr ⟨value, hv, hms⟩⟩

theorem reads_of_project (h : project .strict row ps out = .ok ms) : ∀ p ∈ ps, row.Reads p := by
  induction ps generalizing out with
  | nil => exact nofun
  | cons p ps ih =>
    obtain ⟨value, hv, h⟩ := bind_eq_ok.mp h
    exact List.forall_mem_cons.mpr ⟨⟨value, hv⟩, ih h⟩

theorem reaches_project_of_not_meets {names : List String} (h : project .strict row ps out = .ok ms)
    (hm : ∀ p ∈ ps, ¬p.Meets names) : (Value.object ms).reaches names = (Value.object out).reaches names := by
  induction ps generalizing out with
  | nil => cases h; rfl
  | cons p ps ih =>
    obtain ⟨hp, hps⟩ := List.forall_mem_cons.mp hm
    obtain ⟨value, -, h⟩ := bind_eq_ok.mp h
    rw [ih h hps, Members.reaches_setPath_of_not_meets hp]

-- The last of the paths that meet the names decides, and all of them say what the row says.
theorem reaches_project_of_meets {names : List String} (h : project .strict row ps out = .ok ms)
    (hps : ∀ p ∈ ps, p ≠ []) (hn : names ≠ []) (hm : ∃ p ∈ ps, p.Meets names) :
    (Value.object ms).reaches names = row.reaches names := by
  induction ps generalizing out with
  | nil => simp at hm
  | cons p ps ih =>
    obtain ⟨hp, hps⟩ := List.forall_mem_cons.mp hps
    obtain ⟨value, hv, h⟩ := bind_eq_ok.mp h
    by_cases hr : ∃ q ∈ ps, q.Meets names
    case pos => exact ih h hps hr
    case neg =>
      have hm : p.Meets names := by
        obtain ⟨q, hq, hm⟩ := hm
        rcases List.mem_cons.mp hq with rfl | hq
        case inl => exact hm
        case inr => exact absurd ⟨q, hq, hm⟩ hr
      rw [reaches_project_of_not_meets h fun q hq hm => hr ⟨q, hq, hm⟩,
        Members.reaches_setPath_of_meets hv hp hn hm]

-- A projection loses the paths that it does not cover, and no others.
theorem reaches_project {q : PropertyPath} (h : project .strict row ps [] = .ok ms) (hps : ∀ p ∈ ps, p ≠ [])
    (hq : q.dropLast ≠ []) :
    (Value.object ms).reaches q.dropLast ↔ Covers ps q ∧ row.reaches q.dropLast := by
  rw [Covers, or_iff_right hq]
  by_cases hm : ∃ p ∈ ps, p.Meets q.dropLast
  case pos => rw [reaches_project_of_meets h hps hq hm, and_iff_right hm]
  case neg =>
    have he : (Value.object []).reaches q.dropLast = false := by
      rw [Value.reaches, Value.at?_of_members_eq_nil rfl hq]
      rfl
    rw [reaches_project_of_not_meets h fun p hp hpm => hm ⟨p, hp, hpm⟩, he]
    simp [hm]

theorem reads_project {q : PropertyPath} (h : project .strict row ps [] = .ok ms) (hps : ∀ p ∈ ps, p ≠ [])
    (hc : Covers ps q) (hr : row.Reads q) : (Value.object ms).Reads q := by
  rw [Value.reads_iff] at hr ⊢
  intro hne
  by_cases hq : q.dropLast = []
  case pos => rw [hq]; rfl
  case neg => exact (reaches_project h hps hq).mpr ⟨hc, hr hne⟩

theorem numberless_project (h : project .strict row ps out = .ok ms) (hr : row.Numberless)
    (ho : (Value.object out).Numberless) : (Value.object ms).Numberless := by
  induction ps generalizing out with
  | nil => cases h; exact ho
  | cons p ps ih =>
    obtain ⟨value, hv, h⟩ := bind_eq_ok.mp h
    exact ih h (Members.numberless_setPath ho (hr.read hv))

end Stage
end RowPipeline
