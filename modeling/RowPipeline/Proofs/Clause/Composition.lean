import RowPipeline.Proofs.Clause.GrammarLocality
import RowPipeline.Proofs.Clause.Binding
import RowPipeline.Proofs.Clause.StepReading

namespace RowPipeline

open Scan

variable {more : List Char} {depth depth' : Nat}

namespace Scan

variable {α β : Type} {m m' : Scan α}

-- What `m` reads is what `m'` reads with more text behind, also if nothing is left of the text.
def Still (more : List Char) (m m' : Scan α) : Prop :=
  ∀ cursor x next, m.Yields cursor x next → next.rest <:+ cursor.rest ∧
    m'.Reads (· = cursor.rest ++ more) x (· = next.rest ++ more)

-- In addition, `m` reads nothing of an empty text.
def Firm (more : List Char) (m m' : Scan α) : Prop :=
  Still more m m' ∧ ∀ cursor x next, m.Yields cursor x next → cursor.rest ≠ []

namespace Still

theorem pure {x : α} : Still more (pure x) (Pure.pure x) := by
  intro cursor y next h
  have ⟨hy, hn⟩ := yields_pure.mp h
  subst hy hn
  exact ⟨List.suffix_rfl, .pure⟩

theorem ite {c : Prop} [Decidable c] {n n' : Scan α} (hm : Still more m m') (hn : Still more n n') :
    Still more (if c then m else n) (if c then m' else n') := by
  split
  case isTrue => exact hm
  case isFalse => exact hn

theorem bind {f f' : α → Scan β} (hm : Still more m m') (hf : ∀ x, Still more (f x) (f' x)) :
    Still more (m >>= f) (m' >>= f') := by
  intro cursor y next h
  have ⟨x, mid, hx, hy⟩ := yields_bind.mp h
  have ⟨hs, hr⟩ := hm cursor x mid hx
  have ⟨hs', hr'⟩ := hf x mid y next hy
  exact ⟨hs'.trans hs, hr.bind hr'⟩

end Still

namespace Firm

theorem bind {f f' : α → Scan β} (hm : Firm more m m') (hf : ∀ x, Still more (f x) (f' x)) :
    Firm more (m >>= f) (m' >>= f') := by
  have ⟨hs, ht⟩ := hm
  refine ⟨hs.bind hf, fun cursor y next h => ?_⟩
  have ⟨x, mid, hx, _⟩ := yields_bind.mp h
  exact ht cursor x mid hx

-- What has to be read next keeps the end of the text away from what is read before.
theorem after {f f' : α → Scan β} (hm : Local more m m') (hf : ∀ x, Firm more (f x) (f' x)) :
    Firm more (m >>= f) (m' >>= f') := by
  have hc : ∀ cursor y next, (m >>= f).Yields cursor y next →
      ∃ x mid, (f x).Yields mid y next ∧ mid.rest ≠ [] ∧ mid.rest <:+ cursor.rest ∧
        m'.Reads (· = cursor.rest ++ more) x (· = mid.rest ++ more) := by
    intro cursor y next h
    have ⟨x, mid, hx, hy⟩ := yields_bind.mp h
    have hn := (hf x).right mid y next hy
    have ⟨hs, hr⟩ := hm cursor x mid hx
    exact ⟨x, mid, hy, hn, hs, hr (.inl hn)⟩
  constructor
  case left =>
    intro cursor y next h
    have ⟨x, mid, hy, _, hs, hr⟩ := hc cursor y next h
    have ⟨hs', hr'⟩ := (hf x).left mid y next hy
    exact ⟨hs'.trans hs, hr.bind hr'⟩
  case right =>
    intro cursor y next h he
    have ⟨_, _, _, hn, hs, _⟩ := hc cursor y next h
    exact hn (List.suffix_nil.mp (he ▸ hs))

theorem position_bind {f f' : Nat → Scan β} (hf : ∀ p p', Firm more (f p) (f' p')) :
    Firm more (position >>= f) (position >>= f') := by
  have hc : ∀ cursor y next, (position >>= f).Yields cursor y next → (f cursor.position).Yields cursor y next := by
    intro cursor y next h
    have ⟨p, mid, hp, hy⟩ := yields_bind.mp h
    have ⟨hm, hp⟩ := yields_position.mp hp
    rwa [hm, hp] at hy
  constructor
  case left =>
    intro cursor y next h
    have ⟨hs, _⟩ := (hf cursor.position 0).left cursor y next (hc cursor y next h)
    exact ⟨hs, .position_bind fun p' => ((hf _ p').left cursor y next (hc cursor y next h)).right⟩
  case right => exact fun cursor y next h => (hf _ 0).right cursor y next (hc cursor y next h)

theorem expect {c : Char} : Firm more (Scan.expect c) (Scan.expect c) := by
  constructor
  case left =>
    intro cursor u next h
    rw [rest_of_expect h]
    exact ⟨List.suffix_cons c next.rest, .expect⟩
  case right =>
    intro cursor u next h he
    exact List.cons_ne_nil c next.rest (rest_of_expect h ▸ he)

theorem identifier (he : more.head?.any isIdentifierChar = false) :
    Firm more Scan.identifier Scan.identifier := by
  constructor
  case left =>
    intro cursor name next h
    have hl : Local more Scan.identifier Scan.identifier := Local.identifier
    exact ⟨(hl cursor name next h).left, Local.reads_identifier he h⟩
  case right =>
    intro cursor name next h hr
    have ⟨hn, hne, _⟩ := yields_identifier.mp h
    rw [hr] at hn
    exact hne (String.toList_eq_nil_iff.mp hn)

end Firm
end Scan

namespace Transformation

theorem firm_closing : Firm more closing closing :=
  .after Local.skipBlank fun _ => .expect

-- A transformation ends with its parenthesis or with its name.
theorem firm_scan (he : more.head?.any isIdentifierChar = false) (hd : depth ≤ depth') :
    Firm more (Transformation.scan depth none) (Transformation.scan depth' none) := by
  cases depth with
  | zero => exact ⟨fun _ _ _ h => absurd h not_yields_fail, fun _ _ _ h => absurd h not_yields_fail⟩
  | succ depth =>
    obtain ⟨depth', rfl⟩ := Nat.exists_eq_add_one.mpr (Nat.zero_lt_of_lt hd)
    apply Firm.after Local.skipBlank
    intro _
    apply Firm.position_bind
    intro start start'
    apply (Firm.identifier he).bind
    intro name
    apply Still.ite .pure
    apply And.left
    apply Firm.after Local.skipBlank
    intro _
    apply Firm.expect.bind
    intro _
    apply And.left
    apply Firm.after (local_scanBody he fun _ => local_scan he (by omega))
    intro t
    exact firm_closing.bind fun _ => .pure

-- The text starts with that of a transformation, and a rest follows it.
def Spelt (depth : Nat) (text : List Char) (t : Transformation) (rest : List Char) : Prop :=
  (Transformation.scan depth none).Reads (· = text) (unbound t) (· = rest)

variable {text rest : List Char} {t : Transformation}

theorem spelt_of_yields {cursor next : Cursor} {t : Transformation × Option Binding}
    (h : (Transformation.scan depth none).Yields cursor t next) :
    Spelt depth cursor.rest t.1 next.rest ∧ t = unbound t.1 ∧ next.rest <:+ cursor.rest := by
  have hb : t = unbound t.1 := Prod.ext rfl (ChecksStep.eq_none Transformation.checks h)
  have hf : Firm [] (Transformation.scan depth none) (Transformation.scan depth none) :=
    firm_scan rfl (Nat.le_refl depth)
  have ⟨hs, hr⟩ := hf.left cursor t next h
  rw [List.append_nil, List.append_nil] at hr
  exact ⟨hb ▸ hr, hb, hs⟩

theorem Spelt.ne_nil (h : Spelt depth text t rest) : text ≠ [] := by
  have ⟨next, hx, _⟩ := h ⟨text, 0⟩ rfl
  have hf : Firm [] (Transformation.scan depth none) (Transformation.scan depth none) :=
    firm_scan rfl (Nat.le_refl depth)
  exact hf.right _ _ _ hx

theorem Spelt.suffix (h : Spelt depth text t rest) : rest <:+ text := by
  have ⟨next, hx, hn⟩ := h ⟨text, 0⟩ rfl
  have ⟨_, _, hs⟩ := spelt_of_yields hx
  exact hn ▸ hs

theorem Spelt.append (h : Spelt depth text t rest) (hd : depth ≤ depth')
    (he : more.head?.any isIdentifierChar = false) : Spelt depth' (text ++ more) t (rest ++ more) := by
  have ⟨next, hx, hn⟩ := h ⟨text, 0⟩ rfl
  have ⟨_, hr⟩ := (firm_scan he hd).left _ _ _ hx
  exact hn ▸ hr

theorem Spelt.deepen (h : Spelt depth text t rest) (hd : depth ≤ depth') : Spelt depth' text t rest := by
  have h : Spelt depth' (text ++ []) t (rest ++ []) := h.append hd rfl
  rwa [List.append_nil, List.append_nil] at h

end Transformation

namespace Clause

open Transformation

-- What follows the first transformation of a clause: others after a slash each, and blanks.
inductive Follow (depth : Nat) : List Char → List Transformation → Prop
  | nil {text} : text.dropWhile Text.isBlank = [] → Follow depth text []
  | cons {text inner rest t ts} : text.dropWhile Text.isBlank = '/' :: inner → Spelt depth inner t rest →
    Follow depth rest ts → Follow depth text (t :: ts)

variable {text rest : List Char} {t : Transformation} {ts us : List Transformation}

theorem dropWhile_append_of_nil (h : text.dropWhile Text.isBlank = []) :
    (text ++ more).dropWhile Text.isBlank = more.dropWhile Text.isBlank := by
  simp [List.dropWhile_append, h]

theorem dropWhile_append_of_cons {inner : List Char} (h : text.dropWhile Text.isBlank = '/' :: inner) :
    (text ++ more).dropWhile Text.isBlank = '/' :: (inner ++ more) := by
  simp [List.dropWhile_append, h]

theorem yields_slash {cursor next : Cursor} {b : Bool}
    (h : (do skipBlank; char? '/' : Scan Bool).Yields cursor b next) :
    (b = true ∧ cursor.rest.dropWhile Text.isBlank = '/' :: next.rest) ∨
      (b = false ∧ next.rest = cursor.rest.dropWhile Text.isBlank) := by
  have ⟨_, mid, hb, hc⟩ := yields_bind.mp h
  rw [← rest_of_skipBlank hb]
  rcases yields_char?.mp hc with ⟨hc, hb, hn⟩ | ⟨_, hb, hn⟩
  case inl =>
    have ⟨inner, hi⟩ := List.head?_eq_some_iff.mp hc
    exact .inl ⟨hb, by simp [hn, Cursor.advance, hi]⟩
  case inr => exact .inr ⟨hb, by rw [hn]⟩

namespace Follow

theorem blank_append (h : text.dropWhile Text.isBlank = []) (hf : Follow depth more us) :
    Follow depth (text ++ more) us := by
  cases hf with
  | nil hb => exact .nil ((dropWhile_append_of_nil h).trans hb)
  | cons hb ht hf => exact .cons ((dropWhile_append_of_nil h).trans hb) ht hf

theorem append (h : Follow depth text ts) (hd : depth ≤ depth') (hf : Follow depth' more us)
    (he : more.head?.any isIdentifierChar = false) : Follow depth' (text ++ more) (ts ++ us) := by
  induction h with
  | nil hb => exact hf.blank_append hb
  | cons hb ht _ ih => exact .cons (dropWhile_append_of_cons hb) (ht.append hd he) ih

theorem deepen (h : Follow depth text ts) (hd : depth ≤ depth') : Follow depth' text ts := by
  have h : Follow depth' (text ++ []) (ts ++ []) := h.append hd (.nil rfl) rfl
  rwa [List.append_nil, List.append_nil] at h

theorem length_le (h : Follow depth text ts) : ts.length ≤ text.length := by
  induction h with
  | nil => exact Nat.zero_le _
  | cons hb ht _ ih =>
    have hl := (hb ▸ List.dropWhile_suffix Text.isBlank).length_le
    have hl' := ht.suffix.length_le
    rw [List.length_cons]
    rw [List.length_cons] at hl
    omega

-- The rest of a text is read in this way if the bound is not below its length.
theorem of_manyAfter {n : Nat} {cursor next : Cursor} {xs : List (Transformation × Option Binding)}
    (h : (manyAfter (do skipBlank; char? '/') (Transformation.scan depth) (fun _ t => t.2) n none).Yields
      cursor xs next)
    (hl : cursor.rest.length ≤ n) (hn : next.rest.dropWhile Text.isBlank = []) :
    ∃ ts, xs = ts.map unbound ∧ Follow depth cursor.rest ts := by
  induction n generalizing cursor xs with
  | zero =>
    have ⟨hx, _⟩ := yields_manyAfter_zero.mp h
    have hr : cursor.rest = [] := List.length_eq_zero_iff.mp (Nat.le_zero.mp hl)
    exact ⟨[], hx, hr ▸ .nil rfl⟩
  | succ n ih =>
    rcases yields_manyAfter_succ.mp h with ⟨c₁, hc, x, c₂, hx, xs, hxs, rfl⟩ | ⟨hc, rfl⟩
    case inl =>
      have ⟨hx, hu, hs⟩ := spelt_of_yields hx
      have hi := (yields_slash hc).resolve_right (by simp) |>.right
      have hl' := (List.dropWhile_suffix Text.isBlank (l := cursor.rest)).length_le
      have hl'' := hs.length_le
      rw [hi, List.length_cons] at hl'
      rw [hu] at hxs
      have ⟨ts, hts, hf⟩ := ih hxs (by omega)
      exact ⟨x.1 :: ts, by rw [hts, List.map_cons, ← hu], .cons hi hx hf⟩
    case inr =>
      -- The blanks have been skipped, so those that are left cannot be blank.
      have hr := (yields_slash hc).resolve_left (by simp) |>.right
      rw [hr, List.dropWhile_idempotent] at hn
      exact ⟨[], rfl, .nil hn⟩

theorem reads_manyAfter (h : Follow depth text ts) {n : Nat} (hn : ts.length ≤ n) :
    (manyAfter (do skipBlank; char? '/') (Transformation.scan depth) (fun _ t => t.2) n none).Reads
      (· = text) (ts.map unbound) (·.dropWhile Text.isBlank = []) := by
  induction h generalizing n with
  | nil h =>
    cases n with
    | zero => exact Reads.mono .pure (fun _ => id) (by rintro _ rfl; exact h)
    | succ n =>
      refine .manyAfter_nil ((Reads.skipBlank_of_eq h).bind (.mono (.char?_false ?_) (fun _ => id) ?_))
      case refine_1 => rintro _ rfl; exact nofun
      case refine_2 => rintro _ rfl; rfl
  | cons h ht _ ih =>
    obtain ⟨n, rfl⟩ := Nat.exists_eq_add_one.mpr (Nat.zero_lt_of_lt hn)
    exact .manyAfter_cons ((Reads.skipBlank_of_eq h).bind .char?) ht (ih (Nat.le_of_succ_le_succ hn))

end Follow

variable {s s₁ s₂ : String} {clause clause₁ clause₂ : Clause}

-- The transformations that stand in a text, with slashes between them.
def Spelt (depth : Nat) (text : List Char) (clause : Clause) : Prop :=
  ∃ t rest ts, clause = t :: ts ∧ Transformation.Spelt depth text t rest ∧ Follow depth rest ts

theorem spelt_of_sequenceOf {cursor next : Cursor} {left : Option Binding}
    (h : (sequenceOf (Transformation.scan depth) none).Yields cursor (clause, left) next)
    (hn : next.rest.dropWhile Text.isBlank = []) : Spelt depth cursor.rest clause := by
  have ⟨first, c₁, hf, h⟩ := yields_bind.mp h
  have ⟨_, _, hg, h⟩ := yields_bind.mp h
  have ⟨hc, hc'⟩ := yields_get.mp hg
  rw [hc, hc'] at h
  have ⟨xs, c₂, hm, h⟩ := yields_bind.mp h
  have ⟨h, hc⟩ := yields_pure.mp h
  have ⟨hf, hu, _⟩ := spelt_of_yields hf
  rw [hc] at hn
  rw [hu] at hm
  have ⟨ts, hts, hfo⟩ := Follow.of_manyAfter hm (Nat.le_refl _) hn
  have hc : clause = first.1 :: xs.map (·.1) := congrArg Prod.fst h
  exact ⟨first.1, _, ts, by rw [hc, hts]; simp [unbound, Function.comp_def], hf, hfo⟩

theorem reads_sequenceOf {text : List Char} (h : Spelt depth text clause) :
    (sequenceOf (Transformation.scan depth) none).Reads (· = text) (unbound clause)
      (·.dropWhile Text.isBlank = []) := by
  have ⟨t, rest, ts, hc, ht, hf⟩ := h
  apply ht.bind
  apply Reads.get_bind
  rintro cursor rfl
  apply (hf.reads_manyAfter hf.length_le).bind
  have hu : unbound clause = ((unbound t).1 :: (ts.map unbound).map (·.1),
      (ts.map unbound).foldl (fun _ t => t.2) (unbound t).2) := by
    rw [show (unbound t).2 = none from rfl, foldl_unbound, hc]
    simp [unbound, Function.comp_def]
  rw [hu]
  exact .pure

theorem spelt_of_parse (h : parse none s = .ok clause) : Spelt (s.toList.length + 1) s.toList clause := by
  have ⟨next, h⟩ := run'_eq_ok.mp h
  have ⟨_, _, hg, h⟩ := yields_bind.mp h
  have ⟨hc, hc'⟩ := yields_get.mp hg
  rw [hc, hc'] at h
  have ⟨(clause', _), c₂, hs, h⟩ := yields_bind.mp h
  have ⟨_, c₃, hb, h⟩ := yields_bind.mp h
  have ⟨_, _, hg, h⟩ := yields_bind.mp h
  have ⟨hc, hc'⟩ := yields_get.mp hg
  rw [hc, hc'] at h
  have ⟨he, h⟩ := (yields_ite.mp h).resolve_right fun h => not_yields_fail h.right
  have ⟨h, _⟩ := yields_pure.mp h
  rw [h]
  exact spelt_of_sequenceOf hs (rest_of_skipBlank hb ▸ List.isEmpty_iff.mp he)

theorem parse_of_spelt (h : Spelt (s.toList.length + 1) s.toList clause) : parse none s = .ok clause := by
  have hr : (Clause.scan none).Reads (· = s.toList) clause (· = []) := by
    apply Reads.get_bind
    intro cursor hc
    rw [hc]
    apply (reads_sequenceOf h).bind
    apply Reads.bind (Q := (· = []))
    case hm => exact .skipBlank
    apply Reads.get_bind
    intro cursor hn
    exact .ite_pos (List.isEmpty_iff.mpr hn) (.mono .pure (fun _ => id) (by rintro _ rfl; exact hn))
  have ⟨next, hn, _⟩ := hr (Cursor.ofString s) rfl
  exact run'_eq_ok.mpr ⟨next, hn⟩

theorem parse_iff_spelt : parse none s = .ok clause ↔ Spelt (s.toList.length + 1) s.toList clause :=
  ⟨spelt_of_parse, parse_of_spelt⟩

-- After a slash the first transformation of the second clause follows the first clause.
theorem Spelt.slash {depth₁ depth₂ : Nat} {text₁ text₂ : List Char} (h₁ : Spelt depth₁ text₁ clause₁)
    (h₂ : Spelt depth₂ text₂ clause₂) (hd₁ : depth₁ ≤ depth) (hd₂ : depth₂ ≤ depth) :
    Spelt depth (text₁ ++ '/' :: text₂) (clause₁ ++ clause₂) := by
  have ⟨t₁, rest₁, ts₁, hc₁, ht₁, hf₁⟩ := h₁
  have ⟨t₂, rest₂, ts₂, hc₂, ht₂, hf₂⟩ := h₂
  have he : ('/' :: text₂).head?.any isIdentifierChar = false := rfl
  have hf : Follow depth ('/' :: text₂) (t₂ :: ts₂) := .cons rfl (ht₂.deepen hd₂) (hf₂.deepen hd₂)
  rw [hc₁, hc₂]
  exact ⟨t₁, _, ts₁ ++ t₂ :: ts₂, rfl, ht₁.append hd₁ he, hf₁.append hd₁ hf he⟩

theorem parse_slash (h₁ : parse none s₁ = .ok clause₁) (h₂ : parse none s₂ = .ok clause₂) :
    parse none (s₁ ++ "/" ++ s₂) = .ok (clause₁ ++ clause₂) := by
  have ht : (s₁ ++ "/" ++ s₂).toList = s₁.toList ++ '/' :: s₂.toList := by simp
  apply parse_iff_spelt.mpr
  rw [ht, List.length_append, List.length_cons]
  exact (parse_iff_spelt.mp h₁).slash (parse_iff_spelt.mp h₂) (by omega) (by omega)

end Clause
end RowPipeline
