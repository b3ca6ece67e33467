import Mathlib.Data.List.Basic
import Mathlib.Data.List.Induction
import Mathlib.Data.List.TakeWhile
import RowPipeline.Model.ResourcePath

namespace RowPipeline

-- A name that is not taken for something else: it goes up to the next slash, has no key, and is none of the words.
def IsPathName (s : String) : Prop :=
  ('/' ∉ s.toList ∧ '(' ∉ s.toList) ∧ s ∉ ["", "$count", "$value"]

instance (s : String) : Decidable (IsPathName s) :=
  inferInstanceAs (Decidable (_ ∧ _))

namespace PathSegment

def word : PathSegment → String
  | source name | property name | navigation name | cast name | key name => name
  | count => "$count"
  | value => "$value"

-- A path starts at a source. What comes later is told apart by the dot in the name of a type.
def Fits (first : Bool) : PathSegment → Prop
  | source name => first ∧ IsPathName name
  | property name => ¬first ∧ IsPathName name ∧ '.' ∉ name.toList
  | cast name => ¬first ∧ IsPathName name ∧ '.' ∈ name.toList
  | count | value => ¬first
  | navigation _ | key _ => False

end PathSegment

-- A segment, and the key that may stand in parentheses behind it.
structure KeyedSegment where
  segment : PathSegment
  key     : Option String

namespace KeyedSegment

def segments (keyed : KeyedSegment) : ResourcePath :=
  keyed.segment :: keyed.key.toList.map .key

def text (keyed : KeyedSegment) : String :=
  match keyed.key with
  | none => keyed.segment.word
  | some key => keyed.segment.word ++ "(" ++ key ++ ")"

-- A key may be any text in which no part of the path ends.
structure Fits (first : Bool) (keyed : KeyedSegment) : Prop where
  segment : keyed.segment.Fits first
  key     : ∀ key ∈ keyed.key, '/' ∉ key.toList

end KeyedSegment

namespace ResourcePath

-- Slashes stand before the segments, between them and behind them.
def render : List KeyedSegment → (Nat → Nat) → String
  | [], slashes => String.ofList (List.replicate (slashes 0) '/')
  | keyed :: others, slashes =>
    String.ofList (List.replicate (slashes 0) '/') ++ keyed.text ++ render others fun i => slashes (i + 1)

-- The bytes of a text from one position up to another are those of some whole characters.
def IsSlice (text : List Char) (start stop : Nat) (slice : List Char) : Prop :=
  ∃ before after, text = before ++ (slice ++ after) ∧ (String.ofList before).utf8ByteSize = start ∧
    (String.ofList (before ++ slice)).utf8ByteSize = stop

variable {part name key rest : List Char} {keyed : KeyedSegment} {others : List KeyedSegment} {slashes : Nat → Nat}
  {n : Nat} {s : String} {first : Bool}

section Parts

theorem parts_slash (rest : List Char) : parts ('/' :: rest) = parts rest := by
  have hs : ('/' :: rest).splitOn '/' = [] :: rest.splitOn '/' :=
    List.splitOn_append_cons_self_of_not_mem List.not_mem_nil rest
  simp [parts, hs]

theorem parts_slashes (rest : List Char) : parts (List.replicate n '/' ++ rest) = parts rest := by
  induction n with
  | zero => rfl
  | succ n ih => rw [List.replicate_succ, List.cons_append, parts_slash, ih]

-- A part goes up to the next slash, or up to the end.
theorem parts_append (hp : part ≠ []) (hs : '/' ∉ part) (hr : ∀ c ∈ rest.head?, c = '/') :
    parts (part ++ rest) = part :: parts rest := by
  cases rest with
  | nil => simp [parts, List.splitOn_eq_singleton hs, hp]
  | cons c rest =>
    cases hr c rfl
    rw [parts_slash]
    simp [parts, List.splitOn_append_cons_self_of_not_mem hs, hp]

theorem head?_render (hs : others ≠ [] → slashes 0 ≠ 0) : ∀ c ∈ (render others slashes).toList.head?, c = '/' := by
  intro c hc
  cases others with
  | nil =>
    rw [render, String.toList_ofList] at hc
    exact List.eq_of_mem_replicate (List.mem_of_head? hc)
  | cons keyed others =>
    obtain ⟨n, hn⟩ := Nat.exists_eq_succ_of_ne_zero (hs (List.cons_ne_nil _ _))
    rw [render, String.toList_append, String.toList_append, String.toList_ofList, hn, List.replicate_succ] at hc
    cases hc
    rfl

theorem parts_render (ht : ∀ keyed ∈ others, keyed.text ≠ "" ∧ '/' ∉ keyed.text.toList)
    (hs : ∀ i, 0 < i → i < others.length → slashes i ≠ 0) :
    parts (render others slashes).toList = others.map (·.text.toList) := by
  induction others generalizing slashes with
  | nil =>
    have h : parts (List.replicate (slashes 0) '/' ++ []) = [] := parts_slashes []
    simpa [render] using h
  | cons keyed others ih =>
    obtain ⟨⟨hne, hk⟩, ht⟩ := List.forall_mem_cons.mp ht
    have hnext : ∀ i < others.length, slashes (i + 1) ≠ 0 :=
      fun i hi => hs (i + 1) (Nat.succ_pos i) (Nat.succ_lt_succ hi)
    have hrest : parts (render others fun i => slashes (i + 1)).toList = others.map (·.text.toList) :=
      ih ht fun i _ => hnext i
    rw [render, String.toList_append, String.toList_append, String.toList_ofList, List.append_assoc, parts_slashes,
      parts_append (by simpa using hne) hk (head?_render fun hn => hnext 0 (List.length_pos_iff.mpr hn)), hrest,
      List.map_cons]

end Parts

section Keys

theorem takeWhile_name (hn : '(' ∉ name) : (name ++ '(' :: rest).takeWhile (· ≠ '(') = name := by
  have hn : ∀ c ∈ name, decide (c ≠ '(') := by
    intro c hc
    exact decide_eq_true fun he => hn (he ▸ hc)
  rw [List.takeWhile_append_of_pos hn]
  simp

theorem splitKey_of_key (hn : '(' ∉ name) : splitKey (name ++ '(' :: (key ++ [')'])) = (name, some key) := by
  have hl : (name ++ '(' :: (key ++ [')'])).getLast? = some ')' := by
    rw [← List.cons_append, ← List.append_assoc, List.getLast?_concat]
  rw [splitKey, takeWhile_name hn, List.drop_left]
  simp only [hl, if_true, List.dropLast_concat]

theorem splitKey_of_not_mem (hn : '(' ∉ name) : splitKey name = (name, none) := by
  have ht : name.takeWhile (· ≠ '(') = name := by
    refine List.takeWhile_eq_self_iff.mpr fun c hc => ?_
    exact decide_eq_true fun he => hn (he ▸ hc)
  rw [splitKey, ht, List.drop_length]

-- Behind the first opening parenthesis and before the closing one at the end there is always a key, if an empty one.
theorem exists_key (ho : '(' ∈ part) (hc : part.getLast? = some ')') :
    ∃ key, part = part.takeWhile (· ≠ '(') ++ '(' :: (key ++ [')']) ∧ '(' ∉ part.takeWhile (· ≠ '(') := by
  obtain ⟨name, inner, rfl, hn⟩ := List.eq_append_cons_of_mem ho
  rw [takeWhile_name hn]
  cases inner using List.reverseRecOn with
  | nil => simp at hc
  | append_singleton key last =>
    rw [← List.cons_append, ← List.append_assoc, List.getLast?_concat] at hc
    cases hc
    exact ⟨key, rfl, hn⟩

theorem isSlice_key : IsSlice (name ++ '(' :: (key ++ [')'])) ((String.ofList name).utf8ByteSize + 1)
    ((String.ofList (name ++ '(' :: (key ++ [')']))).utf8ByteSize - 1) key := by
  refine ⟨name ++ ['('], [')'], by simp, ?_, ?_⟩
  case refine_1 => rw [String.ofList_append, String.utf8ByteSize_append]; rfl
  case refine_2 =>
    have h : String.ofList (name ++ '(' :: (key ++ [')'])) = String.ofList (name ++ ['('] ++ key) ++ ")" := by
      simp [← String.toList_inj]
    rw [h, String.utf8ByteSize_append]
    rfl

end Keys

section Segments

theorem ne_words (h : IsPathName s) : String.ofList s.toList ≠ "$count" ∧ String.ofList s.toList ≠ "$value" := by
  have hw := h.right
  simp only [List.mem_cons, List.not_mem_nil, or_false, not_or] at hw
  rw [String.ofList_toList]
  exact hw.right

theorem segment_source (h : IsPathName s) : segment true s.toList = .source s := by
  obtain ⟨hc, hv⟩ := ne_words h
  rw [segment, if_neg hc, if_neg hv, if_pos rfl, String.ofList_toList]

theorem segment_later (h : IsPathName s) :
    segment false s.toList = if '.' ∈ s.toList then .cast s else .property s := by
  obtain ⟨hc, hv⟩ := ne_words h
  rw [segment, if_neg hc, if_neg hv, if_neg Bool.false_ne_true, String.ofList_toList]

theorem segment_word {written : PathSegment} (h : written.Fits first) :
    segment first written.word.toList = written := by
  cases written with
  | source name =>
    obtain ⟨rfl, hn⟩ := h
    exact segment_source hn
  | property name =>
    obtain ⟨hf, hn, hd⟩ := h
    rw [Bool.eq_false_iff.mpr hf]
    exact (segment_later hn).trans (if_neg hd)
  | cast name =>
    obtain ⟨hf, hn, hd⟩ := h
    rw [Bool.eq_false_iff.mpr hf]
    exact (segment_later hn).trans (if_pos hd)
  | count | value => simp [segment, PathSegment.word]
  | navigation | key => cases h

theorem chars_word {written : PathSegment} (h : written.Fits first) :
    written.word ≠ "" ∧ '/' ∉ written.word.toList ∧ '(' ∉ written.word.toList := by
  have hn : ∀ s, IsPathName s → s ≠ "" ∧ '/' ∉ s.toList ∧ '(' ∉ s.toList :=
    fun s h => ⟨fun he => h.right (he ▸ List.mem_cons_self), h.left⟩
  cases written with
  | source name => exact hn name h.right
  | property name | cast name => exact hn name h.right.left
  | count | value => simp [PathSegment.word]
  | navigation | key => cases h

theorem partSegments_text (h : keyed.Fits first) : partSegments first keyed.text.toList = keyed.segments := by
  obtain ⟨written, key⟩ := keyed
  have hn : '(' ∉ written.word.toList := (chars_word h.segment).right.right
  have hs : segment first written.word.toList = written := segment_word h.segment
  cases key with
  | none =>
    rw [partSegments, KeyedSegment.text, splitKey_of_not_mem hn]
    simp only [hs]
    rfl
  | some key =>
    have ht : (written.word ++ "(" ++ key ++ ")").toList =
        written.word.toList ++ '(' :: (key.toList ++ [')']) := by simp
    rw [partSegments, KeyedSegment.text, ht, splitKey_of_key hn]
    simp only [hs]
    simp [KeyedSegment.segments]

theorem chars_text (h : keyed.Fits first) : keyed.text ≠ "" ∧ '/' ∉ keyed.text.toList := by
  obtain ⟨written, key⟩ := keyed
  obtain ⟨hne, hs, -⟩ := chars_word h.segment
  cases key with
  | none => exact ⟨hne, hs⟩
  | some key =>
    have hk : '/' ∉ key.toList := h.key key rfl
    simp [KeyedSegment.text, hs, hk]

theorem segment_ne_navigation (first : Bool) (word : List Char) (name : String) :
    segment first word ≠ .navigation name := by
  grind [segment]

end Segments

-- The first segment is read as a source, and the others as what they are.
theorem parse_render {opening : KeyedSegment} (hf : opening.Fits true) (ho : ∀ keyed ∈ others, keyed.Fits false)
    (hs : ∀ i, 0 < i → i ≤ others.length → slashes i ≠ 0) :
    parse (render (opening :: others) slashes) = (opening :: others).flatMap KeyedSegment.segments := by
  have ht : ∀ keyed ∈ opening :: others, keyed.text ≠ "" ∧ '/' ∉ keyed.text.toList :=
    List.forall_mem_cons.mpr ⟨chars_text hf, fun keyed hm => chars_text (ho keyed hm)⟩
  have hl : ∀ keyed ∈ others, partSegments false keyed.text.toList = keyed.segments :=
    fun keyed hm => partSegments_text (ho keyed hm)
  rw [parse, parts_render ht fun i hp hi => hs i hp (Nat.le_of_lt_succ hi), List.map_cons, ofParts, List.flatMap_cons,
    partSegments_text hf, List.flatMap_map, List.flatMap_congr hl]

theorem navigation_not_mem_parse (s name : String) : .navigation name ∉ parse s := by
  have hp : ∀ first part, .navigation name ∉ partSegments first part := by
    intro first part hm
    rcases List.mem_cons.mp hm with he | hk
    case inl => exact segment_ne_navigation first _ name he.symm
    case inr =>
      obtain ⟨key, -, he⟩ := List.mem_map.mp hk
      cases he
  rw [parse]
  cases parts s.toList with
  | nil => exact List.not_mem_nil
  | cons part rest =>
    rw [ofParts, List.mem_append, List.mem_flatMap, not_or]
    refine ⟨hp true part, ?_⟩
    rintro ⟨later, -, hm⟩
    exact hp false later hm

theorem parsing_undoes_writing :
    (∀ (opening : KeyedSegment) (others : List KeyedSegment) (slashes : Nat → Nat),
      opening.Fits true → (∀ keyed ∈ others, keyed.Fits false) → (∀ i, 0 < i → i ≤ others.length → slashes i ≠ 0) →
        parse (render (opening :: others) slashes) = (opening :: others).flatMap KeyedSegment.segments) ∧
    ∀ s, (∀ part ∈ parts s.toList, '(' ∈ part → part.getLast? = some ')' →
      ∃ key, splitKey part = (part.takeWhile (· ≠ '('), some key) ∧
        IsSlice part ((String.ofList (part.takeWhile (· ≠ '('))).utf8ByteSize + 1)
          ((String.ofList part).utf8ByteSize - 1) key) ∧
      ∀ name, .navigation name ∉ parse s := by
  refine ⟨fun _ _ _ hf ho hs => parse_render hf ho hs, fun s => ⟨fun part _ ho hc => ?_, navigation_not_mem_parse s⟩⟩
  obtain ⟨key, hp, hn⟩ := exists_key ho hc
  generalize part.takeWhile (· ≠ '(') = name at hp hn ⊢
  cases hp
  exact ⟨key, splitKey_of_key hn, isSlice_key⟩

-- A key with parentheses, a dot and a character of several bytes, and behind the count an empty one.
theorem parsing_undoes_writing_keys :
    parse (render [⟨.source "Items", some "a(b)=é."⟩, ⟨.cast "NS.Book", none⟩, ⟨.count, some ""⟩] (· + 1)) =
      [.source "Items", .key "a(b)=é.", .cast "NS.Book", .count, .key ""] := by
  have hf : KeyedSegment.Fits true ⟨.source "Items", some "a(b)=é."⟩ := ⟨⟨rfl, by decide⟩, by decide⟩
  have hb : KeyedSegment.Fits false ⟨.cast "NS.Book", none⟩ := ⟨⟨nofun, by decide, by decide⟩, nofun⟩
  have hc : KeyedSegment.Fits false ⟨.count, some ""⟩ := ⟨nofun, by decide⟩
  have ho : ∀ keyed ∈ [⟨.cast "NS.Book", none⟩, ⟨.count, some ""⟩], KeyedSegment.Fits false keyed :=
    List.forall_mem_cons.mpr ⟨hb, List.forall_mem_cons.mpr ⟨hc, nofun⟩⟩
  exact parsing_undoes_writing.left _ _ _ hf ho fun i _ _ => Nat.succ_ne_zero i

end ResourcePath
end RowPipeline
