import ErmyaGraph.Lib.Delimited
import Mathlib.Data.Nat.Digits.Defs

/-! # Values written out for debugging

Values made of words, texts, lists, maps and records are written out with their
brackets and commas. The text tells the value, and the order in which the
entries of a map came. -/

namespace DebugText

open Delimited List

def isWordChar (c : Char) : Bool := c.isAlphanum || c == '-' || c == '+' || c == '.' || c == '_'

/-- A name or a number, which ends where a bracket, a comma or a blank begins. -/
@[ext]
structure Word where
  text : List Char
  nonempty : text ≠ []
  only : ∀ c ∈ text, isWordChar c = true

def EndsWord (rest : List Char) : Prop := ∀ c tail, rest = c :: tail → isWordChar c = false

theorem takeWhile_word (word : Word) {rest : List Char} (ends : EndsWord rest) :
    (word.text ++ rest).takeWhile isWordChar = word.text := by
  rw [takeWhile_append_of_pos word.only]
  cases rest with
  | nil => simp
  | cons c tail => simp [ends c tail rfl]

theorem Word.split {left right : Word} {rest rest' : List Char} (ends : EndsWord rest)
    (ends' : EndsWord rest') (same : left.text ++ rest = right.text ++ rest') :
    left = right ∧ rest = rest' := by
  have texts : left.text = right.text := by
    rw [← takeWhile_word left ends, same, takeWhile_word right ends']
  exact ⟨Word.ext texts, append_cancel_left (texts ▸ same)⟩

theorem Word.exists_cons (word : Word) : ∃ c tail, word.text = c :: tail ∧ isWordChar c = true := by
  obtain ⟨c, tail, same⟩ := exists_cons_of_ne_nil word.nonempty
  exact ⟨c, tail, same, word.only c (same ▸ .head _)⟩

/-- An integer in decimals. -/
def Word.ofInt (i : Int) : Word where
  text := decimal i
  nonempty := by
    cases i with
    | ofNat n => exact Nat.toDigits_ne_nil
    | negSucc n => exact cons_ne_nil _ _
  only c member := by
    have digit : ∀ n, c ∈ Nat.toDigits 10 n → isWordChar c = true := by
      intro n inside
      have isDigit : c.isDigit := Nat.isDigit_of_mem_toDigits (by omega) (Nat.le_refl 10) inside
      simp [isWordChar, Char.isAlphanum, isDigit]
    cases i with
    | ofNat n => exact digit n member
    | negSucc n =>
      rcases mem_cons.mp member with rfl | inside
      · rfl
      · exact digit (n + 1) inside

def hexadecimal (n : Nat) : List Char := (Nat.digits 16 n).reverse.map Nat.digitChar

def hexValue (c : Char) : Nat := if c.isDigit then c.toNat - 48 else c.toNat - 87

theorem hexValue_digitChar : ∀ d < 16, hexValue (Nat.digitChar d) = d := by decide

theorem hexadecimal_injective : Function.Injective hexadecimal := by
  have back : ∀ n, Nat.ofDigits 16 ((hexadecimal n).map hexValue).reverse = n := by
    intro n
    have values : ((Nat.digits 16 n).reverse.map Nat.digitChar).map hexValue =
        (Nat.digits 16 n).reverse := by
      rw [map_map]
      refine (map_congr_left fun d mem => ?_).trans (map_id _)
      exact hexValue_digitChar d (Nat.digits_lt_base (by omega) (mem_reverse.mp mem))
    rw [hexadecimal, values, reverse_reverse, Nat.ofDigits_digits]
  intro n m same
  rw [← back n, same, back m]

theorem brace_not_mem_hexadecimal (n : Nat) : '}' ∉ hexadecimal n := by
  intro inside
  obtain ⟨d, mem, same⟩ := mem_map.mp inside
  have below := Nat.digits_lt_base (b := 16) (by omega) (mem_reverse.mp mem)
  have other : ∀ d < 16, Nat.digitChar d ≠ '}' := by decide
  exact other d below same

section Text

variable (plain : Char → Bool)

/-- The characters that have an escape of their own. -/
def shortEscape : Char → Option Char
  | '\x00' => some '0'
  | '\t' => some 't'
  | '\r' => some 'r'
  | '\n' => some 'n'
  | '"' => some '"'
  | '\\' => some '\\'
  | _ => none

/-- A character in quotes. Which of the others are shown as they are is a matter of tables. -/
def escapeDebug (c : Char) : List Char :=
  match shortEscape c with
  | some short => ['\\', short]
  | none => if plain c then [c] else ['\\', 'u', '\x7b'] ++ hexadecimal c.toNat ++ ['\x7d']

def debugStr (text : String) : List Char :=
  '"' :: (text.toList.flatMap (escapeDebug plain) ++ ['"'])

def unescape : Char → Char
  | '0' => '\x00'
  | 't' => '\t'
  | 'r' => '\r'
  | 'n' => '\n'
  | c => c

theorem unescape_shortEscape {c short : Char} (escaped : shortEscape c = some short) :
    unescape short = c := by
  unfold shortEscape at escaped
  split at escaped <;> cases escaped <;> rfl

variable (c : Char)

theorem shortEscape_ne_u : shortEscape c ≠ some 'u' := by
  intro escaped
  have same := unescape_shortEscape escaped
  subst same
  cases escaped

theorem escapeDebug_cases :
    (∃ short, shortEscape c = some short ∧ escapeDebug plain c = ['\\', short]) ∨
      (shortEscape c = none ∧ escapeDebug plain c = [c]) ∨
      escapeDebug plain c = ['\\', 'u', '\x7b'] ++ hexadecimal c.toNat ++ ['\x7d'] := by
  unfold escapeDebug
  cases escaped : shortEscape c with
  | some short => exact .inl ⟨short, rfl, rfl⟩
  | none =>
    by_cases shown : plain c
    · exact .inr (.inl ⟨rfl, if_pos shown⟩)
    · exact .inr (.inr (if_neg shown))

theorem ne_backslash {c : Char} (unescaped : shortEscape c = none) : c ≠ '\\' := by
  rintro rfl
  cases unescaped

theorem selfDelimiting_escapeDebug : SelfDelimiting (escapeDebug plain) := by
  intro c d rest rest' same
  rcases escapeDebug_cases plain c with ⟨short, left, shown⟩ | ⟨left, shown⟩ | shown <;>
    rcases escapeDebug_cases plain d with ⟨short', right, shown'⟩ | ⟨right, shown'⟩ | shown' <;>
    rw [shown, shown'] at same <;>
    simp only [cons_append, nil_append, append_assoc, List.cons.injEq, true_and] at same
  · exact ⟨by rw [← unescape_shortEscape left, same.1, unescape_shortEscape right], same.2⟩
  · exact absurd same.1.symm (ne_backslash right)
  · exact absurd (same.1 ▸ left) (shortEscape_ne_u c)
  · exact absurd same.1 (ne_backslash left)
  · exact same
  · exact absurd same.1 (ne_backslash left)
  · exact absurd (same.1 ▸ right) (shortEscape_ne_u d)
  · exact absurd same.1.symm (ne_backslash right)
  · have parts := split_of_not_mem (brace_not_mem_hexadecimal c.toNat)
      (brace_not_mem_hexadecimal d.toNat) rest rest' (by simpa using same)
    exact ⟨Char.toNat_inj.mp (hexadecimal_injective parts.1), parts.2⟩

theorem quote_ne_escapeDebug (rest rest' : List Char) :
    '"' :: rest ≠ escapeDebug plain c ++ rest' := by
  intro same
  rcases escapeDebug_cases plain c with ⟨short, left, shown⟩ | ⟨left, shown⟩ | shown <;>
    rw [shown] at same
  · cases (List.cons.inj same).1
  · cases (List.cons.inj same).1
    cases left
  · cases (List.cons.inj same).1

theorem selfDelimiting_debugStr : SelfDelimiting (debugStr plain) := by
  intro text text' rest rest' same
  have inner := selfDelimiting_flatMap (selfDelimiting_escapeDebug plain)
    (quote_ne_escapeDebug plain) text.toList text'.toList rest rest' (List.cons.inj same).2
  exact ⟨String.toList_inj.mp inner.1, inner.2⟩

end Text

/-- A value by the way it is written: names and numbers, texts, `[..]`, `{..: ..}`, `(.., ..)`,
`Name(..)` and `Name { field: .., .. }`. The entries of a map are in the order they come. -/
inductive Tree where
  | word (word : Word)
  | str (text : String)
  | list (items : List Tree)
  | table (entries : List (String × Tree))
  | pair (left right : Tree)
  | variant (name : Word) (inner : Tree)
  | record (name : Word) (fields : List (Word × Tree))

/-- Texts one after the other, each behind a separator; the first one is special. -/
def joined : (separator : List Char) → List (List Char) → List Char
  | _, [] => []
  | separator, text :: rest => separator ++ text ++ joined [',', ' '] rest

section Render

variable (plain : Char → Bool)

mutual

def render : Tree → List Char
  | .word word => word.text
  | .str text => debugStr plain text
  | .list items => '[' :: (joined [] (renderItems items) ++ [']'])
  | .table entries => '\x7b' :: (joined [] (renderEntries entries) ++ ['\x7d'])
  | .pair left right => '(' :: (render left ++ ([',', ' '] ++ (render right ++ [')'])))
  | .variant name inner => name.text ++ ('(' :: (render inner ++ [')']))
  | .record name fields =>
    name.text ++ ([' ', '\x7b'] ++ (joined [' '] (renderFields fields) ++ [' ', '\x7d']))

def renderItems : List Tree → List (List Char)
  | [] => []
  | item :: rest => render item :: renderItems rest

def renderEntries : List (String × Tree) → List (List Char)
  | [] => []
  | (key, value) :: rest =>
    (debugStr plain key ++ ([':', ' '] ++ render value)) :: renderEntries rest

def renderFields : List (Word × Tree) → List (List Char)
  | [] => []
  | (name, value) :: rest => (name.text ++ ([':', ' '] ++ render value)) :: renderFields rest

end

theorem renderItems_eq_map (items : List Tree) :
    renderItems plain items = items.map (render plain) := by
  induction items with
  | nil => rfl
  | cons item rest ih => rw [renderItems, ih, map_cons]

theorem renderEntries_eq_map (entries : List (String × Tree)) :
    renderEntries plain entries =
      entries.map fun entry => debugStr plain entry.1 ++ ([':', ' '] ++ render plain entry.2) := by
  induction entries with
  | nil => rfl
  | cons entry rest ih => rw [renderEntries, ih, map_cons]

theorem renderFields_eq_map (fields : List (Word × Tree)) :
    renderFields plain fields =
      fields.map fun field => field.1.text ++ ([':', ' '] ++ render plain field.2) := by
  induction fields with
  | nil => rfl
  | cons field rest ih => rw [renderFields, ih, map_cons]

def Closes (rest : List Char) : Prop :=
  rest = [] ∨ ∃ c tail, rest = c :: tail ∧
    (c = ',' ∨ c = ')' ∨ c = ']' ∨ c = '\x7d' ∨ c = ' ' ∧ ∃ tail', tail = '\x7d' :: tail')

theorem Closes.endsWord {rest : List Char} (closes : Closes rest) : EndsWord rest := by
  rintro c tail rfl
  rcases closes with none | ⟨d, tail', same, which⟩
  · cases none
  · cases same
    rcases which with rfl | rfl | rfl | rfl | ⟨rfl, -⟩ <;> rfl

variable (rest : List Char)

theorem not_closes_paren : ¬Closes ('(' :: rest) := by
  rintro (none | ⟨d, tail, same, which⟩)
  · cases none
  · cases same
    simp at which

theorem not_closes_brace : ¬Closes (' ' :: '\x7b' :: rest) := by
  rintro (none | ⟨d, tail, same, which⟩)
  · cases none
  · cases same
    simp at which

/-- The bracket that a tree begins with, unless it begins with a word. -/
def Tree.lead : Tree → Option Char
  | .str _ => some '"'
  | .list _ => some '['
  | .table _ => some '\x7b'
  | .pair _ _ => some '('
  | .word _ | .variant _ _ | .record _ _ => none

theorem render_head (t : Tree) :
    ∃ c tail, render plain t = c :: tail ∧ t.lead = if isWordChar c then none else some c := by
  have begins : ∀ (word : Word) (rest : List Char), ∃ c tail, word.text ++ rest = c :: tail ∧
      none = if isWordChar c then none else some c := by
    intro word rest
    obtain ⟨c, tail, same, isWord⟩ := word.exists_cons
    exact ⟨c, tail ++ rest, by rw [same, cons_append], by rw [if_pos isWord]⟩
  cases t with
  | word word => simpa [render, Tree.lead] using begins word []
  | str text => exact ⟨_, _, by rw [render, debugStr], rfl⟩
  | list items => exact ⟨_, _, by rw [render], rfl⟩
  | table entries => exact ⟨_, _, by rw [render], rfl⟩
  | pair left right => exact ⟨_, _, by rw [render], rfl⟩
  | variant name inner =>
    rw [render]
    exact begins name _
  | record name fields =>
    rw [render]
    exact begins name _

theorem lead_eq {t t' : Tree} {rest rest' : List Char}
    (same : render plain t ++ rest = render plain t' ++ rest') : t.lead = t'.lead := by
  obtain ⟨c, tail, begins, lead⟩ := render_head plain t
  obtain ⟨c', tail', begins', lead'⟩ := render_head plain t'
  rw [begins, begins', cons_append, cons_append] at same
  rw [lead, lead', (List.cons.inj same).1]

theorem render_ne_bracket (t : Tree) (tail rest : List Char) :
    render plain t ++ tail ≠ ']' :: rest := by
  intro same
  obtain ⟨c, tail', begins, lead⟩ := render_head plain t
  rw [begins, cons_append] at same
  rw [(List.cons.inj same).1] at lead
  cases t <;> cases lead

theorem field_ne_brace (field : Word × Tree) (tail rest : List Char) :
    [' '] ++ (field.1.text ++ ([':', ' '] ++ render plain field.2) ++ tail) ≠
      [' ', '\x7d'] ++ rest := by
  intro same
  obtain ⟨c, tail', begins, isWord⟩ := field.1.exists_cons
  rw [begins] at same
  have first := (List.cons.inj (List.cons.inj same).2).1
  rw [first] at isWord
  cases isWord

/-- Texts that go on with a bracket are told apart as their items are. -/
theorem joined_split {α : Type} {code : α → List Char} {stop : List Char}
    (closes : ∀ rest, Closes (stop ++ rest))
    (comma : ∀ tail rest, ',' :: tail ≠ stop ++ rest) (items : List α) :
    ∀ (items' : List α) (separator rest rest' : List Char),
      (∀ a ∈ items, ∀ b rest rest', Closes rest → Closes rest' →
        code a ++ rest = code b ++ rest' → a = b ∧ rest = rest') →
      (∀ a tail rest, separator ++ (code a ++ tail) ≠ stop ++ rest) →
      joined separator (items.map code) ++ (stop ++ rest) =
        joined separator (items'.map code) ++ (stop ++ rest') →
      items = items' ∧ rest = rest' := by
  have follows : ∀ (items : List α) rest,
      Closes (joined [',', ' '] (items.map code) ++ (stop ++ rest)) := by
    intro items rest
    cases items with
    | nil => exact closes rest
    | cons a later => exact .inr ⟨',', _, rfl, .inl rfl⟩
  induction items with
  | nil =>
    intro items' separator rest rest' _ begins same
    cases items' with
    | nil => exact ⟨rfl, append_cancel_left same⟩
    | cons b later' =>
      rw [map_nil, joined, map_cons, joined, nil_append, append_assoc, append_assoc] at same
      exact absurd same.symm (begins b _ rest)
  | cons a later ih =>
    intro items' separator rest rest' each begins same
    cases items' with
    | nil =>
      rw [map_nil, joined, map_cons, joined, nil_append, append_assoc, append_assoc] at same
      exact absurd same (begins a _ rest')
    | cons b later' =>
      rw [map_cons, joined, map_cons, joined, append_assoc, append_assoc,
        append_assoc, append_assoc] at same
      obtain ⟨rfl, onward⟩ := each a mem_cons_self b _ _ (follows later rest)
        (follows later' rest') (append_cancel_left same)
      obtain ⟨rfl, rfl⟩ := ih later' [',', ' '] rest rest'
        (fun c mem => each c (mem_cons_of_mem a mem))
        (fun c tail rest => comma _ rest) onward
      exact ⟨rfl, rfl⟩

/-- A tree is told apart from others by its text, whatever follows. -/
def Splits (t : Tree) : Prop :=
  ∀ t' rest rest', Closes rest → Closes rest' →
    render plain t ++ rest = render plain t' ++ rest' → t = t' ∧ rest = rest'

variable {plain}

theorem splits_entry {entry : String × Tree} (splits : Splits plain entry.2) (other : String × Tree)
    (rest rest' : List Char) (closes : Closes rest) (closes' : Closes rest')
    (same : debugStr plain entry.1 ++ ([':', ' '] ++ render plain entry.2) ++ rest =
      debugStr plain other.1 ++ ([':', ' '] ++ render plain other.2) ++ rest') :
    entry = other ∧ rest = rest' := by
  simp only [append_assoc] at same
  obtain ⟨keys, onward⟩ := selfDelimiting_debugStr plain _ _ _ _ same
  obtain ⟨values, rests⟩ := splits other.2 _ _ closes closes' (append_cancel_left onward)
  exact ⟨Prod.ext keys values, rests⟩

theorem endsWord_colon : EndsWord ([':', ' '] ++ rest) := by
  intro c tail same
  rw [← (List.cons.inj same).1]
  rfl

theorem endsWord_paren : EndsWord ('(' :: rest) := by
  intro c tail same
  rw [← (List.cons.inj same).1]
  rfl

theorem endsWord_brace : EndsWord ([' ', '\x7b'] ++ rest) := by
  intro c tail same
  rw [← (List.cons.inj same).1]
  rfl

theorem splits_field {field : Word × Tree} (splits : Splits plain field.2) (other : Word × Tree)
    (rest rest' : List Char) (closes : Closes rest) (closes' : Closes rest')
    (same : field.1.text ++ ([':', ' '] ++ render plain field.2) ++ rest =
      other.1.text ++ ([':', ' '] ++ render plain other.2) ++ rest') :
    field = other ∧ rest = rest' := by
  simp only [append_assoc] at same
  obtain ⟨names, onward⟩ := Word.split (endsWord_colon _) (endsWord_colon _) same
  obtain ⟨values, rests⟩ := splits other.2 _ _ closes closes' (append_cancel_left onward)
  exact ⟨Prod.ext names values, rests⟩

mutual

theorem splits : ∀ t : Tree, Splits plain t
  | .word word => by
    intro t' rest rest' closes closes' same
    cases t' with
    | word word' =>
      obtain ⟨rfl, rests⟩ := Word.split closes.endsWord closes'.endsWord same
      exact ⟨rfl, rests⟩
    | variant name inner =>
      rw [render, render, append_assoc] at same
      have parts := Word.split closes.endsWord (endsWord_paren _) same
      exact absurd (parts.2 ▸ closes) (not_closes_paren _)
    | record name fields =>
      rw [render, render, append_assoc, append_assoc] at same
      have parts := Word.split closes.endsWord (endsWord_brace _) same
      exact absurd (parts.2 ▸ closes) (not_closes_brace _)
    | _ => cases lead_eq plain same
  | .str text => by
    intro t' rest rest' closes closes' same
    cases t' with
    | str text' =>
      obtain ⟨rfl, rests⟩ := selfDelimiting_debugStr plain _ _ _ _ same
      exact ⟨rfl, rests⟩
    | _ => cases lead_eq plain same
  | .list items => by
    intro t' rest rest' closes closes' same
    cases t' with
    | list items' =>
      rw [render, render, renderItems_eq_map, renderItems_eq_map, cons_append,
        cons_append, append_assoc, append_assoc] at same
      obtain ⟨rfl, rests⟩ := @joined_split _ (render plain) [']']
        (fun rest => .inr ⟨']', rest, rfl, by simp⟩) (fun _ _ => by simp) items items' []
        rest rest' (splits_items items) (render_ne_bracket plain) (List.cons.inj same).2
      exact ⟨rfl, rests⟩
    | _ => cases lead_eq plain same
  | .table entries => by
    intro t' rest rest' closes closes' same
    cases t' with
    | table entries' =>
      rw [render, render, renderEntries_eq_map, renderEntries_eq_map, cons_append,
        cons_append, append_assoc, append_assoc] at same
      obtain ⟨rfl, rests⟩ := @joined_split _ _ ['\x7d']
        (fun rest => .inr ⟨'\x7d', rest, rfl, by simp⟩) (fun _ _ => by simp) entries entries'
        [] rest rest' (fun entry mem => splits_entry (splits_entries entries entry mem))
        (fun entry tail rest => by simp [debugStr]) (List.cons.inj same).2
      exact ⟨rfl, rests⟩
    | _ => cases lead_eq plain same
  | .pair left right => by
    intro t' rest rest' closes closes' same
    cases t' with
    | pair left' right' =>
      simp only [render, cons_append, append_assoc, List.cons.injEq, true_and, nil_append] at same
      obtain ⟨rfl, onward⟩ := splits left left' _ _ (.inr ⟨',', _, rfl, .inl rfl⟩)
        (.inr ⟨',', _, rfl, .inl rfl⟩) same
      simp only [List.cons.injEq, true_and] at onward
      obtain ⟨rfl, last⟩ := splits right right' _ _ (.inr ⟨')', _, rfl, by simp⟩)
        (.inr ⟨')', _, rfl, by simp⟩) onward
      exact ⟨rfl, (List.cons.inj last).2⟩
    | _ => cases lead_eq plain same
  | .variant name inner => by
    intro t' rest rest' closes closes' same
    cases t' with
    | variant name' inner' =>
      simp only [render, cons_append, append_assoc, nil_append] at same
      obtain ⟨rfl, onward⟩ := Word.split (endsWord_paren _) (endsWord_paren _) same
      obtain ⟨rfl, last⟩ := splits inner inner' _ _ (.inr ⟨')', _, rfl, by simp⟩)
        (.inr ⟨')', _, rfl, by simp⟩) (List.cons.inj onward).2
      exact ⟨rfl, (List.cons.inj last).2⟩
    | word word' =>
      rw [render, render, append_assoc] at same
      have parts := Word.split (endsWord_paren _) closes'.endsWord same
      exact absurd (parts.2 ▸ closes') (not_closes_paren _)
    | record name' fields =>
      rw [render, render, append_assoc, append_assoc, append_assoc] at same
      have parts := Word.split (endsWord_paren _) (endsWord_brace _) same
      cases parts.2
    | _ => cases lead_eq plain same
  | .record name fields => by
    intro t' rest rest' closes closes' same
    cases t' with
    | record name' fields' =>
      simp only [render, renderFields_eq_map, append_assoc] at same
      obtain ⟨rfl, onward⟩ := Word.split (endsWord_brace _) (endsWord_brace _) same
      obtain ⟨rfl, rests⟩ := @joined_split _ _ [' ', '\x7d']
        (fun rest => .inr ⟨' ', '\x7d' :: rest, rfl, by simp⟩) (fun _ _ => by simp) fields
        fields' [' '] rest rest'
        (fun field mem => splits_field (splits_fields fields field mem))
        (field_ne_brace plain) (append_cancel_left onward)
      exact ⟨rfl, rests⟩
    | word word' =>
      rw [render, render, append_assoc, append_assoc] at same
      have parts := Word.split (endsWord_brace _) closes'.endsWord same
      exact absurd (parts.2 ▸ closes') (not_closes_brace _)
    | variant name' inner =>
      rw [render, render, append_assoc, append_assoc, append_assoc, append_assoc] at same
      have parts := Word.split (endsWord_brace _) (endsWord_paren _) same
      cases parts.2
    | _ => cases lead_eq plain same

theorem splits_items : ∀ items : List Tree, ∀ t ∈ items, Splits plain t
  | [] => nofun
  | item :: rest => forall_mem_cons.mpr ⟨splits item, splits_items rest⟩

theorem splits_entries : ∀ entries : List (String × Tree), ∀ entry ∈ entries, Splits plain entry.2
  | [] => nofun
  | (_, value) :: rest => forall_mem_cons.mpr ⟨splits value, splits_entries rest⟩

theorem splits_fields : ∀ fields : List (Word × Tree), ∀ field ∈ fields, Splits plain field.2
  | [] => nofun
  | (_, value) :: rest => forall_mem_cons.mpr ⟨splits value, splits_fields rest⟩

end

theorem render_injective : Function.Injective (render plain) := by
  intro t t' same
  exact (splits t t' [] [] (.inl rfl) (.inl rfl) (by rw [same])).1

end Render

end DebugText
