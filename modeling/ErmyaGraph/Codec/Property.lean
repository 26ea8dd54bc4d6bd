import ErmyaGraph.Lib.Outcome
import ErmyaGraph.Data
import ErmyaGraph.Lib.Bytes

/-! # The property encoding

A property map is stored as the concatenation of its entries. Each entry holds
the key length, the key, a type tag and the value. The decoder keeps the bytes
it has not consumed yet. -/

namespace ErmyaGraph.PropertyCodec

variable {bytes : List UInt8} {props : Properties}

open Bytes List

/-- A failure while decoding properties found on a page. -/
def corrupt (reason : String) (page : PageId) : Error := .corruptPage "properties" page reason

/-- A length must fit the four bytes that record it. -/
def checkLength (length : Nat) : Except Error Unit :=
  if length < 2 ^ 32 then .ok () else .error (.recordTooLarge length)

/-- Encode one value: its tag, its length where it has one, and its payload. -/
def encodeValue : Property → Except Error (List UInt8)
  | .string s => do
      checkLength (ofString s).length
      return 1 :: leBytes 4 (ofString s).length ++ ofString s
  | .i64 v => return 2 :: leBytes 8 v.toUInt64.toNat
  | .f64 bits => return 3 :: leBytes 8 bits.toNat
  | .bool b => return [4, if b then 1 else 0]
  | .bytes b => do
      checkLength b.length
      return 5 :: leBytes 4 b.length ++ b

/-- Encode one entry. -/
def encodeEntry (entry : String × Property) : Except Error (List UInt8) := do
  let key := ofString entry.1
  if 255 < key.length then
    throw (.recordTooLarge key.length)
  let value ← encodeValue entry.2
  return UInt8.ofNat key.length :: key ++ value

/-- Encode entries one after the other; the first refused entry refuses the map. -/
def encodeEntries : List (String × Property) → Except Error (List UInt8)
  | [] => return []
  | entry :: rest => do
      let first ← encodeEntry entry
      let others ← encodeEntries rest
      return first ++ others

def encodeProperties (props : Properties) : Except Error (List UInt8) := encodeEntries props.entries

/-- Take `count` bytes off the front, or fail with the given reason. -/
def takeBytes (data : List UInt8) (count : Nat) (reason : String) (page : PageId) :
    Except Error (List UInt8 × List UInt8) :=
  if count ≤ data.length then .ok (data.take count, data.drop count)
  else .error (corrupt reason page)

/-- Decode a text, or fail with the given reason. -/
def decodeText (bytes : List UInt8) (reason : String) (page : PageId) : Except Error String :=
  match toString? bytes with
  | some text => .ok text
  | none => .error (corrupt reason page)

/-- Decode one value and return the bytes after it. -/
def decodeValue (data : List UInt8) (page : PageId) : Except Error (Property × List UInt8) :=
  match data with
  | [] => .error (corrupt "property type tag" page)
  | tag :: body =>
    if tag = 1 then do
      let (length, body) ← takeBytes body 4 "string length" page
      let (payload, rest) ← takeBytes body (leNat length) "string value truncated" page
      let text ← decodeText payload "string value is not valid UTF-8" page
      return (.string text, rest)
    else if tag = 2 then do
      let (payload, rest) ← takeBytes body 8 "i64 value" page
      return (.i64 (UInt64.ofNat (leNat payload)).toInt64, rest)
    else if tag = 3 then do
      let (payload, rest) ← takeBytes body 8 "f64 value" page
      return (.f64 (UInt64.ofNat (leNat payload)), rest)
    else if tag = 4 then do
      let (payload, rest) ← takeBytes body 1 "bool value" page
      return (.bool (leNat payload != 0), rest)
    else if tag = 5 then do
      let (length, body) ← takeBytes body 4 "bytes length" page
      let (payload, rest) ← takeBytes body (leNat length) "bytes value truncated" page
      return (.bytes payload, rest)
    else .error (corrupt "unknown property type tag" page)

/-- Decode one entry and return the bytes after it. -/
def decodeEntry (data : List UInt8) (page : PageId) :
    Except Error ((String × Property) × List UInt8) := do
  let (length, body) ← takeBytes data 1 "property key_len" page
  let (key, body) ← takeBytes body (leNat length) "property key truncated" page
  let key ← decodeText key "property key is not valid UTF-8" page
  let (value, rest) ← decodeValue body page
  return ((key, value), rest)

/-- Decode `count` entries into a map that already holds some. -/
def decodeEntries (page : PageId) : (count : Nat) → List UInt8 → Properties →
    Except Error (Properties × List UInt8)
  | 0, data, props => return (props, data)
  | count + 1, data, props => do
      let (entry, rest) ← decodeEntry data page
      decodeEntries page count rest (props.insert entry.1 entry.2)

/-- Deserialize `count` properties from the front of a byte string. -/
def decodeProperties (data : List UInt8) (count : Nat) (page : PageId) :
    Except Error Properties := do
  let (props, _) ← decodeEntries page count data Properties.empty
  return props

section RoundTrip

@[simp]
theorem takeBytes_append (front rest : List UInt8) {count : Nat} (reason : String) (page : PageId)
    (exact : front.length = count) :
    takeBytes (front ++ rest) count reason page = .ok (front, rest) := by
  subst exact
  simp [takeBytes]

@[simp]
theorem decodeText_ofString (text : String) (reason : String) (page : PageId) :
    decodeText (ofString text) reason page = .ok text := by
  simp [decodeText]

theorem checkLength_ok {length : Nat} (checked : checkLength length = .ok ()) :
    length < 2 ^ 32 := by
  unfold checkLength at checked
  split at checked
  · assumption
  · cases checked

/-- A stored value is read back, whatever follows it. -/
theorem decodeValue_encodeValue {value : Property} (encoded : encodeValue value = .ok bytes)
    (rest : List UInt8) (page : PageId) : decodeValue (bytes ++ rest) page = .ok (value, rest) := by
  cases value with
  | string s =>
    simp only [encodeValue] at encoded
    obtain ⟨u, checked, encoded⟩ := Outcome.ok_of_bind encoded
    cases encoded
    have fits : (ofString s).length < 256 ^ 4 := checkLength_ok checked
    have read := leNat_leBytes fits
    simp only [cons_append, append_assoc, decodeValue, ↓reduceIte]
    rw [takeBytes_append (leBytes 4 (ofString s).length) _ _ _ (length_leBytes _ _)]
    simp only [Except.bind, bind, read]
    rw [takeBytes_append (ofString s) rest _ _ rfl]
    simp [pure, Except.pure]
  | i64 v =>
    cases encoded
    have read : leNat (leBytes 8 v.toUInt64.toNat) = v.toUInt64.toNat :=
      leNat_leBytes (by simpa using v.toUInt64.toNat_lt)
    simp only [cons_append, decodeValue]
    rw [takeBytes_append _ _ _ _ (length_leBytes _ _)]
    simp [Except.bind, bind, pure, Except.pure, read]
  | f64 bits =>
    cases encoded
    have read : leNat (leBytes 8 bits.toNat) = bits.toNat :=
      leNat_leBytes (by simpa using bits.toNat_lt)
    simp only [cons_append, decodeValue]
    rw [takeBytes_append _ _ _ _ (length_leBytes _ _)]
    simp [Except.bind, bind, pure, Except.pure, read]
  | bool b =>
    cases encoded
    cases b <;>
      simp [decodeValue, takeBytes, Except.bind, bind, pure, Except.pure, leNat]
  | bytes b =>
    simp only [encodeValue] at encoded
    obtain ⟨u, checked, encoded⟩ := Outcome.ok_of_bind encoded
    cases encoded
    have fits : b.length < 256 ^ 4 := checkLength_ok checked
    have read := leNat_leBytes fits
    simp only [cons_append, append_assoc, decodeValue]
    rw [takeBytes_append (leBytes 4 b.length) _ _ _ (length_leBytes _ _)]
    have payload := takeBytes_append b rest "bytes value truncated" page rfl
    simp [Except.bind, bind, pure, Except.pure, read, payload]

theorem decodeEntry_encodeEntry {entry : String × Property}
    (encoded : encodeEntry entry = .ok bytes) (rest : List UInt8) (page : PageId) :
    decodeEntry (bytes ++ rest) page = .ok (entry, rest) := by
  unfold encodeEntry at encoded
  by_cases long : 255 < (ofString entry.1).length
  · simp only [long, ↓reduceIte] at encoded
    cases encoded
  · simp only [long, ↓reduceIte] at encoded
    obtain ⟨payload, value, encoded⟩ := Outcome.ok_of_bind encoded
    cases encoded
    have read : leNat [UInt8.ofNat (ofString entry.1).length] = (ofString entry.1).length := by
      have small : (ofString entry.1).length % 256 = (ofString entry.1).length :=
        Nat.mod_eq_of_lt (by omega)
      simpa [leNat, UInt8.toNat_ofNat'] using small
    have first : takeBytes (UInt8.ofNat (ofString entry.1).length ::
        (ofString entry.1 ++ (payload ++ rest))) 1 "property key_len" page =
        .ok ([UInt8.ofNat (ofString entry.1).length], ofString entry.1 ++ (payload ++ rest)) :=
      takeBytes_append [UInt8.ofNat (ofString entry.1).length] _ _ _ rfl
    simp only [cons_append, append_assoc, decodeEntry, first, Except.bind, bind, read]
    rw [takeBytes_append (ofString entry.1) (payload ++ rest) _ _ rfl]
    simp only [decodeText_ofString, decodeValue_encodeValue value]
    rfl

theorem decodeEntries_encodeEntries {entries : List (String × Property)}
    (encoded : encodeEntries entries = .ok bytes) {final : Properties}
    (whole : final.entries = props.entries ++ entries) (rest : List UInt8) (page : PageId) :
    decodeEntries page entries.length (bytes ++ rest) props = .ok (final, rest) := by
  induction entries generalizing bytes props with
  | nil =>
    cases encoded
    have same : final = props := Properties.ext_entries (by simpa using whole)
    simp [decodeEntries, same, pure, Except.pure]
  | cons entry entries ih =>
    simp only [encodeEntries] at encoded
    obtain ⟨front, first, encoded⟩ := Outcome.ok_of_bind encoded
    obtain ⟨back, others, encoded⟩ := Outcome.ok_of_bind encoded
    cases encoded
    have fresh : entry.1 ∉ props.entries.map Prod.fst := by
      have distinct := final.keys_nodup
      rw [whole, map_append, map_cons, nodup_append] at distinct
      intro mem
      exact distinct.2.2 _ mem _ (by simp) rfl
    have next : final.entries =
        (props.insert entry.1 entry.2).entries ++ entries := by
      rw [Properties.insert_entries_of_fresh fresh, whole]
      simp
    simp only [length_cons, decodeEntries, append_assoc,
      decodeEntry_encodeEntry first, Except.bind, bind]
    exact ih others next

theorem decodeProperties_encodeProperties (encoded : encodeProperties props = .ok bytes)
    (rest : List UInt8) (page : PageId) :
    decodeProperties (bytes ++ rest) props.len page = .ok props := by
  have whole : props.entries = Properties.empty.entries ++ props.entries := rfl
  have read := decodeEntries_encodeEntries encoded whole rest page
  simp only [decodeProperties, Properties.len, read]
  rfl

theorem encodeProperties_eq_nil_iff (encoded : encodeProperties props = .ok bytes) :
    bytes = [] ↔ props.len = 0 := by
  unfold encodeProperties at encoded
  unfold Properties.len
  cases entries : props.entries with
  | nil =>
    rw [entries] at encoded
    cases encoded
    simp
  | cons entry rest =>
    rw [entries] at encoded
    simp only [encodeEntries, encodeEntry, bind, Except.bind, pure, Except.pure] at encoded
    split at encoded
    · cases encoded
    · next front first =>
        split at encoded
        · cases encoded
        · cases encoded
          split at first
          · cases first
          · split at first
            · cases first
            · cases first
              simp

end RoundTrip

end ErmyaGraph.PropertyCodec
