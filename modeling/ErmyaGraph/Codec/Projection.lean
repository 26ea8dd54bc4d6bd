import ErmyaGraph.Codec.Property

/-! # Projected decoding

A projected read decodes the requested keys and steps over every other value.
The stepping has its own code for each type tag, so it is compared with the full
decoder value by value. -/

namespace ErmyaGraph

namespace Properties

variable {key : String}

def restrict (keys : List String) (props : Properties) : Properties :=
  ⟨props.entries.filter (fun entry => entry.1 ∈ keys),
    props.keys_nodup.sublist (List.filter_sublist.map _)⟩

@[simp]
theorem restrict_empty (keys : List String) : empty.restrict keys = empty := rfl

variable (props : Properties)

@[simp]
theorem restrict_nil : props.restrict [] = empty := by
  apply ext_entries
  simp [restrict, empty]

variable {keys : List String}

theorem mem_restrict {props : Properties} (requested : key ∈ keys) :
    key ∈ (props.restrict keys).entries.map Prod.fst ↔ key ∈ props.entries.map Prod.fst := by
  simp only [restrict, List.mem_map, List.mem_filter, decide_eq_true_eq]
  constructor
  · intro ⟨entry, ⟨mem, _⟩, named⟩
    exact ⟨entry, mem, named⟩
  · intro ⟨entry, mem, named⟩
    exact ⟨entry, ⟨mem, named ▸ requested⟩, named⟩

theorem filter_replaceEntry (keys : List String) (key : String) (value : Property)
    (entries : List (String × Property)) :
    (entries.map (replaceEntry key value)).filter (fun entry => entry.1 ∈ keys) =
      (entries.filter (fun entry => entry.1 ∈ keys)).map (replaceEntry key value) := by
  rw [List.filter_map]
  congr 2
  funext entry
  simp only [Function.comp_apply, replaceEntry_fst]

variable (value : Property)

theorem restrict_insert_of_mem (requested : key ∈ keys) :
    (props.insert key value).restrict keys = (props.restrict keys).insert key value := by
  apply ext_entries
  by_cases present : key ∈ props.entries.map Prod.fst
  · have kept := (mem_restrict requested).mpr present
    simp only [insert, dif_pos present, dif_pos kept]
    exact filter_replaceEntry keys key value props.entries
  · have absent : key ∉ (props.restrict keys).entries.map Prod.fst :=
      fun kept => present ((mem_restrict requested).mp kept)
    rw [insert_entries_of_fresh absent]
    simp [restrict, insert_entries_of_fresh present, requested]

theorem restrict_insert_of_notMem (other : key ∉ keys) :
    (props.insert key value).restrict keys = props.restrict keys := by
  apply ext_entries
  by_cases present : key ∈ props.entries.map Prod.fst
  · simp only [restrict, insert, dif_pos present]
    rw [filter_replaceEntry, List.map_congr_left, List.map_id]
    intro entry mem
    have requested : entry.1 ∈ keys := by simpa using (List.mem_filter.mp mem).2
    unfold replaceEntry
    split
    · next same => exact absurd (same ▸ requested) other
    · rfl
  · simp [restrict, insert_entries_of_fresh present, other]

end Properties

namespace PropertyCodec

variable {data front rest body payload : List UInt8} {reason : String}

open Bytes Outcome List

/-- `count` properties from the front of a byte string, and the number of bytes they take. -/
def decodePropertiesCounted (data : List UInt8) (count : Nat) (page : PageId) :
    Except Error (Properties × Nat) := do
  let (props, rest) ← decodeEntries page count data Properties.empty
  return (props, data.length - rest.length)

/-- Step over `total` bytes, or fail with the given reason. -/
def skipOver (data : List UInt8) (total : Nat) (reason : String) (page : PageId) :
    Except Error Nat :=
  if data.length < total then .error (corrupt reason page) else .ok total

/-- The number of bytes a value takes, its tag included. -/
def skipValue (data : List UInt8) (page : PageId) : Except Error Nat :=
  match data with
  | [] => .error (corrupt "property type tag (skip)" page)
  | tag :: body =>
    if tag = 1 then do
      let (length, _) ← takeBytes body 4 "string length (skip)" page
      skipOver data (1 + 4 + leNat length) "string value truncated (skip)" page
    else if tag = 2 ∨ tag = 3 then
      skipOver data 9 "numeric value truncated (skip)" page
    else if tag = 4 then
      skipOver data 2 "bool value truncated (skip)" page
    else if tag = 5 then do
      let (length, _) ← takeBytes body 4 "bytes length (skip)" page
      skipOver data (1 + 4 + leNat length) "bytes value truncated (skip)" page
    else .error (corrupt "unknown property type tag (skip)" page)

/-- Decode the requested ones of `count` entries into a map that already holds some. -/
def decodeEntriesProjected (keys : List String) (page : PageId) : (count : Nat) → List UInt8 →
    Properties → Except Error (Properties × List UInt8)
  | 0, data, props => return (props, data)
  | count + 1, data, props => do
      let (length, body) ← takeBytes data 1 "property key_len" page
      let (keyBytes, body) ← takeBytes body (leNat length) "property key truncated" page
      -- Keys are compared as bytes; only a requested one has to be valid text.
      if keys.any (fun key => ofString key == keyBytes) then
        let key ← decodeText keyBytes "property key is not valid UTF-8" page
        let (value, rest) ← decodeValue body page
        decodeEntriesProjected keys page count rest (props.insert key value)
      else
        let skipped ← skipValue body page
        decodeEntriesProjected keys page count (body.drop skipped) props

/-- Deserialize the requested ones of `count` properties, with the number of bytes all take. -/
def decodePropertiesProjected (data : List UInt8) (count : Nat) (keys : List String)
    (page : PageId) : Except Error (Properties × Nat) := do
  let (props, rest) ← decodeEntriesProjected keys page count data Properties.empty
  return (props, data.length - rest.length)

section Skipping

variable {page : PageId}

theorem takeBytes_eq_ok {count : Nat}
    (taken : takeBytes data count reason page = .ok (front, rest)) :
    count ≤ data.length ∧ front = data.take count ∧ rest = data.drop count := by
  unfold takeBytes at taken
  split at taken
  · next room =>
      cases taken
      exact ⟨room, rfl, rfl⟩
  · cases taken

theorem takeBytes_of_le {data : List UInt8} {count : Nat} (reason : String) (page : PageId)
    (room : count ≤ data.length) :
    takeBytes data count reason page = .ok (data.take count, data.drop count) := if_pos room

theorem skipOver_of_le {data : List UInt8} {total : Nat} (reason : String) (page : PageId)
    (room : total ≤ data.length) : skipOver data total reason page = .ok total :=
  if_neg (Nat.not_lt.mpr room)

theorem payload_end (tag : UInt8) {middle : List UInt8} {reason' : String}
    (length : takeBytes body 4 reason page = .ok (front, middle))
    (taken : takeBytes middle (leNat front) reason' page = .ok (payload, rest)) :
    1 + 4 + leNat front ≤ (tag :: body).length ∧
      (tag :: body).drop (1 + 4 + leNat front) = rest := by
  obtain ⟨wide, _, rfl⟩ := takeBytes_eq_ok length
  obtain ⟨room, _, rfl⟩ := takeBytes_eq_ok taken
  have behind : 1 + 4 + leNat front = (4 + leNat front) + 1 := by omega
  rw [length_drop] at room
  constructor
  · rw [length_cons]
    omega
  · rw [behind, drop_succ_cons, drop_drop]

theorem skip_payload {tag : UInt8} {body front middle payload rest : List UInt8}
    {reason reason' : String} (short truncated : String)
    (length : takeBytes body 4 reason page = .ok (front, middle))
    (taken : takeBytes middle (leNat front) reason' page = .ok (payload, rest)) :
    ∃ total, (do
        let (length, _) ← takeBytes body 4 short page
        skipOver (tag :: body) (1 + 4 + leNat length) truncated page) = .ok total ∧
      (tag :: body).drop total = rest := by
  obtain ⟨room, placed⟩ := payload_end tag length taken
  obtain ⟨wide, cut, _⟩ := takeBytes_eq_ok length
  refine ⟨_, ?_, placed⟩
  rw [takeBytes_of_le short page wide, ← cut]
  exact skipOver_of_le truncated page room

theorem skip_fixed {tag : UInt8} {width : Nat} (truncated : String)
    (taken : takeBytes body width reason page = .ok (payload, rest)) :
    ∃ total, skipOver (tag :: body) (width + 1) truncated page = .ok total ∧
      (tag :: body).drop total = rest := by
  obtain ⟨room, _, placed⟩ := takeBytes_eq_ok taken
  refine ⟨width + 1, skipOver_of_le truncated page (Nat.succ_le_succ room), ?_⟩
  rw [drop_succ_cons, placed]

/-- A value the decoder reads is stepped over to the same place. -/
theorem skipValue_of_decodeValue {value : Property}
    (decoded : decodeValue data page = .ok (value, rest)) :
    ∃ total, skipValue data page = .ok total ∧ data.drop total = rest := by
  cases data with
  | nil => cases decoded
  | cons tag body =>
    simp only [decodeValue] at decoded
    simp only [skipValue]
    split at decoded
    · next isString =>
        obtain ⟨⟨front, middle⟩, length, decoded⟩ := ok_of_bind decoded
        obtain ⟨⟨payload, behind⟩, taken, decoded⟩ := ok_of_bind decoded
        obtain ⟨text, _, decoded⟩ := ok_of_bind decoded
        cases decoded
        rw [if_pos isString]
        exact skip_payload _ _ length taken
    next notString =>
    rw [if_neg notString]
    split at decoded
    · next isInteger =>
        obtain ⟨⟨payload, behind⟩, taken, decoded⟩ := ok_of_bind decoded
        cases decoded
        rw [if_pos (.inl isInteger)]
        exact skip_fixed _ taken
    next notInteger =>
    split at decoded
    · next isFloat =>
        obtain ⟨⟨payload, behind⟩, taken, decoded⟩ := ok_of_bind decoded
        cases decoded
        rw [if_pos (.inr isFloat)]
        exact skip_fixed _ taken
    next notFloat =>
    rw [if_neg (not_or.mpr ⟨notInteger, notFloat⟩)]
    split at decoded
    · next isBool =>
        obtain ⟨⟨payload, behind⟩, taken, decoded⟩ := ok_of_bind decoded
        cases decoded
        rw [if_pos isBool]
        exact skip_fixed _ taken
    next notBool =>
    rw [if_neg notBool]
    split at decoded
    · next isBytes =>
        obtain ⟨⟨front, middle⟩, length, decoded⟩ := ok_of_bind decoded
        obtain ⟨⟨payload, behind⟩, taken, decoded⟩ := ok_of_bind decoded
        cases decoded
        rw [if_pos isBytes]
        exact skip_payload _ _ length taken
    · cases decoded

end Skipping

section Projecting

variable {page : PageId} {keys : List String} {bytes : List UInt8}

theorem decodeText_eq_ok {text : String} (decoded : decodeText bytes reason page = .ok text) :
    ofString text = bytes := by
  unfold decodeText at decoded
  split at decoded
  · next found =>
      cases decoded
      exact ofString_of_toString? found
  · cases decoded

theorem matches_iff {text : String} (same : ofString text = bytes) :
    keys.any (fun key => ofString key == bytes) = true ↔ text ∈ keys := by
  subst same
  simp only [any_eq_true, beq_iff_eq]
  constructor
  · intro ⟨key, mem, equal⟩
    exact ofString_injective equal ▸ mem
  · intro mem
    exact ⟨text, mem, rfl⟩

theorem decodeEntriesProjected_eq {count : Nat} {data rest : List UInt8} {props final : Properties}
    (decoded : decodeEntries page count data props = .ok (final, rest)) :
    decodeEntriesProjected keys page count data (props.restrict keys) =
      .ok (final.restrict keys, rest) := by
  induction count generalizing data props with
  | zero =>
    cases decoded
    rfl
  | succ count ih =>
    obtain ⟨⟨⟨key, value⟩, behind⟩, entry, decoded⟩ := ok_of_bind decoded
    obtain ⟨⟨length, body⟩, first, entry⟩ := ok_of_bind entry
    obtain ⟨⟨keyBytes, body⟩, second, entry⟩ := ok_of_bind entry
    obtain ⟨text, third, entry⟩ := ok_of_bind entry
    obtain ⟨⟨stored, after⟩, fourth, entry⟩ := ok_of_bind entry
    cases entry
    have named := @matches_iff keys _ _ (decodeText_eq_ok third)
    have onward := ih decoded
    simp only [decodeEntriesProjected, first, second, Except.bind, bind]
    by_cases requested : key ∈ keys
    · rw [if_pos (named.mpr requested)]
      rw [Properties.restrict_insert_of_mem _ _ requested] at onward
      simp only [third, fourth]
      exact onward
    · rw [if_neg (fun hit => requested (named.mp hit))]
      rw [Properties.restrict_insert_of_notMem _ _ requested] at onward
      obtain ⟨total, skipped, placed⟩ := skipValue_of_decodeValue fourth
      simp only [skipped, placed]
      exact onward

theorem decodePropertiesProjected_eq {count taken : Nat} {props : Properties}
    (decoded : decodePropertiesCounted data count page = .ok (props, taken)) (keys : List String) :
    decodePropertiesProjected data count keys page = .ok (props.restrict keys, taken) := by
  obtain ⟨⟨final, rest⟩, entries, counted⟩ := ok_of_bind decoded
  cases counted
  have projected := @decodeEntriesProjected_eq _ keys _ _ _ _ _ entries
  rw [Properties.restrict_empty] at projected
  rw [decodePropertiesProjected, projected]
  rfl

theorem decodePropertiesCounted_encodeProperties {props : Properties}
    (encoded : encodeProperties props = .ok bytes) (rest : List UInt8) (page : PageId) :
    decodePropertiesCounted (bytes ++ rest) props.len page = .ok (props, bytes.length) := by
  have whole : props.entries = Properties.empty.entries ++ props.entries := rfl
  have read := decodeEntries_encodeEntries encoded whole rest page
  have counted : (bytes ++ rest).length - rest.length = bytes.length := by
    rw [length_append, Nat.add_sub_cancel]
  simp only [decodePropertiesCounted, Properties.len, read, bind, Except.bind, counted]
  rfl

end Projecting

/-- A property map survives its encoding, which is consumed whole. Where a byte string decodes,
the projected decoder consumes the same bytes and returns the requested entries. -/
theorem properties_round_trip_and_project :
    (∀ (props : Properties) (bytes : List UInt8) (page : PageId),
      encodeProperties props = .ok bytes →
        decodePropertiesCounted bytes props.len page = .ok (props, bytes.length)) ∧
    (∀ (data : List UInt8) (count : Nat) (keys : List String) (page : PageId)
      (props : Properties) (taken : Nat),
      decodePropertiesCounted data count page = .ok (props, taken) →
        decodePropertiesProjected data count keys page = .ok (props.restrict keys, taken)) := by
  constructor
  · intro props bytes page encoded
    have read := decodePropertiesCounted_encodeProperties encoded [] page
    rwa [append_nil] at read
  · intro data count keys page props taken decoded
    exact decodePropertiesProjected_eq decoded keys

def sample : Properties := ⟨[("age", .i64 36), ("tall", .bool true)], by decide⟩

def sampleBytes : List UInt8 :=
  [3, 97, 103, 101, 2, 36, 0, 0, 0, 0, 0, 0, 0, 4, 116, 97, 108, 108, 4, 1]

theorem sample_read_and_projected :
    decodePropertiesCounted sampleBytes 2 0 = .ok (sample, 20) ∧
      decodePropertiesProjected sampleBytes 2 ["tall"] 0 =
        .ok (sample.restrict ["tall"], 20) := by
  have read := properties_round_trip_and_project.1 sample sampleBytes 0 rfl
  exact ⟨read, properties_round_trip_and_project.2 sampleBytes 2 ["tall"] 0 sample 20 read⟩

end PropertyCodec

end ErmyaGraph
