import ErmyaGraph.Bolt.RoundTrip

/-! # Requests and responses

A message is a structure of dictionaries, texts and lists, so two of the levels of nesting
that a reader allows for are its own. -/

namespace ErmyaGraph.Bolt

variable {levels : Nat} {part : Value}

open Bytes Outcome List

namespace PackStream

abbrev BoltDict := List (String × Value)

inductive BoltRequest where
  | hello (extra : BoltDict)
  | logon (auth : BoltDict)
  | run (query : String) (params extra : BoltDict)
  | pull (extra : BoltDict)
  | discard (extra : BoltDict)
  | begin_ (extra : BoltDict)
  | commit
  | rollback
  | reset
  | goodbye

inductive BoltResponse where
  | success (metadata : BoltDict)
  | failure (metadata : BoltDict)
  | record (fields : List Value)
  | ignored

namespace Tag

def hello : UInt8 := 0x01
def goodbye : UInt8 := 0x02
def reset : UInt8 := 0x0F
def run : UInt8 := 0x10
def begin_ : UInt8 := 0x11
def commit : UInt8 := 0x12
def rollback : UInt8 := 0x13
def discard : UInt8 := 0x2F
def pull : UInt8 := 0x3F
def logon : UInt8 := 0x6A
def success : UInt8 := 0x70
def record : UInt8 := 0x71
def ignored : UInt8 := 0x7E
def failure : UInt8 := 0x7F

end Tag

namespace BoltRequest

def tag : BoltRequest → UInt8
  | .hello _ => Tag.hello
  | .logon _ => Tag.logon
  | .run _ _ _ => Tag.run
  | .pull _ => Tag.pull
  | .discard _ => Tag.discard
  | .begin_ _ => Tag.begin_
  | .commit => Tag.commit
  | .rollback => Tag.rollback
  | .reset => Tag.reset
  | .goodbye => Tag.goodbye

/-- The fields of the structure that a request is sent as. -/
def parts : BoltRequest → List Value
  | .hello extra => [.dict extra]
  | .logon auth => [.dict auth]
  | .run query params extra => [.string query, .dict params, .dict extra]
  | .pull extra => [.dict extra]
  | .discard extra => [.dict extra]
  | .begin_ extra => [.dict extra]
  | .commit => []
  | .rollback => []
  | .reset => []
  | .goodbye => []

end BoltRequest

namespace BoltResponse

def tag : BoltResponse → UInt8
  | .success _ => Tag.success
  | .failure _ => Tag.failure
  | .record _ => Tag.record
  | .ignored => Tag.ignored

/-- The field of the structure that a response is sent as. -/
def parts : BoltResponse → List Value
  | .success metadata => [.dict metadata]
  | .failure metadata => [.dict metadata]
  | .record fields => [.list fields]
  | .ignored => []

end BoltResponse

def encodeRequest (req : BoltRequest) : Except ProtocolError (List UInt8) :=
  encode (.struct req.tag req.parts)

def encodeResponse (resp : BoltResponse) : Except ProtocolError (List UInt8) :=
  encode (.struct resp.tag resp.parts)

def extractDict (fields : List Value) (index : Nat) (message field : String) :
    Except Failure BoltDict :=
  match fields[index]? with
  | some (.dict d) => .ok d
  | _ => .error (.error (.boltMissingField message field))

def extractString (fields : List Value) (index : Nat) (message field : String) :
    Except Failure String :=
  match fields[index]? with
  | some (.string s) => .ok s
  | _ => .error (.error (.boltMissingField message field))

def extractList (fields : List Value) (index : Nat) (message field : String) :
    Except Failure (List Value) :=
  match fields[index]? with
  | some (.list l) => .ok l
  | _ => .error (.error (.boltMissingField message field))

/-- The structure of a message. -/
def decodeMessage (data : List UInt8) : Except Failure (UInt8 × List Value) := do
  let (value, _) ← decode data
  match value with
  | .struct tag fields => return (tag, fields)
  | _ => .error (.error .boltNotAStruct)

def decodeRequest (data : List UInt8) : Except Failure BoltRequest := do
  let (tag, fields) ← decodeMessage data
  if tag = Tag.hello then return .hello (← extractDict fields 0 "Hello" "extra")
  else if tag = Tag.logon then return .logon (← extractDict fields 0 "Logon" "auth")
  else if tag = Tag.run then do
    let query ← extractString fields 0 "Run" "query"
    let params ← extractDict fields 1 "Run" "params"
    let extra ← extractDict fields 2 "Run" "extra"
    return .run query params extra
  else if tag = Tag.pull then return .pull (← extractDict fields 0 "Pull" "extra")
  else if tag = Tag.discard then return .discard (← extractDict fields 0 "Discard" "extra")
  else if tag = Tag.begin_ then return .begin_ (← extractDict fields 0 "Begin" "extra")
  else if tag = Tag.commit then return .commit
  else if tag = Tag.rollback then return .rollback
  else if tag = Tag.reset then return .reset
  else if tag = Tag.goodbye then return .goodbye
  else .error (.error (.boltUnexpectedTag 0 tag))

def decodeResponse (data : List UInt8) : Except Failure BoltResponse := do
  let (tag, fields) ← decodeMessage data
  if tag = Tag.success then return .success (← extractDict fields 0 "Success" "metadata")
  else if tag = Tag.failure then return .failure (← extractDict fields 0 "Failure" "metadata")
  else if tag = Tag.record then return .record (← extractList fields 0 "Record" "fields")
  else if tag = Tag.ignored then return .ignored
  else .error (.error (.boltUnexpectedTag 0 tag))

/-- The values that a part of a message holds. -/
def held : Value → List Value
  | .dict pairs => pairs.map Prod.snd
  | .list items => items
  | _ => []

variable {items : List Value}

theorem nestingItems_le (each : ∀ v ∈ items, nesting v ≤ levels) : nestingItems items ≤ levels := by
  induction items with
  | nil => exact Nat.zero_le _
  | cons item items ih =>
    exact Nat.max_le.mpr ⟨each item mem_cons_self,
      ih fun v mem => each v (mem_cons_of_mem _ mem)⟩

theorem nestingPairs_le {pairs : BoltDict} (each : ∀ v ∈ pairs.map Prod.snd, nesting v ≤ levels) :
    nestingPairs pairs ≤ levels := by
  induction pairs with
  | nil => exact Nat.zero_le _
  | cons pair pairs ih =>
    obtain ⟨key, value⟩ := pair
    rw [map_cons] at each
    exact Nat.max_le.mpr ⟨each value mem_cons_self,
      ih fun v mem => each v (mem_cons_of_mem _ mem)⟩

theorem soundItems_iff : SoundItems items ↔ ∀ v ∈ items, Sound v := by
  induction items with
  | nil => exact iff_of_true trivial nofun
  | cons item items ih => rw [forall_mem_cons, ← ih, SoundItems]

/-- A part of a message is a text, a dictionary or a list of values. -/
def IsPart : Value → Prop
  | .string _ => True
  | .dict _ => True
  | .list _ => True
  | _ => False

variable {req : BoltRequest}

theorem isPart_of_mem_request (mem : part ∈ req.parts) : IsPart part := by
  cases req <;> simp only [BoltRequest.parts, mem_cons, not_mem_nil, or_false] at mem
  case run =>
    rcases mem with rfl | rfl | rfl <;> trivial
  all_goals
    rw [mem]
    trivial

variable {resp : BoltResponse}

theorem isPart_of_mem_response (mem : part ∈ resp.parts) : IsPart part := by
  cases resp <;> simp only [BoltResponse.parts, mem_cons, not_mem_nil, or_false] at mem
  all_goals
    rw [mem]
    trivial

theorem nesting_part (is_ : IsPart part) (each : ∀ v ∈ held part, nesting v ≤ levels) :
    nesting part ≤ levels + 1 := by
  cases part with
  | string _ => exact Nat.zero_le _
  | dict _ => exact Nat.succ_le_succ (nestingPairs_le each)
  | list _ => exact Nat.succ_le_succ (nestingItems_le each)
  | null => exact is_.elim
  | bool _ => exact is_.elim
  | int _ => exact is_.elim
  | float _ => exact is_.elim
  | bytes _ => exact is_.elim
  | struct _ _ => exact is_.elim

/-- The parts of a message are sound, and the values in them leave two levels of nesting. -/
structure Sendable (parts : List Value) : Prop where
  sound : ∀ part ∈ parts, Sound part
  shallow : ∀ part ∈ parts, ∀ v ∈ held part, nesting v ≤ maxDecodeDepth - 2

theorem decodeMessage_encode {tag : UInt8} {parts : List Value} (sendable : Sendable parts)
    (few : parts.length ≤ 15) (are : ∀ part ∈ parts, IsPart part) :
    ∃ written, encode (.struct tag parts) = .ok written ∧
      decodeMessage written = .ok (tag, parts) := by
  have sound : Sound (.struct tag parts) := ⟨few, soundItems_iff.mpr sendable.sound⟩
  have shallow : nesting (.struct tag parts) ≤ maxDecodeDepth :=
    Nat.succ_le_succ (nestingItems_le fun part mem =>
      nesting_part (are part mem) (sendable.shallow part mem))
  obtain ⟨written, ok⟩ := encode_ok _ sound
  have read := decode_encode sound shallow ok []
  rw [append_nil] at read
  refine ⟨written, ok, ?_⟩
  rw [decodeMessage, read]
  rfl

theorem decodeRequest_encode (sendable : Sendable req.parts) :
    ∃ written, encodeRequest req = .ok written ∧ decodeRequest written = .ok req := by
  have few : req.parts.length ≤ 15 := by
    cases req <;> simp [BoltRequest.parts]
  obtain ⟨written, ok, read⟩ := decodeMessage_encode sendable few fun _ => isPart_of_mem_request
  refine ⟨written, ok, ?_⟩
  rw [decodeRequest, read]
  cases req <;> rfl

theorem decodeResponse_encode (sendable : Sendable resp.parts) :
    ∃ written, encodeResponse resp = .ok written ∧ decodeResponse written = .ok resp := by
  have few : resp.parts.length ≤ 15 := by
    cases resp <;> simp [BoltResponse.parts]
  obtain ⟨written, ok, read⟩ := decodeMessage_encode sendable few fun _ => isPart_of_mem_response
  refine ⟨written, ok, ?_⟩
  rw [decodeResponse, read]
  cases resp <;> rfl

/-- **PackStream and Bolt messages.** Values and messages are read back from what was written,
and reading any bytes stays inside of them. -/
theorem roundTrip :
    (∀ (v : Value) (rest : List UInt8), Sound v → nesting v ≤ maxDecodeDepth →
      ∃ written, encode v = .ok written ∧ decode (written ++ rest) = .ok (v, written.length)) ∧
    (∀ req : BoltRequest, Sendable req.parts →
      ∃ written, encodeRequest req = .ok written ∧ decodeRequest written = .ok req) ∧
    (∀ resp : BoltResponse, Sendable resp.parts →
      ∃ written, encodeResponse resp = .ok written ∧ decodeResponse written = .ok resp) ∧
    ∀ buf : List UInt8, decode buf ≠ .error .panic ∧
      ∀ v consumed, decode buf = .ok (v, consumed) → 1 ≤ consumed ∧ consumed ≤ buf.length := by
  refine ⟨?_, fun _ => decodeRequest_encode, fun _ => decodeResponse_encode, ?_⟩
  · intro v rest sound shallow
    obtain ⟨written, ok⟩ := encode_ok v sound
    exact ⟨written, ok, decode_encode sound shallow ok rest⟩
  · intro buf
    have inside := decode_inside buf
    exact ⟨inside.noPanic, inside.bounds⟩

/-- A value of each kind, a request with a parameter and a record. -/
theorem roundTrip_sample :
    (∃ written, encode (.list [.int 200, .string "a"]) = .ok written ∧
      decode (written ++ [1, 2]) = .ok (.list [.int 200, .string "a"], written.length)) ∧
    (∃ written, encodeRequest (.run "q" [("n", .int 1)] []) = .ok written ∧
      decodeRequest written = .ok (.run "q" [("n", .int 1)] [])) ∧
    ∃ written, encodeResponse (.record [.null]) = .ok written ∧
      decodeResponse written = .ok (.record [.null]) := by
  refine ⟨?_, ?_, ?_⟩
  · exact roundTrip.1 _ _ (by simp [Sound, SoundItems]; decide) (by decide)
  · refine roundTrip.2.1 _ ⟨?_, ?_⟩
    · simp [BoltRequest.parts, Sound, SoundPairs]
      decide
    · simp [BoltRequest.parts, held, nesting]
  · refine roundTrip.2.2.1 _ ⟨?_, ?_⟩
    · simp [BoltResponse.parts, Sound, SoundItems]
    · simp [BoltResponse.parts, held, nesting]

def nested : Nat → Value
  | 0 => .null
  | depth + 1 => .list [nested depth]

theorem sound_nested (depth : Nat) : Sound (nested depth) := by
  induction depth with
  | zero => trivial
  | succ depth ih => exact ⟨by simp, ih, trivial⟩

theorem nesting_nested (depth : Nat) : nesting (nested depth) = depth := by
  induction depth with
  | zero => rfl
  | succ depth ih => simp [nested, nesting, nestingItems, ih]

def failsWith {α : Type} (e : Failure) : Except Failure α → Bool
  | .error f => f = e
  | .ok _ => false

theorem eq_of_failsWith {α : Type} {e : Failure} {read : Except Failure α}
    (fails : failsWith e read) : read = .error e := by
  cases read with
  | error f => exact congrArg Except.error (of_decide_eq_true fails)
  | ok a => cases fails

/-- A parameter that could be sent alone is nested too deep inside a request. -/
theorem nested_parameter_unread :
    Sound (nested 63) ∧ nesting (nested 63) ≤ maxDecodeDepth ∧
      ∃ written, encodeRequest (.run "q" [("x", nested 63)] []) = .ok written ∧
        decodeRequest written = .error depthLimitExceeded := by
  refine ⟨sound_nested 63, ?_, [0xB3, 0x10, 0x81, 113, 0xA1, 0x81, 120] ++
    (List.replicate 63 0x91 ++ [0xC0, 0xA0]), ?_, eq_of_failsWith ?_⟩
  · rw [nesting_nested]
    decide
  · decide +kernel
  · decide +kernel

end PackStream

end ErmyaGraph.Bolt
