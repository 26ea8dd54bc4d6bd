import ErmyaGraph.Lib.Bytes
import ErmyaGraph.Lib.Streams

/-! # Messages in chunks

A message is sent as chunks with a length of 16 bits in front, and ends with an empty chunk.
A reader puts the chunks together and bounds the message. -/

namespace ErmyaGraph.Bolt

open Bytes Streams

namespace Framing

inductive ErrorKind where
  | unexpectedEof
  | invalidData
  | connectionReset
deriving DecidableEq

structure IoError where
  kind : ErrorKind
  message : String
deriving DecidableEq

def eof : IoError := ⟨.unexpectedEof, "early eof"⟩

def maxChunkSize : Nat := 65535

/-- The bytes that were written, and how many of them were flushed. -/
structure Writer where
  written : List UInt8 := []
  flushed : Nat := 0

/-- The chunks of a message from an offset on. -/
def writeChunks (data : List UInt8) (offset : Nat) : List UInt8 :=
  if data.length ≤ offset then []
  else
    let upto := min (offset + maxChunkSize) data.length
    let chunk := span data offset upto
    beBytes 2 chunk.length ++ chunk ++ writeChunks data upto
termination_by data.length - offset
decreasing_by simp only [maxChunkSize]; omega

namespace Writer

def flush (w : Writer) : Writer := { w with flushed := w.written.length }

def writeMessageNoFlush (w : Writer) (data : List UInt8) : Writer :=
  { w with written := w.written ++ writeChunks data 0 ++ [0, 0] }

def writeMessage (w : Writer) (data : List UInt8) : Writer :=
  { w with written := w.written ++ writeChunks data 0 ++ [0, 0] }.flush

end Writer

/-- What a connection does with its writer. -/
inductive WriteCall where
  | writeMessage (data : List UInt8)
  | writeMessageNoFlush (data : List UInt8)
  | flush

namespace WriteCall

def run (w : Writer) : WriteCall → Writer
  | .writeMessage data => w.writeMessage data
  | .writeMessageNoFlush data => w.writeMessageNoFlush data
  | .flush => w.flush

/-- The message that a call sends. -/
def message : WriteCall → List (List UInt8)
  | .writeMessage data => [data]
  | .writeMessageNoFlush data => [data]
  | .flush => []

end WriteCall

def messages (calls : List WriteCall) : List (List UInt8) := calls.flatMap WriteCall.message

def stream (calls : List WriteCall) : List UInt8 := (calls.foldl WriteCall.run {}).written

def tooLarge (maxMessageSize : Nat) : IoError :=
  ⟨.invalidData, s!"Bolt message exceeds maximum allowed size of {maxMessageSize} bytes"⟩

def eofMidMessage : IoError := ⟨.unexpectedEof, "EOF mid-message in Bolt chunked framing"⟩

/-- Read chunks behind those that a buffer has. -/
def readChunks (maxMessageSize : Nat) (buf : List UInt8) (firstChunk : Bool)
    (source : Source IoError) : EStateM.Result IoError (Source IoError) (Option (List UInt8)) :=
  match _headerRead : readExact 2 source with
  | .error e left =>
    if e.kind = .unexpectedEof then
      if firstChunk then .ok none left else .error eofMidMessage left
    else .error e left
  | .ok header left =>
    let chunkSize := beNat header
    if chunkSize = 0 then .ok (some buf) left
    else if maxMessageSize < buf.length + chunkSize then .error (tooLarge maxMessageSize) left
    else
      match _chunkRead : readExact chunkSize left with
      | .error e left => .error e left
      | .ok chunk left => readChunks maxMessageSize (buf ++ chunk) false left
termination_by source.bytes.length
decreasing_by
  have shorter := readExact_length _headerRead
  have shorter := readExact_length _chunkRead
  omega

def readMessage (maxMessageSize : Nat) : EStateM IoError (Source IoError) (Option (List UInt8)) :=
  readChunks maxMessageSize [] true

def frame (data : List UInt8) : List UInt8 := writeChunks data 0 ++ [0, 0]

def frames (sent : List (List UInt8)) : List UInt8 := sent.flatMap frame

theorem run_written (w : Writer) (call : WriteCall) :
    (call.run w).written = w.written ++ frames call.message := by
  cases call <;>
    simp [WriteCall.run, WriteCall.message, Writer.writeMessage, Writer.writeMessageNoFlush,
      Writer.flush, frames, frame]

theorem stream_eq (calls : List WriteCall) : stream calls = frames (messages calls) := by
  have written : ∀ w : Writer, (calls.foldl WriteCall.run w).written =
      w.written ++ frames (messages calls) := by
    induction calls with
    | nil =>
      intro w
      simp [messages, frames]
    | cons call calls ih =>
      intro w
      rw [List.foldl_cons, ih, run_written]
      simp [messages, frames, List.flatMap_append]
  exact written {}

/-- How many messages are whole among the first bytes of a stream. -/
def complete : List (List UInt8) → Nat → Nat
  | [], _ => 0
  | data :: sent, upto =>
    if (frame data).length ≤ upto then complete sent (upto - (frame data).length) + 1 else 0

/-- How many bytes follow the last whole message. -/
def pastBoundary : List (List UInt8) → Nat → Nat
  | [], _ => 0
  | data :: sent, upto =>
    if (frame data).length ≤ upto then pastBoundary sent (upto - (frame data).length) else upto

section Steps

variable {maxMessageSize : Nat} {buf : List UInt8} {firstChunk : Bool} {source : Source IoError}

theorem readChunks_short (short : source.bytes.length < 2) (ends : source.ending = eof) :
    readChunks maxMessageSize buf firstChunk source =
      if firstChunk then .ok none source.exhausted else .error eofMidMessage source.exhausted := by
  rw [readChunks]
  split
  · rename_i e left read
    rw [readExact_error short, ends] at read
    cases read
    rfl
  · rename_i header left read
    rw [readExact_error short] at read
    cases read

variable {chunkSize : Nat}

theorem readExact_header {rest : List UInt8} (bytes : source.bytes = beBytes 2 chunkSize ++ rest) :
    ∃ left, readExact 2 source = .ok (beBytes 2 chunkSize) left ∧ left.bytes = rest ∧
      left.ending = source.ending := by
  have enough : 2 ≤ source.bytes.length := by
    rw [bytes, List.length_append, length_beBytes]
    omega
  obtain ⟨left, read, gone, ends⟩ := readExact_ok enough
  have two := length_beBytes 2 chunkSize
  rw [bytes, List.take_left' two] at read
  rw [bytes, List.drop_left' two] at gone
  exact ⟨left, read, gone, ends⟩

theorem readChunks_terminator {rest : List UInt8} (bytes : source.bytes = [0, 0] ++ rest) :
    ∃ left, readChunks maxMessageSize buf firstChunk source = .ok (some buf) left ∧
      left.bytes = rest ∧ left.ending = source.ending := by
  obtain ⟨left, read, gone, ends⟩ := @readExact_header source 0 rest bytes
  refine ⟨left, ?_, gone, ends⟩
  rw [readChunks]
  split
  · rename_i e other read'
    rw [read] at read'
    cases read'
  · rename_i header other read'
    rw [read] at read'
    cases read'
    rw [beNat_beBytes (by decide), if_pos rfl]

theorem readChunks_chunk {chunk rest : List UInt8} (fits : chunk.length < 256 ^ 2)
    (some_ : chunk.length ≠ 0) (within : buf.length + chunk.length ≤ maxMessageSize)
    (bytes : source.bytes = beBytes 2 chunk.length ++ (chunk ++ rest)) :
    ∃ left, readChunks maxMessageSize buf firstChunk source =
        readChunks maxMessageSize (buf ++ chunk) false left ∧
      left.bytes = rest ∧ left.ending = source.ending := by
  obtain ⟨behind, read, gone, ends⟩ := readExact_header bytes
  have enough : chunk.length ≤ behind.bytes.length := by
    rw [gone, List.length_append]
    omega
  obtain ⟨left, chunkRead, rest_, ends'⟩ := readExact_ok enough
  rw [gone, List.take_left] at chunkRead
  rw [gone, List.drop_left] at rest_
  refine ⟨left, ?_, rest_, ends'.trans ends⟩
  rw [readChunks]
  split
  · rename_i e other read'
    rw [read] at read'
    cases read'
  · rename_i header other read'
    rw [read] at read'
    cases read'
    rw [beNat_beBytes fits, if_neg some_, if_neg (by omega)]
    split
    · rename_i e other chunkRead'
      rw [chunkRead] at chunkRead'
      cases chunkRead'
    · rename_i bytes other chunkRead'
      rw [chunkRead] at chunkRead'
      cases chunkRead'
      rfl

theorem readChunks_cutChunk {part : List UInt8} (fits : chunkSize < 256 ^ 2)
    (within : buf.length + chunkSize ≤ maxMessageSize) (cut : part.length < chunkSize)
    (bytes : source.bytes = beBytes 2 chunkSize ++ part) :
    ∃ e left, readChunks maxMessageSize buf firstChunk source = .error e left := by
  obtain ⟨behind, read, gone, ends⟩ := readExact_header bytes
  have short : behind.bytes.length < chunkSize := by
    rw [gone]
    exact cut
  refine ⟨behind.ending, behind.exhausted, ?_⟩
  rw [readChunks]
  split
  · rename_i e other read'
    rw [read] at read'
    cases read'
  · rename_i header other read'
    rw [read] at read'
    cases read'
    rw [beNat_beBytes fits, if_neg (by omega), if_neg (by omega)]
    split
    · rename_i e other chunkRead
      rw [readExact_error short] at chunkRead
      cases chunkRead
      rfl
    · rename_i bytes other chunkRead
      rw [readExact_error short] at chunkRead
      cases chunkRead

end Steps

theorem writeChunks_next {data : List UInt8} {offset : Nat} (more : offset < data.length) :
    ∃ chunk, chunk ≠ [] ∧ chunk.length < 256 ^ 2 ∧
      offset + chunk.length = min (offset + maxChunkSize) data.length ∧
      data.drop offset = chunk ++ data.drop (offset + chunk.length) ∧
      writeChunks data offset =
        beBytes 2 chunk.length ++ chunk ++ writeChunks data (offset + chunk.length) := by
  have upto : offset < min (offset + maxChunkSize) data.length := by
    rw [maxChunkSize]
    omega
  have length : (span data offset (min (offset + maxChunkSize) data.length)).length =
      min (offset + maxChunkSize) data.length - offset := by
    rw [span, List.length_drop, List.length_take, Nat.min_eq_left (Nat.min_le_right _ _)]
  have place : offset + (span data offset (min (offset + maxChunkSize) data.length)).length =
      min (offset + maxChunkSize) data.length := by
    rw [length]
    omega
  refine ⟨span data offset (min (offset + maxChunkSize) data.length), ?_, ?_, place, ?_, ?_⟩
  · intro empty
    rw [empty, List.length_nil] at length
    omega
  · rw [length, maxChunkSize]
    omega
  · rw [place, span]
    have whole := List.take_append_drop (min (offset + maxChunkSize) data.length) data
    have cut := congrArg (List.drop offset) whole
    rw [List.drop_append_of_le_length
      (by rw [List.length_take, Nat.min_eq_left (Nat.min_le_right _ _)]; omega)] at cut
    exact cut.symm
  · rw [place, writeChunks, if_neg (Nat.not_le_of_lt more)]

theorem readChunks_whole {maxMessageSize : Nat} {buf : List UInt8} {firstChunk : Bool}
    {source : Source IoError} {data : List UInt8} {offset : Nat} {rest : List UInt8}
    (within : buf.length + (data.length - offset) ≤ maxMessageSize)
    (bytes : source.bytes = writeChunks data offset ++ [0, 0] ++ rest) :
    ∃ left, readChunks maxMessageSize buf firstChunk source =
        .ok (some (buf ++ data.drop offset)) left ∧
      left.bytes = rest ∧ left.ending = source.ending := by
  by_cases done : data.length ≤ offset
  · rw [writeChunks, if_pos done, List.nil_append] at bytes
    rw [List.drop_eq_nil_of_le done, List.append_nil]
    exact readChunks_terminator bytes
  · obtain ⟨chunk, some_, fits, next, text, written⟩ := writeChunks_next (Nat.lt_of_not_le done)
    have pos := List.length_pos_of_ne_nil some_
    have inside : offset + chunk.length ≤ data.length := by omega
    rw [written] at bytes
    simp only [List.append_assoc] at bytes
    obtain ⟨behind, step, gone, ends⟩ := @readChunks_chunk maxMessageSize buf firstChunk
      source chunk _ fits (by omega) (by omega) bytes
    have room : (buf ++ chunk).length + (data.length - (offset + chunk.length)) ≤
        maxMessageSize := by
      rw [List.length_append]
      omega
    rw [← List.append_assoc] at gone
    obtain ⟨left, later, rest_, ends'⟩ := @readChunks_whole maxMessageSize (buf ++ chunk) false
      behind data (offset + chunk.length) rest room gone
    refine ⟨left, ?_, rest_, ends'.trans ends⟩
    rw [step, later, text, List.append_assoc]
termination_by data.length - offset
decreasing_by omega

/-- A message that is cut off in front of its end is an error, unless less than its first
header is there. -/
theorem readChunks_cut {maxMessageSize : Nat} {buf : List UInt8} {firstChunk : Bool}
    {source : Source IoError} {data : List UInt8} {offset upto : Nat}
    (within : buf.length + (data.length - offset) ≤ maxMessageSize)
    (ends : source.ending = eof) (cut : upto < (writeChunks data offset ++ [0, 0]).length)
    (started : firstChunk = false ∨ 2 ≤ upto)
    (bytes : source.bytes = (writeChunks data offset ++ [0, 0]).take upto) :
    ∃ e left, readChunks maxMessageSize buf firstChunk source = .error e left := by
  have have_ : source.bytes.length = upto := by
    rw [bytes, List.length_take, Nat.min_eq_left (Nat.le_of_lt cut)]
  by_cases short : upto < 2
  · have notFirst : firstChunk = false := started.resolve_right (by omega)
    rw [readChunks_short (by omega) ends, notFirst]
    exact ⟨_, _, rfl⟩
  · by_cases done : data.length ≤ offset
    · rw [writeChunks, if_pos done] at cut
      simp only [List.nil_append, List.length_cons, List.length_nil] at cut
      omega
    · obtain ⟨chunk, some_, fits, next, text, written⟩ := writeChunks_next (Nat.lt_of_not_le done)
      have pos := List.length_pos_of_ne_nil some_
      have inside : offset + chunk.length ≤ data.length := by omega
      rw [written] at bytes cut
      simp only [List.append_assoc, List.length_append, length_beBytes] at bytes cut
      obtain ⟨behind, rfl⟩ := Nat.exists_eq_add_of_le (Nat.le_of_not_lt short)
      rw [List.take_append, length_beBytes, List.take_of_length_le (by simp),
        Nat.add_sub_cancel_left] at bytes
      by_cases part : behind < chunk.length
      · rw [List.take_append_of_le_length (Nat.le_of_lt part)] at bytes
        refine readChunks_cutChunk fits (by omega) ?_ bytes
        rw [List.length_take]
        omega
      · obtain ⟨further, rfl⟩ := Nat.exists_eq_add_of_le (Nat.le_of_not_lt part)
        rw [List.take_append, List.take_of_length_le (by omega), Nat.add_sub_cancel_left] at bytes
        obtain ⟨left, step, gone, ends'⟩ := @readChunks_chunk maxMessageSize buf firstChunk
          source chunk _ fits (by omega) (by omega) bytes
        rw [step]
        have room : (buf ++ chunk).length + (data.length - (offset + chunk.length)) ≤
            maxMessageSize := by
          rw [List.length_append]
          omega
        have cutLater : further < (writeChunks data (offset + chunk.length) ++ [0, 0]).length := by
          rw [List.length_append]
          omega
        exact readChunks_cut room (ends'.trans ends) cutLater (.inl rfl) gone
termination_by data.length - offset
decreasing_by omega

/-- A message and the bytes behind it are fewer than the bytes that were there, and no message
exceeds the maximum. -/
theorem readChunks_ok {maxMessageSize : Nat} {buf : List UInt8} {firstChunk : Bool}
    {source left : Source IoError} {data : List UInt8} (small : buf.length ≤ maxMessageSize)
    (ok : readChunks maxMessageSize buf firstChunk source = .ok (some data) left) :
    left.bytes.length < source.bytes.length ∧ data.length ≤ maxMessageSize := by
  rw [readChunks] at ok
  split at ok
  · split at ok
    · split at ok
      · cases ok
      · cases ok
    · cases ok
  · rename_i header behind headerRead
    have headerLength := readExact_length headerRead
    dsimp only at ok
    split at ok
    · cases ok
      exact ⟨by omega, small⟩
    · split at ok
      · cases ok
      · rename_i within
        split at ok
        · cases ok
        · rename_i chunk further chunkRead
          have chunkLength := readExact_length chunkRead
          have enough : beNat header ≤ behind.bytes.length := by omega
          obtain ⟨other, read, _, _⟩ := readExact_ok enough
          rw [chunkRead] at read
          cases read
          have room : (buf ++ behind.bytes.take (beNat header)).length ≤ maxMessageSize := by
            rw [List.length_append, List.length_take, Nat.min_eq_left enough]
            omega
          obtain ⟨fewer, bounded⟩ := readChunks_ok room ok
          exact ⟨by omega, bounded⟩
termination_by source.bytes.length
decreasing_by omega

/-- Read messages until the stream ends. The error is that of the last read, if it failed. -/
def drain (maxMessageSize : Nat) (source : Source IoError) :
    List (List UInt8) × Option IoError :=
  match _read : readMessage maxMessageSize source with
  | .ok none _ => ([], none)
  | .ok (some data) left =>
    let later := drain maxMessageSize left
    (data :: later.1, later.2)
  | .error e _ => ([], some e)
termination_by source.bytes.length
decreasing_by exact (readChunks_ok (Nat.zero_le _) _read).1

section Draining

variable {maxMessageSize : Nat} {source left : Source IoError}

theorem drain_message {data : List UInt8}
    (read : readMessage maxMessageSize source = .ok (some data) left) :
    drain maxMessageSize source =
      (data :: (drain maxMessageSize left).1, (drain maxMessageSize left).2) := by
  rw [drain]
  split
  · rename_i read'
    rw [read] at read'
    cases read'
  · rename_i other rest read'
    rw [read] at read'
    cases read'
    rfl
  · rename_i read'
    rw [read] at read'
    cases read'

theorem drain_end (read : readMessage maxMessageSize source = .ok none left) :
    drain maxMessageSize source = ([], none) := by
  rw [drain]
  split
  · rfl
  · rename_i read'
    rw [read] at read'
    cases read'
  · rename_i read'
    rw [read] at read'
    cases read'

theorem drain_error {e : IoError} (read : readMessage maxMessageSize source = .error e left) :
    drain maxMessageSize source = ([], some e) := by
  rw [drain]
  split
  · rename_i read'
    rw [read] at read'
    cases read'
  · rename_i read'
    rw [read] at read'
    cases read'
  · rename_i read'
    rw [read] at read'
    cases read'
    rfl

end Draining

/-- The messages that are whole are read, and then the end of the stream if and only if it is
at a message boundary, and else an error. -/
def Delivers (maxMessageSize : Nat) (sent : List (List UInt8)) (upto : Nat)
    (source : Source IoError) : Prop :=
  (drain maxMessageSize source).1 = sent.take (complete sent upto) ∧
    ((drain maxMessageSize source).2 = none ↔ pastBoundary sent upto = 0)

theorem drain_take {maxMessageSize : Nat} {sent : List (List UInt8)} {upto : Nat}
    {source : Source IoError} (fit : ∀ data ∈ sent, data.length ≤ maxMessageSize)
    (ends : source.ending = eof) (bytes : source.bytes = (frames sent).take upto) :
    (drain maxMessageSize source).1 = sent.take (complete sent upto) ∧
      ((drain maxMessageSize source).2 = none ↔ pastBoundary sent upto ≤ 1) := by
  induction sent generalizing upto source with
  | nil =>
    have none_ : source.bytes.length < 2 := by
      rw [bytes]
      simp [frames]
    rw [drain_end (readChunks_short none_ ends)]
    exact ⟨rfl, iff_of_true rfl (Nat.zero_le 1)⟩
  | cons data sent ih =>
    have within : ([] : List UInt8).length + (data.length - 0) ≤ maxMessageSize := by
      have small := fit data List.mem_cons_self
      rw [List.length_nil]
      omega
    rw [frames, List.flatMap_cons, List.take_append] at bytes
    rw [complete, pastBoundary]
    by_cases whole : (frame data).length ≤ upto
    · rw [List.take_of_length_le whole] at bytes
      obtain ⟨left, read, rest, ends'⟩ := @readChunks_whole maxMessageSize [] true source data 0
        _ within bytes
      obtain ⟨messages, errors⟩ := ih (fun other mem => fit other (.tail _ mem))
        (ends'.trans ends) rest
      rw [drain_message read, if_pos whole, if_pos whole]
      exact ⟨congrArg (data :: ·) messages, errors⟩
    · rw [Nat.sub_eq_zero_of_le (Nat.le_of_not_le whole), List.take_zero, List.append_nil] at bytes
      rw [if_neg whole, if_neg whole, List.take_zero]
      by_cases short : upto < 2
      · have few : source.bytes.length < 2 := by
          rw [bytes, List.length_take]
          omega
        rw [drain_end (readChunks_short few ends)]
        exact ⟨rfl, iff_of_true rfl (by omega)⟩
      · obtain ⟨e, left, read⟩ := @readChunks_cut maxMessageSize [] true source data 0 upto within
          ends (Nat.lt_of_not_le whole) (.inr (Nat.le_of_not_lt short)) bytes
        rw [drain_error read]
        exact ⟨rfl, iff_of_false nofun (by omega)⟩

/-- **Framing.** The messages of a stream are delivered, however it is split and wherever it
ends, unless it ends one byte past a message boundary; and no message exceeds the maximum. -/
theorem delivers_iff {maxMessageSize : Nat} {calls : List WriteCall} {upto : Nat}
    {source : Source IoError} (fit : ∀ data ∈ messages calls, data.length ≤ maxMessageSize)
    (ends : source.ending = eof) (bytes : source.bytes = (stream calls).take upto) :
    (Delivers maxMessageSize (messages calls) upto source ↔
        pastBoundary (messages calls) upto ≠ 1) ∧
      ∀ (any left : Source IoError) (data : List UInt8),
        readMessage maxMessageSize any = .ok (some data) left → data.length ≤ maxMessageSize := by
  rw [stream_eq] at bytes
  obtain ⟨read, errors⟩ := drain_take fit ends bytes
  refine ⟨?_, fun any left data ok => (readChunks_ok (Nat.zero_le _) ok).2⟩
  constructor
  · intro delivers one
    have zero := delivers.2.mp (errors.mpr (Nat.le_of_eq one))
    omega
  · intro other
    refine ⟨read, errors.trans ⟨?_, ?_⟩⟩
    · intro few
      omega
    · intro zero
      omega

/-- An empty message, and a message that arrives in two pieces of its chunk. -/
theorem delivers_iff_split :
    Delivers 5 [[], [7, 8, 9]] 9 ⟨[[0, 0, 0], [3, 7], [8, 9, 0, 0]], by decide, eof⟩ :=
  (@delivers_iff 5 [.writeMessageNoFlush [], .writeMessage [7, 8, 9]] 9
    ⟨[[0, 0, 0], [3, 7], [8, 9, 0, 0]], by decide, eof⟩ (by decide) rfl (by
      rw [stream_eq]
      simp [frames, frame, messages, WriteCall.message, writeChunks, maxChunkSize, span, beBytes,
        leBytes, Source.bytes])).1.mpr (by
      simp [messages, WriteCall.message, pastBoundary, frame, writeChunks, maxChunkSize, span,
        beBytes, leBytes])

/-- A stream that is cut inside the first header of a message ends as if it were complete. -/
theorem cut_header_is_clean_end :
    stream [.writeMessage [7]] = [0, 1, 7, 0, 0] ∧
      readMessage 5 ⟨[[0]], by decide, eof⟩ = .ok none ⟨[], by simp, eof⟩ := by
  refine ⟨?_, ?_⟩
  · rw [stream_eq]
    simp [frames, frame, messages, WriteCall.message, writeChunks, maxChunkSize, span, beBytes,
      leBytes]
  · rw [readMessage, readChunks_short (by decide) rfl]
    rfl

end Framing

end ErmyaGraph.Bolt
