import ErmyaGraph.Codec.OverflowRelease
import ErmyaGraph.Storage.OverflowRuns

/-! # The bytes of an overflow chain

A chain page is built in an empty buffer: the first page holds the length of the
blob, bytes and a link at its end, a continuation a link and bytes. Reading and
releasing follow the links and find the bytes and the pages of the chain that
was written, whatever the pages held before. -/

namespace ErmyaGraph.OverflowCodec

open Bytes Outcome Runs Store List

/-- The link to a page, or the mark at the end of a chain. -/
def linkTo (next : Option PageId) : Nat := next.getD noNext

def firstPayload (total : Nat) (data : List UInt8) (next : Option PageId) : Memory :=
  writeLe (splice (writeLe (fun _ => 0) 0 4 total) 4 data) 4076 4 (linkTo next)

def contPayload (data : List UInt8) (next : Option PageId) : Memory :=
  splice (writeLe (fun _ => 0) 0 4 (linkTo next)) 4 data

/-- The payload of a page of a chain. -/
def chainPayload : OverflowPage → Option Memory
  | .first total data next => some (firstPayload total data next)
  | .cont data next => some (contPayload data next)
  | _ => none

/-- The file has the bytes of the chain pages of a store. -/
structure Stores (file : RawFile) (pages : PageFile OverflowPage) : Prop where
  count : file.count = pages.count
  payload : ∀ page < pages.count, ∀ payload, chainPayload (pages.page page) = some payload →
    file.payload page = some payload

/-- Follow continuation pages until enough bytes are read. -/
def readCont (file : RawFile) (total : Nat) : (fuel : Nat) → (next : Nat) → List UInt8 →
    Except Error (List UInt8)
  | 0, _, data => .ok data
  | fuel + 1, next, data =>
    if next ≠ noNext ∧ data.length < total then
      match file.readPage next with
      | none => .error (notAllocated "overflow.db" next)
      | some payload =>
        readCont file total fuel (readLe payload 0 4)
          (data ++ slice payload 4 (min (total - data.length) contPageDataCap))
    else .ok data

/-- Read a chain back. -/
def readOverflow (file : RawFile) (first : PageId) : Except Error (List UInt8) :=
  match file.readPage first with
  | none => .error (notAllocated "overflow.db" first)
  | some payload =>
    let total := readLe payload 0 4
    -- Every page read adds a byte, so that many rounds are enough.
    readCont file total total (readLe payload 4076 4)
      (slice payload 4 (min total firstPageDataCap))

section Payloads

variable {data : List UInt8} {next : Option PageId} {total : Nat}

theorem contPayload_link (fits : linkTo next < 256 ^ 4) :
    readLe (contPayload data next) 0 4 = linkTo next := by
  rw [contPayload, readLe_splice_of_disjoint (.inl (Nat.le_refl 4)), readLe_writeLe _ _ fits]

theorem contPayload_data : slice (contPayload data next) 4 data.length = data :=
  slice_splice _ _ _

theorem firstPayload_total (fits : total < 256 ^ 4) :
    readLe (firstPayload total data next) 0 4 = total := by
  rw [firstPayload, readLe_writeLe_of_disjoint (.inl (by decide)),
    readLe_splice_of_disjoint (.inl (Nat.le_refl 4)), readLe_writeLe _ _ fits]

theorem firstPayload_link (fits : linkTo next < 256 ^ 4) :
    readLe (firstPayload total data next) 4076 4 = linkTo next :=
  readLe_writeLe _ _ fits

theorem firstPayload_data (short : data.length ≤ firstPageDataCap) :
    slice (firstPayload total data next) 4 data.length = data := by
  have cap : firstPageDataCap = 4072 := rfl
  rw [firstPayload, slice_writeLe_of_disjoint (.inl (by omega)), slice_splice]

end Payloads

section Chains

variable {file : RawFile} {pages : PageFile OverflowPage} {next : Option PageId}
  {listed : List PageId} {data : List UInt8}

theorem Stores.readPage (stores : Stores file pages) {page : PageId} {payload : Memory}
    (bounded : page < pages.count) (content : chainPayload (pages.page page) = some payload) :
    file.readPage page = some payload := by
  have inside : page < file.count := by
    rw [stores.count]
    exact bounded
  rw [RawFile.readPage, if_pos inside]
  exact stores.payload page bounded payload content

theorem linkTo_page {page : PageId} (few : pages.count ≤ noNext) (bounded : page < pages.count) :
    linkTo (some page) = page ∧ page ≠ noNext ∧ page < 256 ^ 4 := by
  have below : page < noNext := bounded.trans_le few
  exact ⟨rfl, below.ne, below.trans (by decide)⟩

theorem linkTo_lt (few : pages.count ≤ noNext) (chain : FullPages pages next listed data) :
    linkTo next < 256 ^ 4 := by
  cases chain with
  | nil => decide
  | cons bounded _ _ _ => exact (linkTo_page few bounded).2.2

section

variable (stores : Stores file pages)
include stores

section

variable (few : pages.count ≤ noNext)
include few

theorem readCont_chain (chain : FullPages pages next listed data) (read : List UInt8)
    {total fuel : Nat} (whole : total = read.length + data.length) (enough : data.length ≤ fuel) :
    readCont file total fuel (linkTo next) read = .ok (read ++ data) := by
  induction chain generalizing read fuel with
  | nil =>
    rw [append_nil]
    cases fuel with
    | zero => rfl
    | succ fuel => exact if_neg fun both => both.1 rfl
  | @cons page next rest data bounded content nonempty more ih =>
    have pos : 0 < data.length := length_pos_iff.mpr nonempty
    have cap : contPageDataCap = 4076 := rfl
    obtain ⟨link, inFile, _⟩ := linkTo_page few bounded
    cases fuel with
    | zero => omega
    | succ fuel =>
      have goes : linkTo (some page) ≠ noNext ∧ read.length < total := ⟨inFile, by omega⟩
      have here := stores.readPage bounded (congrArg chainPayload content)
      have chunk : min (total - read.length) contPageDataCap =
          (data.take contPageDataCap).length := by
        rw [length_take, Nat.min_comm]
        omega
      have left : total = (read ++ data.take contPageDataCap).length +
          (data.drop contPageDataCap).length := by
        rw [length_append, Nat.add_assoc, ← length_append, take_append_drop]
        exact whole
      have fewer : (data.drop contPageDataCap).length ≤ fuel := by
        rw [length_drop]
        omega
      rw [readCont, if_pos goes, link, here]
      simp only [contPayload_link (linkTo_lt few more), chunk, contPayload_data]
      rw [ih (read ++ data.take contPageDataCap) left fewer, append_assoc, take_append_drop]

variable {first : PageId}

theorem readOverflow_chain (chain : ChainAt pages first listed data)
    (fits : data.length < 256 ^ 4) : readOverflow file first = .ok data := by
  cases chain with
  | @mk next rest data bounded content more =>
    have short : (data.take firstPageDataCap).length ≤ firstPageDataCap := by
      rw [length_take]
      exact min_le_left _ _
    have chunk : min data.length firstPageDataCap = (data.take firstPageDataCap).length := by
      rw [length_take, Nat.min_comm]
    have here := stores.readPage bounded (congrArg chainPayload content)
    have whole : data.length = (data.take firstPageDataCap).length +
        (data.drop firstPageDataCap).length := by
      rw [← length_append, take_append_drop]
    have left : (data.drop firstPageDataCap).length ≤ data.length := by
      rw [length_drop]
      exact Nat.sub_le _ _
    have read := readCont_chain stores few more (data.take firstPageDataCap) whole left
    rw [take_append_drop] at read
    simp only [readOverflow, here, firstPayload_total fits,
      firstPayload_link (linkTo_lt few more), chunk, firstPayload_data short]
    exact read

theorem collectFrom_cont
    (chain : FullPages pages next listed data) {toFree : List PageId} {fuel : Nat}
    (nonempty : toFree ≠ []) (short : toFree.length + listed.length ≤ file.count)
    (enough : listed.length ≤ fuel) :
    ∀ page, next = some page → collectFrom file fuel toFree page = some (toFree ++ listed) := by
  induction chain generalizing toFree fuel with
  | nil => exact nofun
  | @cons page next rest data bounded content _ more ih =>
    intro _ same
    cases same
    rw [length_cons] at short enough
    cases fuel with
    | zero => omega
    | succ fuel =>
      have here := stores.readPage bounded (congrArg chainPayload content)
      have notFirst : toFree.isEmpty = false := isEmpty_eq_false_iff.mpr nonempty
      have longer : (toFree ++ [page]).length = toFree.length + 1 := length_append
      rw [collectFrom, here]
      simp only [nextLink, notFirst, Bool.false_eq_true, if_false,
        contPayload_link (linkTo_lt few more)]
      generalize data.drop contPageDataCap = tail at more
      cases more with
      | nil => exact if_pos rfl
      | @cons following _ _ _ inside _ _ _ =>
        obtain ⟨link, inFile, _⟩ := linkTo_page few inside
        have within : ¬file.count < (toFree ++ [page]).length := by omega
        rw [link, if_neg inFile, if_neg within,
          ih (append_ne_nil_of_right_ne_nil _ (cons_ne_nil _ _)) (by omega)
            (by omega) following rfl, append_assoc]
        rfl

theorem collectFrom_chain (chain : ChainAt pages first listed data) (distinct : listed.Nodup) :
    collectFrom file (file.count + 1) [] first = some listed := by
  have within := length_le_of_nodup_lt distinct chain.bounded
  rw [← stores.count] at within
  cases chain with
  | @mk next rest data bounded content more =>
    have here := stores.readPage bounded (congrArg chainPayload content)
    rw [length_cons] at within
    rw [collectFrom, here]
    simp only [nextLink, isEmpty_nil, if_true, firstPayload_link (linkTo_lt few more), nil_append]
    generalize data.drop firstPageDataCap = tail at more
    cases more with
    | nil => exact if_pos rfl
    | @cons following _ rest _ inside content' nonempty more =>
      obtain ⟨link, inFile, _⟩ := linkTo_page few inside
      have one : ¬file.count < [first].length := by
        rw [length_singleton]
        omega
      rw [link, if_neg inFile, if_neg one]
      exact collectFrom_cont stores few (.cons inside content' nonempty more)
        (cons_ne_nil _ _) (by rw [length_singleton]; omega) (by omega) following rfl

end

end

end Chains

/-- In every run of writes and releases over a store, every chain that was not released reads
back as it was written, from the bytes of its pages too, and its release frees the pages it was
written to. A blob that fits the header can be written, and once all chains are released every
page they used is free in exactly one place. -/
theorem run_recycles {store : Store} {others dirs entries : List PageId}
    (partition : Partition store others dirs entries) {past : List Chains} {chains : Chains}
    (run : Run Chains.Allowed Chains.step (Chains.start store) past chains) :
    (∀ chain ∈ chains.held, chains.store.readOverflow chain.first = .ok chain.data ∧
        (∃ after, (freeOverflowChain chain.first).run chains.store = .ok () after) ∧
        ∀ file, Stores file chains.store.pages.overflow →
          chains.store.pages.overflow.count ≤ noNext →
            readOverflow file chain.first = .ok chain.data ∧
              collectFrom file (file.count + 1) [] chain.first = some chain.pages) ∧
      (∀ data : List UInt8, data.length < 2 ^ 32 →
        ∃ first after, (writeOverflow data).run chains.store = .ok first after) ∧
      (chains.held = [] → ∃ dirs' entries', Partition chains.store others dirs' entries' ∧
        ∀ page ∈ chains.used,
          (chains.store.info.freeSparePage.toList ++ (dirs' ++ entries')).count page = 1) := by
  have kept := Chains.kept_of_run partition run
  refine ⟨fun chain member => ?_, fun data fits => kept.writable fits, kept.released⟩
  obtain ⟨here, distinct, fits⟩ := kept.held_chain member
  refine ⟨here.read, kept.freeable member, fun file stores few => ?_⟩
  exact ⟨readOverflow_chain stores few here fits, collectFrom_chain stores few here distinct⟩

def blank : Store := { pages := Pages.fresh, info := {}, wal := none }

/-- Two blobs are written, the first one empty, and released in the other order. -/
theorem run_recycles_twoChains :
    ∃ chains : Chains, chains.held = [] ∧ chains.used = [1, 0] ∧
      ∃ dirs entries, Partition chains.store [] dirs entries ∧ ∀ page ∈ chains.used,
          (chains.store.info.freeSparePage.toList ++ (dirs ++ entries)).count page = 1 := by
  have partition : Partition blank [] [] [] := ⟨.nil, List.Perm.nil, rfl⟩
  have opened : Run Chains.Allowed Chains.step (Chains.start blank) [Chains.start blank]
    (Chains.start blank) := Run.start
  have one := Run.step (Chains.Call.write []) opened trivial
  have two := Run.step (Chains.Call.write [7, 8]) one trivial
  have three := Run.step (Chains.Call.free 1) two ⟨_, .head _, rfl⟩
  have four := Run.step (Chains.Call.free 0) three ⟨_, .head _, rfl⟩
  exact ⟨_, rfl, rfl, (run_recycles partition four).2.2 rfl⟩

end ErmyaGraph.OverflowCodec
