import ErmyaGraph.Codec.WalRecord

/-! # Pages as bytes

A page is a header and a payload. The header carries a checksum of the payload
and the magic of the file the page belongs to. -/

namespace ErmyaGraph.Raw

open Bytes WalCodec

inductive DataFile where
  | nodes
  | edges
  | adjacency
  | strings
  | overflow
deriving DecidableEq, Repr

def allDataFiles : List DataFile := [.nodes, .edges, .adjacency, .strings, .overflow]

def DataFile.fileName : DataFile → String
  | .nodes => "nodes.db"
  | .edges => "edges.db"
  | .adjacency => "adjacency.db"
  | .strings => "strings.db"
  | .overflow => "overflow.db"

/-- Why a page could not be had. -/
inductive PoolError where
  | io
  | corruptPage (file : String) (page : UInt32) (reason : String)
  | checksumMismatch (file : String) (page : UInt32) (expected actual : UInt32)
  | bufferPoolExhausted
deriving DecidableEq, Repr

def pageHeaderSize : Nat := 16

abbrev PageBuf := Buf pageSize

def newPageBuf : PageBuf := ⟨List.replicate pageSize 0, List.length_replicate⟩

/-- The numbers of the page types that recovery writes. -/
inductive PageType where
  | node
  | edge
deriving DecidableEq, Repr

def PageType.code : PageType → UInt16
  | .node => 1
  | .edge => 2

/-- The magic that the pages of a file carry. -/
def expectedMagic : DataFile → Buf 4
  | .nodes => ⟨[0x54, 0x47, 0x4E, 0x44], rfl⟩
  | .edges => ⟨[0x54, 0x47, 0x45, 0x44], rfl⟩
  | .adjacency => ⟨[0x54, 0x47, 0x41, 0x44], rfl⟩
  | .strings => ⟨[0x54, 0x47, 0x53, 0x44], rfl⟩
  | .overflow => ⟨[0x54, 0x47, 0x4F, 0x44], rfl⟩

def u16 (bytes : List UInt8) : UInt16 := UInt16.ofNat (leNat bytes)

@[simp]
theorem u16_leBytes (n : UInt16) : u16 (leBytes 2 n.toNat) = n := by
  rw [u16, leNat_leBytes n.toNat_lt, UInt16.ofNat_toNat]

structure PageHeader where
  magic : Buf 4
  version : UInt16
  pageType : UInt16
  crc32 : UInt32
  slotCount : UInt16
  lsnLow : UInt16

namespace PageHeader

/-- The header at the start of a page. -/
def readFrom (page : PageBuf) : PageHeader where
  magic := ⟨span page.val 0 4, @length_span page.val 0 4 (by rw [page.property]; decide)⟩
  version := u16 (span page.val 4 6)
  pageType := u16 (span page.val 6 8)
  crc32 := u32 (span page.val 8 12)
  slotCount := u16 (span page.val 12 14)
  lsnLow := u16 (span page.val 14 16)

def bytes (header : PageHeader) : List UInt8 :=
  header.magic.val ++ (leBytes 2 header.version.toNat ++ (leBytes 2 header.pageType.toNat ++
    (leBytes 4 header.crc32.toNat ++ (leBytes 2 header.slotCount.toNat ++
      leBytes 2 header.lsnLow.toNat))))

variable (header : PageHeader)

theorem length_bytes : header.bytes.length = pageHeaderSize := by
  simp only [bytes, List.length_append, length_leBytes, header.magic.property, pageHeaderSize]

/-- Put a header in front of the payload of a page. -/
def writeTo (header : PageHeader) (page : PageBuf) : PageBuf :=
  ⟨header.bytes ++ page.val.drop pageHeaderSize, by
    rw [List.length_append, header.length_bytes, List.length_drop, page.property]
    rfl⟩

theorem readFrom_writeTo (page : PageBuf) : readFrom (header.writeTo page) = header := by
  obtain ⟨magic, version, pageType, crc32, slotCount, lsnLow⟩ := header
  have size := magic.property
  generalize rest : page.val.drop pageHeaderSize = payload
  have whole : (PageHeader.writeTo ⟨magic, version, pageType, crc32, slotCount, lsnLow⟩ page).val =
      magic.val ++ (leBytes 2 version.toNat ++ (leBytes 2 pageType.toNat ++
        (leBytes 4 crc32.toNat ++ (leBytes 2 slotCount.toNat ++
          (leBytes 2 lsnLow.toNat ++ payload))))) := by
    rw [← rest]
    simp [writeTo, bytes]
  have magic' : span ([] ++ (magic.val ++ _)) 0 4 = magic.val := span_append [] magic.val
    (leBytes 2 version.toNat ++ (leBytes 2 pageType.toNat ++ (leBytes 4 crc32.toNat ++
      (leBytes 2 slotCount.toNat ++ (leBytes 2 lsnLow.toNat ++ payload))))) rfl (by simp [size])
  have version' : span (magic.val ++ (leBytes 2 version.toNat ++ _)) 4 6 = _ :=
    span_append magic.val (leBytes 2 version.toNat) (leBytes 2 pageType.toNat ++
      (leBytes 4 crc32.toNat ++ (leBytes 2 slotCount.toNat ++
        (leBytes 2 lsnLow.toNat ++ payload)))) size (by simp)
  have type' : span ((magic.val ++ leBytes 2 version.toNat) ++ (leBytes 2 pageType.toNat ++ _)) 6 8 =
      _ := span_append _ (leBytes 2 pageType.toNat) (leBytes 4 crc32.toNat ++
        (leBytes 2 slotCount.toNat ++ (leBytes 2 lsnLow.toNat ++ payload))) (by simp [size]) (by simp)
  have crc' : span ((magic.val ++ leBytes 2 version.toNat ++ leBytes 2 pageType.toNat) ++
      (leBytes 4 crc32.toNat ++ _)) 8 12 = _ :=
    span_append _ (leBytes 4 crc32.toNat) (leBytes 2 slotCount.toNat ++
      (leBytes 2 lsnLow.toNat ++ payload)) (by simp [size]) (by simp)
  have count' : span ((magic.val ++ leBytes 2 version.toNat ++ leBytes 2 pageType.toNat ++
      leBytes 4 crc32.toNat) ++ (leBytes 2 slotCount.toNat ++ _)) 12 14 = _ :=
    span_append _ (leBytes 2 slotCount.toNat) (leBytes 2 lsnLow.toNat ++ payload)
      (by simp [size]) (by simp)
  have lsn' : span ((magic.val ++ leBytes 2 version.toNat ++ leBytes 2 pageType.toNat ++
      leBytes 4 crc32.toNat ++ leBytes 2 slotCount.toNat) ++ (leBytes 2 lsnLow.toNat ++ _)) 14 16 =
      _ := span_append _ (leBytes 2 lsnLow.toNat) payload (by simp [size]) (by simp)
  simp only [List.nil_append, List.append_assoc] at magic' version' type' crc' count' lsn'
  unfold readFrom
  simp only [whole, magic', version', type', crc', count', lsn', u16_leBytes, u32_leBytes]

end PageHeader

def payload (page : PageBuf) : List UInt8 := page.val.drop pageHeaderSize

theorem payload_writeTo (header : PageHeader) (page : PageBuf) :
    payload (header.writeTo page) = payload page :=
  List.drop_left' header.length_bytes

section Checksum

variable (crc : List UInt8 → UInt32)

def computeCrc32 (page : PageBuf) : UInt32 := crc (payload page)

/-- Write the header of a page whose payload is in place. -/
def finalizePageWithLsn (page : PageBuf) (magic : Buf 4) (version : UInt16) (pageType : PageType)
    (slotCount lsnLow : UInt16) : PageBuf :=
  PageHeader.writeTo ⟨magic, version, pageType.code, computeCrc32 crc page, slotCount, lsnLow⟩ page

def finalizePage (page : PageBuf) (magic : Buf 4) (version : UInt16) (pageType : PageType)
    (slotCount : UInt16) : PageBuf :=
  finalizePageWithLsn crc page magic version pageType slotCount 0

/-- Check a page loaded from disk. A page of zeros was never written and passes. -/
def validatePageBuf (page : PageBuf) (magic : Buf 4) (file : String) (id : UInt32) :
    Except PoolError Unit :=
  if page.val.all (· = 0) then .ok ()
  else
    let header := PageHeader.readFrom page
    if header.magic ≠ magic then .error (.corruptPage file id "invalid magic")
    else
      let actual := computeCrc32 crc page
      if header.crc32 ≠ actual then .error (.checksumMismatch file id header.crc32 actual)
      else .ok ()

theorem validatePageBuf_finalize (page : PageBuf) (magic : Buf 4) (version : UInt16)
    (pageType : PageType) (slotCount lsnLow : UInt16) (file : String) (id : UInt32) :
    validatePageBuf crc (finalizePageWithLsn crc page magic version pageType slotCount lsnLow) magic
      file id = .ok () := by
  unfold validatePageBuf finalizePageWithLsn
  split
  · rfl
  · simp only [PageHeader.readFrom_writeTo, computeCrc32, payload_writeTo, ne_eq, not_true_eq_false,
      ↓reduceIte]

end Checksum

end ErmyaGraph.Raw
