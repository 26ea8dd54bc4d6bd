import ErmyaGraph.Codec.AdjChain
import ErmyaGraph.Lib.Checked

/-! # Walking an adjacency chain

The loops over the pages of a chain, round by round, with their subtractions
checked: a loop without an outcome is still running. A read takes what the links
give and may end before the stored count is reached. The walk along a legacy
chain trusts the links to end, and to end before the stored count is used up. -/

namespace ErmyaGraph.AdjChainCodec

open Bytes Checked Store

def RawPage.edgeCount (data : RawPage) : Nat := readLe data.payload 9 4

def RawPage.firstLink (data : RawPage) : Nat := readLe data.payload nextPageOffset 4

def RawPage.contLink (data : RawPage) : Nat := readLe data.payload 0 4

/-- Read continuation pages until enough edges are there. -/
def readRounds (backend : Backend) (total : Nat) :
    (fuel : Nat) → (next : Nat) → List Nat → Option (Attempt Error (List Nat))
  | 0, _, _ => none
  | fuel + 1, next, edges =>
    if next ≠ noNext ∧ edges.length < total then
      match readPage backend next with
      | .error e => some (.error (.error e))
      | .ok data =>
        match minus total edges.length with
        | .error (fault : Fault Error) => some (.error fault)
        | .ok remaining =>
          readRounds backend total fuel data.contLink
            (edges ++ readWords data.payload contHeaderSize (min remaining maxEdgesContPage))
    else some (.ok edges)

/-- The rounds of a read of an edge list. -/
def readAdjacencyRounds (backend : Backend) (fuel : Nat) (page : PageId) :
    Option (Attempt Error AdjacencyRecord) :=
  match readPage backend page with
  | .error e => some (.error (.error e))
  | .ok data =>
    match ensureDedicatedChainPage page data, decodeDirection page (data.payload 8) with
    | .error e, _ => some (.error (.error e))
    | _, .error e => some (.error (.error e))
    | .ok _, .ok direction =>
      let node := readLe data.payload 0 8
      if data.edgeCount ≤ maxEdgesSinglePage then
        some (.ok ⟨node, direction, readWords data.payload recordHeaderSize data.edgeCount⟩)
      else
        let edges := readWords data.payload recordHeaderSize
          (firstPageEdgesForVersion data.version)
        (readRounds backend data.edgeCount fuel data.firstLink edges).map fun all =>
          all.map fun all => ⟨node, direction, all⟩

/-- Follow a legacy chain to its last page and count the edges on the pages before it. -/
def tailRounds (backend : Backend) :
    (fuel : Nat) → (next last accounted : Nat) → Option (Attempt Error (PageId × Nat))
  | 0, _, _, _ => none
  | fuel + 1, next, last, accounted =>
    if next = noNext then some (.ok (last, accounted))
    else
      match readPage backend next with
      | .error e => some (.error (.error e))
      | .ok data =>
        tailRounds backend fuel data.contLink next
          (if data.contLink = noNext then accounted else accounted + maxEdgesContPage)

/-- The rounds of a look-up of the state of a chain. -/
def readStateRounds (backend : Backend) (fuel : Nat) (first : PageId) :
    Option (Attempt Error ChainState) :=
  match readPage backend first with
  | .error e => some (.error (.error e))
  | .ok data =>
    match ensureDedicatedChainPage first data with
    | .error e => some (.error (.error e))
    | .ok _ =>
      if data.edgeCount ≤ maxEdgesSinglePage then
        some (.ok ⟨first, first, data.edgeCount, data.edgeCount, true⟩)
      else if adjFormatV2 ≤ data.version then
        some (.ok (stateAfterAppend first (readLe data.payload lastPageIdTailOffset 4)
          data.edgeCount))
      else
        (tailRounds backend fuel data.firstLink first
          (firstPageEdgesForVersion data.version)).map fun tail => do
            let (last, accounted) ← tail
            let used ← minus data.edgeCount accounted
            return ⟨first, last, data.edgeCount, used, false⟩

/-- The links lead over that many pages that can be read to the end of the chain. -/
def EndsAfter (backend : Backend) : (pages : Nat) → (next : Nat) → Prop
  | 0, next => next = noNext
  | pages + 1, next =>
    next ≠ noNext ∧ ∃ data, readPage backend next = .ok data ∧ EndsAfter backend pages data.contLink

/-- The links lead over that many pages to one that cannot be read. -/
def BreaksAfter (backend : Backend) : (pages : Nat) → (next : Nat) → Prop
  | 0, next => next ≠ noNext ∧ ∃ e, readPage backend next = .error e
  | pages + 1, next =>
    next ≠ noNext ∧ ∃ data, readPage backend next = .ok data ∧
      BreaksAfter backend pages data.contLink

section Reading

variable {backend : Backend} {total : Nat}

theorem length_batch (edges : List Nat) (data : RawPage) (count : Nat) :
    (edges ++ readWords data.payload contHeaderSize count).length = edges.length + count := by
  rw [List.length_append, length_readWords]

variable {rounds : Nat} {edges : List Nat}

theorem readRounds_eq {fuel next : Nat} (enough : total - edges.length ≤ rounds)
    (more : total - edges.length < fuel) :
    readRounds backend total fuel next edges =
      some (attempt (readContinuation backend total rounds next edges)) := by
  induction rounds generalizing fuel next edges with
  | zero =>
    cases fuel with
    | zero => exact absurd more (Nat.not_lt_zero _)
    | succ fuel =>
      have full : ¬(next ≠ noNext ∧ edges.length < total) := fun both => by omega
      rw [readRounds, if_neg full]
      rfl
  | succ rounds ih =>
    cases fuel with
    | zero => exact absurd more (Nat.not_lt_zero _)
    | succ fuel =>
      rw [readRounds, readContinuation]
      by_cases goes : next ≠ noNext ∧ edges.length < total
      · rw [if_pos goes, if_pos goes]
        cases read : readPage backend next with
        | error e => rfl
        | ok data =>
          have cap : maxEdgesContPage = 509 := rfl
          have within : edges.length ≤ total := Nat.le_of_lt goes.2
          have added := length_batch edges data (min (total - edges.length) maxEdgesContPage)
          simp only [minus, demand_of within]
          exact ih (by omega) (by omega)
      · rw [if_neg goes, if_neg goes]
        rfl

theorem readContinuation_length {next : Nat} {all : List Nat} (within : edges.length ≤ total)
    (enough : total - edges.length ≤ rounds)
    (done : readContinuation backend total rounds next edges = .ok all) :
    all.length = total ∨ ∃ pages, EndsAfter backend pages next ∧
      all.length = edges.length + pages * maxEdgesContPage ∧ all.length < total := by
  induction rounds generalizing next edges with
  | zero =>
    cases done
    exact .inl (by omega)
  | succ rounds ih =>
    rw [readContinuation] at done
    by_cases goes : next ≠ noNext ∧ edges.length < total
    · rw [if_pos goes] at done
      cases read : readPage backend next with
      | error e =>
        rw [read] at done
        cases done
      | ok data =>
        have cap : maxEdgesContPage = 509 := rfl
        have added := length_batch edges data (min (total - edges.length) maxEdgesContPage)
        rw [read] at done
        rcases ih (by omega) (by omega) done with whole | ⟨pages, ends, length, short⟩
        · exact .inl whole
        · -- The chain ended later, so this page was taken whole.
          refine .inr ⟨pages + 1, ⟨goes.1, data, read, ends⟩, ?_, short⟩
          rw [length, added, Nat.add_mul]
          omega
    · rw [if_neg goes] at done
      cases done
      by_cases ended : next = noNext
      · by_cases short : all.length < total
        · exact .inr ⟨0, ended, by rw [Nat.zero_mul, Nat.add_zero], short⟩
        · exact .inl (Nat.le_antisymm within (Nat.le_of_not_lt short))
      · exact .inl (Nat.le_antisymm within (Nat.le_of_not_lt fun less => goes ⟨ended, less⟩))

theorem readContinuation_short {pages next : Nat} (ends : EndsAfter backend pages next)
    (short : edges.length + pages * maxEdgesContPage < total) (enough : pages ≤ rounds) :
    ∃ all, readContinuation backend total rounds next edges = .ok all ∧
      all.length = edges.length + pages * maxEdgesContPage := by
  have cap : maxEdgesContPage = 509 := rfl
  induction pages generalizing rounds next edges with
  | zero =>
    have last : ¬(next ≠ noNext ∧ edges.length < total) := fun both => both.1 ends
    refine ⟨edges, ?_, by rw [Nat.zero_mul, Nat.add_zero]⟩
    cases rounds with
    | zero => rfl
    | succ rounds => rw [readContinuation, if_neg last]
  | succ pages ih =>
    obtain ⟨linked, data, read, ends⟩ := ends
    cases rounds with
    | zero => exact absurd enough (Nat.not_succ_le_zero pages)
    | succ rounds =>
      rw [Nat.add_mul] at short
      have whole : min (total - edges.length) maxEdgesContPage = maxEdgesContPage := by omega
      have goes : next ≠ noNext ∧ edges.length < total := ⟨linked, by omega⟩
      have added := length_batch edges data maxEdgesContPage
      have room : (edges ++ readWords data.payload contHeaderSize maxEdgesContPage).length +
          pages * maxEdgesContPage < total := by omega
      obtain ⟨all, done, length⟩ := ih ends room (Nat.le_of_succ_le_succ enough)
      refine ⟨all, ?_, ?_⟩
      · rw [readContinuation, if_pos goes, read, whole]
        exact done
      · rw [length, added, Nat.add_mul]
        omega

end Reading

section Tail

variable {backend : Backend} {fuel next last accounted : Nat}

/-- A legacy walk that finds the last page went to the end of the chain, and counted every
continuation page but the last. -/
theorem tailRounds_ok {tail : PageId × Nat}
    (done : tailRounds backend fuel next last accounted = some (.ok tail)) :
    ∃ pages, EndsAfter backend pages next ∧
      tail.2 = accounted + (pages - 1) * maxEdgesContPage := by
  induction fuel generalizing next last accounted with
  | zero => cases done
  | succ fuel ih =>
    rw [tailRounds] at done
    by_cases ended : next = noNext
    · rw [if_pos ended] at done
      cases done
      exact ⟨0, ended, by rw [Nat.zero_sub, Nat.zero_mul, Nat.add_zero]⟩
    · rw [if_neg ended] at done
      cases read : readPage backend next with
      | error e =>
        rw [read] at done
        cases done
      | ok data =>
        rw [read] at done
        obtain ⟨pages, ends, counted⟩ := ih done
        refine ⟨pages + 1, ⟨ended, data, read, ends⟩, counted.trans ?_⟩
        cases pages with
        | zero =>
          have last : data.contLink = noNext := ends
          rw [if_pos last]
        | succ pages =>
          rw [if_neg ends.1, Nat.add_sub_cancel, Nat.add_sub_cancel, Nat.add_mul]
          omega

theorem tailRounds_error {fault : Fault Error}
    (done : tailRounds backend fuel next last accounted = some (.error fault)) :
    ∃ pages, BreaksAfter backend pages next := by
  induction fuel generalizing next last accounted with
  | zero => cases done
  | succ fuel ih =>
    rw [tailRounds] at done
    by_cases ended : next = noNext
    · rw [if_pos ended] at done
      cases done
    · rw [if_neg ended] at done
      cases read : readPage backend next with
      | error e => exact ⟨0, ended, e, read⟩
      | ok data =>
        rw [read] at done
        obtain ⟨pages, breaks⟩ := ih done
        exact ⟨pages + 1, ended, data, read, breaks⟩

variable {pages : Nat}

theorem tailRounds_ends (ends : EndsAfter backend pages next) :
    ∃ tail, tailRounds backend (pages + 1) next last accounted = some (.ok tail) := by
  induction pages generalizing next last accounted with
  | zero => exact ⟨_, if_pos ends⟩
  | succ pages ih =>
    obtain ⟨linked, data, read, ends⟩ := ends
    rw [tailRounds, if_neg linked, read]
    exact ih ends

theorem tailRounds_breaks (breaks : BreaksAfter backend pages next) :
    ∃ e, tailRounds backend (pages + 1) next last accounted = some (.error (.error e)) := by
  induction pages generalizing next last accounted with
  | zero =>
    obtain ⟨linked, e, read⟩ := breaks
    refine ⟨e, ?_⟩
    rw [tailRounds, if_neg linked, read]
  | succ pages ih =>
    obtain ⟨linked, data, read, breaks⟩ := breaks
    rw [tailRounds, if_neg linked, read]
    exact ih breaks

theorem EndsAfter.unique {pages' : Nat} (ends : EndsAfter backend pages next)
    (ends' : EndsAfter backend pages' next) : pages = pages' := by
  induction pages generalizing pages' next with
  | zero =>
    cases pages' with
    | zero => rfl
    | succ pages' => exact absurd ends ends'.1
  | succ pages ih =>
    cases pages' with
    | zero => exact absurd ends' ends.1
    | succ pages' =>
      obtain ⟨_, data, read, rest⟩ := ends
      obtain ⟨_, data', read', rest'⟩ := ends'
      rw [read] at read'
      cases read'
      rw [ih rest rest']

end Tail

/-- A list spread over several pages has a chain that does not end before the stored count. -/
def LongEnough (backend : Backend) (page : PageId) : Prop :=
  ∀ data direction, readPage backend page = .ok data → data.pageType = pageTypeAdjacency →
    decodeDirection page (data.payload 8) = .ok direction →
    maxEdgesSinglePage < data.edgeCount → ∀ pages, EndsAfter backend pages data.firstLink →
      data.edgeCount ≤ maxEdgesChainedPage + pages * maxEdgesContPage

/-- A legacy list spread over several pages has a chain that ends, and all of its pages but the
last hold no more edges than the stored count; or the chain leads to a page that cannot be read. -/
def TailReached (backend : Backend) (page : PageId) : Prop :=
  ∀ data, readPage backend page = .ok data → data.pageType = pageTypeAdjacency →
    maxEdgesSinglePage < data.edgeCount → data.version < adjFormatV2 →
      (∃ pages, BreaksAfter backend pages data.firstLink) ∨
        ∃ pages, EndsAfter backend pages data.firstLink ∧
          maxEdgesChainedPage + (pages - 1) * maxEdgesContPage ≤ data.edgeCount

section Operations

variable {backend : Backend} {page : PageId}

theorem firstPageEdges_eq (version : Nat) :
    firstPageEdgesForVersion version = maxEdgesChainedPage := by
  unfold firstPageEdgesForVersion
  split <;> rfl

theorem readAdjacencyRounds_eq : ∃ fuel,
    readAdjacencyRounds backend fuel page = some (attempt (readAdjacency backend page)) := by
  unfold readAdjacencyRounds readAdjacency
  cases read : readPage backend page with
  | error e => exact ⟨0, rfl⟩
  | ok data =>
    refine ⟨data.edgeCount + 1, ?_⟩
    have count : readLe data.payload 9 4 = data.edgeCount := rfl
    have link : readLe data.payload nextPageOffset 4 = data.firstLink := rfl
    simp only [bind, Except.bind, count, link]
    cases ensureDedicatedChainPage page data with
    | error e => rfl
    | ok _ =>
      cases decodeDirection page (data.payload 8) with
      | error e => rfl
      | ok direction =>
        by_cases single : data.edgeCount ≤ maxEdgesSinglePage
        · simp only [if_pos single]
          rfl
        · simp only [if_neg single]
          generalize readWords data.payload recordHeaderSize
            (firstPageEdgesForVersion data.version) = edges
          have rounds : readRounds backend data.edgeCount (data.edgeCount + 1)
              data.firstLink edges = some (attempt (readContinuation backend data.edgeCount
                data.edgeCount data.firstLink edges)) :=
            readRounds_eq (Nat.sub_le _ _) (Nat.lt_succ_of_le (Nat.sub_le _ _))
          rw [rounds]
          cases readContinuation backend data.edgeCount data.edgeCount data.firstLink edges
          · rfl
          · rfl

theorem readAdjacency_eq_ok {record : AdjacencyRecord}
    (done : readAdjacency backend page = .ok record) :
    ∃ data direction, readPage backend page = .ok data ∧ data.pageType = pageTypeAdjacency ∧
      decodeDirection page (data.payload 8) = .ok direction ∧
      (data.edgeCount ≤ maxEdgesSinglePage ∧ record.edges.length = data.edgeCount ∨
        maxEdgesSinglePage < data.edgeCount ∧
          readContinuation backend data.edgeCount data.edgeCount data.firstLink
            (readWords data.payload recordHeaderSize (firstPageEdgesForVersion data.version)) =
              .ok record.edges) := by
  unfold readAdjacency at done
  obtain ⟨data, read, done⟩ := Outcome.ok_of_bind done
  obtain ⟨_, kind, done⟩ := Outcome.ok_of_bind done
  obtain ⟨direction, side, done⟩ := Outcome.ok_of_bind done
  have count : readLe data.payload 9 4 = data.edgeCount := rfl
  have typed : data.pageType = pageTypeAdjacency := by
    unfold ensureDedicatedChainPage at kind
    split at kind
    · assumption
    · cases kind
  refine ⟨data, direction, read, typed, side, ?_⟩
  simp only [count] at done
  by_cases single : data.edgeCount ≤ maxEdgesSinglePage
  · rw [if_pos single] at done
    obtain rfl := Except.ok.inj done
    exact .inl ⟨single, length_readWords _ _ _⟩
  · rw [if_neg single] at done
    obtain ⟨all, continued, done⟩ := Outcome.ok_of_bind done
    obtain rfl := Except.ok.inj done
    exact .inr ⟨Nat.lt_of_not_le single, continued⟩

/-- A read that returns has as many edges as the first page stores, exactly if the chain is long
enough. -/
theorem readAdjacency_complete_iff :
    (∀ record data, readAdjacency backend page = .ok record → readPage backend page = .ok data →
      record.edges.length = data.edgeCount) ↔ LongEnough backend page := by
  have single : maxEdgesSinglePage = 508 := rfl
  have chained : maxEdgesChainedPage = 507 := rfl
  constructor
  · intro complete data direction read typed side several pages ends
    by_contra beyond
    have short : (readWords data.payload recordHeaderSize
        (firstPageEdgesForVersion data.version)).length + pages * maxEdgesContPage <
        data.edgeCount := by
      rw [length_readWords, firstPageEdges_eq]
      exact Nat.lt_of_not_le beyond
    have few : pages ≤ data.edgeCount := by
      have more : pages * 1 ≤ pages * maxEdgesContPage := Nat.mul_le_mul_left _ (by decide)
      omega
    obtain ⟨all, continued, length⟩ := readContinuation_short ends short few
    have done : readAdjacency backend page =
        .ok ⟨readLe data.payload 0 8, direction, all⟩ := by
      have count : readLe data.payload 9 4 = data.edgeCount := rfl
      have link : readLe data.payload nextPageOffset 4 = data.firstLink := rfl
      simp only [readAdjacency, read, ensureDedicatedChainPage, typed, side, count, link, bind,
        Except.bind, if_true, if_neg (Nat.not_le.mpr several), continued]
      rfl
    have whole : all.length = data.edgeCount := complete _ data done read
    omega
  · intro enough record data done read
    obtain ⟨data', direction, read', typed, side, either⟩ := readAdjacency_eq_ok done
    rw [read] at read'
    cases read'
    rcases either with ⟨_, whole⟩ | ⟨several, continued⟩
    · exact whole
    · have first : (readWords data.payload recordHeaderSize
          (firstPageEdgesForVersion data.version)).length = maxEdgesChainedPage := by
        rw [length_readWords, firstPageEdges_eq]
      rcases readContinuation_length (by omega) (by omega) continued with
        whole | ⟨pages, ends, length, short⟩
      · exact whole
      · have bound := enough data direction read typed side several pages ends
        omega

theorem readStateRounds_legacy {data : RawPage} (read : readPage backend page = .ok data)
    (typed : data.pageType = pageTypeAdjacency) (several : maxEdgesSinglePage < data.edgeCount)
    (legacy : data.version < adjFormatV2) (fuel : Nat) :
    readStateRounds backend fuel page =
      (tailRounds backend fuel data.firstLink page (firstPageEdgesForVersion data.version)).map
        fun tail => do
          let (last, accounted) ← tail
          let used ← minus data.edgeCount accounted
          return ⟨page, last, data.edgeCount, used, false⟩ := by
  simp only [readStateRounds, read, ensureDedicatedChainPage, typed, if_true,
    if_neg (Nat.not_le.mpr several), if_neg (Nat.not_le.mpr legacy)]

theorem readStateRounds_other
    (other : ∀ data, readPage backend page = .ok data → data.pageType = pageTypeAdjacency →
      maxEdgesSinglePage < data.edgeCount → ¬data.version < adjFormatV2) :
    ∃ outcome, readStateRounds backend 0 page = some outcome ∧ Calm outcome := by
  unfold readStateRounds
  cases read : readPage backend page with
  | error e => exact ⟨_, rfl, calm_error e⟩
  | ok data =>
    by_cases typed : data.pageType = pageTypeAdjacency
    · simp only [ensureDedicatedChainPage, if_pos typed]
      by_cases single : data.edgeCount ≤ maxEdgesSinglePage
      · exact ⟨_, if_pos single, calm_ok _⟩
      · have current := Nat.le_of_not_lt (other data read typed (Nat.lt_of_not_le single))
        rw [if_neg single, if_pos current]
        exact ⟨_, rfl, calm_ok _⟩
    · simp only [ensureDedicatedChainPage, if_neg typed]
      exact ⟨_, rfl, calm_error _⟩

/-- A look-up of the state of a chain ends without a panic exactly if the tail is reached. -/
theorem readStateRounds_calm_iff :
    (∃ fuel outcome, readStateRounds backend fuel page = some outcome ∧ Calm outcome) ↔
      TailReached backend page := by
  constructor
  · intro ⟨fuel, outcome, done, calm⟩ data read typed several legacy
    rw [readStateRounds_legacy read typed several legacy] at done
    obtain ⟨tail, walked, ended⟩ := Option.map_eq_some_iff.mp done
    cases tail with
    | error fault => exact .inl (tailRounds_error walked)
    | ok tail =>
      obtain ⟨pages, ends, counted⟩ := tailRounds_ok walked
      refine .inr ⟨pages, ends, ?_⟩
      rw [← firstPageEdges_eq data.version, ← counted]
      by_contra beyond
      have panics : outcome = .error .panic := by
        rw [← ended]
        simp only [bind, Except.bind, minus, demand_not beyond]
      exact calm panics
  · intro reached
    by_cases walks : ∃ data, readPage backend page = .ok data ∧
        data.pageType = pageTypeAdjacency ∧ maxEdgesSinglePage < data.edgeCount ∧
        data.version < adjFormatV2
    · obtain ⟨data, read, typed, several, legacy⟩ := walks
      have state := readStateRounds_legacy read typed several legacy
      rcases reached data read typed several legacy with ⟨pages, breaks⟩ | ⟨pages, ends, fits⟩
      · obtain ⟨e, walked⟩ := tailRounds_breaks breaks
        refine ⟨pages + 1, .error (.error e), ?_, calm_error e⟩
        rw [state, walked]
        rfl
      · obtain ⟨found, walked⟩ := tailRounds_ends ends
        obtain ⟨pages', ends', counted⟩ := tailRounds_ok walked
        rw [ends.unique ends', ← firstPageEdges_eq data.version, ← counted] at fits
        refine ⟨pages + 1, .ok ⟨page, found.1, data.edgeCount, data.edgeCount - found.2, false⟩, ?_,
          calm_ok _⟩
        rw [state, walked]
        simp only [Option.map_some, bind, Except.bind, minus, demand_of fits]
        rfl
    · have other : ∀ data, readPage backend page = .ok data →
          data.pageType = pageTypeAdjacency → maxEdgesSinglePage < data.edgeCount →
          ¬data.version < adjFormatV2 := fun data read typed several legacy =>
        walks ⟨data, read, typed, several, legacy⟩
      obtain ⟨outcome, done, calm⟩ := readStateRounds_other other
      exact ⟨0, outcome, done, calm⟩

end Operations

/-- A read of an edge list always ends without a panic, and the edges it returns are as many as
the first page stores exactly if the chain is long enough. The state of a chain is found without
a panic exactly if the tail of a legacy chain is reached. -/
theorem chain_walks_iff (backend : Backend) (page : PageId) :
    (∃ fuel, readAdjacencyRounds backend fuel page = some (attempt (readAdjacency backend page))) ∧
      ((∀ record data, readAdjacency backend page = .ok record →
          readPage backend page = .ok data → record.edges.length = data.edgeCount) ↔
        LongEnough backend page) ∧
      ((∃ fuel outcome, readStateRounds backend fuel page = some outcome ∧ Calm outcome) ↔
        TailReached backend page) :=
  ⟨readAdjacencyRounds_eq, readAdjacency_complete_iff, readStateRounds_calm_iff⟩

/-- A first page that stores 600 edges and links to a page. -/
def firstOf600 (version next : Nat) : RawPage :=
  ⟨pageTypeAdjacency, version, writeLe (writeLe (fun _ => 0) 9 4 600) nextPageOffset 4 next⟩

def contTo (next : Nat) : RawPage := ⟨pageTypeAdjacency, adjFormatV2, writeLe (fun _ => 0) 0 4 next⟩

def endedEarly : Backend := ⟨⟨1, fun _ => firstOf600 2 noNext⟩, 0⟩

/-- A legacy chain whose continuation page links to itself. -/
def circular : Backend := ⟨⟨2, fun page => if page = 0 then firstOf600 1 1 else contTo 1⟩, 0⟩

/-- A legacy chain with a page more than its 600 edges need. -/
def overlong : Backend :=
  ⟨⟨3, fun page =>
    if page = 0 then firstOf600 1 1 else if page = 1 then contTo 2 else contTo noNext⟩, 0⟩

/-- A chain that ends early is returned short; the walk along a circular legacy chain never ends,
and that along an overlong one subtracts more edges than are stored. -/
theorem chains_misread :
    (∃ record data, readAdjacency endedEarly 0 = .ok record ∧
        readPage endedEarly 0 = .ok data ∧ record.edges.length = 507 ∧ data.edgeCount = 600) ∧
      (∀ fuel, readStateRounds circular fuel 0 = none) ∧
      readStateRounds overlong 3 0 = some (.error .panic) := by
  have short : readAdjacency endedEarly 0 = .ok ⟨0, .outgoing,
      readWords (firstOf600 2 noNext).payload recordHeaderSize 507⟩ := rfl
  refine ⟨⟨_, _, short, rfl, ?_, by decide⟩, fun fuel => ?_, by rfl⟩
  · rw [length_readWords]
  · have circles : ∀ fuel last accounted, tailRounds circular fuel 1 last accounted = none := by
      intro fuel
      induction fuel with
      | zero => exact fun _ _ => rfl
      | succ fuel ih => exact fun _ _ => ih 1 _
    have state : readStateRounds circular fuel 0 =
        (tailRounds circular fuel 1 0 507).map fun tail => do
          let (last, accounted) ← tail
          let used ← minus 600 accounted
          return ⟨0, last, 600, used, false⟩ := rfl
    rw [state, circles]
    rfl

end ErmyaGraph.AdjChainCodec
