import ErmyaGraph.Graph.Journal
import ErmyaGraph.Storage.Lists

/-! # The edge lists of a graph's nodes

The list of a node in one direction is reached through a head page that its
slot stores and a cache may override. Appending to a list and shortening one
are specified here by what they do to the lists, whatever page they end on. -/

namespace ErmyaGraph.Graph

open Outcome Store Function Option

variable {key : ListKey} {ids edges : List Nat} {use' : Nat → AdjUse} {tail : Option ChainState}
  {bound : Nat} {direction : AdjDirection} {ptr : AdjacencyPointer}

/-- A list was put at a page, wherever it was before. The lists of other nodes and of the other
direction are as before. -/
structure ListMoved (before after : PageFile AdjPage) (use use' : Nat → AdjUse) (key : ListKey)
    (head : Nat) (ids : List Nat) (tail : Option ChainState) : Prop where
  grown : before.count ≤ after.count
  shape : Shape after use'
  here : ListAt after use' key head ids tail
  others : ∀ key' head' ids' tail', key' ≠ key →
    ListAt before use key' head' ids' tail' → ListAt after use' key' head' ids' tail'
  shared : ∀ page, use page = .shared → use' page = .shared

variable {use : Nat → AdjUse}

theorem listMoved_of_put {before after : PageFile AdjPage} {head : Nat} {touched : List Nat}
    (put : ListPut before after use use' key head ids tail touched) :
    ListMoved before after use use' key head ids tail where
  grown := put.grown
  shape := put.shape
  here := put.here
  others := fun key' head' ids' tail' ne => put.others key' head' ids' tail' (.inl ne)
  shared := put.shared

/-- What an append may do to the caches: it remembers the tail of the list it wrote, and drops
others at will. -/
structure AdjStep (before after : Graph) (use : Nat → AdjUse) (key : ListKey)
    (tail : Option ChainState) : Prop where
  cache : after.adj.cache = before.adj.cache
  tails : ∀ node direction state, (node, direction) ≠ key →
    after.adj.tails node direction = some state → before.adj.tails node direction = some state
  tailHere : ∀ state, after.adj.tails key.1 key.2 = some state → tail = some state
  openSlab : ∀ direction page, after.adj.openSlab direction = some page → use page = .shared

theorem sat_onStore {α : Type} {x : StoreM α} {graph : Graph} {post : α → Graph → Prop}
    {fail : Error → Graph → Prop} :
    Sat (onStore x) graph post fail ↔
      Sat x graph.store (fun a store => post a { graph with store := store })
        (fun e store => fail e { graph with store := store }) :=
  sat_zoom _ _ x

section Append

variable {graph : Graph}

theorem sat_onWalLogAdjPage (page : PageId) (graph : Graph) :
    Sat (onStore (walLogAdjPage page)) graph
      (fun _ after => after.store.pages = graph.store.pages ∧ after.adj = graph.adj)
      (fun _ _ => True) := by
  unfold walLogAdjPage
  rw [sat_onStore, sat_bind, sat_get, sat_ite]
  constructor
  · intro _
    rw [sat_bind, sat_ofResult]
    exact ⟨fun _ _ => ⟨rfl, rfl⟩, fun _ _ => trivial⟩
  · intro _
    exact ⟨rfl, rfl⟩

theorem sat_onWalLogAdjPages (pages : List PageId) (graph : Graph) :
    Sat (pages.forM fun page => onStore (walLogAdjPage page)) graph
      (fun _ after => after.store.pages = graph.store.pages ∧ after.adj = graph.adj)
      (fun _ _ => True) := by
  induction pages generalizing graph with
  | nil => exact ⟨rfl, rfl⟩
  | cons page rest ih =>
    simp only [List.forM_eq_forM, List.forM_cons, sat_bind]
    apply (sat_onWalLogAdjPage page graph).loose _
    intro _ between same
    apply (ih between).loose _
    intro _ after kept
    exact ⟨kept.1.trans same.1, kept.2.trans same.2⟩

theorem sat_finishAppend {before : Graph} {first : PageId} (written : List PageId)
    (state : ChainState) (adj : graph.adj = before.adj)
    (openSlab : ∀ direction page, before.adj.openSlab direction = some page → use' page = .shared) :
    Sat (do
        written.forM fun page => onStore (walLogAdjPage page)
        modifyAdj fun adj => adj.insertTail key.1 key.2 state
        return first) graph
      (fun page after => page = first ∧ after.store.pages = graph.store.pages ∧
        AdjStep before after use' key (some state))
      (fun _ _ => True) := by
  rw [sat_bind]
  apply (sat_onWalLogAdjPages written graph).loose _
  intro _ logged same
  simp only [modifyAdj, sat_bind, sat_modify, sat_pure]
  refine ⟨trivial, same.1, ?_⟩
  constructor
  · rw [same.2, adj]
    rfl
  · intro node direction found ne remembered
    simp only [AdjState.insertTail, same.2, adj] at remembered
    rw [if_neg (fun same => ne (Prod.ext same.1 same.2))] at remembered
    split at remembered
    · cases remembered
    · exact remembered
  · intro found remembered
    simpa [AdjState.insertTail] using remembered
  · intro direction page isOpen
    apply openSlab direction page
    rw [← adj, ← same.2]
    exact isOpen

theorem sat_appendToDedicatedChain_none (key : ListKey) (edges : List Nat)
    (shape : Shape graph.store.pages.adjacency use)
    (openSlab : ∀ direction page, graph.adj.openSlab direction = some page → use page = .shared) :
    Sat (appendToDedicatedChain key.1 key.2 none edges) graph
      (fun page after => ∃ use' state pages, ListPut graph.store.pages.adjacency
          after.store.pages.adjacency use use' key page edges (some state) pages ∧
        AdjStep graph after use' key (some state))
      (fun _ _ => True) := by
  unfold appendToDedicatedChain
  rw [sat_bind, sat_get, sat_bind, sat_onStore]
  apply (sat_startChain key.1 key.2 _ edges).sure _
  intro answer store started
  obtain ⟨pages, appended, _, _⟩ := started
  obtain ⟨first, written, state⟩ := answer
  have isState : state = chainState first pages edges := appended.state
  subst isState
  have put : ListPut _ _ use _ key first edges _ pages :=
    appended.grew.listPut shape (by simp) fun page mem => .inl mem
  have stillOpen := fun direction page isOpen => put.shared page (openSlab direction page isOpen)
  apply (sat_finishAppend written _ (by rfl) stillOpen).loose _
  intro page after finished
  obtain ⟨rfl, pagesSame, step⟩ := finished
  rw [pagesSame]
  exact ⟨_, _, pages, put, step⟩

theorem sat_appendToDedicatedChain_some {head : Nat} {state : ChainState} (edges : List Nat)
    (shape : Shape graph.store.pages.adjacency use)
    (openSlab : ∀ direction page, graph.adj.openSlab direction = some page → use page = .shared)
    (listed : ListAt graph.store.pages.adjacency use key head ids (some state))
    (known : ∀ cached, graph.adj.tails key.1 key.2 = some cached → cached = state) :
    Sat (appendToDedicatedChain key.1 key.2 (some head) edges) graph
      (fun page after => ∃ use' tail, ListMoved graph.store.pages.adjacency
          after.store.pages.adjacency use use' key page (ids ++ edges) tail ∧
        AdjStep graph after use' key tail)
      (fun _ _ => True) := by
  cases listed with
  | @chained pages ids chain purpose =>
    unfold appendToDedicatedChain
    rw [sat_bind, sat_get, sat_bind, sat_onStore]
    apply (sat_extendChain key.1 key.2 _ edges chain known).sure _
    intro answer store extended
    obtain ⟨first, written, state⟩ := answer
    obtain ⟨same, pages', appended, reports⟩ := extended
    obtain rfl : first = head := same
    have isState : state = chainState first pages' (ids ++ edges) := appended.state
    subst isState
    have put := appended.grew.listPut shape purpose reports
    have stillOpen := fun direction page isOpen =>
      put.shared page (openSlab direction page isOpen)
    apply (sat_finishAppend written _ (by rfl) stillOpen).loose _
    intro page after finished
    obtain ⟨rfl, pagesSame, step⟩ := finished
    rw [pagesSame]
    exact ⟨_, _, listMoved_of_put put, step⟩

theorem ListMoved.drop {first second third : PageFile AdjPage} {use'' : Nat → AdjUse}
    {head slab : Nat} {touched : List Nat}
    (moved : ListMoved first second use use' key head ids tail)
    (kept : ListsKept second third use' use'' key slab touched) (apart : head ≠ slab) :
    ListMoved first third use use'' key head ids tail where
  grown := moved.grown.trans kept.grown
  shape := kept.shape
  here := kept.others key head ids tail (.inr apart) moved.here
  others := fun key' head' ids' tail' ne listed =>
    kept.others key' head' ids' tail' (.inl ne)
      (moved.others key' head' ids' tail' ne listed)
  shared := fun page isShared => kept.shared page (moved.shared page isShared)

theorem AdjStep.mono {before after later : Graph} (step : AdjStep before after use key tail)
    (same : later.adj = after.adj) (shared : ∀ page, use page = .shared → use' page = .shared) :
    AdjStep before later use' key tail := by
  constructor
  · rw [same, step.cache]
  · rw [same]
    exact step.tails
  · rw [same]
    exact step.tailHere
  · intro direction page isOpen
    rw [same] at isOpen
    exact shared page (step.openSlab direction page isOpen)

theorem sat_migrateSubblock {slab : Nat} (added : List Nat)
    (shape : Shape graph.store.pages.adjacency use)
    (openSlab : ∀ direction page, graph.adj.openSlab direction = some page → use page = .shared)
    (listed : ListAt graph.store.pages.adjacency use key slab ids none) :
    Sat (migrateSubblock key.1 key.2 slab added) graph
      (fun page after => ∃ use' tail, ListMoved graph.store.pages.adjacency
          after.store.pages.adjacency use use' key page (ids ++ added) tail ∧
        AdjStep graph after use' key tail)
      (fun _ _ => True) := by
  have isSlab := listed.isSlab
  have read := listed.read
  have subblock : graph.store.readSubblock slab key.1 key.2 = .ok ids := by
    simpa [readAdjEdgeIds, isSlab, bind, Except.bind] using read
  unfold migrateSubblock
  rw [sat_bind, sat_get, sat_bind, subblock, sat_ofResult_ok, sat_bind]
  apply (sat_appendToDedicatedChain_none key (ids ++ added) shape openSlab).loose _
  intro head started found
  obtain ⟨use', state, pages, put, step⟩ := found
  have apart : head ≠ slab := by
    rintro rfl
    have stillShared := put.shared head listed.shared
    obtain ⟨_, absurdTail⟩ | isChain := put.here.use_head
    · cases absurdTail
    · rw [stillShared] at isChain
      cases isChain
  have stillListed := put.others key slab ids none (.inr apart.symm) listed
  rw [sat_bind, sat_onStore]
  apply (sat_freeSubblock put.shape stillListed).sure _
  intro _ freed kept
  rw [sat_bind]
  apply (sat_onWalLogAdjPage slab _).loose _
  intro _ after same
  rw [sat_pure, same.1]
  exact ⟨use', some state, (listMoved_of_put put).drop kept apart,
    step.mono same.2 fun _ isShared => isShared⟩

/-- An append to a list on a shared page or on a chain. -/
theorem sat_appendToPage {page : Nat} (edges : List Nat)
    (shape : Shape graph.store.pages.adjacency use)
    (openSlab : ∀ direction page, graph.adj.openSlab direction = some page → use page = .shared)
    (listed : ListAt graph.store.pages.adjacency use key page ids tail)
    (known : ∀ cached, graph.adj.tails key.1 key.2 = some cached → tail = some cached) :
    Sat (appendToPage key.1 key.2 page edges) graph
      (fun page after => ∃ use' tail, ListMoved graph.store.pages.adjacency
          after.store.pages.adjacency use use' key page (ids ++ edges) tail ∧
        AdjStep graph after use' key tail)
      (fun _ _ => True) := by
  unfold appendToPage
  rw [sat_bind, sat_get, sat_bind, listed.isSlab, sat_ofResult_ok]
  cases tail with
  | some state =>
    simp only [isNone_some, Bool.false_eq_true, ↓reduceIte]
    apply sat_appendToDedicatedChain_some edges shape openSlab listed
    intro cached remembered
    exact (some.inj (known cached remembered)).symm
  | none =>
    simp only [isNone_none, ↓reduceIte, sat_bind, sat_onStore]
    apply (sat_appendSubblockEdges edges shape listed).loose _
    intro grew store appended
    cases grew with
    | true =>
      simp only [↓reduceIte, sat_bind] at appended ⊢
      apply (sat_onWalLogAdjPage page _).loose _
      intro _ after same
      rw [sat_pure, same.1]
      refine ⟨use, none, listMoved_of_put appended, ?_⟩
      constructor
      · rw [same.2]
      · rw [same.2]
        exact fun _ _ _ _ remembered => remembered
      · rw [same.2]
        exact known
      · rw [same.2]
        exact openSlab
    | false =>
      simp only [Bool.false_eq_true, ↓reduceIte] at appended ⊢
      rw [appended]
      exact sat_migrateSubblock edges shape openSlab listed

/-- A shared page that takes another sub-block: the remembered one or a new one. -/
theorem sat_openSlabPageFor (direction : AdjDirection) (edgeCount : Nat)
    (shape : Shape graph.store.pages.adjacency use)
    (openSlab : ∀ direction page, graph.adj.openSlab direction = some page → use page = .shared) :
    Sat (openSlabPageFor direction edgeCount) graph
      (fun page after => ∃ use', AllKept graph.store.pages.adjacency
          after.store.pages.adjacency use use' ∧ use' page = .shared ∧
        after.adj.cache = graph.adj.cache ∧ after.adj.tails = graph.adj.tails ∧
        ∀ direction page, after.adj.openSlab direction = some page → use' page = .shared)
      (fun _ _ => True) := by
  unfold openSlabPageFor
  rw [sat_bind, sat_get, sat_bind, sat_ofResult]
  refine ⟨fun fitting found => ?_, fun _ _ => trivial⟩
  cases fitting with
  | some page =>
    have isOpen : graph.adj.openSlab direction = some page := by
      unfold fittingSlabPage at found
      split at found
      · cases found
      · next candidate remembered =>
          rw [remembered]
          revert found
          cases graph.store.subblocks candidate with
          | error e => exact nofun
          | ok entries =>
            cases fits : slabCanFitSubblock candidate entries edgeCount with
            | error e => simp [bind, Except.bind, fits]
            | ok answer =>
              cases answer with
              | false => simp [bind, Except.bind, pure, Except.pure, fits]
              | true => simp [bind, Except.bind, pure, Except.pure, fits]
    exact ⟨use, allKept_refl shape, openSlab direction page isOpen, rfl, rfl, openSlab⟩
  | none =>
    simp only [sat_bind, sat_onStore, allocateSlabPage, allocateAdjPage, sat_get, sat_set, sat_pure]
    apply (sat_writeAdjPage _ (by exact Nat.lt_succ_self _)).sure _
    intro _ store wrote
    subst wrote
    simp only [modifyAdj, sat_modify]
    refine ⟨update use graph.store.pages.adjacency.count .shared,
      allKept_allocateSlab shape, update_self _ _ _, trivial, trivial, ?_⟩
    intro side page isOpen
    by_cases same : page = graph.store.pages.adjacency.count
    · rw [same, update_self]
    · rw [update_of_ne same]
      by_cases here : side = direction
      · rw [here, update_self] at isOpen
        exact absurd (some.inj isOpen).symm same
      · rw [update_of_ne here] at isOpen
        exact openSlab side page isOpen

/-- Starting the list of a node and direction. -/
theorem sat_startList (key : ListKey) (edges : List Nat)
    (shape : Shape graph.store.pages.adjacency use)
    (openSlab : ∀ direction page, graph.adj.openSlab direction = some page → use page = .shared)
    (unknown : graph.adj.tails key.1 key.2 = none) :
    Sat (startList key.1 key.2 edges) graph
      (fun page after => ∃ use' tail, ListMoved graph.store.pages.adjacency
          after.store.pages.adjacency use use' key page edges tail ∧
        AdjStep graph after use' key tail)
      (fun _ _ => True) := by
  unfold startList
  rw [sat_ite]
  constructor
  · intro _
    rw [sat_bind]
    apply (sat_openSlabPageFor key.2 edges.length shape openSlab).loose _
    intro page opened found
    obtain ⟨use', kept, isShared, cache, tails, stillOpen⟩ := found
    have bounded : page < opened.store.pages.adjacency.count := by
      by_contra beyond
      rw [kept.shape.beyond page (not_lt.mp beyond)] at isShared
      cases isShared
    rw [sat_bind, sat_onStore]
    apply (sat_writeSubblock key edges kept.shape bounded isShared).loose _
    intro _ store put
    rw [sat_bind]
    apply (sat_onWalLogAdjPage page _).loose _
    intro _ after same
    rw [sat_pure, same.1]
    refine ⟨use', none, ?_, ?_⟩
    · constructor
      · exact kept.grown.trans put.grown
      · exact put.shape
      · exact put.here
      · intro key' head' ids' tail' ne listed
        exact put.others key' head' ids' tail' (.inl ne)
          (kept.lists key' head' ids' tail' listed)
      · exact kept.shared
    · constructor
      · rw [same.2, cache]
      · rw [same.2, tails]
        exact fun _ _ _ _ remembered => remembered
      · rw [same.2, tails, unknown]
        exact nofun
      · rw [same.2]
        exact stillOpen
  · intro _
    apply (sat_appendToDedicatedChain_none key edges shape openSlab).loose _
    intro page after started
    obtain ⟨use', state, pages, put, step⟩ := started
    exact ⟨use', some state, listMoved_of_put put, step⟩

end Append

/-- Where the watched edges belong: at which node, in each direction. Edges that are not watched
may be listed anywhere. -/
abbrev Links := Nat → Option (AdjDirection → Option Nat)

variable {links : Links}

/-- A list holds the watched edges that belong on it, each once, and no other watched edge. -/
structure Exact (links : Links) (bound : Nat) (key : ListKey) (ids : List Nat) : Prop where
  nodup : ids.Nodup
  bounded : ∀ id ∈ ids, id < bound
  listed : ∀ edge place, links edge = some place → (edge ∈ ids ↔ place key.2 = some key.1)

/-- A head that is absent stands for an empty list. -/
def HeadLists (file : PageFile AdjPage) (use : Nat → AdjUse) (key : ListKey)
    (head : Option PageId) (ids : List Nat) : Prop :=
  match head with
  | none => ids = []
  | some page => ∃ tail, ListAt file use key page ids tail

def Leads (file : PageFile AdjPage) (use : Nat → AdjUse) (links : Links) (bound : Nat)
    (key : ListKey) (head : Option PageId) : Prop :=
  ∃ ids, HeadLists file use key head ids ∧ Exact links bound key ids

theorem Leads.mono {file file' : PageFile AdjPage} {links' : Links} {bound' : Nat}
    {head : Option PageId} (leads : Leads file use links bound key head)
    (lists : ∀ page ids tail, head = some page → ListAt file use key page ids tail →
      ListAt file' use' key page ids tail)
    (exact_ : ∀ ids, Exact links bound key ids → Exact links' bound' key ids) :
    Leads file' use' links' bound' key head := by
  obtain ⟨ids, headed, listsThem⟩ := leads
  refine ⟨ids, ?_, exact_ ids listsThem⟩
  cases head with
  | none => exact headed
  | some page =>
    obtain ⟨tail, listed⟩ := headed
    exact ⟨tail, lists page ids tail rfl listed⟩

/-- Every head in use leads to an exact list: those of the slots, those a cache holds in their
place, and the remembered ends of chains agree with both. -/
structure Linked (graph : Graph) (use : Nat → AdjUse) (heads : Nat → AdjacencyPointer)
    (nodes : Finset Nat) (links : Links) : Prop where
  shape : Shape graph.store.pages.adjacency use
  openSlab : ∀ direction page, graph.adj.openSlab direction = some page → use page = .shared
  stored : ∀ node ∈ nodes, ∀ direction, Leads graph.store.pages.adjacency use links
    (graph.store.info.nextId .edge) (node, direction) ((heads node).head direction)
  cached : ∀ node ∈ nodes, ∀ ptr, graph.adj.cache node = some ptr → ∀ direction,
    Leads graph.store.pages.adjacency use links (graph.store.info.nextId .edge) (node, direction)
      (ptr.head direction)
  tails : ∀ node direction state, graph.adj.tails node direction = some state →
    node ∈ nodes ∧ ∃ page ids, (heads node).head direction = some page ∧
      (∀ ptr, graph.adj.cache node = some ptr → ptr.head direction = some page) ∧
      ListAt graph.store.pages.adjacency use (node, direction) page ids (some state)

theorem Linked.congr {graph after : Graph} {heads : Nat → AdjacencyPointer} {nodes : Finset Nat}
    (linked : graph.Linked use heads nodes links)
    (file : after.store.pages.adjacency = graph.store.pages.adjacency)
    (bound : after.store.info.nextId = graph.store.info.nextId) (adj : after.adj = graph.adj) :
    after.Linked use heads nodes links := by
  constructor
  · rw [file]
    exact linked.shape
  · rw [adj]
    exact linked.openSlab
  · rw [file, bound]
    exact linked.stored
  · rw [file, bound, adj]
    exact linked.cached
  · rw [file, adj]
    exact linked.tails

/-- Edges are put on the list of a node in one direction. -/
def Links.place (links : Links) (edges : List Nat) (direction : AdjDirection) (node : Nat) :
    Links := fun edge =>
  if edge ∈ edges then (links edge).map fun place => update place direction (some node)
  else links edge

/-- The watched edges that are on no list of a direction yet. -/
def Links.Unplaced (links : Links) (edges : List Nat) (direction : AdjDirection) : Prop :=
  ∀ edge ∈ edges, ∃ place, links edge = some place ∧ place direction = none

theorem Exact.append {node : Nat} (lists : Exact links bound (node, direction) ids)
    (distinct : edges.Nodup) (below : ∀ edge ∈ edges, edge < bound)
    (unplaced : links.Unplaced edges direction) :
    Exact (links.place edges direction node) bound (node, direction) (ids ++ edges) := by
  have apart : ∀ edge ∈ edges, edge ∉ ids := by
    intro edge mem already
    obtain ⟨place, watched, nowhere⟩ := unplaced edge mem
    have here := (lists.listed edge place watched).mp already
    rw [nowhere] at here
    cases here
  constructor
  · rw [List.nodup_append]
    refine ⟨lists.nodup, distinct, ?_⟩
    intro left inIds right inEdges same
    exact apart right inEdges (same ▸ inIds)
  · intro id mem
    rcases List.mem_append.mp mem with inIds | inEdges
    · exact lists.bounded id inIds
    · exact below id inEdges
  · intro edge place watched
    unfold Links.place at watched
    by_cases added : edge ∈ edges
    · obtain ⟨before, wasWatched, _⟩ := unplaced edge added
      rw [if_pos added, wasWatched, map_some, some.injEq] at watched
      simp [added, ← watched]
    · rw [if_neg added] at watched
      simpa [added] using lists.listed edge place watched

theorem Exact.place_other {node : Nat} (lists : Exact links bound key ids)
    (ne : key ≠ (node, direction)) (unplaced : links.Unplaced edges direction) :
    Exact (links.place edges direction node) bound key ids := by
  constructor
  · exact lists.nodup
  · exact lists.bounded
  · intro edge place watched
    unfold Links.place at watched
    by_cases added : edge ∈ edges
    · obtain ⟨before, wasWatched, nowhere⟩ := unplaced edge added
      rw [if_pos added, wasWatched, map_some, some.injEq] at watched
      have was := lists.listed edge before wasWatched
      by_cases sameSide : key.2 = direction
      · have otherNode : node ≠ key.1 := fun same => ne (Prod.ext same.symm sameSide)
        rw [was, ← watched, sameSide, update_self, nowhere]
        simp [otherNode]
      · rw [was, ← watched, update_of_ne sameSide]
    · rw [if_neg added] at watched
      exact lists.listed edge place watched

@[simp]
theorem head_setHead_self (ptr : AdjacencyPointer) (direction : AdjDirection) (page : PageId) :
    (ptr.setHead direction page).head direction = some page := by
  cases direction with
  | outgoing => rfl
  | incoming => rfl

theorem head_setHead_of_ne (ptr : AdjacencyPointer) {other : AdjDirection} (page : PageId)
    (ne : other ≠ direction) : (ptr.setHead direction page).head other = ptr.head other := by
  cases direction with
  | outgoing =>
    cases other with
    | outgoing => exact absurd rfl ne
    | incoming => rfl
  | incoming =>
    cases other with
    | outgoing => rfl
    | incoming => exact absurd rfl ne

section Lists

variable {graph : Graph} {heads : Nat → AdjacencyPointer} {nodes : Finset Nat}

/-- The heads an operation starts from: those of the slot or those a cache holds. -/
def Current (graph : Graph) (heads : Nat → AdjacencyPointer) (node : Nat)
    (ptr : AdjacencyPointer) : Prop := ptr = heads node ∨ graph.adj.cache node = some ptr

section

variable (linked : graph.Linked use heads nodes links)
include linked
variable {node : Nat}

theorem Linked.current_leads (mem : node ∈ nodes) (current : graph.Current heads node ptr)
    (direction : AdjDirection) :
    Leads graph.store.pages.adjacency use links (graph.store.info.nextId .edge) (node, direction)
      (ptr.head direction) := by
  rcases current with rfl | cached
  · exact linked.stored node mem direction
  · exact linked.cached node mem ptr cached direction

theorem Linked.current_tail (current : graph.Current heads node ptr) {state : ChainState}
    (remembered : graph.adj.tails node direction = some state) :
    ∃ page ids, ptr.head direction = some page ∧
      ListAt graph.store.pages.adjacency use (node, direction) page ids (some state) := by
  obtain ⟨_, page, ids, stored, cached, listed⟩ := linked.tails node direction state remembered
  refine ⟨page, ids, ?_, listed⟩
  rcases current with rfl | held
  · exact stored
  · exact cached ptr held

/-- One list was put in place of what a head led to, and the cache holds the new head. -/
theorem Linked.put {after : Graph} {links' : Links} {page : Nat} (mem : node ∈ nodes)
    (current : graph.Current heads node ptr)
    (moved : ListMoved graph.store.pages.adjacency after.store.pages.adjacency use use'
      (node, direction) page ids tail) (bound : after.store.info.nextId = graph.store.info.nextId)
    (here : Exact links' (graph.store.info.nextId .edge) (node, direction) ids)
    (others : ∀ key ids, key ≠ (node, direction) →
      Exact links (graph.store.info.nextId .edge) key ids →
      Exact links' (graph.store.info.nextId .edge) key ids)
    (step : AdjStep graph after use' (node, direction) tail) :
    Linked { after with adj := after.adj.insert node (ptr.setHead direction page) } use'
      (update heads node (ptr.setHead direction page)) nodes links' := by
  -- Heads of other lists lead where they led.
  have kept : ∀ key head, key ≠ (node, direction) →
      Leads graph.store.pages.adjacency use links (graph.store.info.nextId .edge) key head →
      Leads after.store.pages.adjacency use' links' (after.store.info.nextId .edge) key head := by
    intro key head ne leads
    rw [bound]
    exact leads.mono (fun page ids tail _ => moved.others key page ids tail ne)
      fun ids => others key ids ne
  have fresh : ∀ side, Leads after.store.pages.adjacency use' links'
      (after.store.info.nextId .edge) (node, side) ((ptr.setHead direction page).head side) := by
    intro side
    by_cases same : side = direction
    · subst same
      rw [head_setHead_self, bound]
      exact ⟨ids, ⟨tail, moved.here⟩, here⟩
    · rw [head_setHead_of_ne ptr page same]
      exact kept (node, side) _ (fun equal => same (congrArg Prod.snd equal))
        (linked.current_leads mem current side)
  have away : ∀ other side, other ≠ node → (other, side) ≠ (node, direction) :=
    fun other side ne equal => ne (congrArg Prod.fst equal)
  constructor
  · exact moved.shape
  · exact step.openSlab
  · intro other inNodes side
    by_cases same : other = node
    · subst same
      rw [update_self]
      exact fresh side
    · rw [update_of_ne same]
      exact kept (other, side) _ (away other side same) (linked.stored other inNodes side)
  · intro other inNodes held cached side
    simp only [AdjState.insert] at cached
    by_cases same : other = node
    · subst same
      rw [if_pos rfl, some.injEq] at cached
      rw [← cached]
      exact fresh side
    · rw [if_neg same] at cached
      split at cached
      · cases cached
      · rw [step.cache] at cached
        exact kept (other, side) _ (away other side same)
          (linked.cached other inNodes held cached side)
  · intro other side state remembered
    have remembered : after.adj.tails other side = some state := remembered
    by_cases isHere : (other, side) = (node, direction)
    · obtain ⟨rfl, rfl⟩ := Prod.mk.inj isHere
      have ends : tail = some state := step.tailHere state remembered
      refine ⟨mem, page, ids, ?_, ?_, ends ▸ moved.here⟩
      · rw [update_self, head_setHead_self]
      · intro held cached
        simp only [AdjState.insert, ↓reduceIte, some.injEq] at cached
        rw [← cached, head_setHead_self]
    · have earlier := step.tails other side state isHere remembered
      by_cases same : other = node
      · subst same
        have otherSide : side ≠ direction := fun equal => isHere (by rw [equal])
        obtain ⟨old, listIds, headed, listed⟩ := linked.current_tail current earlier
        refine ⟨mem, old, listIds, ?_, ?_, moved.others _ old listIds _ isHere listed⟩
        · rw [update_self, head_setHead_of_ne ptr page otherSide, headed]
        · intro held cached
          simp only [AdjState.insert, ↓reduceIte, some.injEq] at cached
          rw [← cached, head_setHead_of_ne ptr page otherSide, headed]
      · obtain ⟨inNodes, old, listIds, stored, inCache, listed⟩ :=
          linked.tails other side state earlier
        refine ⟨inNodes, old, listIds, ?_, ?_, moved.others _ old listIds _ isHere listed⟩
        · rw [update_of_ne same, stored]
        · intro held cached
          simp only [AdjState.insert] at cached
          rw [if_neg same] at cached
          split at cached
          · cases cached
          · exact inCache held (step.cache ▸ cached)

theorem sat_appendAndUpdateCaches (mem : node ∈ nodes) (current : graph.Current heads node ptr)
    (distinct : edges.Nodup) (below : ∀ edge ∈ edges, edge < graph.store.info.nextId .edge)
    (unplaced : links.Unplaced edges direction) :
    Sat (appendAndUpdateCaches node direction ptr edges) graph
      (fun entry after => after.adj.cache node = some entry ∧
        ∃ use', after.Linked use' (update heads node entry) nodes
          (links.place edges direction node)) (fun _ _ => True) := by
  obtain ⟨ids, headed, lists⟩ := linked.current_leads mem current direction
  have finish : ∀ page after use' tail,
      ListMoved graph.store.pages.adjacency after.store.pages.adjacency use use'
        (node, direction) page (ids ++ edges) tail →
      AdjStep graph after use' (node, direction) tail → LinksOnly graph after →
      Linked { after with adj := after.adj.insert node (ptr.setHead direction page) } use'
        (update heads node (ptr.setHead direction page)) nodes
        (links.place edges direction node) := by
    intro page after use' tail moved step only
    have bound : after.store.info.nextId = graph.store.info.nextId := by rw [only.store.rest]
    exact linked.put mem current moved bound (lists.append distinct below unplaced)
      (fun key ids ne exact_ => exact_.place_other ne unplaced) step
  unfold appendAndUpdateCaches
  cases head : ptr.head direction with
  | none =>
    rw [head] at headed
    obtain rfl : ids = [] := headed
    have unknown : graph.adj.tails node direction = none := by
      cases remembered : graph.adj.tails node direction with
      | none => rfl
      | some state =>
        obtain ⟨page, _, found, _⟩ := linked.current_tail current remembered
        rw [head] at found
        cases found
    rw [sat_bind]
    apply ((sat_startList (node, direction) edges linked.shape linked.openSlab unknown).and
      (keeps_startList node direction edges graph)).loose _
    intro page after started
    obtain ⟨⟨use', tail, moved, step⟩, only⟩ := started
    simp only [modifyAdj, sat_bind, sat_modify, sat_pure]
    exact ⟨if_pos rfl, use', finish page after use' tail moved step only⟩
  | some old =>
    rw [head] at headed
    obtain ⟨tail, listed⟩ := headed
    rw [sat_bind]
    have known : ∀ cached, graph.adj.tails node direction = some cached →
        tail = some cached := by
      intro cached remembered
      obtain ⟨page, _, found, listed'⟩ := linked.current_tail current remembered
      rw [head, some.injEq] at found
      subst found
      exact (listed.unique listed').2
    apply ((sat_appendToPage edges linked.shape linked.openSlab listed known).and
      (keeps_appendToPage node direction old edges graph)).loose _
    intro page after appended
    obtain ⟨⟨use', tail, moved, step⟩, only⟩ := appended
    simp only [modifyAdj, sat_bind, sat_modify, sat_pure]
    exact ⟨if_pos rfl, use', finish page after use' tail moved step only⟩

theorem Linked.cache (current : graph.Current heads node ptr) :
    Linked { graph with adj := graph.adj.insert node ptr } use heads nodes links := by
  constructor
  · exact linked.shape
  · exact linked.openSlab
  · exact linked.stored
  · intro other mem held cached side
    simp only [AdjState.insert] at cached
    by_cases same : other = node
    · subst same
      rw [if_pos rfl, some.injEq] at cached
      exact cached ▸ linked.current_leads mem current side
    · rw [if_neg same] at cached
      split at cached
      · cases cached
      · exact linked.cached other mem held cached side
  · intro other side state remembered
    have remembered : graph.adj.tails other side = some state := remembered
    obtain ⟨mem, page, ids, stored, inCache, listed⟩ := linked.tails other side state remembered
    refine ⟨mem, page, ids, stored, ?_, listed⟩
    intro held cached
    simp only [AdjState.insert] at cached
    by_cases same : other = node
    · subst same
      rw [if_pos rfl, some.injEq] at cached
      rw [← cached]
      rcases current with rfl | isCached
      · exact stored
      · exact inCache ptr isCached
    · rw [if_neg same] at cached
      split at cached
      · cases cached
      · exact inCache held cached

end

/-- The heads a node's live slot stores. -/
def storedHeads (store : Store) (node : Nat) : AdjacencyPointer :=
  match store.readSlot (.node node) with
  | .ok slot => if slot.flag = .live then slot.link.pointer else {}
  | .error _ => {}

theorem pointer_of_isAbsent (absent : ptr.isAbsent) : ptr = {} := by
  obtain ⟨out, inc⟩ := ptr
  simp only [AdjacencyPointer.isAbsent, Bool.and_eq_true, isNone_iff_eq_none] at absent
  rw [absent.1, absent.2]

/-- The answer of a resolution stands for the heads in use, which are cached afterwards. -/
structure Resolved (graph after : Graph) (use : Nat → AdjUse) (heads : Nat → AdjacencyPointer)
    (nodes : Finset Nat) (links : Links) (node : Nat) (answer : Option AdjacencyPointer)
    (ptr : AdjacencyPointer) : Prop where
  answered : answer = if ptr.isAbsent then none else some ptr
  current : graph.Current heads node ptr
  cached : after.adj.cache node = some ptr
  store : after.store = graph.store
  linked : after.Linked use heads nodes links

variable {node : Nat}

theorem Resolved.getD {after : Graph} {answer : Option AdjacencyPointer}
    (resolved : Resolved graph after use heads nodes links node answer ptr) :
    answer.getD {} = ptr := by
  rw [resolved.answered]
  split
  · next absent => exact (pointer_of_isAbsent absent).symm
  · rfl

theorem sat_resolveHeads (linked : graph.Linked use heads nodes links)
    (slot : storedHeads graph.store node = heads node) :
    Sat (resolveAdjPointer node) graph
      (fun answer after => ∃ ptr, Resolved graph after use heads nodes links node answer ptr)
      (fun _ _ => False) := by
  unfold resolveAdjPointer
  rw [sat_bind, sat_get]
  cases cached : graph.adj.cache node with
  | some ptr =>
    exact ⟨ptr, rfl, .inr cached, cached, rfl, linked⟩
  | none =>
    simp only [modifyAdj, sat_bind, sat_modify, sat_pure]
    refine ⟨heads node, ?_, .inl rfl, ?_, rfl, ?_⟩
    · rw [← slot]
      rfl
    · rw [← slot]
      exact if_pos rfl
    · have current : graph.Current heads node (storedHeads graph.store node) := .inl slot
      exact linked.cache current

/-- A list was replaced and the cache repointed; the slot keeps its old head. -/
theorem Linked.rewrite {store : Store} {page : Nat} {touched : List Nat}
    (linked : graph.Linked use heads nodes links) (mem : node ∈ nodes)
    (current : graph.Current heads node ptr)
    (put : ListPut graph.store.pages.adjacency store.pages.adjacency use use' (node, direction)
      page ids tail touched) (bound : store.info.nextId = graph.store.info.nextId)
    (here : Exact links (graph.store.info.nextId .edge) (node, direction) ids) :
    Linked { graph with
      store := store
      adj := (graph.adj.insert node (ptr.setHead direction page)).removeTails node } use' heads
      nodes links := by
  -- A head leads where it led, except that the new page leads to the new list.
  have kept : ∀ key head,
      Leads graph.store.pages.adjacency use links (graph.store.info.nextId .edge) key head →
      Leads store.pages.adjacency use' links (store.info.nextId .edge) key head := by
    intro key head leads
    rw [bound]
    by_cases isNew : key = (node, direction) ∧ head = some page
    · rw [isNew.1, isNew.2]
      exact ⟨ids, ⟨tail, put.here⟩, here⟩
    · apply leads.mono _ fun _ exact_ => exact_
      intro old oldIds oldTail isHead listed
      apply put.others key old oldIds oldTail _ listed
      by_contra same
      rw [not_or, not_not, not_not] at same
      exact isNew ⟨same.1, by rw [isHead, same.2]⟩
  constructor
  · exact put.shape
  · intro side opened isOpen
    exact put.shared opened (linked.openSlab side opened isOpen)
  · intro other inNodes side
    exact kept (other, side) _ (linked.stored other inNodes side)
  · intro other inNodes held cached side
    simp only [AdjState.removeTails, AdjState.insert] at cached
    by_cases same : other = node
    · subst same
      rw [if_pos rfl, some.injEq] at cached
      rw [← cached]
      by_cases sameSide : side = direction
      · subst sameSide
        rw [head_setHead_self]
        refine ⟨ids, ⟨tail, put.here⟩, ?_⟩
        rw [bound]
        exact here
      · rw [head_setHead_of_ne ptr page sameSide]
        exact kept (other, side) _ (linked.current_leads mem current side)
    · rw [if_neg same] at cached
      split at cached
      · cases cached
      · exact kept (other, side) _ (linked.cached other inNodes held cached side)
  · intro other side state remembered
    simp only [AdjState.removeTails, AdjState.insert] at remembered
    by_cases same : other = node
    · rw [if_pos same] at remembered
      cases remembered
    · rw [if_neg same] at remembered
      obtain ⟨inNodes, old, oldIds, stored, inCache, listed⟩ :=
        linked.tails other side state remembered
      have ne : (other, side) ≠ (node, direction) :=
        fun equal => same (congrArg Prod.fst equal)
      refine ⟨inNodes, old, oldIds, stored, ?_, put.others _ old oldIds _ (.inl ne) listed⟩
      intro held cached
      simp only [AdjState.removeTails, AdjState.insert] at cached
      rw [if_neg same] at cached
      split at cached
      · cases cached
      · exact inCache held cached

theorem Exact.filter {edge : Nat} (lists : Exact links bound key ids)
    (unwatched : links edge = none) : Exact links bound key (ids.filter fun id => id ≠ edge) := by
  constructor
  · exact lists.nodup.filter _
  · intro id mem
    exact lists.bounded id (List.mem_of_mem_filter mem)
  · intro other place watched
    have ne : other ≠ edge := by
      rintro rfl
      rw [unwatched] at watched
      cases watched
    rw [List.mem_filter, ← lists.listed other place watched]
    simp [ne]

theorem sat_rewriteList {page : Nat} (edges : List Nat)
    (shape : Shape graph.store.pages.adjacency use)
    (listed : ListAt graph.store.pages.adjacency use key page ids tail) :
    Sat (rewriteList key.1 key.2 page edges) graph
      (fun newPage after => after.adj = graph.adj ∧ ∃ use' tail touched,
        ListPut graph.store.pages.adjacency after.store.pages.adjacency use use' key newPage edges
          tail touched)
      (fun _ _ => True) := by
  unfold rewriteList
  rw [sat_bind, sat_get, sat_bind, listed.isSlab, sat_ofResult_ok]
  cases tail with
  | none =>
    simp only [isNone_none, ↓reduceIte, sat_bind, sat_onStore, sat_pure]
    apply (sat_rewriteSubblockEdges edges shape listed).loose _
    intro _ store put
    exact ⟨trivial, use, none, [page], put⟩
  | some state =>
    simp only [isNone_some, Bool.false_eq_true, ↓reduceIte, sat_onStore]
    apply (sat_writeAdjacency key.1 key.2 edges).sure _
    intro head store started
    obtain ⟨pages, grew, _⟩ := started
    have put : ListPut _ _ use _ key head edges _ pages :=
      grew.listPut shape (by simp) fun page mem => .inl mem
    exact ⟨trivial, _, _, pages, put⟩

/-- Unlinking an edge that is not watched any more. -/
theorem sat_removeEdgeFromAdjacency {edge : Nat} (linked : graph.Linked use heads nodes links)
    (mem : node ∈ nodes) (slot : storedHeads graph.store node = heads node)
    (written : edge ∉ graph.pendingEdges node direction) (unwatched : links edge = none) :
    Sat (removeEdgeFromAdjacency node direction edge) graph
      (fun _ after => ∃ use', after.Linked use' heads nodes links) (fun _ _ => True) := by
  unfold removeEdgeFromAdjacency
  rw [sat_bind, sat_get, if_neg written, sat_bind]
  apply (sat_resolveHeads linked slot).sure _
  intro answer resolved found
  obtain ⟨ptr, found⟩ := found
  cases answer with
  | none => exact ⟨use, found.linked⟩
  | some held =>
    obtain rfl : held = ptr := found.getD
    dsimp only
    cases head : held.head direction with
    | none => exact ⟨use, found.linked⟩
    | some page =>
      obtain ⟨ids, headed, lists⟩ := found.linked.cached node mem held found.cached direction
      rw [head] at headed
      obtain ⟨tail, listed⟩ := headed
      simp only [sat_bind, sat_get]
      rw [show resolved.store.readAdjEdgeIds page node direction = .ok ids from listed.read,
        sat_ofResult_ok]
      have only := keeps_rewriteList node direction page (ids.filter fun id => id ≠ edge) resolved
      apply ((sat_rewriteList (ids.filter fun id => id ≠ edge) found.linked.shape listed).and
        only).loose _
      intro newPage rewritten outcome
      obtain ⟨⟨adj, use', tail', touched, put⟩, only⟩ := outcome
      apply ((sat_onWalLogAdjPage newPage rewritten).and
        (linksOnly_onStore (keeps_walLogAdjPage newPage) rewritten)).loose _
      intro _ logged same
      obtain ⟨⟨pages, adj'⟩, onlyLogs⟩ := same
      have bound : logged.store.info.nextId = resolved.store.info.nextId := by
        rw [(trans_of LinksOnly only onlyLogs).store.rest]
      have rewrittenTo := found.linked.rewrite mem (.inr found.cached) (pages ▸ put) bound
        (lists.filter unwatched)
      refine ⟨use', rewrittenTo.congr rfl rfl ?_⟩
      dsimp only
      rw [adj', adj]

end Lists

end ErmyaGraph.Graph
