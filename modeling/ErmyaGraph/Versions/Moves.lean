import ErmyaGraph.Versions.View

/-! # Moves of the versioned records

Every operation of the graph comes down to a few moves on its view. Each move
states what it needs and keeps the view coherent. -/

namespace ErmyaGraph

open DeltaChain Mvcc

namespace Mvcc

/-- A commit of the transaction brings the entity into existence: the transaction inserted it
and left it live. -/
def inserts (mvcc : Mvcc) (txn : Nat) (key : EntityKey) : Bool :=
  ((mvcc.chain key).oldestOfTxn txn).any (fun delta => delta.op = .insert) &&
    ((mvcc.chain key).newestOfTxn txn).any fun delta =>
      (delta.new.bind EntitySnapshot.record?).isSome

end Mvcc

namespace Content

/-- The slot after the vacuum moved the newest version of a chain there. -/
def settle (held : Content) (kind : EntityKind) (newest : Option EntitySnapshot) : Content :=
  match newest with
  | some (.live record) => .live (held.relink kind record)
  | _ => held.erase

/-- A link changes the heads of a live node, or places a committed node whose slot was blank. -/
inductive Relinks (newest : Option Record) : Content → Content → Prop
  | same (held : Content) : Relinks newest held held
  | heads (record : Record) (ptr : AdjacencyPointer) :
      Relinks newest (.live record) (.live (record.withHeads ptr))
  | placed (record : Record) (ptr : AdjacencyPointer) (visible : newest = some record) :
      Relinks newest .blank (.live (record.withHeads ptr))

theorem Relinks.trans {newest : Option Record} {first second third : Content}
    (earlier : Relinks newest first second) (later : Relinks newest second third) :
    Relinks newest first third := by
  cases earlier with
  | same => exact later
  | heads record ptr =>
    cases later with
    | same => exact .heads record ptr
    | heads _ ptr' => exact .heads record ptr'
  | placed record ptr visible =>
    cases later with
    | same => exact .placed record ptr visible
    | heads _ ptr' => exact .placed record ptr' visible

end Content

namespace View

/-- Whether a drained entity still exists: a deletion is applied when the oldest delta replaced
a live version. -/
def remains (present : Bool) (newest oldest : Option EntitySnapshot) : Bool :=
  match newest, oldest with
  | some (.live _), _ => present
  | _, some (.live _) => false
  | _, _ => present

def newestNew (view : View) (key : EntityKey) : Option EntitySnapshot :=
  (view.chain key).head?.bind Delta.new

def oldestPrior (view : View) (key : EntityKey) : Option EntitySnapshot :=
  (view.chain key).getLast?.bind Delta.prior

/-- The version a new delta of a transaction records as replaced. -/
def chainBase (view : View) (txn : Nat) (key : EntityKey) : Option EntitySnapshot :=
  match (view.chain key).find? fun delta => delta.txn = txn && delta.commitTs.isNone with
  | some own => own.new
  | none => view.base key

/-- The contents differ from the view's by links at the given nodes. -/
def Linked (view : View) (targets : Nat → Prop) (contents : Contents) : Prop :=
  ∀ key, contents key = view.contents key ∨ (∃ id, targets id ∧ key = .node id) ∧
    (view.contents key).Relinks (view.newest key) (contents key)

theorem Linked.refl (view : View) (targets : Nat → Prop) : view.Linked targets view.contents :=
  fun _ => .inl rfl

theorem Linked.trans {view : View} {targets : Nat → Prop} {contents contents' : Contents}
    (earlier : view.Linked targets contents)
    (later : Linked { view with contents := contents } targets contents') :
    view.Linked targets contents' := by
  intro key
  rcases earlier key with same | ⟨target, relinks⟩
  · rcases later key with same' | ⟨target', relinks'⟩
    · exact .inl (same'.trans same)
    · refine .inr ⟨target', ?_⟩
      rw [← same]
      exact relinks'
  · rcases later key with same' | ⟨_, relinks'⟩
    · refine .inr ⟨target, ?_⟩
      rw [same']
      exact relinks
    · exact .inr ⟨target, relinks.trans relinks'⟩

theorem Linked.mono {view : View} {targets targets' : Nat → Prop} {contents : Contents}
    (linked : view.Linked targets contents) (wider : ∀ id, targets id → targets' id) :
    view.Linked targets' contents := by
  intro key
  rcases linked key with same | ⟨⟨id, target, isNode⟩, relinks⟩
  · exact .inl same
  · exact .inr ⟨⟨id, wider id target, isNode⟩, relinks⟩

end View

/-- The elementary changes of a view. -/
inductive Move where
  | tick
  | begin
  | skipId (kind : EntityKind)
  | note (txn : Nat) (f : TxnState → TxnState)
  | push (key : EntityKey) (delta : Delta)
  | forget (txn : Nat)
  | commit (txn : Nat)
  | link (targets : Nat → Prop) (contents : Contents)
  | vacuum (order : List EntityKey)
  | write (key : EntityKey) (record : Record)
  | pin (key : EntityKey)
  | erase (key : EntityKey)

namespace Move

def apply (view : View) : Move → View
  | tick => { view with mvcc := { view.mvcc with clock := view.mvcc.clock + 1 } }
  | begin => { view with mvcc := view.mvcc.begin }
  | skipId kind =>
    { view with nextId := Function.update view.nextId kind (view.nextId kind + 1) }
  | note txn f => { view with mvcc := view.mvcc.modifyTxn txn f }
  | push key delta => { view with mvcc := view.mvcc.pushDelta key delta }
  | forget txn => { view with mvcc := view.mvcc.forget txn }
  | commit txn =>
    { view with
      mvcc := view.mvcc.commit txn
      present := fun key => view.present key || view.mvcc.inserts txn key }
  | link _ contents => { view with contents := contents }
  | vacuum order =>
    { view with
      mvcc := view.mvcc.drain order
      contents := fun key =>
        if view.mvcc.drains order key then
          (view.contents key).settle key.kind (view.newestNew key)
        else view.contents key
      present := fun key =>
        if view.mvcc.drains order key then
          View.remains (view.present key) (view.newestNew key) (view.oldestPrior key)
        else view.present key }
  | write key record =>
    { view with
      contents := Function.update view.contents key (.live record)
      present := Function.update view.present key true }
  | pin key => { view with pinned := Function.update view.pinned key true }
  | erase key =>
    { view with
      contents := Function.update view.contents key (view.contents key).erase
      present := Function.update view.present key false }

/-- What a push needs: the entity is untouched, or the transaction sees it. -/
structure Pushes (view : View) (key : EntityKey) (delta : Delta) : Prop where
  active : ∃ state, view.mvcc.active delta.txn = some state ∧
    (delta.op = .insert ∧ view.Allotted key ∧ view.chain key = [] ∧
        view.contents key = .blank ∧ view.present key = false ∨
      delta.op ≠ .insert ∧ ∃ record, view.version key state.startTs (some delta.txn) = some record)
  pending : delta.commitTs = none
  fits : View.Fits key delta
  free : view.pinned key = false
  prior : delta.prior = if delta.op = .insert then none else view.chainBase delta.txn key
  removes : delta.op = .delete → delta.new = some .deleted

/-- The drained deletions of existing entities replaced a live version. -/
def Removes (view : View) (order : List EntityKey) : Prop :=
  ∀ key, view.mvcc.drains order key → view.present key →
    view.newestNew key = some .deleted → ∃ record, view.oldestPrior key = some (.live record)

/-- What a move needs. -/
def Valid (view : View) : Move → Prop
  | tick | begin | skipId _ => True
  | note _ f => ∀ state, (f state).startTs = state.startTs ∧ (f state).written = state.written
  | push key delta => Pushes view key delta
  | forget txn => ∃ state, view.mvcc.active txn = some state
  | commit txn => ∃ state, view.mvcc.active txn = some state
  | link targets contents => view.Linked targets contents
  | vacuum order => Removes view order
  | write key record => view.Allotted key ∧ view.chain key = [] ∧ record.Names key
  | pin key => view.Allotted key ∧ view.chain key = []
  | erase key => view.chain key = []

end Move

namespace View

variable {txn : Nat} {key : EntityKey}

/-- A sequence of moves, each of which has what it needs. -/
inductive Path : View → List Move → View → Prop
  | nil (view : View) : Path view [] view
  | cons {view after : View} {move : Move} {rest : List Move} (valid : move.Valid view)
      (later : Path (move.apply view) rest after) : Path view (move :: rest) after

theorem Path.append {first second third : View} {moves moves' : List Move}
    (earlier : Path first moves second) (later : Path second moves' third) :
    Path first (moves ++ moves') third := by
  induction earlier with
  | nil => exact later
  | cons valid _ ih => exact .cons valid (ih later)

theorem isActive_modifyTxn {mvcc : Mvcc} {other : Nat} {f : TxnState → TxnState} :
    (mvcc.modifyTxn txn f).isActive other = mvcc.isActive other := by
  by_cases same : other = txn
  · subst same
    simp [isActive, modifyTxn]
  · simp only [isActive, modifyTxn, Function.update_of_ne same]

theorem chain_push (view : View) (key : EntityKey) (delta : Delta) (other : EntityKey) :
    ((Move.push key delta).apply view).chain other =
      if other = key then delta :: view.chain key else view.chain other := by
  simp [Move.apply, chain, pushDelta, modifyTxn, setChain, Function.update_apply]

section Coherent

variable {view : View} (coherent : view.Coherent)

include coherent

theorem Coherent.tick : (Move.tick.apply view).Coherent where
  registry := coherent.registry.tick
  nextId := coherent.nextId
  fresh := coherent.fresh
  named := coherent.named
  fits := coherent.fits
  erased := coherent.erased
  backed := coherent.backed
  living := coherent.living
  unborn := coherent.unborn
  pinned := coherent.pinned

theorem Coherent.of_chains {mvcc : Mvcc} (sound : mvcc.Sound) (chains : mvcc.chain = view.mvcc.chain)
    (active : ∀ txn, view.mvcc.isActive txn → mvcc.isActive txn) :
    Coherent { view with mvcc := mvcc } := by
  have same (key : EntityKey) : View.chain { view with mvcc := mvcc } key = view.chain key := by
    simp only [chain, chains]
  refine ⟨sound, coherent.nextId, fun key fresh => ?_, coherent.named, fun key => ?_,
    fun key erased => ?_, fun key present => ?_, coherent.living, fun key absent => ?_,
    fun key pinned => ?_⟩
  · rw [same]
    exact coherent.fresh key fresh
  · rw [same]
    exact coherent.fits key
  · rw [same]
    exact coherent.erased key erased
  · rw [same]
    exact coherent.backed key present
  · rw [same]
    rcases coherent.unborn key absent with empty | ⟨txn, owned, oldest, state⟩
    · exact .inl empty
    · refine .inr ⟨txn, ?_, ?_, ?_⟩
      · rw [same]
        exact owned
      · rw [same]
        exact oldest
      · rw [same]
        exact state.imp (active txn) id
  · rw [same]
    exact coherent.pinned key pinned

theorem Coherent.begin : (Move.begin.apply view).Coherent := by
  refine coherent.of_chains coherent.registry.begin rfl fun txn active => ?_
  obtain ⟨state, running⟩ := Option.isSome_iff_exists.mp active
  have old : txn ≠ view.mvcc.nextTxnId := Nat.ne_of_lt (coherent.registry.known running)
  simpa only [Mvcc.isActive, Mvcc.begin, Function.update_of_ne old] using active

theorem Coherent.note {f : TxnState → TxnState} (valid : (Move.note txn f).Valid view) :
    ((Move.note txn f).apply view).Coherent := by
  refine coherent.of_chains ?_ rfl fun other active => ?_
  · refine coherent.registry.modifyTxn (fun state => (valid state).1) fun state key recorded => ?_
    rw [(valid state).2]
    exact recorded
  · rw [isActive_modifyTxn]
    exact active

theorem Coherent.skipId (kind : EntityKind) : ((Move.skipId kind).apply view).Coherent where
  registry := coherent.registry
  nextId other := by
    by_cases same : other = kind
    · subst same
      simp [Move.apply]
    · simpa only [Move.apply, Function.update_of_ne same] using coherent.nextId other
  fresh key fresh := by
    refine coherent.fresh key fun allotted => fresh ⟨allotted.1, allotted.2.trans_le ?_⟩
    by_cases same : key.kind = kind
    · subst same
      simp [Move.apply]
    · simp only [Move.apply, Function.update_of_ne same, Nat.le_refl]
  named := coherent.named
  fits := coherent.fits
  erased := coherent.erased
  backed := coherent.backed
  living := coherent.living
  unborn := coherent.unborn
  pinned := coherent.pinned

theorem Coherent.push {delta : Delta} (valid : (Move.push key delta).Valid view) :
    ((Move.push key delta).apply view).Coherent := by
  obtain ⟨⟨state, active, untouched⟩, pending, fits, free, _, _⟩ := valid
  have chains := view.chain_push key delta
  have others {other : EntityKey} (ne : other ≠ key) :
      ((Move.push key delta).apply view).chain other = view.chain other := by
    rw [chains, if_neg ne]
  have own : ((Move.push key delta).apply view).chain key = delta :: view.chain key := by
    rw [chains, if_pos rfl]
  have stillActive (txn : Nat) : ((Move.push key delta).apply view).mvcc.isActive txn =
      view.mvcc.isActive txn := isActive_modifyTxn
  have allotted : view.Allotted key := by
    rcases untouched with ⟨_, allotted, _⟩ | ⟨_, record, visible⟩
    · exact allotted
    · exact coherent.allotted_of_version visible
  refine ⟨coherent.registry.push active pending, coherent.nextId, fun other fresh => ?_,
    coherent.named, fun other => ?_, fun other erased => ?_, fun other present => ?_,
    coherent.living, fun other absent => ?_, fun other pinned => ?_⟩
  · have ne : other ≠ key := fun same => fresh (same ▸ allotted)
    rw [others ne]
    exact coherent.fresh other fresh
  · rw [chains]
    split
    · next same =>
        subst same
        intro d mem
        rcases List.mem_cons.mp mem with rfl | old
        · exact fits
        · exact coherent.fits other d old
    · exact coherent.fits other
  · by_cases same : other = key
    · subst same
      have remains : view.contents other = .erased := erased
      obtain ⟨empty, absent⟩ := coherent.erased other remains
      rcases untouched with ⟨_, _, _, blank, _⟩ | ⟨_, record, visible⟩
      · rw [remains] at blank
        cases blank
      · simp [version, base, absent, empty, applyForRead] at visible
    · rw [others same]
      exact coherent.erased other erased
  · rcases coherent.backed other present with live | ⟨d, mem, stamped⟩
    · exact .inl live
    · refine .inr ⟨d, ?_, stamped⟩
      rw [chains]
      split
      · next same => exact .tail _ (same ▸ mem)
      · exact mem
  · by_cases same : other = key
    · subst same
      refine .inr ?_
      have running : view.mvcc.isActive delta.txn := by simp [isActive, active]
      rcases untouched with ⟨insert, _, empty, _⟩ | ⟨_, record, visible⟩
      · refine ⟨delta.txn, ?_, ⟨delta, ?_, insert⟩, .inl ?_⟩
        · rw [own, empty]
          simp
        · rw [own, empty]
          rfl
        · rw [stillActive]
          exact running
      · -- Nobody but the one writer sees an entity that does not exist.
        rcases coherent.unborn other absent with empty | ⟨txn, owned, ⟨oldest, last, insert⟩, _⟩
        · have noBase : view.base other = none := by
            have absent' : view.present other = false := absent
            simp [base, absent']
          simp [version, noBase, empty, applyForRead] at visible
        · have mine : txn = delta.txn := by
            by_contra ne
            have present := coherent.present_of_stamped visible fun reader same d mem => by
              cases same
              rw [owned d mem]
              exact ne
            have absent' : view.present other = false := absent
            rw [absent'] at present
            cases present
          subst mine
          refine ⟨delta.txn, ?_, ⟨oldest, ?_, insert⟩, .inl ?_⟩
          · rw [own]
            intro d mem
            rcases List.mem_cons.mp mem with rfl | old
            · rfl
            · exact owned d old
          · rw [own, List.getLast?_cons, last]
            rfl
          · rw [stillActive]
            exact running
    · rcases coherent.unborn other absent with empty | ⟨txn, owned, oldest, state⟩
      · refine .inl ?_
        rw [others same]
        exact empty
      · refine .inr ⟨txn, ?_, ?_, ?_⟩
        · rw [others same]
          exact owned
        · rw [others same]
          exact oldest
        · rw [others same, stillActive]
          exact state
  · by_cases same : other = key
    · subst same
      have pinned' : view.pinned other = true := pinned
      rw [free] at pinned'
      cases pinned'
    · rw [others same]
      exact coherent.pinned other pinned

variable {state : TxnState}

theorem Coherent.chain_forget (active : view.mvcc.active txn = some state) (key : EntityKey) :
    ((Move.forget txn).apply view).chain key = (view.chain key).removeTxn txn :=
  coherent.registry.forget_chain active key

theorem Coherent.forget (valid : (Move.forget txn).Valid view) :
    ((Move.forget txn).apply view).Coherent := by
  obtain ⟨state, active⟩ := valid
  have chains := coherent.chain_forget active
  have stillActive {other : Nat} (ne : other ≠ txn) :
      ((Move.forget txn).apply view).mvcc.isActive other = view.mvcc.isActive other := by
    simp only [Move.apply, isActive, forget_active, Function.update_of_ne ne]
  have empties {key : EntityKey} (empty : view.chain key = []) :
      ((Move.forget txn).apply view).chain key = [] := by
    rw [chains, empty]
    rfl
  refine ⟨coherent.registry.forget active, coherent.nextId, fun key fresh => ?_, coherent.named,
    fun key delta mem => ?_, fun key erased => ?_, fun key present => ?_, coherent.living,
    fun key absent => ?_, fun key pinned => empties (coherent.pinned key pinned)⟩
  · obtain ⟨blank, absent, empty, free⟩ := coherent.fresh key fresh
    exact ⟨blank, absent, empties empty, free⟩
  · rw [chains] at mem
    exact coherent.fits key delta (List.mem_filter.mp mem).1
  · obtain ⟨empty, absent⟩ := coherent.erased key erased
    exact ⟨empties empty, absent⟩
  · rcases coherent.backed key present with live | ⟨delta, mem, stamped⟩
    · exact .inl live
    · refine .inr ⟨delta, ?_, stamped⟩
      rw [chains, removeTxn, List.mem_filter]
      refine ⟨mem, ?_⟩
      simp only [ne_eq, decide_not, Bool.not_eq_true', decide_eq_false_iff_not]
      rintro rfl
      exact stamped (coherent.registry.pending_of_active mem active)
  · rcases coherent.unborn key absent with empty | ⟨writer, owned, oldest, alive⟩
    · exact .inl (empties empty)
    · by_cases same : writer = txn
      · refine .inl ?_
        rw [chains, removeTxn, List.filter_eq_nil_iff]
        intro delta mem
        simp [owned delta mem, same]
      · have kept : ((Move.forget txn).apply view).chain key = view.chain key := by
          rw [chains]
          refine removeTxn_of_absent fun delta mem => ?_
          rw [owned delta mem]
          exact same
        refine .inr ⟨writer, ?_, ?_, ?_⟩
        · rw [kept]
          exact owned
        · rw [kept]
          exact oldest
        · rw [kept, stillActive same]
          exact alive

theorem Coherent.chain_commit (active : view.mvcc.active txn = some state) (key : EntityKey) :
    ((Move.commit txn).apply view).chain key =
      (view.chain key).map (stampOne txn view.mvcc.clock) :=
  coherent.registry.commit_chain active key

theorem Coherent.commit (valid : (Move.commit txn).Valid view) :
    ((Move.commit txn).apply view).Coherent := by
  obtain ⟨state, active⟩ := valid
  have chains := coherent.chain_commit active
  have stillActive {other : Nat} (ne : other ≠ txn) :
      ((Move.commit txn).apply view).mvcc.isActive other = view.mvcc.isActive other := by
    simp only [Move.apply, isActive, commit_active, Function.update_of_ne ne]
  have empties {key : EntityKey} (empty : view.chain key = []) :
      ((Move.commit txn).apply view).chain key = [] := by
    rw [chains, empty]
    rfl
  have noInsert {key : EntityKey} (empty : view.chain key = []) :
      view.mvcc.inserts txn key = false := by
    have empty' : view.mvcc.chain key = [] := empty
    simp [inserts, empty', oldestOfTxn]
  refine ⟨coherent.registry.commit active, coherent.nextId, fun key fresh => ?_, coherent.named,
    fun key delta mem => ?_, fun key erased => ?_, fun key present => ?_,
    fun key record live => ?_, fun key absent => ?_,
    fun key pinned => empties (coherent.pinned key pinned)⟩
  · obtain ⟨blank, absent, empty, free⟩ := coherent.fresh key fresh
    refine ⟨blank, ?_, empties empty, free⟩
    simp [Move.apply, absent, noInsert empty]
  · rw [chains] at mem
    obtain ⟨before, was, rfl⟩ := List.mem_map.mp mem
    have fits := coherent.fits key before was
    refine ⟨?_, ?_, ?_⟩
    · rw [stampOne_new]
      exact fits.new
    · rw [stampOne_new]
      exact fits.named
    · rw [stampOne_prior]
      exact fits.prior
  · obtain ⟨empty, absent⟩ := coherent.erased key erased
    refine ⟨empties empty, ?_⟩
    simp [Move.apply, absent, noInsert empty]
  · -- What exists now existed before or has just been stamped.
    have stampedStays {delta : Delta} (mem : delta ∈ view.chain key)
        (stamped : delta.commitTs ≠ none) :
        ∃ d ∈ ((Move.commit txn).apply view).chain key, d.commitTs ≠ none := by
      refine ⟨delta, ?_, stamped⟩
      rw [chains, List.mem_map]
      exact ⟨delta, mem, if_neg fun both => stamped both.2⟩
    have present' : view.present key || view.mvcc.inserts txn key := present
    rcases (Bool.or_eq_true ..).mp present' with before | inserted
    · refine (coherent.backed key before).imp id fun stampedBefore => ?_
      obtain ⟨delta, mem, stamped⟩ := stampedBefore
      exact stampedStays mem stamped
    · refine .inr ?_
      simp only [inserts, Bool.and_eq_true] at inserted
      obtain ⟨newest, found, _⟩ := (Option.any_eq_true _ _).mp inserted.2
      obtain ⟨mem, rfl⟩ := mem_of_newestOfTxn found
      refine ⟨stampOne newest.txn view.mvcc.clock newest, ?_, ?_⟩
      · rw [chains]
        exact List.mem_map_of_mem mem
      · rw [stampOne_pending (coherent.registry.pending_of_active mem active)]
        exact Option.some_ne_none _
  · have before : view.present key := coherent.living key record live
    simp [Move.apply, before]
  · have both : view.present key = false ∧ view.mvcc.inserts txn key = false := by
      simpa [Move.apply] using absent
    rcases coherent.unborn key both.1 with empty | ⟨writer, owned, ⟨oldest, last, insert⟩, alive⟩
    · exact .inl (empties empty)
    · refine .inr ⟨writer, ?_, ⟨stampOne txn view.mvcc.clock oldest, ?_, ?_⟩, ?_⟩
      · rw [chains]
        intro delta mem
        obtain ⟨before, was, rfl⟩ := List.mem_map.mp mem
        rw [stampOne_txn]
        exact owned before was
      · rw [chains, List.getLast?_map, last]
        rfl
      · rw [stampOne_op]
        exact insert
      · have heads : ((Move.commit txn).apply view).newestNew key = view.newestNew key := by
          simp only [newestNew, chains, List.head?_map]
          cases (view.chain key).head? with
          | none => rfl
          | some delta => exact stampOne_new ..
        by_cases same : writer = txn
        · -- The writer commits without inserting: what it left is a deletion.
          subst same
          refine .inr (heads.trans ?_)
          obtain ⟨newest, oldest'⟩ := ends_of_owned owned
          have notLive := both.2
          simp only [View.chain] at newest oldest' last
          simp only [inserts, oldest', newest, last] at notLive
          simp only [Option.any_some, insert, decide_true, Bool.true_and] at notLive
          cases head : (view.chain key).head? with
          | none =>
            rw [List.head?_eq_none_iff, View.chain] at head
            rw [head] at last
            cases last
          | some delta =>
            obtain ⟨snapshot, new⟩ := (coherent.fits key delta (List.mem_of_mem_head? head)).new
            simp only [newestNew, head, Option.bind_some, new]
            cases snapshot with
            | deleted => rfl
            | live record =>
              rw [View.chain] at head
              rw [head] at notLive
              simp [new, EntitySnapshot.record?] at notLive
        · rw [stillActive same]
          exact alive.imp id fun deleted => heads.trans deleted

theorem Coherent.link {targets : Nat → Prop} {contents : Contents}
    (linked : (Move.link targets contents).Valid view) :
    ((Move.link targets contents).apply view).Coherent := by
  have valid (key : EntityKey) : contents key = view.contents key ∨
      key.kind = .node ∧ (view.contents key).Relinks (view.newest key) (contents key) := by
    rcases linked key with same | ⟨⟨id, _, isNode⟩, relinks⟩
    · exact .inl same
    · exact .inr ⟨by rw [isNode], relinks⟩
  refine ⟨coherent.registry, coherent.nextId, fun key fresh => ?_, fun key record live => ?_,
    coherent.fits, fun key erased => ?_, fun key present => ?_, fun key record live => ?_,
    coherent.unborn, coherent.pinned⟩
  · obtain ⟨blank, absent, empty, free⟩ := coherent.fresh key fresh
    refine ⟨?_, absent, empty, free⟩
    rcases valid key with same | ⟨_, relinks⟩
    · exact same.trans blank
    · change contents key = .blank
      generalize held' : contents key = after at relinks ⊢
      rw [blank] at relinks
      cases relinks with
      | same => rfl
      | placed record ptr visible =>
        rw [coherent.present_of_newest visible] at absent
        cases absent
  · have live' : contents key = .live record := live
    rcases valid key with same | ⟨isNode, relinks⟩
    · exact coherent.named key record (same ▸ live')
    · rw [live'] at relinks
      generalize held : view.contents key = before at relinks
      cases relinks with
      | same => exact coherent.named key record held
      | heads old ptr => exact (coherent.named key old held).withHeads isNode ptr
      | placed old ptr visible =>
        have shown : ∃ start reader, view.version key start reader = some old := by
          refine ⟨view.mvcc.clock, none, ?_⟩
          have noBase : view.base key = none := by simp [base, held]
          rw [version, noBase]
          exact visible
        obtain ⟨start, reader, shown⟩ := shown
        exact (coherent.names_of_version shown).withHeads isNode ptr
  · have erased' : contents key = .erased := erased
    rcases valid key with same | ⟨_, relinks⟩
    · exact coherent.erased key (same ▸ erased')
    · rw [erased'] at relinks
      generalize held : view.contents key = before at relinks
      cases relinks with
      | same => exact coherent.erased key held
  · rcases coherent.backed key present with ⟨record, live⟩ | stamped
    · refine .inl ?_
      rcases valid key with same | ⟨_, relinks⟩
      · exact ⟨record, same.trans live⟩
      · rw [live] at relinks
        change ∃ record, contents key = .live record
        generalize contents key = after at relinks ⊢
        cases relinks with
        | same => exact ⟨record, rfl⟩
        | heads _ ptr => exact ⟨_, rfl⟩
    · exact .inr stamped
  · have live' : contents key = .live record := live
    rcases valid key with same | ⟨_, relinks⟩
    · exact coherent.living key record (same ▸ live')
    · rw [live'] at relinks
      generalize held : view.contents key = before at relinks
      cases relinks with
      | same => exact coherent.living key record held
      | heads old ptr => exact coherent.living key old held
      | placed old ptr visible => exact coherent.present_of_newest visible

variable {order : List EntityKey}

theorem Coherent.drained_cases (drained : view.mvcc.drains order key) :
    view.newestNew key = some .deleted ∨
      view.present key ∧ ∃ record, view.newestNew key = some (.live record) ∧ record.Names key := by
  obtain ⟨newest, older, chain, each⟩ := coherent.registry.drained drained
  have mem : newest ∈ view.chain key := by simp [View.chain, chain]
  have head : view.newestNew key = newest.new := by simp [newestNew, View.chain, chain]
  have fits := coherent.fits key newest mem
  obtain ⟨snapshot, new⟩ := fits.new
  cases snapshot with
  | deleted => exact .inl (head.trans new)
  | live record =>
    refine .inr ⟨?_, record, head.trans new, fits.named record new⟩
    by_contra absent
    simp only [Bool.not_eq_true] at absent
    rcases coherent.unborn key absent with empty | ⟨writer, owned, _, alive⟩
    · rw [empty] at mem
      cases mem
    · rcases alive with active | deleted
      · rw [← owned newest mem] at active
        simp [isActive, (each newest mem).2] at active
      · rw [show (view.chain key).head?.bind Delta.new = newest.new from head, new] at deleted
        cases deleted

theorem Coherent.vacuum (valid : (Move.vacuum order).Valid view) :
    ((Move.vacuum order).apply view).Coherent := by
  have kept {key : EntityKey} (untouched : view.mvcc.drains order key = false) :
      ((Move.vacuum order).apply view).chain key = view.chain key ∧
      ((Move.vacuum order).apply view).contents key = view.contents key ∧
      ((Move.vacuum order).apply view).present key = view.present key := by
    simp [Move.apply, View.chain, drain, untouched]
  have empty {key : EntityKey} (drained : view.mvcc.drains order key) :
      ((Move.vacuum order).apply view).chain key = [] := by
    simp [Move.apply, View.chain, drain, drained]
  -- After the drain the slot is live and the entity exists, or neither.
  have ends {key : EntityKey} (drained : view.mvcc.drains order key) :
      (∃ record, ((Move.vacuum order).apply view).contents key = .live record ∧
        record.Names key ∧ ((Move.vacuum order).apply view).present key = true) ∨
      (∀ record, ((Move.vacuum order).apply view).contents key ≠ .live record) ∧
        ((Move.vacuum order).apply view).present key = false := by
    rcases coherent.drained_cases drained with deleted | ⟨present, record, live, names⟩
    · refine .inr ⟨fun record => ?_, ?_⟩
      · simp only [Move.apply, drained, ↓reduceIte, deleted, Content.settle]
        cases view.contents key <;> exact fun equal => nomatch equal
      · by_cases present : view.present key
        · obtain ⟨record, prior⟩ := valid key drained present deleted
          simp [Move.apply, drained, remains, deleted, prior]
        · simp only [Bool.not_eq_true] at present
          simp only [Move.apply, drained, ↓reduceIte, remains, deleted, present]
          cases view.oldestPrior key with
          | none => rfl
          | some snapshot => cases snapshot <;> rfl
    · refine .inl ⟨(view.contents key).relink key.kind record, ?_, names.relink _, ?_⟩
      · simp [Move.apply, drained, live, Content.settle]
      · simp [Move.apply, drained, live, remains, present]
  have split (key : EntityKey) : view.mvcc.drains order key ∨ view.mvcc.drains order key = false := by
    cases view.mvcc.drains order key with
    | true => exact .inl rfl
    | false => exact .inr rfl
  refine ⟨coherent.registry.drain order, coherent.nextId, fun key fresh => ?_,
    fun key record live => ?_, fun key delta mem => ?_, fun key erased => ?_,
    fun key present => ?_, fun key record live => ?_, fun key absent => ?_, fun key pinned => ?_⟩
  · obtain ⟨blank, absent, noChain, free⟩ := coherent.fresh key fresh
    rcases split key with drained | untouched
    · obtain ⟨newest, older, chain, _⟩ := coherent.registry.drained drained
      rw [View.chain, chain] at noChain
      cases noChain
    · obtain ⟨sameChain, sameContents, samePresent⟩ := kept untouched
      exact ⟨sameContents.trans blank, samePresent.trans absent, sameChain.trans noChain, free⟩
  · rcases split key with drained | untouched
    · rcases ends drained with ⟨found, here, names, _⟩ | ⟨dead, _⟩
      · rw [here] at live
        cases live
        exact names
      · exact absurd live (dead record)
    · exact coherent.named key record ((kept untouched).2.1 ▸ live)
  · rcases split key with drained | untouched
    · rw [empty drained] at mem
      cases mem
    · exact coherent.fits key delta ((kept untouched).1 ▸ mem)
  · rcases split key with drained | untouched
    · rcases ends drained with ⟨found, here, _, _⟩ | ⟨_, absent⟩
      · rw [here] at erased
        cases erased
      · exact ⟨empty drained, absent⟩
    · obtain ⟨sameChain, sameContents, samePresent⟩ := kept untouched
      rw [sameChain, samePresent]
      exact coherent.erased key (sameContents ▸ erased)
  · rcases split key with drained | untouched
    · rcases ends drained with ⟨found, here, _, _⟩ | ⟨_, absent⟩
      · exact .inl ⟨found, here⟩
      · rw [absent] at present
        cases present
    · obtain ⟨sameChain, sameContents, samePresent⟩ := kept untouched
      rw [sameChain, sameContents]
      exact coherent.backed key (samePresent ▸ present)
  · rcases split key with drained | untouched
    · rcases ends drained with ⟨_, _, _, present⟩ | ⟨dead, _⟩
      · exact present
      · exact absurd live (dead record)
    · obtain ⟨_, sameContents, samePresent⟩ := kept untouched
      rw [samePresent]
      exact coherent.living key record (sameContents ▸ live)
  · rcases split key with drained | untouched
    · exact .inl (empty drained)
    · obtain ⟨sameChain, _, samePresent⟩ := kept untouched
      rcases coherent.unborn key (samePresent ▸ absent) with noChain | ⟨writer, owned, oldest, alive⟩
      · exact .inl (sameChain.trans noChain)
      · refine .inr ⟨writer, ?_, ?_, ?_⟩
        · rw [sameChain]
          exact owned
        · rw [sameChain]
          exact oldest
        · rw [sameChain]
          exact alive
  · rcases split key with drained | untouched
    · exact empty drained
    · exact (kept untouched).1.trans (coherent.pinned key pinned)

variable {record : Record}

/-- A record may be written to its slot whatever its chain holds. -/
theorem Coherent.put (allotted : view.Allotted key) (names : record.Names key) :
    ((Move.write key record).apply view).Coherent := by
  have contents (other : EntityKey) : ((Move.write key record).apply view).contents other =
      if other = key then .live record else view.contents other := Function.update_apply ..
  have present (other : EntityKey) : ((Move.write key record).apply view).present other =
      if other = key then true else view.present other := Function.update_apply ..
  refine ⟨coherent.registry, coherent.nextId, fun other fresh => ?_, fun other found live => ?_,
    coherent.fits, fun other erased => ?_, fun other isPresent => ?_, fun other found live => ?_,
    fun other absent => ?_, coherent.pinned⟩
  · have ne : other ≠ key := fun same => fresh (same ▸ allotted)
    rw [contents, present, if_neg ne, if_neg ne]
    exact coherent.fresh other fresh
  · rw [contents] at live
    split at live
    · next same =>
        cases live
        exact same ▸ names
    · exact coherent.named other found live
  · rw [contents] at erased
    split at erased
    · cases erased
    · next ne =>
        rw [present, if_neg ne]
        exact coherent.erased other erased
  · rw [contents]
    by_cases same : other = key
    · rw [if_pos same]
      exact .inl ⟨record, rfl⟩
    · rw [present, if_neg same] at isPresent
      rw [if_neg same]
      exact coherent.backed other isPresent
  · rw [present]
    by_cases same : other = key
    · rw [if_pos same]
    · rw [contents, if_neg same] at live
      rw [if_neg same]
      exact coherent.living other found live
  · rw [present] at absent
    split at absent
    · cases absent
    · exact coherent.unborn other absent

theorem Coherent.write (valid : (Move.write key record).Valid view) :
    ((Move.write key record).apply view).Coherent :=
  coherent.put valid.1 valid.2.2

theorem Coherent.pin (valid : (Move.pin key).Valid view) :
    ((Move.pin key).apply view).Coherent := by
  obtain ⟨allotted, settled⟩ := valid
  have pinned (other : EntityKey) : ((Move.pin key).apply view).pinned other =
      if other = key then true else view.pinned other := Function.update_apply ..
  refine ⟨coherent.registry, coherent.nextId, fun other fresh => ?_, coherent.named, coherent.fits,
    coherent.erased, coherent.backed, coherent.living, coherent.unborn, fun other isPinned => ?_⟩
  · have ne : other ≠ key := fun same => fresh (same ▸ allotted)
    rw [pinned, if_neg ne]
    exact coherent.fresh other fresh
  · rw [pinned] at isPinned
    split at isPinned
    · next same => exact same ▸ settled
    · exact coherent.pinned other isPinned

theorem Coherent.erase (valid : (Move.erase key).Valid view) :
    ((Move.erase key).apply view).Coherent := by
  have settled : view.chain key = [] := valid
  have contents (other : EntityKey) : ((Move.erase key).apply view).contents other =
      if other = key then (view.contents key).erase else view.contents other :=
    Function.update_apply ..
  have present (other : EntityKey) : ((Move.erase key).apply view).present other =
      if other = key then false else view.present other := Function.update_apply ..
  have dead (record : Record) : (view.contents key).erase ≠ .live record := by
    cases view.contents key <;> exact fun equal => nomatch equal
  refine ⟨coherent.registry, coherent.nextId, fun other fresh => ?_, fun other found live => ?_,
    coherent.fits, fun other erased => ?_, fun other isPresent => ?_, fun other found live => ?_,
    fun other absent => ?_, coherent.pinned⟩
  · obtain ⟨blank, absent, noChain, free⟩ := coherent.fresh other fresh
    refine ⟨?_, ?_, noChain, free⟩
    · rw [contents]
      split
      · next same =>
          subst same
          rw [blank]
          rfl
      · exact blank
    · rw [present]
      split
      · rfl
      · exact absent
  · rw [contents] at live
    split at live
    · exact absurd live (dead found)
    · exact coherent.named other found live
  · rw [contents] at erased
    rw [present]
    by_cases same : other = key
    · rw [if_pos same]
      exact ⟨same ▸ settled, rfl⟩
    · rw [if_neg same] at erased
      rw [if_neg same]
      exact coherent.erased other erased
  · rw [present] at isPresent
    split at isPresent
    · cases isPresent
    · next ne =>
        rw [contents, if_neg ne]
        exact coherent.backed other isPresent
  · rw [contents] at live
    split at live
    · exact absurd live (dead found)
    · next ne =>
        rw [present, if_neg ne]
        exact coherent.living other found live
  · by_cases same : other = key
    · exact .inl (same ▸ settled)
    · rw [present, if_neg same] at absent
      exact coherent.unborn other absent

theorem Coherent.apply {move : Move} (valid : move.Valid view) : (move.apply view).Coherent := by
  cases move with
  | tick => exact coherent.tick
  | begin => exact coherent.begin
  | skipId kind => exact coherent.skipId kind
  | note txn f => exact coherent.note valid
  | push key delta => exact coherent.push valid
  | forget txn => exact coherent.forget valid
  | commit txn => exact coherent.commit valid
  | link targets contents => exact coherent.link valid
  | vacuum order => exact coherent.vacuum valid
  | write key record => exact coherent.write valid
  | pin key => exact coherent.pin valid
  | erase key => exact coherent.erase valid

end Coherent

end View

end ErmyaGraph
