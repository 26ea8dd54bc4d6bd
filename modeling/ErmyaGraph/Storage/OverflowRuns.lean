import ErmyaGraph.Storage.Allocator
import ErmyaGraph.Storage.Blobs

/-! # Chains over recycled pages

Blobs are written as chains and released again, in any order, over one store.
The pages of a chain are in use until it is released, so no other chain and no
directory is written over them, and they are free afterwards. -/

namespace ErmyaGraph.Store

variable {file : PageFile OverflowPage}

open Outcome Runs List

/-- Continuation pages that carry the given bytes, each as many as fit. -/
inductive FullPages (file : PageFile OverflowPage) :
    Option PageId → List PageId → List UInt8 → Prop
  | nil : FullPages file none [] []
  | cons {page : PageId} {next : Option PageId} {rest : List PageId} {data : List UInt8}
      (bounded : page < file.count)
      (content : file.page page = .cont (data.take contPageDataCap) next) (nonempty : data ≠ [])
      (more : FullPages file next rest (data.drop contPageDataCap)) :
      FullPages file (some page) (page :: rest) data

/-- A blob written as a chain: the first page has its length and as many bytes as fit. -/
inductive ChainAt (file : PageFile OverflowPage) (first : PageId) :
    List PageId → List UInt8 → Prop
  | mk {next : Option PageId} {rest : List PageId} {data : List UInt8}
      (bounded : first < file.count)
      (content : file.page first = .first data.length (data.take firstPageDataCap) next)
      (more : FullPages file next rest (data.drop firstPageDataCap)) :
      ChainAt file first (first :: rest) data

variable {next : Option PageId} {data : List UInt8}

theorem FullPages.contChain {pages : List PageId} (chain : FullPages file next pages data) :
    ContChain file next pages data := by
  induction chain with
  | nil => exact .nil
  | @cons page next rest data bounded content nonempty more ih =>
    have chunk : data.take contPageDataCap ≠ [] := by
      rw [← length_pos_iff, length_take]
      exact Nat.lt_min.mpr ⟨by decide, length_pos_iff.mpr nonempty⟩
    have whole := ContChain.cons bounded content chunk ih
    rwa [take_append_drop] at whole

theorem FullPages.congr {file' : PageFile OverflowPage} {pages : List PageId}
    (chain : FullPages file next pages data) (grown : file.count ≤ file'.count)
    (same : ∀ page ∈ pages, file'.page page = file.page page) :
    FullPages file' next pages data := by
  induction chain with
  | nil => exact .nil
  | cons bounded content nonempty more ih =>
    have here := (same _ mem_cons_self).trans content
    refine .cons (Nat.lt_of_lt_of_le bounded grown) here nonempty ?_
    exact ih fun page member => same page (.tail _ member)

section Chains

variable {store : Store} {first : PageId} {pages : List PageId}

theorem ChainAt.bounded (chain : ChainAt file first pages data) :
    ∀ page ∈ pages, page < file.count := by
  cases chain with
  | mk bounded content more =>
    intro page member
    rcases mem_cons.mp member with rfl | later
    · exact bounded
    · exact more.contChain.bounded page later

theorem ChainAt.congr {file' : PageFile OverflowPage} (chain : ChainAt file first pages data)
    (grown : file.count ≤ file'.count) (same : ∀ page ∈ pages, file'.page page = file.page page) :
    ChainAt file' first pages data := by
  cases chain with
  | mk bounded content more =>
    refine .mk (Nat.lt_of_lt_of_le bounded grown) ((same _ mem_cons_self).trans content) ?_
    exact more.congr grown fun page member => same page (mem_cons_of_mem _ member)

theorem ChainAt.read (chain : ChainAt store.pages.overflow first pages data) :
    store.readOverflow first = .ok data := by
  cases chain with
  | @mk next rest data bounded content more =>
    have length : data.length =
        (data.take firstPageDataCap ++ data.drop firstPageDataCap).length := by
      rw [take_append_drop]
    have read := more.contChain.read data.length (data.length + 1) (data.take firstPageDataCap)
      length (by rw [length_drop]; omega)
    rw [take_append_drop] at read
    simpa [readOverflow, readOverflowPage_of_lt bounded, content, bind, Except.bind] using read

theorem ChainAt.chainPages (chain : ChainAt store.pages.overflow first pages data)
    (distinct : pages.Nodup) : store.chainPages (store.pages.overflow.count + 1) first = pages := by
  have short := length_le_of_nodup_lt distinct chain.bounded
  cases chain with
  | @mk next rest data bounded content more =>
    have walked := more.contChain.chainPages store.pages.overflow.count (Nat.le_of_succ_le short)
    simp only [Store.chainPages, readOverflowPage_of_lt bounded, content, chainNext]
    cases next with
    | none => simpa using walked
    | some following => simpa using walked

end Chains

section Writing

variable {store : Store} {live dirs entries : List PageId} {page : PageId}

theorem Partition.wrote {after : Store} {content : OverflowPage}
    (partition : Partition store live dirs entries) (wrote : Wrote store after page content)
    (member : page ∈ live) : Partition after live dirs entries := by
  obtain ⟨chain, pages, counted⟩ := partition.write member content
  exact ⟨by rw [wrote.file, wrote.info]; exact chain, by rw [wrote.file, wrote.info]; exact pages,
    by rw [wrote.info]; exact counted⟩

/-- The pages taken for a chain, next to those that were in use. -/
structure ChainTaken (store after : Store) (live taken : List PageId) : Prop where
  partition : ∃ dirs entries, Partition after (taken ++ live) dirs entries
  grown : store.pages.overflow.count ≤ after.pages.overflow.count

theorem AllocatedTo.grown {after : Store} (allocated : AllocatedTo store after live page) :
    store.pages.overflow.count ≤ after.pages.overflow.count := by
  rcases allocated.grows with same | ⟨more, _⟩
  · exact Nat.le_of_eq same.symm
  · exact more ▸ Nat.le_succ _

/-- A page in use was written; the other pages in use are as before. -/
structure PagePut (store after : Store) (live : List PageId) (page : PageId)
    (content : OverflowPage) : Prop where
  partition : ∃ dirs entries, Partition after live dirs entries
  grown : store.pages.overflow.count ≤ after.pages.overflow.count
  here : after.pages.overflow.page page = content
  kept : ∀ other ∈ live, other ≠ page →
    after.pages.overflow.page other = store.pages.overflow.page other

theorem sat_writeOverflowPage_partition (partition : Partition store live dirs entries)
    (mine : page ∈ live) (content : OverflowPage) :
    Sat (writeOverflowPage page content) store
      (fun _ after => PagePut store after live page content) (fun _ _ => False) := by
  apply (sat_writeOverflowPage content (partition.bounded mine)).relax _
  intro _ after wrote
  refine ⟨⟨dirs, entries, partition.wrote wrote mine⟩, ?_, ?_, fun other _ ne => ?_⟩
  · rw [wrote.file]
    exact le_rfl
  · rw [wrote.file]
    exact Function.update_self page _ _
  · rw [wrote.file]
    exact Function.update_of_ne ne _ _

/-- A new page was taken, and a page in use was written to link to it. -/
structure PageLinked (store after : Store) (live : List PageId) (page next : PageId)
    (content : OverflowPage) : Prop where
  partition : ∃ dirs entries, Partition after (next :: live) dirs entries
  fresh : next ∉ live
  grown : store.pages.overflow.count ≤ after.pages.overflow.count
  here : after.pages.overflow.page page = content
  kept : ∀ other ∈ live, other ≠ page →
    after.pages.overflow.page other = store.pages.overflow.page other

theorem sat_linkPage (partition : Partition store live dirs entries) (mine : page ∈ live)
    (content : PageId → OverflowPage) :
    Sat allocateOverflowPage store
      (fun next grown => Sat (writeOverflowPage page (content next)) grown
        (fun _ after => PageLinked store after live page next (content next)) (fun _ _ => False))
      (fun _ _ => False) := by
  apply (sat_allocateOverflowPage_kept partition).relax _
  intro next grown allocated
  obtain ⟨allocated, unchanged⟩ := allocated
  obtain ⟨dirs', entries', partition'⟩ := allocated.partition
  have mine' : page ∈ next :: live := mem_cons_of_mem next mine
  apply (sat_writeOverflowPage_partition partition' mine' (content next)).relax _
  intro _ after put
  refine ⟨put.partition, allocated.fresh, allocated.grown.trans put.grown, put.here,
    fun other member ne => ?_⟩
  exact (put.kept other (mem_cons_of_mem next member) ne).trans (unchanged other member)

/-- The rest of a chain takes pages that were not in use, and changes no other page in use. -/
theorem sat_writeContPages_partition (fuel : Nat) (partition : Partition store live dirs entries)
    (mine : page ∈ live) (nonempty : data ≠ []) (enough : data.length ≤ fuel) :
    Sat (writeContPages fuel page data) store
      (fun _ after => ∃ rest, ChainTaken store after live rest ∧
        FullPages after.pages.overflow (some page) (page :: rest) data ∧
        ∀ other ∈ live, other ≠ page →
          after.pages.overflow.page other = store.pages.overflow.page other)
      (fun _ _ => False) := by
  induction fuel generalizing store live dirs entries page data with
  | zero => exact absurd (length_eq_zero_iff.mp (Nat.le_zero.mp enough)) nonempty
  | succ fuel ih =>
    unfold writeContPages
    dsimp only
    rw [sat_ite]
    constructor
    · intro last
      have finished : data.drop contPageDataCap = [] := by simpa using last
      apply (sat_writeOverflowPage_partition partition mine _).relax _
      intro _ after put
      obtain ⟨dirs', entries', partition'⟩ := put.partition
      refine ⟨[], ⟨⟨dirs', entries', partition'⟩, put.grown⟩, ?_, put.kept⟩
      exact .cons (partition'.bounded mine) put.here nonempty (by rw [finished]; exact .nil)
    · intro more
      have remaining : data.drop contPageDataCap ≠ [] := by simpa using more
      have shorter : (data.drop contPageDataCap).length ≤ fuel := by
        have pos : 0 < data.length := length_pos_iff.mpr nonempty
        have capacity : contPageDataCap = 4076 := rfl
        rw [length_drop]
        omega
      rw [sat_bind]
      have link := sat_linkPage partition mine fun next =>
        .cont (data.take contPageDataCap) (some next)
      apply link.sure _
      intro next grown written
      rw [sat_bind]
      apply written.sure _
      intro _ after linked
      obtain ⟨dirs₁, entries₁, partition₁⟩ := linked.partition
      apply (ih partition₁ mem_cons_self remaining shorter).relax _
      intro _ final done
      obtain ⟨rest, taken, chain, unchanged⟩ := done
      obtain ⟨dirs₂, entries₂, partition₂⟩ := taken.partition
      have mine₁ : page ∈ next :: live := mem_cons_of_mem next mine
      have notNext : ∀ other ∈ live, other ≠ next := fun other member same =>
        linked.fresh (same ▸ member)
      refine ⟨next :: rest, ⟨⟨dirs₂, entries₂, partition₂.reorder perm_middle.symm⟩,
        linked.grown.trans taken.grown⟩, ?_, fun other member ne => ?_⟩
      · have content := (unchanged page mine₁ (notNext page mine)).trans linked.here
        have inside := Nat.lt_of_lt_of_le (partition₁.bounded mine₁) taken.grown
        exact .cons inside content nonempty chain
      · rw [unchanged other (mem_cons_of_mem next member) (notNext other member),
          linked.kept other member ne]

/-- Writing a chain takes pages that were not in use, changes none that was, and is refused
only if the length of the blob does not fit the header. -/
theorem sat_writeOverflow_partition (data : List UInt8)
    (partition : Partition store live dirs entries) :
    Sat (writeOverflow data) store
      (fun first after => ∃ pages, ChainTaken store after live pages ∧
        ChainAt after.pages.overflow first pages data ∧ data.length < 2 ^ 32 ∧
        ∀ other ∈ live, after.pages.overflow.page other = store.pages.overflow.page other)
      (fun _ after => after = store ∧ 2 ^ 32 ≤ data.length) := by
  unfold writeOverflow
  rw [sat_ite]
  refine ⟨fun long => ⟨rfl, long⟩, fun fits => ?_⟩
  have fits := not_le.mp fits
  rw [sat_bind]
  apply (sat_allocateOverflowPage_kept partition).sure _
  intro page after allocated
  obtain ⟨allocated, kept⟩ := allocated
  obtain ⟨dirs₁, entries₁, partition₁⟩ := allocated.partition
  have mine : page ∈ page :: live := mem_cons_self
  have elsewhere : ∀ other ∈ live, other ≠ page := fun other member same =>
    allocated.fresh (same ▸ member)
  dsimp only
  rw [sat_ite]
  constructor
  · intro single
    have finished : data.drop firstPageDataCap = [] := by simpa using single
    rw [sat_bind]
    apply (sat_writeOverflowPage_partition partition₁ mine _).sure _
    intro _ written put
    obtain ⟨dirs₂, entries₂, partition₂⟩ := put.partition
    refine ⟨[page], ⟨⟨dirs₂, entries₂, partition₂⟩, allocated.grown.trans put.grown⟩, ?_,
      fits, fun other member => ?_⟩
    · exact .mk (partition₂.bounded mine) put.here (by rw [finished]; exact .nil)
    · have used : other ∈ page :: live := mem_cons_of_mem page member
      exact (put.kept other used (elsewhere other member)).trans (kept other member)
  · intro several
    have remaining : data.drop firstPageDataCap ≠ [] := by simpa using several
    rw [sat_bind]
    have link := sat_linkPage partition₁ mine fun next =>
      .first data.length (data.take firstPageDataCap) (some next)
    apply link.sure _
    intro next grown written
    rw [sat_bind]
    apply written.sure _
    intro _ second linked
    obtain ⟨dirs₂, entries₂, partition₂⟩ := linked.partition
    rw [sat_bind]
    apply (sat_writeContPages_partition _ partition₂ mem_cons_self remaining
      (Nat.le_refl _)).sure _
    intro _ final done
    obtain ⟨rest, taken, chain, unchanged⟩ := done
    obtain ⟨dirs₃, entries₃, partition₃⟩ := taken.partition
    have mine₂ : page ∈ next :: page :: live := mem_cons_of_mem next mine
    have notNext : ∀ other ∈ page :: live, other ≠ next := fun other member same =>
      linked.fresh (same ▸ member)
    have order : (page :: next :: rest ++ live).Perm (rest ++ next :: page :: live) := by
      have one : (rest ++ next :: page :: live).Perm (next :: (rest ++ page :: live)) := perm_middle
      have two : (rest ++ page :: live).Perm (page :: (rest ++ live)) := perm_middle
      exact ((one.trans (two.cons next)).trans (List.Perm.swap page next _)).symm
    refine ⟨page :: next :: rest, ⟨⟨dirs₃, entries₃, partition₃.reorder order⟩,
      allocated.grown.trans (linked.grown.trans taken.grown)⟩, ?_, fits,
      fun other member => ?_⟩
    · have content := (unchanged page mine₂ (notNext page mine)).trans linked.here
      exact .mk (Nat.lt_of_lt_of_le (partition₂.bounded mine₂) taken.grown) content chain
    · have used : other ∈ page :: live := mem_cons_of_mem page member
      rw [unchanged other (mem_cons_of_mem next used) (notNext other used),
        linked.kept other used (elsewhere other member), kept other member]

theorem sat_freeOverflowChain_partition {first : PageId} {pages rest : List PageId}
    (partition : Partition store (pages ++ rest) dirs entries)
    (chain : ChainAt store.pages.overflow first pages data) :
    Sat (freeOverflowChain first) store
      (fun _ after => (∃ dirs' entries', Partition after rest dirs' entries') ∧
        after.pages.overflow.count = store.pages.overflow.count ∧
        ∀ other ∈ rest, after.pages.overflow.page other = store.pages.overflow.page other)
      (fun _ _ => False) := by
  have distinct : pages.Nodup := (nodup_append.mp (nodup_append.mp partition.nodup).1).1
  rw [freeOverflowChain, sat_bind, sat_get, chain.chainPages distinct]
  exact sat_forM_releasePage_partition partition

end Writing

/-- A blob that was written and not released since, with the pages of its chain. -/
structure HeldChain where
  first : PageId
  data : List UInt8
  pages : List PageId

variable {chain : HeldChain}

/-- A store with the chains it holds, and every page a chain was written to. -/
structure Chains where
  store : Store
  held : List HeldChain
  used : List PageId

namespace Chains

inductive Call where
  | write (data : List UInt8)
  | free (first : PageId)

def start (store : Store) : Chains := ⟨store, [], []⟩

/-- Any blob may be written; a chain is released at most once. -/
def Allowed (_past : List Chains) (chains : Chains) : Call → Prop
  | .write _ => True
  | .free first => ∃ chain ∈ chains.held, chain.first = first

def step (chains : Chains) : Call → Chains
  | .write data =>
    match (writeOverflow data).run chains.store with
    | .ok first after =>
      let pages := after.chainPages (after.pages.overflow.count + 1) first
      ⟨after, ⟨first, data, pages⟩ :: chains.held, pages ++ chains.used⟩
    | .error _ after => ⟨after, chains.held, chains.used⟩
  | .free first =>
    ⟨final (freeOverflowChain first) chains.store,
      chains.held.eraseP fun chain => chain.first = first, chains.used⟩

def pages (held : List HeldChain) : List PageId := held.flatMap HeldChain.pages

/-- The chains held are in the file, on pages of their own; the pages of released ones are free.
Pages of other users stay in use. -/
structure Kept (others : List PageId) (chains : Chains) : Prop where
  partition : ∃ dirs entries, Partition chains.store (pages chains.held ++ others) dirs entries
  each : ∀ chain ∈ chains.held,
    ChainAt chains.store.pages.overflow chain.first chain.pages chain.data ∧
      chain.data.length < 2 ^ 32
  used : ∀ page ∈ chains.used, page < chains.store.pages.overflow.count ∧ page ∉ others

theorem mem_pages {held : List HeldChain} (member : chain ∈ held) {page : PageId}
    (inside : page ∈ chain.pages) : page ∈ pages held :=
  mem_flatMap.mpr ⟨chain, member, inside⟩

section Steps

variable {others : List PageId} {chains : Chains}

section

variable (kept : Kept others chains)
include kept

theorem Kept.write (data : List UInt8) : Kept others (chains.step (.write data)) := by
  obtain ⟨dirs, entries, partition⟩ := kept.partition
  have sat := sat_writeOverflow_partition data partition
  rw [step]
  cases ran : (writeOverflow data).run chains.store with
  | error e after =>
    obtain ⟨rfl, _⟩ := sat.of_error ran
    exact ⟨⟨dirs, entries, partition⟩, kept.each, kept.used⟩
  | ok first after =>
    obtain ⟨taken, extended, chain, fits, unchanged⟩ := sat.of_ok ran
    obtain ⟨dirs', entries', partition'⟩ := extended.partition
    have apart := nodup_append.mp (nodup_append.mp partition'.nodup).1
    have walked := chain.chainPages apart.1
    refine ⟨⟨dirs', entries', ?_⟩, ?_, ?_⟩
    · simp only [walked, pages, flatMap_cons, append_assoc]
      exact partition'
    · intro other member
      simp only [walked] at member ⊢
      rcases mem_cons.mp member with rfl | before
      · exact ⟨chain, fits⟩
      · obtain ⟨here, short⟩ := kept.each other before
        refine ⟨here.congr extended.grown fun page inside => ?_, short⟩
        exact unchanged page (mem_append_left _ (mem_pages before inside))
    · intro page member
      simp only [walked] at member ⊢
      rcases mem_append.mp member with new | before
      · refine ⟨partition'.bounded (mem_append_left _ new), fun other => ?_⟩
        exact apart.2.2 page new page (mem_append_right _ other) rfl
      · obtain ⟨bounded, outside⟩ := kept.used page before
        exact ⟨bounded.trans_le extended.grown, outside⟩

section

variable (member : chain ∈ chains.held)
include member

theorem Kept.find :
    ∃ pages' data rest dirs entries, ChainAt chains.store.pages.overflow chain.first pages' data ∧
      rest = chains.held.eraseP (fun other => other.first = chain.first) ∧
      (∀ other ∈ rest, other ∈ chains.held) ∧
      Partition chains.store (pages' ++ (pages rest ++ others)) dirs entries := by
  obtain ⟨dirs, entries, partition⟩ := kept.partition
  obtain ⟨found, front, back, _, same, whole, erased⟩ :=
    exists_of_eraseP member (p := fun other => other.first = chain.first) (by simp)
  have here : found.first = chain.first := by simpa using same
  have inside : found ∈ chains.held := by
    rw [whole]
    exact mem_append_right _ mem_cons_self
  refine ⟨found.pages, found.data, _, dirs, entries, here ▸ (kept.each found inside).1, rfl, ?_, ?_⟩
  · exact fun other member => mem_of_mem_eraseP member
  · refine partition.reorder ?_
    rw [erased, whole]
    simp only [pages, flatMap_append, flatMap_cons, append_assoc]
    exact perm_append_comm_assoc _ _ _

theorem Kept.free : Kept others (chains.step (.free chain.first)) := by
  obtain ⟨pages', data, rest, dirs, entries, here, erased, sub, partition⟩ := kept.find member
  have released := ((sat_freeOverflowChain_partition partition here).sure (fun _ _ => id)).final
  obtain ⟨remaining, count, unchanged⟩ := released
  rw [step, ← erased]
  refine ⟨remaining, fun other still => ?_, fun page before => ?_⟩
  · obtain ⟨there, short⟩ := kept.each other (sub other still)
    refine ⟨there.congr (count.symm.le) fun page inside => ?_, short⟩
    exact unchanged page (mem_append_left _ (mem_pages still inside))
  · obtain ⟨bounded, outside⟩ := kept.used page before
    exact ⟨by rw [count]; exact bounded, outside⟩

theorem Kept.held_chain : ChainAt chains.store.pages.overflow chain.first chain.pages chain.data ∧
      chain.pages.Nodup ∧ chain.data.length < 2 ^ 32 := by
  obtain ⟨dirs, entries, partition⟩ := kept.partition
  have distinct := (nodup_append.mp (nodup_append.mp partition.nodup).1).1
  obtain ⟨here, fits⟩ := kept.each chain member
  exact ⟨here, (nodup_flatMap.mp distinct).1 chain member, fits⟩

theorem Kept.freeable :
    ∃ after, (freeOverflowChain chain.first).run chains.store = .ok () after := by
  obtain ⟨_, _, _, _, _, here, _, _, partition⟩ := kept.find member
  obtain ⟨_, after, ran, _⟩ := (sat_freeOverflowChain_partition partition here).exists_run
  exact ⟨after, ran⟩

end

theorem Kept.writable {data : List UInt8} (fits : data.length < 2 ^ 32) :
    ∃ first after, (writeOverflow data).run chains.store = .ok first after := by
  obtain ⟨dirs, entries, partition⟩ := kept.partition
  have written : Sat (writeOverflow data) chains.store (fun _ _ => True) (fun _ _ => False) :=
    (sat_writeOverflow_partition data partition).mono (fun _ _ _ => trivial)
      (fun _ _ refused => Nat.not_lt.mpr refused.2 fits)
  obtain ⟨first, after, ran, _⟩ := written.exists_run
  exact ⟨first, after, ran⟩

theorem Kept.released (none : chains.held = []) :
    ∃ dirs entries, Partition chains.store others dirs entries ∧ ∀ page ∈ chains.used,
        (chains.store.info.freeSparePage.toList ++ (dirs ++ entries)).count page = 1 := by
  obtain ⟨dirs, entries, partition⟩ := kept.partition
  rw [none] at partition
  refine ⟨dirs, entries, partition, fun page member => ?_⟩
  obtain ⟨bounded, outside⟩ := kept.used page member
  have all := partition.pages.mem_iff.mpr (mem_range.mpr bounded)
  rcases mem_append.mp all with inUse | free
  · exact absurd inUse outside
  · exact count_eq_one_of_mem (nodup_append.mp partition.nodup).2.1 free

end

end Steps

theorem kept_of_run {store : Store} {others dirs entries : List PageId}
    (partition : Partition store others dirs entries) {past : List Chains} {chains : Chains}
    (run : Run Allowed step (start store) past chains) : Kept others chains := by
  have first : Kept others (start store) := ⟨⟨dirs, entries, partition⟩, nofun, nofun⟩
  refine run.invariant (fun _ chains => Kept others chains) first ?_
  intro _ chains call kept allowed
  cases call with
  | write data => exact kept.write data
  | free page =>
    obtain ⟨chain, member, rfl⟩ := allowed
    exact kept.free member

end Chains

end ErmyaGraph.Store
