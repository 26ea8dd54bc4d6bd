import Mathlib.Algebra.Order.Ring.Int
import Mathlib.Data.List.Basic

/-! # Doubly linked lists over keys

A list whose links are kept in a map from its keys to their neighbours. Each
operation looks at the neighbours of one key only. -/

namespace Links

/-- The neighbours of a key. -/
structure Node (κ : Type) where
  prev : Option κ
  next : Option κ

end Links

/-- The links of a list, and its two ends. -/
structure Links (κ : Type) where
  node : κ → Option (Links.Node κ) := fun _ => none
  head : Option κ := none
  tail : Option κ := none

namespace Links

variable {κ : Type} [DecidableEq κ]

/-- Change the neighbours of a key, if it is linked. -/
def modify (links : Links κ) (key : κ) (f : Node κ → Node κ) : Links κ :=
  { links with node := Function.update links.node key ((links.node key).map f) }

/-- Take a key out and join its neighbours; nothing to do for a key that is not linked. -/
def unlink (links : Links κ) (key : κ) : Links κ :=
  match links.node key with
  | none => links
  | some node =>
    let removed := { links with node := Function.update links.node key none }
    let joined := match node.prev with
      | some prev => removed.modify prev fun other => { other with next := node.next }
      | none => { removed with head := node.next }
    match node.next with
    | some next => joined.modify next fun other => { other with prev := node.prev }
    | none => { joined with tail := node.prev }

/-- Put a key that is not linked in front. -/
def pushFront (links : Links κ) (key : κ) : Links κ :=
  let linked := { links with
    node := Function.update links.node key (some { prev := none, next := links.head }) }
  let joined := match links.head with
    | some head => linked.modify head fun other => { other with prev := some key }
    | none => { linked with tail := some key }
  { joined with head := some key }

def touch (links : Links κ) (key : κ) : Links κ := (links.unlink key).pushFront key

/-- The links of a list without duplicates: every key knows those before and after it. -/
structure Represents (links : Links κ) (keys : List κ) : Prop where
  nodup : keys.Nodup
  head : links.head = keys.head?
  tail : links.tail = keys.getLast?
  absent : ∀ key ∉ keys, links.node key = none
  present : ∀ before key after, keys = before ++ key :: after →
    links.node key = some ⟨before.getLast?, after.head?⟩

section Rules

variable {links : Links κ}

omit [DecidableEq κ] in
theorem represents_empty : Represents ({} : Links κ) [] where
  nodup := List.nodup_nil
  head := rfl
  tail := rfl
  absent := fun _ _ => rfl
  present before key after split := by
    have length := congrArg List.length split
    simp at length

variable {keys : List κ}

omit [DecidableEq κ] in
theorem Represents.isSome_node (represents : links.Represents keys) (key : κ) :
    (links.node key).isSome ↔ key ∈ keys := by
  by_cases member : key ∈ keys
  · obtain ⟨before, after, split⟩ := List.append_of_mem member
    simp [represents.present before key after split, member]
  · simp [represents.absent key member, member]

theorem node_modify (links : Links κ) (key other : κ) (f : Node κ → Node κ) :
    (links.modify key f).node other =
      if other = key then (links.node other).map f else links.node other := by
  by_cases here : other = key
  · subst here
    simp [modify]
  · simp [modify, here]

variable {key : κ} {node : Node κ}

theorem node_unlink (linked : links.node key = some node) (other : κ) :
    (links.unlink key).node other =
      if other = key then none
      else (links.node other).map fun neighbours =>
        { prev := if node.next = some other then node.prev else neighbours.prev
          next := if node.prev = some other then node.next else neighbours.next } := by
  obtain ⟨prev, next⟩ := node
  have removed : Function.update links.node key none other =
      if other = key then none else links.node other := by
    rw [Function.update_apply]
  unfold unlink
  rw [linked]
  cases found : links.node other with
  | none => cases prev <;> cases next <;> simp [node_modify, removed, found]
  | some neighbours =>
    obtain ⟨back, ahead⟩ := neighbours
    cases prev with
    | none =>
      cases next with
      | none => simp [removed, found]
      | some next =>
        simp only [node_modify, removed, found]
        grind
    | some prev =>
      cases next with
      | none =>
        simp only [node_modify, removed, found]
        grind
      | some next =>
        simp only [node_modify, removed, found]
        grind

theorem head_unlink (linked : links.node key = some node) :
    (links.unlink key).head = if node.prev = none then node.next else links.head := by
  obtain ⟨prev, next⟩ := node
  cases prev <;> cases next <;> simp [unlink, linked, modify]

theorem tail_unlink (linked : links.node key = some node) :
    (links.unlink key).tail = if node.next = none then node.prev else links.tail := by
  obtain ⟨prev, next⟩ := node
  cases prev <;> cases next <;> simp [unlink, linked, modify]

omit [DecidableEq κ] in
theorem split_of_removed {before after front back : List κ} {other : κ} (key : κ)
    (split : before ++ after = front ++ other :: back) :
    (∃ rest, before = front ++ other :: rest ∧ back = rest ++ after ∧
        before ++ key :: after = front ++ other :: (rest ++ key :: after)) ∨
      ∃ rest, after = rest ++ other :: back ∧ front = before ++ rest ∧
        before ++ key :: after = (before ++ key :: rest) ++ other :: back := by
  rcases List.append_eq_append_iff.mp split with ⟨rest, rfl, rfl⟩ | ⟨rest, rfl, ahead⟩
  · exact .inr ⟨rest, rfl, rfl, by simp⟩
  · cases rest with
    | nil =>
      refine .inr ⟨[], by simpa using ahead.symm, by simp, ?_⟩
      rw [List.nil_append] at ahead
      simp [← ahead]
    | cons first rest =>
      obtain ⟨rfl, rfl⟩ := List.cons.inj ahead
      exact .inl ⟨rest, rfl, rfl, by simp⟩

theorem Represents.unlink {before after : List κ}
    (represents : links.Represents (before ++ key :: after)) :
    (links.unlink key).Represents (before ++ after) := by
  have linked := represents.present before key after rfl
  have distinct := represents.nodup
  have apart : (before ++ after).Nodup ∧ key ∉ before ++ after := by
    have perm := (@List.perm_middle _ key before after).nodup_iff.mp distinct
    exact ⟨(List.nodup_cons.mp perm).2, (List.nodup_cons.mp perm).1⟩
  constructor
  · exact apart.1
  · rw [head_unlink linked, represents.head]
    cases before with
    | nil => simp
    | cons first rest => simp
  · rw [tail_unlink linked, represents.tail]
    cases after with
    | nil => simp
    | cons first rest => simp [List.getLast?_append]
  · intro other outside
    rw [node_unlink linked]
    by_cases here : other = key
    · rw [if_pos here]
    · rw [if_neg here, represents.absent other ?_]
      · rfl
      · simp only [List.mem_append, List.mem_cons, not_or] at outside ⊢
        exact ⟨outside.1, here, outside.2⟩
  · intro front other back split
    have member : other ∈ before ++ after := by
      rw [split]
      simp
    have here : other ≠ key := fun same => apart.2 (same ▸ member)
    rw [node_unlink linked, if_neg here]
    -- Only the keys next to the one taken out have new neighbours.
    rcases split_of_removed key split with ⟨rest, rfl, rfl, whole⟩ | ⟨rest, rfl, rfl, whole⟩
    · have ahead : after.head? ≠ some other := by
        intro first
        have twice := List.mem_of_mem_head? first
        exact (List.nodup_append.mp apart.1).2.2 other (by simp) other twice rfl
      rw [represents.present _ _ _ whole, Option.map_some, if_neg ahead]
      cases rest with
      | nil => simp
      | cons first rest =>
        have behind : (front ++ other :: first :: rest).getLast? ≠ some other := by
          intro last
          have twice : other ∈ first :: rest := by
            apply List.mem_of_getLast?
            simpa [List.getLast?_append] using last
          have alone := (List.nodup_append.mp (List.nodup_append.mp apart.1).1).2.1
          exact (List.nodup_cons.mp alone).1 twice
        rw [if_neg behind]
        simp
    · have behind : before.getLast? ≠ some other := by
        intro last
        have twice := List.mem_of_getLast? last
        exact (List.nodup_append.mp apart.1).2.2 other twice other (by simp) rfl
      rw [represents.present _ _ _ whole, Option.map_some, if_neg behind]
      cases rest with
      | nil => simp
      | cons first rest =>
        have ahead : (first :: rest ++ other :: back).head? ≠ some other := by
          intro same
          have alone := (List.nodup_append.mp apart.1).2.1
          obtain rfl := Option.some.inj same
          exact (List.nodup_cons.mp alone).1 (by simp)
        rw [if_neg ahead]
        simp [List.getLast?_append]

theorem Represents.pushFront (represents : links.Represents keys) (fresh : key ∉ keys) :
    (links.pushFront key).Represents (key :: keys) := by
  have node (other : κ) : (links.pushFront key).node other =
      if other = key then some ⟨none, keys.head?⟩
      else (links.node other).map fun neighbours =>
        { neighbours with prev := if keys.head? = some other then some key else neighbours.prev } := by
    have pushed : Function.update links.node key (some { prev := none, next := keys.head? }) other =
        if other = key then some ⟨none, keys.head?⟩ else links.node other := by
      rw [Function.update_apply]
    unfold Links.pushFront
    rw [represents.head]
    cases keys with
    | nil =>
      cases found : links.node other <;> simp [Function.update_apply, found]
    | cons first rest =>
      have apart : key ≠ first := fun same => fresh (same ▸ .head _)
      simp only [List.head?_cons, node_modify, Function.update_apply]
      by_cases here : other = key
      · subst here
        simp [apart]
      · cases found : links.node other with
        | none => simp [here]
        | some neighbours =>
          obtain ⟨back, ahead⟩ := neighbours
          simp only [here, if_false]
          grind
  constructor
  · exact List.nodup_cons.mpr ⟨fresh, represents.nodup⟩
  · rfl
  · have tail : (links.pushFront key).tail = if keys = [] then some key else links.tail := by
      unfold Links.pushFront
      rw [represents.head]
      cases keys <;> simp [modify]
    rw [tail, represents.tail]
    cases keys <;> simp
  · intro other outside
    rw [List.mem_cons, not_or] at outside
    rw [node, if_neg outside.1, represents.absent other outside.2]
    rfl
  · intro before other after split
    cases before with
    | nil =>
      obtain ⟨rfl, rfl⟩ := List.cons.inj split
      rw [node, if_pos rfl]
      rfl
    | cons first before =>
      obtain ⟨rfl, whole⟩ := List.cons.inj split
      change keys = before ++ other :: after at whole
      subst whole
      have here : other ≠ key := by
        rintro rfl
        exact fresh (by simp)
      rw [node, if_neg here, represents.present before other after rfl, Option.map_some]
      cases before with
      | nil => simp
      | cons second before =>
        have ahead : (second :: before ++ other :: after).head? ≠ some other := by
          intro same
          obtain rfl := Option.some.inj same
          exact (List.nodup_cons.mp represents.nodup).1 (by simp)
        rw [if_neg ahead]
        simp

theorem Represents.erase (represents : links.Represents keys) (key : κ) :
    (links.unlink key).Represents (keys.erase key) := by
  by_cases member : key ∈ keys
  · obtain ⟨before, after, rfl, apart⟩ := List.eq_append_cons_of_mem member
    rw [List.erase_append_right _ apart, List.erase_cons_head]
    exact represents.unlink
  · have same : links.unlink key = links := by
      unfold Links.unlink
      rw [represents.absent key member]
    rw [same, List.erase_of_not_mem member]
    exact represents

theorem Represents.touch (represents : links.Represents keys) (key : κ) :
    (links.touch key).Represents (key :: keys.erase key) :=
  (represents.erase key).pushFront (represents.nodup.not_mem_erase)

end Rules

end Links
