import ErmyaGraph.Lib.Search

/-! # Searching for a goal

A breadth-first search that remembers from where each node was entered stops when it enters its
goal. The way back from the goal is a walk with the fewest steps. -/

namespace Search

open List

variable {n fuel : Nat} {limit : Option Nat}

variable {α ε : Type}

/-- Edges that lead from one node to another, each with the node behind it. -/
def Walk (leads : α → ε → α → Prop) : α → List (ε × α) → α → Prop
  | a, [], b => a = b
  | a, (e, c) :: rest, b => leads a e c ∧ Walk leads c rest b

def walkNodes (start : α) (steps : List (ε × α)) : List α := start :: steps.map Prod.snd

namespace Walk

variable {leads : α → ε → α → Prop} {steps : List (ε × α)}

theorem append {a b c : α} {steps' : List (ε × α)} (first : Walk leads a steps b)
    (second : Walk leads b steps' c) : Walk leads a (steps ++ steps') c := by
  induction steps generalizing a with
  | nil =>
    cases first
    exact second
  | cons step rest ih => exact ⟨first.1, ih first.2⟩

theorem snoc {a b c : α} {e : ε} (before : Walk leads a steps b) (edge : leads b e c) :
    Walk leads a (steps ++ [(e, c)]) c := before.append ⟨edge, rfl⟩

theorem reach_of {start a b : α} (reach : Reach leads start n a) (walk : Walk leads a steps b) :
    Reach leads start (n + steps.length) b := by
  induction steps generalizing a n with
  | nil =>
    cases walk
    exact reach
  | cons step rest ih =>
    have later := ih (reach.step walk.1) walk.2
    rwa [length_cons, Nat.add_comm rest.length, ← Nat.add_assoc]

theorem reach {a b : α} (walk : Walk leads a steps b) : Reach leads a steps.length b := by
  simpa using reach_of Reach.start walk

end Walk

theorem Reach.walk {leads : α → ε → α → Prop} {start a : α} (reach : Reach leads start n a) :
    ∃ steps, Walk leads start steps a ∧ steps.length = n := by
  induction reach with
  | start => exact ⟨[], rfl, rfl⟩
  | step _ edge ih =>
    obtain ⟨steps, walk, length⟩ := ih
    exact ⟨_, walk.snoc edge, by rw [length_append, length]; rfl⟩

/-- A walk to the goal of the fewest steps, on which no node repeats. -/
structure Shortest (leads : α → ε → α → Prop) (start goal : α) (steps : List (ε × α)) : Prop where
  walk : Walk leads start steps goal
  nodup : (walkNodes start steps).Nodup
  least : ∀ other, Walk leads start other goal → steps.length ≤ other.length

section Search

variable [DecidableEq α]

/-- From where a node was entered, and over which edge. -/
abbrev Entries (α ε : Type) := List (α × α × ε)

/-- Nodes that are not seen yet join the queue, until the goal is one of them. -/
def enterUntil (goal current : α) (depth : Nat) : List (α × ε) → List α → Entries α ε →
    List (Nat × α) → Bool × List α × Entries α ε × List (Nat × α)
  | [], visited, entries, queue => (false, visited, entries, queue)
  | (next, e) :: rest, visited, entries, queue =>
    if next ∈ visited then enterUntil goal current depth rest visited entries queue
    else if next = goal then (true, next :: visited, (next, current, e) :: entries, queue)
    else
      enterUntil goal current depth rest (next :: visited) ((next, current, e) :: entries)
        (queue ++ [(depth + 1, next)])

/-- Take the queue from its front. Nothing enters from a node at the limit. -/
def searchUntil (next : α → List (α × ε)) (limit : Option Nat) (goal : α) : (fuel : Nat) →
    List α → Entries α ε → List (Nat × α) → Option (Entries α ε)
  | 0, _, _, _ => none
  | _ + 1, _, _, [] => none
  | fuel + 1, visited, entries, (depth, current) :: queue =>
    if limit.any fun limit => limit ≤ depth then
      searchUntil next limit goal fuel visited entries queue
    else
      match enterUntil goal current depth (next current) visited entries queue with
      | (true, _, entries, _) => some entries
      | (false, visited, entries, queue) =>
        searchUntil next limit goal fuel visited entries queue

/-- The steps from the start to a node, if every node on the way back was entered. -/
def trail (start : α) (entries : Entries α ε) : (fuel : Nat) → α → Option (List (ε × α))
  | 0, _ => none
  | fuel + 1, node =>
    if node = start then some []
    else
      (entries.lookup node).bind fun before =>
        (trail start entries fuel before.1).map fun steps => steps ++ [(before.2, node)]

end Search

section Correct

variable [DecidableEq α] {leads : α → ε → α → Prop} {start goal : α}

/-- Every seen node but the start was entered from one that is one step nearer. -/
def Traced (leads : α → ε → α → Prop) (start : α) (visited : List α) (entries : Entries α ε) :
    Prop :=
  ∀ b ∈ visited, b = start ∨ ∃ a e n, entries.lookup b = some (a, e) ∧ leads a e b ∧ a ∈ visited ∧
    Distance leads start n a ∧ Distance leads start (n + 1) b

variable {visited : List α} {entries : Entries α ε} {current : α}

theorem Traced.enter {next : α} {e : ε} (traced : Traced leads start visited entries)
    (known : current ∈ visited) (fresh : next ∉ visited) (edge : leads current e next)
    (near : Distance leads start n current) (far : Distance leads start (n + 1) next) :
    Traced leads start (next :: visited) ((next, current, e) :: entries) := by
  intro b mem
  by_cases same : b = next
  · subst same
    exact .inr ⟨current, e, n, lookup_cons_self, edge, .tail _ known, near, far⟩
  · have old := (mem_cons.mp mem).resolve_left same
    rcases traced b old with rfl | ⟨a, e', m, found, edge', known', rest⟩
    · exact .inl rfl
    · refine .inr ⟨a, e', m, ?_, edge', .tail _ known', rest⟩
      rw [lookup_cons, beq_false_of_ne same]
      exact found

/-- The way back is as long as the node is far, and what lies on it is nearer. -/
theorem trail_ok (traced : Traced leads start visited entries) {b : α} (seen : b ∈ visited)
    (distance : Distance leads start n b) (enough : n < fuel) :
    ∃ steps, trail start entries fuel b = some steps ∧ Walk leads start steps b ∧
      steps.length = n ∧ (walkNodes start steps).Nodup ∧
        ∀ a ∈ walkNodes start steps, ∃ m ≤ n, Distance leads start m a := by
  induction fuel generalizing n b with
  | zero => omega
  | succ fuel ih =>
    rw [trail]
    by_cases home : b = start
    · subst home
      rw [if_pos rfl, distance.unique distance_start]
      refine ⟨[], rfl, rfl, rfl, nodup_singleton _, fun a mem => ?_⟩
      rw [mem_singleton.mp mem]
      exact ⟨0, Nat.le_refl _, distance_start⟩
    · rw [if_neg home]
      rcases traced b seen with same | ⟨a, e, m, found, edge, known, near, far⟩
      · exact absurd same home
      · have same : n = m + 1 := distance.unique far
        obtain ⟨steps, walked, walk, length, nodup, nearer⟩ := ih known near (by omega)
        have nodes : walkNodes start (steps ++ [(e, b)]) = walkNodes start steps ++ [b] := by
          simp [walkNodes]
        refine ⟨steps ++ [(e, b)], ?_, walk.snoc edge, ?_, ?_, ?_⟩
        · rw [found, Option.bind_some, walked]
          rfl
        · rw [length_append, length, same]
          rfl
        · rw [nodes]
          refine nodup_append.mpr ⟨nodup, nodup_singleton b, ?_⟩
          rintro c mem d inside rfl
          obtain ⟨k, less, here⟩ := nearer c mem
          rw [mem_singleton.mp inside] at here
          have same' := here.unique distance
          omega
        · rw [nodes]
          intro c mem
          rcases mem_append.mp mem with old | last
          · obtain ⟨k, less, here⟩ := nearer c old
            exact ⟨k, by omega, here⟩
          · rw [mem_singleton.mp last]
            exact ⟨n, Nat.le_refl _, distance⟩

/-- What a round comes to. -/
structure RoundEnd (leads : α → ε → α → Prop) (start goal : α) (depth : Nat) (next : α → Prop)
    (visited : List α) (entries : Entries α ε) (queue : List (Nat × α))
    (result : Bool × List α × Entries α ε × List (Nat × α)) : Prop where
  traced : Traced leads start result.2.1 result.2.2.1
  hit : result.1 = true → goal ∈ result.2.1 ∧ Distance leads start (depth + 1) goal ∧
    entries.length < result.2.2.1.length
  missed : result.1 = false → ∃ new, result.2.2.2 = queue ++ new.map (depth + 1, ·) ∧
    Entered next visited result.2.1 new ∧ goal ∉ result.2.1 ∧
      result.2.2.1.length = entries.length + new.length

variable {around : List (α × ε)}

theorem enterUntil_end {depth : Nat} (sound : ∀ entry ∈ around, leads current entry.2 entry.1)
    (distance : Distance leads start depth current) (known : current ∈ visited)
    (missing : goal ∉ visited)
    (farther : ∀ b ∉ visited, ∀ e, leads current e b → Distance leads start (depth + 1) b)
    (traced : Traced leads start visited entries) (queue : List (Nat × α)) :
    RoundEnd leads start goal depth (fun b => ∃ e, (b, e) ∈ around) visited entries queue
      (enterUntil goal current depth around visited entries queue) := by
  induction around generalizing visited entries queue with
  | nil =>
    refine ⟨traced, nofun, fun _ => ⟨[], by simp [enterUntil], ?_, missing, rfl⟩⟩
    exact (Entered.nil visited).congr fun b => by simp
  | cons entry rest ih =>
    obtain ⟨next, e⟩ := entry
    have sound' := fun entry mem => sound entry (.tail _ mem)
    have step : leads current e next := sound _ mem_cons_self
    have among (b : α) : (∃ e', (b, e') ∈ (next, e) :: rest) ↔ b = next ∨ ∃ e', (b, e') ∈ rest := by
      simp only [mem_cons, Prod.mk.injEq, exists_or, exists_and_left, exists_eq, and_true]
    rw [enterUntil]
    split
    · next old =>
        obtain ⟨traced', hit, missed⟩ := ih sound' known missing farther traced queue
        refine ⟨traced', hit, fun ended => ?_⟩
        obtain ⟨new, queued, entered, rest'⟩ := missed ended
        exact ⟨new, queued, (entered.seen old).congr among, rest'⟩
    · next fresh =>
        have grown := traced.enter known fresh step distance (farther next fresh e step)
        split
        · next final =>
            subst final
            exact ⟨grown, fun _ => ⟨.head _, farther next fresh e step,
              Nat.lt_succ_self _⟩, nofun⟩
        · next other =>
            have missing' : goal ∉ next :: visited := by
              intro mem
              rcases mem_cons.mp mem with same | old
              · exact other same.symm
              · exact missing old
            obtain ⟨traced', hit, missed⟩ := ih sound' (.tail _ known) missing'
              (fun b unseen => farther b fun old => unseen (.tail _ old)) grown
              (queue ++ [(depth + 1, next)])
            refine ⟨traced', fun found => ?_, fun ended => ?_⟩
            · obtain ⟨inside, far, longer⟩ := hit found
              exact ⟨inside, far, Nat.lt_of_succ_lt longer⟩
            · obtain ⟨new, queued, entered, absent, longer⟩ := missed ended
              refine ⟨next :: new, ?_, (entered.enter fresh).congr among, absent, ?_⟩
              · rw [queued, append_assoc]
                rfl
              · rw [longer, length_cons, length_cons]
                omega

variable {queue : List (Nat × α)}

theorem mem_enterUntil {depth : Nat} {entry : Nat × α}
    (queued : entry ∈ (enterUntil goal current depth around visited entries queue).2.2.2) :
    entry ∈ queue ∨ ∃ e, (entry.2, e) ∈ around := by
  induction around generalizing visited entries queue with
  | nil => exact .inl queued
  | cons first rest ih =>
    obtain ⟨next, e⟩ := first
    have later : (entry ∈ queue ∨ ∃ e, (entry.2, e) ∈ rest) →
        entry ∈ queue ∨ ∃ e', (entry.2, e') ∈ (next, e) :: rest :=
      Or.imp_right fun ⟨e', mem⟩ => ⟨e', .tail _ mem⟩
    rw [enterUntil] at queued
    split at queued
    · exact later (ih queued)
    · split at queued
      · exact .inl queued
      · rcases ih queued with old | ⟨e', mem⟩
        · rcases mem_append.mp old with old | last
          · exact .inl old
          · rw [mem_singleton.mp last]
            exact .inr ⟨e, .head _⟩
        · exact later (.inr ⟨e', mem⟩)

variable {next : α → List (α × ε)}

theorem searchUntil_late {limit : Nat} (late : ∀ entry ∈ queue, limit ≤ entry.1) :
    searchUntil next (some limit) goal fuel visited entries queue = none := by
  induction fuel generalizing queue with
  | zero => rfl
  | succ fuel ih =>
    match queue with
    | [] => rfl
    | (depth, current) :: queue =>
      have here : limit ≤ depth := late _ mem_cons_self
      rw [searchUntil, if_pos (by simpa using here)]
      exact ih fun entry mem => late entry (.tail _ mem)

/-- A search that is under way. -/
structure Underway (leads : α → ε → α → Prop) (all : List α) (start goal : α) (fuel : Nat)
    (visited : List α) (entries : Entries α ε) (queue : List (Nat × α)) : Prop where
  explored : Explored leads start visited queue
  known : ∀ entry ∈ queue, entry.2 ∈ visited
  traced : Traced leads start visited entries
  missing : goal ∉ visited
  shallow : ∀ entry ∈ queue, entry.1 ≤ entries.length
  bounded : Bounded all visited queue.length fuel

/-- What a search answers: the entries on the way back from its goal, or that the goal is too
far. -/
def Answered (leads : α → ε → α → Prop) (start goal : α) (limit : Option Nat) :
    Option (Entries α ε) → Prop
  | some entries => ∃ visited n, Traced leads start visited entries ∧ goal ∈ visited ∧
      Distance leads start n goal ∧ (∀ l ∈ limit, n ≤ l) ∧ n ≤ entries.length
  | none => ∀ n, Reach leads start n goal → ∃ l ∈ limit, l < n

theorem searchUntil_answered {all : List α}
    (around : ∀ n a, Reach leads start n a → ∀ b e, (b, e) ∈ next a ↔ leads a e b)
    (within : ∀ n a, Reach leads start n a → a ∈ all)
    (underway : Underway leads all start goal fuel visited entries queue) :
    Answered leads start goal limit (searchUntil next limit goal fuel visited entries queue) := by
  have ended (none_left : queue = []) : ∀ n, Reach leads start n goal → ∃ l ∈ limit, l < n := by
    intro n reach
    have explored := underway.explored
    rw [none_left] at explored
    exact absurd (explored.mem_visited_of_reach reach) underway.missing
  induction fuel generalizing visited entries queue with
  | zero =>
    exact ended (length_eq_zero_iff.mp (by have := underway.bounded.rounds; omega))
  | succ fuel ih =>
    match queue with
    | [] => exact ended rfl
    | (depth, current) :: queue =>
      obtain ⟨explored, known, traced, missing, shallow, bounded⟩ := underway
      have distance : Distance leads start depth current := explored.distance _ mem_cons_self
      have here : current ∈ visited := known _ mem_cons_self
      have near : depth ≤ entries.length := shallow _ mem_cons_self
      rw [searchUntil]
      split
      · next deep =>
          obtain ⟨l, rfl, reached⟩ : ∃ l, limit = some l ∧ l ≤ depth := by
            cases limit with
            | none => cases deep
            | some l => exact ⟨l, rfl, by simpa using deep⟩
          rw [searchUntil_late fun entry mem => Nat.le_trans reached
            (rel_of_pairwise_cons explored.sorted mem)]
          intro n reach
          refine ⟨l, rfl, ?_⟩
          by_contra short
          exact missing (explored.mem_visited_of_le reach (by omega))
      · next shallow' =>
          have sound : ∀ entry ∈ next current, leads current entry.2 entry.1 :=
            fun entry mem => (around _ _ distance.reach entry.1 entry.2).mp mem
          have round := enterUntil_end sound distance here missing
            (fun b unseen e edge => explored.distance_new edge unseen) traced queue
          split
          · next _ visited' entries' _ came =>
              rw [came] at round
              obtain ⟨inside, far, longer⟩ := round.hit rfl
              refine ⟨visited', depth + 1, round.traced, inside, far, fun l isLimit => ?_, ?_⟩
              · obtain rfl : limit = some l := isLimit
                have above : ¬ l ≤ depth := by simpa using shallow'
                omega
              · dsimp only at longer
                omega
          · next _ visited' entries' queue' came =>
              rw [came] at round
              obtain ⟨new, queued, entered, absent, longer⟩ := round.missed rfl
              dsimp only at queued entered absent longer
              have entered' := entered.congr fun b =>
                (exists_congr fun e => (around _ _ distance.reach b e).symm :
                  (∃ e, leads current e b) ↔ _)
              subst queued
              have under : Underway leads all start goal fuel visited' entries'
                  (queue ++ new.map (depth + 1, ·)) := by
                refine ⟨explored.pop entered', ?_, round.traced, absent, ?_, ?_⟩
                · intro entry mem
                  rcases mem_append.mp mem with old | added
                  · exact (entered.mem_iff _).mpr (.inl (known entry (.tail _ old)))
                  · obtain ⟨b, inside, rfl⟩ := mem_map.mp added
                    exact (entered.mem_iff _).mpr (.inr ((entered.new_iff b).mp inside).1)
                · intro entry mem
                  rcases mem_append.mp mem with old | added
                  · have before := shallow entry (.tail _ old)
                    omega
                  · obtain ⟨b, inside, rfl⟩ := mem_map.mp added
                    have some_new := length_pos_of_mem inside
                    dsimp only
                    omega
                · rw [length_append, length_map]
                  refine Bounded.pop bounded entered' fun b edge => ?_
                  obtain ⟨e, edge⟩ := edge
                  exact within _ b (distance.reach.step edge)
              refine ih under fun none_left n reach => ?_
              have explored' := under.explored
              rw [none_left] at explored'
              exact absurd (explored'.mem_visited_of_reach reach) absent

theorem search_answered {all : List α}
    (around : ∀ n a, Reach leads start n a → ∀ b e, (b, e) ∈ next a ↔ leads a e b)
    (within : ∀ n a, Reach leads start n a → a ∈ all) (apart : start ≠ goal)
    (enough : all.length ≤ fuel) :
    Answered leads start goal limit (searchUntil next limit goal fuel [start] [] [(0, start)]) := by
  have here := within 0 start .start
  have rounds := length_pos_of_mem here
  exact searchUntil_answered around within
    { explored := .init leads start
      known := by simp
      traced := fun b mem => .inl (mem_singleton.mp mem)
      missing := fun mem => apart (mem_singleton.mp mem).symm
      shallow := by simp
      bounded := ⟨nodup_singleton _, by simpa using here, by
        rw [length_singleton, length_singleton]
        omega⟩ }

theorem Answered.trail (answered : Answered leads start goal limit (some entries)) :
    ∃ steps, Search.trail start entries (entries.length + 1) goal = some steps ∧
      Shortest leads start goal steps ∧ Distance leads start steps.length goal ∧
        ∀ l ∈ limit, steps.length ≤ l := by
  obtain ⟨visited, n, traced, seen, distance, near, short⟩ := answered
  obtain ⟨steps, found, walk, rfl, nodup, -⟩ :=
    trail_ok traced seen distance (Nat.lt_succ_of_le short)
  exact ⟨steps, found, ⟨walk, nodup, fun other leads => distance.least _ leads.reach⟩, distance,
    near⟩

/-- What is asked of a search: it answers if its goal can be reached within the limit, and the
answer is read off a shortest walk. -/
structure FindsShortest {β : Type} (leads : α → ε → α → Prop) (limit : Option Nat) (start goal : α)
    (reads : List (ε × α) → β) (answer : Option β) : Prop where
  isSome_iff : answer.isSome ↔ ∃ steps, Walk leads start steps goal ∧ ∀ l ∈ limit, steps.length ≤ l
  shortest : ∀ b ∈ answer, ∃ steps, Shortest leads start goal steps ∧ b = reads steps

omit [DecidableEq α] in
theorem findsShortest_start {β : Type} (limit : Option Nat) (reads : List (ε × α) → β) :
    FindsShortest leads limit start start reads (some (reads [])) where
  isSome_iff := iff_of_true rfl ⟨[], rfl, fun _ _ => Nat.zero_le _⟩
  shortest _ same := ⟨[], ⟨rfl, nodup_singleton _, fun _ _ => Nat.zero_le _⟩,
    (Option.some.inj same).symm⟩

theorem Answered.finds {β : Type} {reads : List (ε × α) → β} {found : Option (Entries α ε)}
    (answered : Answered leads start goal limit found) {read : Entries α ε → β}
    (same : ∀ entries steps, Search.trail start entries (entries.length + 1) goal = some steps →
        read entries = reads steps) :
    FindsShortest leads limit start goal reads (found.map read) := by
  cases found with
  | none =>
    refine ⟨iff_of_false (by simp) ?_, nofun⟩
    rintro ⟨steps, walk, within⟩
    obtain ⟨l, isLimit, short⟩ := answered _ walk.reach
    exact absurd (within l isLimit) (Nat.not_le.mpr short)
  | some entries =>
    obtain ⟨steps, found, shortest, -, within⟩ := answered.trail
    refine ⟨iff_of_true rfl ⟨steps, shortest.walk, within⟩, fun b isRead => ?_⟩
    exact ⟨steps, shortest, (Option.some.inj isRead).symm.trans (same entries steps found)⟩

omit [DecidableEq α] in
theorem Shortest.length_unique {steps steps' : List (ε × α)}
    (shortest : Shortest leads start goal steps) (shortest' : Shortest leads start goal steps') :
    steps.length = steps'.length :=
  Nat.le_antisymm (shortest.least _ shortest'.walk) (shortest'.least _ shortest.walk)

end Correct

end Search
