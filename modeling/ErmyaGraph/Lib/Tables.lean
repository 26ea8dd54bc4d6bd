import Mathlib.Algebra.Order.Ring.Int
import Mathlib.Data.List.AList

/-! # Tables

Lookups in an association list after an entry is set or dropped. -/

namespace Tables

variable {κ ν : Type} [DecidableEq κ] (table : AList fun _ : κ => ν)

theorem lookup_insert (key other : κ) (value : ν) :
    (table.insert key value).lookup other =
      if other = key then some value else table.lookup other := by
  split
  · next same => rw [same, AList.lookup_insert]
  · next ne => exact AList.lookup_insert_ne ne

theorem lookup_erase (key other : κ) :
    (table.erase key).lookup other = if other = key then none else table.lookup other := by
  split
  · next same => rw [same, AList.lookup_erase]
  · next ne => exact AList.lookup_erase_ne ne

end Tables
