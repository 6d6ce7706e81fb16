/-!
# Tables with a default

A `Table` gives every natural number an entry.  Only finitely many entries were ever written; all the
others hold the default of the entry type.  Analyses keep their facts about instructions and blocks in
tables, so a question about an index nobody wrote is answered, not refused.

The two laws `get_set_self` and `get_set_ne` are all that other modules need to know.
-/

namespace Midend

/-- A total map from indices to entries, the default wherever nothing was written. -/
structure Table (α : Type) where
  entries : Array α
deriving Repr

namespace Table

variable {α : Type}

/-- The table that holds the default everywhere. -/
def empty : Table α := ⟨#[]⟩

instance : Inhabited (Table α) := ⟨empty⟩

variable [Inhabited α]

/-- The entry at an index. -/
def get (t : Table α) (i : Nat) : α := t.entries.getD i default

/-- Write one entry. -/
def set (t : Table α) (i : Nat) (a : α) : Table α :=
  if i < t.entries.size then
    ⟨t.entries.setIfInBounds i a⟩
  else
    ⟨(t.entries ++ Array.replicate (i - t.entries.size) default).push a⟩

/-- Apply a function to one entry. -/
def modify (t : Table α) (i : Nat) (f : α → α) : Table α := t.set i (f (t.get i))

/-- Apply a function to every written entry.  It is meant for functions that keep the default. -/
def map (t : Table α) (f : α → α) : Table α := ⟨t.entries.map f⟩

/-- An empty table has the default everywhere. -/
@[simp] theorem get_empty (i : Nat) : (empty : Table α).get i = default := by
  simp [get, empty]

/-- What was set is found. -/
@[simp] theorem get_set_self (t : Table α) (i : Nat) (a : α) : (t.set i a).get i = a := by
  unfold get set
  split
  · next h => simp [Array.getD_eq_getD_getElem?, h]
  · next h =>
    have hs : t.entries.size + (i - t.entries.size) = i := by omega
    simp only [Array.getD_eq_getD_getElem?, Array.getElem?_push, Array.size_append,
      Array.size_replicate, hs, if_true, Option.getD_some]

/-- Setting an entry leaves the others. -/
theorem get_set_ne (t : Table α) {i j : Nat} (a : α) (h : j ≠ i) : (t.set i a).get j = t.get j := by
  unfold get set
  split
  · simp [Array.getD_eq_getD_getElem?, Array.getElem?_setIfInBounds_ne (Ne.symm h)]
  · next hi =>
    have hs : t.entries.size + (i - t.entries.size) = i := by omega
    simp only [Array.getD_eq_getD_getElem?, Array.getElem?_push, Array.size_append,
      Array.size_replicate, hs, if_neg h]
    by_cases hj : j < t.entries.size
    · simp [Array.getElem?_append_left hj]
    · simp only [Array.getElem?_append_right (Nat.le_of_not_lt hj), Array.getElem?_replicate]
      split <;> simp [Array.getElem?_eq_none (Nat.le_of_not_lt hj)]

/-- Reading after writing, in one equation. -/
theorem get_set (t : Table α) (i j : Nat) (a : α) :
    (t.set i a).get j = if j = i then a else t.get j := by
  split
  · next h => subst h; simp
  · next h => exact get_set_ne t a h

end Table

end Midend
