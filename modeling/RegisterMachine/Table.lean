import RegisterMachine.Dictionary
import RegisterMachine.Value

/-!
# Tables

A table has an array part, addressed by the natural numbers from one on without holes, a hash part
addressed by strings, and possibly a metatable. The reads and writes of this module are raw: they
consult no metatable.

The view of a table is the pair of functions `getIndex` and `getString`; the lemmas say what a
write does to both.
-/

namespace RegisterMachine

structure Table where
  /-- the value at index `i` is entry `i - 1` -/
  array : Array Value
  hash : Dictionary Value
  metatable : Option TableId
  deriving Inhabited

namespace Table

def empty : Table := ⟨#[], .empty, none⟩

def ofArray (values : Array Value) : Table := ⟨values, .empty, none⟩

def length (t : Table) : Nat := t.array.size

/-- The value under a string; nil if there is none. -/
def getString (t : Table) (key : String) : Value := (t.hash.get? key).getD .nil

/-- The value at an index of the array part; nil outside. -/
def getIndex (t : Table) (index : Nat) : Value :=
  if index = 0 then .nil else t.array.getD (index - 1) .nil

/-- Writes under a string. Nil removes the entry. -/
def setString (t : Table) (key : String) (value : Value) : Table :=
  { t with hash := if value.isNil then t.hash.erase key else t.hash.insert key value }

/-- Writes at an index of the array part, or behind its end; `none` if that would leave a hole. -/
def setIndex? (t : Table) (index : Nat) (value : Value) : Option Table :=
  if index = 0 then none
  else if index ≤ t.array.size then
    some { t with array := t.array.setIfInBounds (index - 1) value }
  else if index = t.array.size + 1 then some { t with array := t.array.push value }
  else none

theorem getString_setString (t : Table) (key other : String) (value : Value) :
    (t.setString key value).getString other =
      if key = other then value else t.getString other := by
  unfold setString getString
  split
  · rename_i h
    have : value = .nil := (Value.isNil_iff value).1 h
    subst this
    by_cases hk : key = other <;> simp [Dictionary.get?_erase, hk]
  · by_cases hk : key = other <;> simp [Dictionary.get?_insert, hk]

theorem getIndex_setIndex? {t t' : Table} {index : Nat} {value : Value}
    (h : t.setIndex? index value = some t') (other : Nat) :
    t'.getIndex other = if other = index then value else t.getIndex other := by
  unfold setIndex? at h
  split at h
  · cases h
  · split at h
    · obtain rfl := Option.some.inj h
      by_cases ho : other = index
      · subst ho
        have : other - 1 < t.array.size := by omega
        simp [getIndex, *]
      · have hne : other = 0 ∨ index - 1 ≠ other - 1 := by omega
        rcases hne with rfl | hne
        · simp [getIndex, ho]
        · simp [getIndex, ho, hne]
    · split at h
      · rename_i hsize
        obtain rfl := Option.some.inj h
        by_cases ho : other = index
        · subst ho
          have : other - 1 = t.array.size := by omega
          simp [getIndex, *]
        · have hne : other = 0 ∨ other - 1 ≠ t.array.size := by omega
          rcases hne with rfl | hne
          · simp [getIndex, ho]
          · simp [getIndex, Array.getElem?_push, ho, hne]
      · cases h

theorem getString_setIndex? {t t' : Table} {index : Nat} {value : Value}
    (h : t.setIndex? index value = some t') (key : String) :
    t'.getString key = t.getString key := by
  unfold setIndex? at h
  split at h
  · cases h
  · split at h
    · obtain rfl := Option.some.inj h
      rfl
    · split at h
      · obtain rfl := Option.some.inj h
        rfl
      · cases h

@[simp] theorem getIndex_setString (t : Table) (key : String) (value : Value) (index : Nat) :
    (t.setString key value).getIndex index = t.getIndex index := rfl

@[simp] theorem length_setString (t : Table) (key : String) (value : Value) :
    (t.setString key value).length = t.length := rfl

end Table

end RegisterMachine
