/-!
# Dictionaries

Finite maps from names, kept as a list of entries in the order in which the names were first
inserted. The view of a dictionary is the function `get?`; `get?_insert` and `get?_erase` say what
the two updates do to it.
-/

namespace RegisterMachine

structure Dictionary (α : Type) where
  entries : List (String × α)
  deriving Inhabited

namespace Dictionary

variable {α : Type}

def empty : Dictionary α := ⟨[]⟩

def lookup (name : String) : List (String × α) → Option α
  | [] => none
  | (key, value) :: rest => if key = name then some value else lookup name rest

/-- Replaces the first entry under a name, or adds one at the end. -/
def replace (name : String) (value : α) : List (String × α) → List (String × α)
  | [] => [(name, value)]
  | (key, old) :: rest =>
    if key = name then (name, value) :: rest else (key, old) :: replace name value rest

def remove (name : String) : List (String × α) → List (String × α)
  | [] => []
  | (key, value) :: rest =>
    if key = name then remove name rest else (key, value) :: remove name rest

def get? (d : Dictionary α) (name : String) : Option α := lookup name d.entries

def insert (d : Dictionary α) (name : String) (value : α) : Dictionary α :=
  ⟨replace name value d.entries⟩

def erase (d : Dictionary α) (name : String) : Dictionary α := ⟨remove name d.entries⟩

def names (d : Dictionary α) : List String := d.entries.map (·.1)

@[simp] theorem get?_empty (name : String) : (empty : Dictionary α).get? name = none := rfl

theorem get?_insert (d : Dictionary α) (name other : String) (value : α) :
    (d.insert name value).get? other = if name = other then some value else d.get? other := by
  obtain ⟨entries⟩ := d
  induction entries with
  | nil => rfl
  | cons e rest ih =>
    obtain ⟨key, old⟩ := e
    simp only [insert, get?, replace] at ih ⊢
    by_cases hk : key = name
    · subst hk
      by_cases ho : key = other <;> simp [lookup, ho]
    · by_cases ho : key = other
      · subst ho
        simp [hk, lookup, Ne.symm hk]
      · simpa [hk, lookup, ho] using ih

@[simp] theorem get?_insert_self (d : Dictionary α) (name : String) (value : α) :
    (d.insert name value).get? name = some value := by
  simp [get?_insert]

theorem get?_erase (d : Dictionary α) (name other : String) :
    (d.erase name).get? other = if name = other then none else d.get? other := by
  obtain ⟨entries⟩ := d
  induction entries with
  | nil => simp [erase, get?, remove, lookup]
  | cons e rest ih =>
    obtain ⟨key, value⟩ := e
    simp only [erase, get?, remove] at ih ⊢
    by_cases hk : key = name
    · subst hk
      by_cases ho : key = other
      · simpa [ho] using ih
      · simpa [lookup, ho] using ih
    · by_cases ho : key = other
      · subst ho
        simp [hk, lookup, Ne.symm hk]
      · simpa [hk, lookup, ho] using ih

@[simp] theorem get?_erase_self (d : Dictionary α) (name : String) :
    (d.erase name).get? name = none := by
  simp [get?_erase]

end Dictionary

end RegisterMachine
