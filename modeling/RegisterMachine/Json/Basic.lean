import RegisterMachine.Decimal.Numeral

/-!
# JSON values and torn texts

A JSON text is read from left to right, and what is wrong with it must be reported in that order:
a value of the wrong shape wins over a syntax error that stands behind it, and the other way
round. So reading a text does not fail. It gives a value in which the place where the text stops
being JSON is marked, and whoever takes the value apart, from left to right, runs into the mark or
into the wrong shape, whichever comes first.

A value may be taken apart or skipped, and skipping is more tolerant: escapes of half a character
and numbers beyond all bounds are then no faults. A mark therefore says both what a reader of the
torn part finds and what somebody who skips it finds.
-/

namespace RegisterMachine

namespace Json

/-- What is wrong with a text that is not JSON. -/
inductive Fault where
  /-- no JSON text continues like this -/
  | malformed
  /-- the text ends too early -/
  | unfinished
  deriving DecidableEq, Repr, Inhabited

/-- The fault at a torn place, for those who read the value there and for those who skip it. -/
structure Tear where
  reading : Fault
  skipping : Fault
  deriving DecidableEq, Repr, Inhabited

/-- A tear that looks the same to all. -/
def Tear.of (fault : Fault) : Tear := ⟨fault, fault⟩

/-- Why a text does not give the value that is asked for. -/
inductive ReadError where
  | malformed
  | unfinished
  /-- the text is JSON of another shape -/
  | mismatched
  deriving DecidableEq, Repr, Inhabited

def Fault.toReadError : Fault → ReadError
  | malformed => .malformed
  | unfinished => .unfinished

end Json

mutual

/-- A JSON value as far as its text goes. -/
inductive Json where
  | null
  | bool (value : Bool)
  | number (numeral : Numeral)
  /-- A string; `none` if an escape in it stands for half of a character. -/
  | string (text : Option String)
  | array (items : Json.Items)
  | object (members : Json.Members)
  /-- The text breaks off in or before this value. -/
  | torn (tear : Json.Tear)

/-- The items of an array as far as its text goes. -/
inductive Json.Items where
  | done
  | item (head : Json) (rest : Json.Items)
  /-- The text breaks off where a comma or the end of the array should be. -/
  | torn (tear : Json.Tear)

/-- The members of an object as far as its text goes. -/
inductive Json.Members where
  | done
  | member (key : Option String) (value : Json) (rest : Json.Members)
  /-- The text breaks off where a key, a comma or the end of the object should be. -/
  | torn (tear : Json.Tear)

end

namespace Json

instance : Inhabited Json := ⟨null⟩

def Items.ofList : List Json → Items
  | [] => .done
  | v :: vs => .item v (Items.ofList vs)

def Members.ofList : List (String × Json) → Members
  | [] => .done
  | (k, v) :: ms => .member (some k) v (Members.ofList ms)

def Items.toList : Items → List Json
  | .done | .torn _ => []
  | .item v vs => v :: vs.toList

/-- The members before a tear, without those whose key cannot be read. -/
def Members.toList : Members → List (String × Json)
  | .done | .torn _ => []
  | .member (some k) v ms => (k, v) :: ms.toList
  | .member none _ ms => ms.toList

def ofString (s : String) : Json := .string (some s)

def ofList (items : List Json) : Json := .array (Items.ofList items)

def ofNat (n : Nat) : Json := .number ⟨false, Numeral.digitsOf n, none, none⟩

def ofInt (n : Int) : Json := .number ⟨decide (n < 0), Numeral.digitsOf n.natAbs, none, none⟩

def record (members : List (String × Json)) : Json := .object (Members.ofList members)

@[simp] theorem Items.toList_ofList (vs : List Json) : (Items.ofList vs).toList = vs := by
  induction vs with
  | nil => rfl
  | cons v vs ih => simp [Items.ofList, Items.toList, ih]

@[simp] theorem Members.toList_ofList (ms : List (String × Json)) :
    (Members.ofList ms).toList = ms := by
  induction ms with
  | nil => rfl
  | cons m ms ih => simp [Members.ofList, Members.toList, ih]

end Json

end RegisterMachine
