import RegisterMachine.Json.Quantity
import RegisterMachine.Json.Shape

/-!
# Looking into JSON values

Functions for values that are known to be whole. What is not there, or is of another shape, reads as
`none`. `sorted` puts the members of all objects into the order of their keys.
-/

namespace RegisterMachine

namespace Json

def members : Json → List (String × Json)
  | object ms => ms.toList
  | _ => []

def field? (v : Json) (key : String) : Option Json := v.members.lookup key

def items? : Json → Option (List Json)
  | array items => some items.toList
  | _ => none

def text? : Json → Option String
  | string text => text
  | _ => none

def bool? : Json → Option Bool
  | bool b => some b
  | _ => none

def int? : Json → Option Int
  | number n =>
    match n.quantity? with
    | some (.natural k) => some k
    | some (.negated k) => some (-(k : Int))
    | _ => none
  | _ => none

def nat? (v : Json) : Option Nat :=
  match v.int? with
  | some n => if 0 ≤ n then some n.toNat else none
  | none => none

def float? : Json → Option Float
  | number n => n.quantity?.map Quantity.toFloat
  | _ => none

/-- Inserts a member into members that are in the order of their keys. -/
def Members.insert (key : Option String) (value : Json) : Members → Members
  | .member k v rest =>
    if key.getD "" < k.getD "" then .member key value (.member k v rest)
    else .member k v (rest.insert key value)
  | ms => .member key value ms

mutual

/-- The value with the members of all objects in the order of their keys. -/
def sorted : Json → Json
  | array items => array items.sorted
  | object ms => object ms.sorted
  | v => v

def Items.sorted : Items → Items
  | .item head rest => .item head.sorted rest.sorted
  | items => items

def Members.sorted : Members → Members
  | .member key value rest => Members.insert key value.sorted rest.sorted
  | ms => ms

end

end Json

end RegisterMachine
