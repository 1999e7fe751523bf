import QueryBody.Slots
import QueryBody.Value.Basic

/-!
# The numbered tree of a body

All values and property names of a body are numbered in the order in which they
begin, from zero.  A place is a numbered value together with the number of its
container; a property name counts as a string.
-/

namespace QueryBody

/-- A numbered value of a body. -/
structure Place where
  id : Nat
  parent : Option Nat
  value : Value

/-- The numbers of a property's name and value. -/
structure Entry where
  name : Nat
  value : Option Nat
  deriving DecidableEq, Repr

/-- What a place holds, with numbers in place of its parts. -/
inductive Content
  | scalar (content : Scalar)
  | array (items : List Nat)
  | object (entries : List (String × Entry))
  deriving DecidableEq

namespace Value

mutual

/-- The places of a value that has a number. -/
def places (parent : Option Nat) (id : Nat) : Value → List Place
  | scalar token content => [⟨id, parent, scalar token content⟩]
  | array opener items => ⟨id, parent, array opener items⟩ :: itemPlaces id (id + 1) items
  | object opener members =>
      ⟨id, parent, object opener members⟩ :: memberPlaces id (id + 1) members

def itemPlaces (parent next : Nat) : List Value → List Place
  | [] => []
  | item :: rest => places (some parent) next item ++ itemPlaces parent (next + item.size) rest

def memberPlaces (parent next : Nat) : List Member → List Place
  | [] => []
  | .bare key :: rest => ⟨next, some parent, key.value⟩ :: memberPlaces parent (next + 1) rest
  | .pair key value :: rest =>
      ⟨next, some parent, key.value⟩ :: places (some parent) (next + 1) value ++
        memberPlaces parent (next + 1 + value.size) rest

end

/-- The numbers of items, of which the first has the number `next`. -/
def itemIds (next : Nat) : List Value → List Nat
  | [] => []
  | item :: rest => next :: itemIds (next + item.size) rest

/-- The numbers of members, of which the first has the number `next`. -/
def memberIds (next : Nat) : List Member → List (String × Entry)
  | [] => []
  | .bare key :: rest => (key.text, ⟨next, none⟩) :: memberIds (next + 1) rest
  | .pair key value :: rest =>
      (key.text, ⟨next, some (next + 1)⟩) :: memberIds (next + 1 + value.size) rest

mutual

theorem length_places (parent : Option Nat) (id : Nat) :
    ∀ value : Value, (places parent id value).length = value.size
  | scalar _ _ => rfl
  | array _ items => by
      simp [places, size, length_itemPlaces id (id + 1) items, Nat.add_comm]
  | object _ members => by
      simp [places, size, length_memberPlaces id (id + 1) members, Nat.add_comm]

theorem length_itemPlaces (parent next : Nat) :
    ∀ items : List Value, (itemPlaces parent next items).length = itemsSize items
  | [] => rfl
  | item :: rest => by
      simp [itemPlaces, itemsSize, length_places (some parent) next item,
        length_itemPlaces parent (next + item.size) rest]

theorem length_memberPlaces (parent next : Nat) :
    ∀ members : List Member, (memberPlaces parent next members).length = membersSize members
  | [] => rfl
  | .bare _ :: rest => by
      simp [memberPlaces, membersSize, length_memberPlaces parent (next + 1) rest, Nat.add_comm]
  | .pair _ value :: rest => by
      simp [memberPlaces, membersSize, length_places (some parent) (next + 1) value,
        length_memberPlaces parent (next + 1 + value.size) rest]
      omega

end

end Value

namespace Place

def token (place : Place) : Token := place.value.token

def content (place : Place) : Content :=
  match place.value with
  | .scalar _ content => .scalar content
  | .array _ items => .array (Value.itemIds (place.id + 1) items)
  | .object _ members => .object (Slots.ofList (Value.memberIds (place.id + 1) members))

def items? (place : Place) : Option (List Nat) :=
  match place.content with
  | .array items => some items
  | _ => none

/-- The entries of an object in the order of their slots. -/
def entries? (place : Place) : Option (List (String × Entry)) :=
  match place.content with
  | .object entries => some entries
  | _ => none

/-- The items of an array, or the values of an object in the order of their slots. -/
def children (place : Place) : List Nat :=
  match place.content with
  | .scalar _ => []
  | .array items => items
  | .object entries => entries.filterMap (·.2.value)

def property? (place : Place) (key : String) : Option Nat := do
  let entries ← place.entries?
  let entry ← Slots.find? key entries
  entry.value

end Place

/-- The same content, where the order of an object's entries does not matter. -/
def Content.same : Content → Content → Bool
  | scalar a, scalar b => a.same b
  | array a, array b => a = b
  | object a, object b =>
      a.length = b.length && a.all fun entry => Slots.find? entry.1 b = some entry.2
  | _, _ => false

/-- The same value at the same place, up to the order of entries. -/
def Place.same (first second : Place) : Bool :=
  first.token = second.token && first.parent = second.parent &&
    first.content.same second.content

/-- The numbered values of a body; without a root there are none. -/
structure Tree where
  root : Option Value

namespace Tree

def rootId? (tree : Tree) : Option Nat := tree.root.map fun _ => 0

def places (tree : Tree) : List Place :=
  match tree.root with
  | none => []
  | some value => value.places none 0

def size (tree : Tree) : Nat := tree.places.length

def get? (tree : Tree) (id : Nat) : Option Place := tree.places[id]?

/-- At most `steps` of the containers from a number on, the innermost first. -/
def climb (tree : Tree) : (steps : Nat) → Option Nat → List Nat
  | 0, _ => []
  | _, none => []
  | steps + 1, some id => id :: tree.climb steps ((tree.get? id).bind (·.parent))

/-- The containers of a place, the innermost first.  Containers have smaller numbers than their
parts, so a place has at most as many as its number says. -/
def ancestors (tree : Tree) (place : Place) : List Nat := tree.climb place.id place.parent

/-- The same root and the same values at the same places. -/
def same (first second : Tree) : Bool :=
  first.root.isSome = second.root.isSome && first.size = second.size &&
    (first.places.zip second.places).all fun (a, b) => a.same b

end Tree
end QueryBody
