import QueryBody.Value.Basic

/-!
# Containers under construction

While a body is read, the innermost container collects its parts, latest first,
and every container around it has a hole for the value that is being read.
-/

namespace QueryBody

/-- An object or array with the parts read so far, the latest first. -/
inductive Container
  | array (opener : Token) (items : List Value)
  | object (opener : Token) (members : List Member)

/-- A container that waits for a value. -/
inductive Hole
  | item (opener : Token) (items : List Value)
  | property (opener : Token) (members : List Member) (key : Key)

namespace Container

/-- The empty container that a bracket opens. -/
def ofOpener (opener : Token) : Container :=
  if opener.kind = .braceOpen then object opener [] else array opener []

def opener : Container → Token
  | array opener _ => opener
  | object opener _ => opener

def closer : Container → Kind
  | array _ _ => .bracketClose
  | object _ _ => .braceClose

def isEmpty : Container → Bool
  | array _ items => items.isEmpty
  | object _ members => members.isEmpty

/-- The value that a container has become. -/
def value : Container → Value
  | array opener items => .array opener items.reverse
  | object opener members => .object opener members.reverse

end Container

namespace Hole

/-- The container once its hole holds a value, or once no value could be read for it.  An array
forgets a missing item; an object keeps the name of a missing value. -/
def fill : Hole → Option Value → Container
  | item opener items, none => .array opener items
  | item opener items, some value => .array opener (value :: items)
  | property opener members key, value => .object opener (.of key value :: members)

/-- The container without the part that was being read. -/
def discard : Hole → Container
  | item opener items => .array opener items
  | property opener members _ => .object opener members

end Hole

namespace Container

/-- The root value, if every container ends where it is. -/
def enclose (container : Container) : List Hole → Value
  | [] => container.value
  | hole :: rest => (hole.fill (some container.value)).enclose rest

/-- The root value of a body that is cut off in a container: every container ends where it is,
and one inside another that would be empty is left out, together with its name. -/
def cutOff (container : Container) : List Hole → Value
  | [] => container.value
  | hole :: rest =>
      if container.isEmpty then hole.discard.cutOff rest
      else (hole.fill (some container.value)).cutOff rest

end Container

namespace Hole

/-- The root value if the value being read is given up, and with it the rest of the body. -/
def abandon : List Hole → Option Value
  | [] => none
  | hole :: rest => some ((hole.fill none).enclose rest)

/-- The root value of a body that is cut off before the value being read is complete. -/
def cutOff : List Hole → Option Value
  | [] => none
  | hole :: rest => some (hole.discard.cutOff rest)

end Hole
end QueryBody
