import Libubox.Lib.Bytes
import Libubox.Lib.Decimal

/-!
# JSON nodes

`struct json`, the constructors of the API and what a parsing function of
`json.c` leaves behind.

A chain of siblings is kept the way the C structure keeps it: a node has its
first child and its next sibling, and `nil` is the null pointer.  The back
links `prev` are determined by the chain and left out.
-/

namespace Libubox

open Binary64

/-- The bytes of a C string without its terminator, or a piece of memory. -/
abbrev Text := List UInt8

/-- `JSON_T_FALSE` to `JSON_T_OBJECT`. -/
inductive JsonType where
  | false
  | true
  | null
  | number
  | string
  | array
  | object
  deriving DecidableEq

/-- The fields of `struct json` other than its links. -/
structure Item where
  type : JsonType
  valuestring : Option Text
  valueint : Int
  valuedouble : Double
  string : Option Text
  printOut : Option Text
  printFmt : Bool
  deriving DecidableEq

/-- A pointer to a `struct json`: a node with its `child` and its `next`. -/
inductive Json where
  | nil
  | node (item : Item) (child next : Json)
  deriving DecidableEq

namespace Json

/-! ## Characters -/

abbrev quote : UInt8 := 34
abbrev backslash : UInt8 := 92
abbrev comma : UInt8 := 44
abbrev colon : UInt8 := 58
abbrev openBracket : UInt8 := 91
abbrev closeBracket : UInt8 := 93
abbrev openBrace : UInt8 := 123
abbrev closeBrace : UInt8 := 125
abbrev minus : UInt8 := 45
abbrev letterU : UInt8 := 117

/-- `isspace` in the C locale. -/
def isSpace (c : UInt8) : Bool := c = 32 || (9 ≤ c && c ≤ 13)

/-! ## What lies outside the source -/

/-- `DBL_EPSILON`. -/
def dblEpsilon : Double := .finite (1 / 2 ^ 52)

/-- The C library and the machine, where the source depends on them: `pow` at
base ten, the text of a value that is not a number, and what the variables
`uc` and `uc2` of a call of `parse_string` hold before they are written. -/
structure Libc where
  pow10 : Int → Double
  pow10_zero : pow10 0 = .finite 1
  nanText : Text
  uninit : Text → UInt32 × UInt32

instance : Inhabited Libc where
  default :=
    { pow10 := fun e => if e = 0 then .finite 1 else round (10 ^ e)
      pow10_zero := rfl
      nanText := [110, 97, 110]
      uninit := fun _ => (0, 0) }

/-! ## Running over memory -/

/-- What a call leaves behind: a result with the cursor on `rest`, a null
pointer with the cursor on `rest`, or an access outside the memory it was
given.  The cursor is the memory from its position on. -/
inductive Outcome (α : Type) where
  | ok (value : α) (rest : Text)
  | null (rest : Text)
  | fault
  deriving DecidableEq

/-- Go on with a result. -/
def Outcome.bind {α β : Type} : Outcome α → (α → Text → Outcome β) → Outcome β
  | .ok a rest, f => f a rest
  | .null rest, _ => .null rest
  | .fault, _ => .fault

@[simp] theorem Outcome.bind_ok {α β : Type} (a : α) (rest : Text)
    (f : α → Text → Outcome β) : (Outcome.ok a rest).bind f = f a rest := rfl

@[simp] theorem Outcome.bind_null {α β : Type} (rest : Text)
    (f : α → Text → Outcome β) : (Outcome.null rest : Outcome α).bind f = .null rest := rfl

@[simp] theorem Outcome.bind_fault {α β : Type} (f : α → Text → Outcome β) :
    (Outcome.fault : Outcome α).bind f = .fault := rfl

/-- `skip`, on memory that ends in something other than white space. -/
def skip (m : Text) : Text := m.dropWhile isSpace

/-! ## Constructors -/

/-- The zeroed structure of `json_new_item`. -/
def newItem : Item :=
  { type := .false, valuestring := none, valueint := 0, valuedouble := .finite 0,
    string := none, printOut := none, printFmt := false }

/-- `json_create_null`. -/
def createNull : Json := node { newItem with type := .null } nil nil

/-- `json_create_true`. -/
def createTrue : Json := node { newItem with type := .true } nil nil

/-- `json_create_false`. -/
def createFalse : Json := node { newItem with type := .false } nil nil

/-- `json_create_bool`. -/
def createBool (b : Bool) : Json :=
  node { newItem with type := if b then .true else .false } nil nil

/-- `json_create_number64`. -/
def createNumber64 (num : Int) : Json :=
  node { newItem with type := .number, valuedouble := .ofInt num, valueint := num } nil nil

/-- `json_create_number`. -/
def createNumber (num : Double) : Json :=
  node { newItem with type := .number, valuedouble := num, valueint := num.toInt64 } nil nil

/-- `json_create_string`. -/
def createString (string : Text) : Json :=
  node { newItem with type := .string, valuestring := some string } nil nil

/-- `json_create_array`. -/
def createArray : Json := node { newItem with type := .array } nil nil

/-- `json_create_object`. -/
def createObject : Json := node { newItem with type := .object } nil nil

/-! ## Chains -/

/-- The node's `next` is set to `next`. -/
def linkNext (next : Json) : Json → Json
  | nil => nil
  | node item child _ => node item child next

/-- The node's `string` is set to `key`. -/
def setKey (key : Text) : Json → Json
  | nil => nil
  | node item child next => node { item with string := some key } child next

/-! ## Members -/

/-- `tolower` in the C locale. -/
def toLower (c : UInt8) : UInt8 := if 65 ≤ c ∧ c ≤ 90 then c + 32 else c

/-- Whether `json_strcasecmp` finds two strings equal; memory is read up to its
first zero. -/
def strcasecmpEq : Option Text → Text → Bool
  | none, _ => false
  | some s, t => (s.takeWhile (· ≠ 0)).map toLower == (t.takeWhile (· ≠ 0)).map toLower

/-- The loop of `json_get_object_item` over the children: the first one of that
name, with what follows it. -/
def findItem (name : Text) : Json → Option (Item × Json)
  | nil => none
  | node item child next =>
      if strcasecmpEq item.string name then some (item, child) else findItem name next

/-- The children of a node. -/
def children : Json → Json
  | nil => nil
  | node _ child _ => child

/-- `json_get_object_item`: the fields and the children of the item. -/
def getObjectItem (object : Json) (name : Text) : Option (Item × Json) :=
  findItem name object.children

/-- `json_detach_item_from_object`: the item, without its siblings. -/
def detachItemFromObject (object : Json) (name : Text) : Option Json :=
  (findItem name object.children).map fun (item, child) => node item child nil

end Json

end Libubox
