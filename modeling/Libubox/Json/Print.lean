import Libubox.Json.String
import Libubox.Lib.Writer

/-!
# The printer

`print_value` and the functions below it.  Strings, arrays and objects are measured
in one pass and written into memory of that size in another.  What a call comes to is
a text, a null pointer, or what C leaves open: an `int` that a length does not fit, a
store outside the memory, a text without a terminator.  The loops that write run only
once every piece is there, so the lengths are added up over the pieces then.  The text
of a number is taken as a whole: that it fits the 21 or 64 bytes of `print_number` is
not looked at.

A call also leaves its text behind in the item (`print_out`, `print_fmt`), and finds
it there when it comes back in the same mode.
-/

namespace Libubox.Json.Printer

open Binary64 Decimal escapeChar
open Writers (Out)

/-! ## Numbers -/

/-- What `printf` makes of a double, given what it makes of finite ones. -/
def doubleText (env : Libc) (finite : ℚ → Text) : Double → Text
  | .finite q => finite q
  | .inf negative => (if negative then [minus] else []) ++ [105, 110, 102]
  | .nan => env.nanText

/-- The first test of `print_number`: the item is as good as its integer. -/
def isInteger (item : Item) : Bool :=
  ((Double.ofInt item.valueint).sub item.valuedouble).abs.le dblEpsilon &&
    item.valuedouble.le (.ofInt (2 ^ 63 - 1)) && (Double.ofInt (-2 ^ 63)).le item.valuedouble

/-- `print_number`: the bytes it asks for, and the text it prints. -/
def printNumber (env : Libc) (item : Item) : Nat × Text :=
  let d := item.valuedouble
  if isInteger item then (21, intText item.valueint)
  else if (d.floor.sub d).abs.le dblEpsilon then (64, doubleText env (fixedText 0) d)
  else if d.abs.lt (round (1 / 10 ^ 6)) || (Double.ofInt (10 ^ 9)).lt d.abs then
    (64, doubleText env exponentText d)
  else (64, doubleText env (fixedText 6) d)

/-! ## Memory -/

/-- What a call comes to; a text leaves out its terminator. -/
inductive Printed where
  | text (t : Text)
  | null
  | fault
  deriving DecidableEq

/-- The text, if there is one. -/
def Printed.text? : Printed → Option Text
  | text t => some t
  | _ => none

/-- An addition to an `int` that holds a length; C does not say what one comes to that
does not fit. -/
def addLen (len k : Nat) : Option Nat := if len + k < 2 ^ 31 then some (len + k) else none

/-! ## Strings -/

/-- The characters `strchr` finds in `"\"\\\b\f\n\r\t"`. -/
def isShort (c : UInt8) : Bool := c ∈ [quote, backslash, 8, 12, 10, 13, 9]

/-- The first loop of `print_string_ptr`. -/
def measureString (len : Nat) : Text → Option Nat
  | [] => some len
  | c :: s =>
      (addLen len 1).bind fun len =>
        (if isShort c then addLen len 1 else if c < 32 then addLen len 5 else some len).bind
          fun len => measureString len s

/-- The letter behind the backslash. -/
def escapeLetter (c : UInt8) : Option UInt8 :=
  if c = backslash then some backslash
  else if c = quote then some quote
  else if c = 8 then some 98
  else if c = 12 then some 102
  else if c = 10 then some 110
  else if c = 13 then some 114
  else if c = 9 then some 116
  else none

/-- The second loop of `print_string_ptr`. -/
def writeChars (o : Out UInt8) : Text → Option (Out UInt8)
  | [] => some o
  | c :: s =>
      (if 31 < c ∧ c ≠ quote ∧ c ≠ backslash then o.put [c]
        else
          (o.put [backslash]).bind fun o =>
            match escapeLetter c with
            | some letter => o.put [letter]
            -- sprintf(ptr2, "u%04x", token)
            | none => o.strcpy [letterU, 48, 48, hexDigit (c / 16), hexDigit (c % 16)]).bind
        fun o => writeChars o s

/-- What `print_string_ptr` writes. -/
def composeString (size : Nat) (str : Text) : Option (Out UInt8) :=
  ((Out.new size).put [quote]).bind fun o =>
    (writeChars o str).bind fun o => (o.put [quote]).bind fun o => o.put [0]

/-- What was written, as a string. -/
def Printed.ofOut : Option (Out UInt8) → Printed
  | some o => if o.written.getLast? = some 0 then text o.written.dropLast else fault
  | none => fault

/-- Memory for `len` bytes is allocated and written. -/
def allocate (grants : Nat → Bool) (compose : Nat → Option (Out UInt8)) : Option Nat → Printed
  | none => .fault
  | some len => if grants len then .ofOut (compose len) else .null

/-- `json_strdup` of a constant. -/
def strdupText (grants : Nat → Bool) (t : Text) : Printed :=
  if grants (t.length + 1) then .text t else .null

/-- `print_string_ptr`.  `grants` tells which sizes `json_malloc` grants. -/
def printStringPtr (grants : Nat → Bool) : Option Text → Printed
  | none => strdupText grants []
  | some str =>
      let str := str.takeWhile (· ≠ 0)
      allocate grants (composeString · str) ((measureString 0 str).bind (addLen · 3))

/-! ## Arrays -/

/-- The texts of the entries; the first one that is not a text ends the loop. -/
def collectEntries : List Printed → Except Printed (List Text)
  | [] => .ok []
  | .text t :: rs => (collectEntries rs).map (t :: ·)
  | r :: _ => .error r

/-- The length that `print_array` computes. -/
def measureArray (fmt : Bool) (len : Nat) : List Text → Option Nat
  | [] => some len
  | t :: ts =>
      (addLen len (t.length + 2 + if fmt then 1 else 0)).bind fun len => measureArray fmt len ts

/-- The loop of `print_array` that writes the entries. -/
def writeEntries (fmt : Bool) (o : Out UInt8) : List Text → Option (Out UInt8)
  | [] => some o
  | [t] => o.strcpy t
  | t :: ts =>
      (o.strcpy t).bind fun o =>
        (o.put [comma]).bind fun o =>
          (if fmt then o.put [32] else some o).bind fun o =>
            o.terminate.bind fun o => writeEntries fmt o ts

/-- What `print_array` writes. -/
def composeArray (size : Nat) (fmt : Bool) (entries : List Text) : Option (Out UInt8) :=
  ((Out.new size).put [openBracket]).bind fun o =>
    o.terminate.bind fun o =>
      (writeEntries fmt o entries).bind fun o =>
        (o.put [closeBracket]).bind fun o => o.put [0]

/-- The array of pointers is allocated. -/
def hasEntries (grants : Nat → Bool) (numentries : Nat) : Bool := grants (8 * numentries)

/-- `print_array`, given what the calls for the children come to. -/
def printArray (grants : Nat → Bool) (fmt : Bool) (results : List Printed) : Printed :=
  if 2 ^ 31 ≤ results.length then .fault
  else if hasEntries grants results.length then
    match collectEntries results with
    | .error r => r
    | .ok entries => allocate grants (composeArray · fmt entries) (measureArray fmt 5 entries)
  else .null

/-! ## Objects -/

/-- The names and texts of the entries; a null pointer does not end the loop. -/
def collectMembers : List (Printed × Printed) → Except Printed (List (Text × Text))
  | [] => .ok []
  | (.fault, _) :: _ => .error .fault
  | (_, .fault) :: _ => .error .fault
  | (.text s, .text t) :: rs => (collectMembers rs).map ((s, t) :: ·)
  | _ :: rs =>
      match collectMembers rs with
      | .error .fault => .error .fault
      | _ => .error .null

/-- The length that `print_object` computes, with `depth` one more than its argument. -/
def measureObject (fmt : Bool) (depth len : Nat) : List (Text × Text) → Option Nat
  | [] => some len
  | p :: ps =>
      (addLen len (p.2.length + p.1.length + 2 + if fmt then 2 + depth else 0)).bind fun len =>
        measureObject fmt depth len ps

/-- One turn of the loop of `print_object` that writes the entries. -/
def writeMember (fmt : Bool) (depth : Nat) (last : Bool) (o : Out UInt8) (p : Text × Text) :
    Option (Out UInt8) :=
  (if fmt then o.put (List.replicate depth 9) else some o).bind fun o =>
    (o.strcpy p.1).bind fun o =>
      (o.put [colon]).bind fun o =>
        (if fmt then o.put [9] else some o).bind fun o =>
          (o.strcpy p.2).bind fun o =>
            (if last then some o else o.put [comma]).bind fun o =>
              (if fmt then o.put [10] else some o).bind Out.terminate

def writeMembers (fmt : Bool) (depth : Nat) (o : Out UInt8) : List (Text × Text) → Option (Out UInt8)
  | [] => some o
  | p :: ps => (writeMember fmt depth ps.isEmpty o p).bind fun o => writeMembers fmt depth o ps

/-- What `print_object` writes. -/
def composeObject (size : Nat) (fmt : Bool) (depth : Nat) (members : List (Text × Text)) :
    Option (Out UInt8) :=
  ((Out.new size).put [openBrace]).bind fun o =>
    (if fmt then o.put [10] else some o).bind fun o =>
      o.terminate.bind fun o =>
        (writeMembers fmt depth o members).bind fun o =>
          (if fmt then o.put (List.replicate (depth - 1) 9) else some o).bind fun o =>
            (o.put [closeBrace]).bind fun o => o.put [0]

/-- `print_object`, given what the calls for the names and the children come to. -/
def printObject (grants : Nat → Bool) (fmt : Bool) (depth : Nat)
    (results : List (Printed × Printed)) : Printed :=
  if 2 ^ 31 ≤ results.length then .fault
  else if hasEntries grants results.length then
    match collectMembers results with
    | .error r => r
    | .ok members =>
        allocate grants (composeObject · fmt depth members)
          ((addLen 7 (if fmt then depth else 0)).bind fun len =>
            measureObject fmt depth len members)
  else .null

/-! ## Values -/

/-- The text that an item brings along. -/
def cached (fmt : Bool) (item : Item) : Option Text :=
  if item.printFmt = fmt then item.printOut else none

/-- The children once the calls for the first ones were made. -/
def visited : Json → List (Item × Json) → Json
  | node _ _ next, (item, child) :: rest => node item child (visited next rest)
  | chain, _ => chain

/-- The calls that an array makes: none after one that is not a text. -/
def upToFailure : List (Printed × Item × Json) → List (Item × Json)
  | [] => []
  | (.text _, x) :: rs => x :: upToFailure rs
  | (_, x) :: _ => [x]

/-- `print_value` of an item, given the calls for its children: what it comes to, and
the item and the children after it. -/
def printItem (env : Libc) (grants : Nat → Bool) (fmt : Bool) (depth : Nat) (item : Item)
    (child : Json) (calls : List (Printed × Item × Json)) : Printed × Item × Json :=
  match cached fmt item with
  | some t => (.text t, item, child)
  | none =>
      let (out, child) : Printed × Json :=
        match item.type with
        | .null => (strdupText grants [110, 117, 108, 108], child)
        | .false => (strdupText grants [102, 97, 108, 115, 101], child)
        | .true => (strdupText grants [116, 114, 117, 101], child)
        | .number =>
            let (size, t) := printNumber env item
            (if grants size then .text t else .null, child)
        | .string => (printStringPtr grants item.valuestring, child)
        | .array =>
            (printArray grants fmt (calls.map Prod.fst),
              if hasEntries grants calls.length then visited child (upToFailure calls) else child)
        | .object =>
            (printObject grants fmt (depth + 1)
                (calls.map fun c => (printStringPtr grants c.2.1.string, c.1)),
              if hasEntries grants calls.length then visited child (calls.map Prod.snd)
              else child)
      (out, { item with printOut := out.text?, printFmt := fmt }, child)

/-- `print_value` of every item of a chain. -/
def printChain (env : Libc) (grants : Nat → Bool) (fmt : Bool) :
    Nat → Json → List (Printed × Item × Json)
  | _, nil => []
  | depth, node item child next =>
      printItem env grants fmt depth item child (printChain env grants fmt (depth + 1) child)
        :: printChain env grants fmt depth next

/-- `print_value` at depth 0: what it comes to, and the item after it. -/
def printValue (env : Libc) (grants : Nat → Bool) (fmt : Bool) : Json → Printed × Json
  | nil => (.null, nil)
  | node item child next =>
      let (out, item, child) :=
        printItem env grants fmt 0 item child (printChain env grants fmt 1 child)
      (out, node item child next)

/-- `json_to_string`. -/
def jsonToString (env : Libc) (grants : Nat → Bool) (item : Json) : Printed × Json :=
  printValue env grants true item

/-- `json_to_string_unformatted`. -/
def jsonToStringUnformatted (env : Libc) (grants : Nat → Bool) (item : Json) : Printed × Json :=
  printValue env grants false item

/-- `{"a":[1,"\n"]}` in both modes. -/
example : (fun fmt => (printValue default (fun _ => true) fmt
    (node { newItem with type := .object }
      (node { newItem with type := .array, string := some [97] }
        (node { newItem with type := .true } nil
          (node { newItem with type := .string, valuestring := some [10] } nil nil)) nil)
      nil)).1) <$> [false, true]
    = [.text [123, 34, 97, 34, 58, 91, 116, 114, 117, 101, 44, 34, 92, 110, 34, 93, 125],
      .text [123, 10, 9, 34, 97, 34, 58, 9, 91, 116, 114, 117, 101, 44, 32, 34, 92, 110, 34, 93, 10,
        125]] := by
  decide

end Libubox.Json.Printer
