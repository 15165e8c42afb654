import Libubox.Jshn.Functions
import Libubox.Json.Print

/-!
# A document from variables

`jshn_format` of `jshn.c`: the document that `json_dump` builds from the variables that
the shell exports, and its text.  `pre` is the argument of `-p`.  What `strtod` makes of a
text is a parameter.  The option `-i` is left out, and so is that `strtok_r` cuts the list
of keys where it stands, which a second look at the same table would see.

The tables may refer to each other in a circle, which the code does not look for; a
recursion that does not end has no result, and neither has `atoi` of a number that does
not fit an `int`.
-/

namespace Libubox.Jshn

open Decimal Json Shell Vars

/-- `atoi`. -/
def atoi (text : Text) : Option Int :=
  let text := text.dropWhile isSpace
  let negative : Bool := text.head? = some 45
  let digits := if negative ∨ text.head? = some 43 then text.drop 1 else text
  let n : Int := readFrom 0 (digits.takeWhile fun c => IsDigit c)
  let n := if negative then -n else n
  if -2 ^ 31 ≤ n ∧ n < 2 ^ 31 then some n else none

section Format

variable (strtod : Text → Binary64.Double) (pre : Word) (vars : Vars Word)

/-- `get_keys`. -/
def getKeys (table : Word) : Option Word := vars.getenv (pre ++ (keysOf ++ table))

/-- The variable, the type and the name that `get_var` finds. -/
def getVar (table name : Word) : Option Word × Option Word × Word :=
  let var := vars.getenv (pre ++ (table ++ 95 :: name))
  let type := vars.getenv (pre ++ (typeOf ++ (table ++ 95 :: name)))
  (var, type, (vars.getenv (pre ++ (nameOf ++ (table ++ 95 :: name)))).getD name)

/-- The item that `jshn_add_object_var` makes of a variable, if it makes one; `below`
is the call for the members of a table. -/
def newValue (below : Bool → Word → Option Json) (var type : Word) : Option (Option Json) :=
  if type = arrayType then
    (below true var).map fun child => some (node { newItem with type := .array } child nil)
  else if type = objectType then
    (below false var).map fun child => some (node { newItem with type := .object } child nil)
  else if type = stringType then some (some (createString var))
  else if type = intType then (atoi var).map fun n => some (createNumber (.ofInt n))
  else if type = doubleType then some (some (createNumber (strtod var)))
  else if type = booleanType then
    (atoi var).map fun n => some (if n ≠ 0 then createTrue else createFalse)
  else some none

/-- `jshn_add_object_var`: the item that is added. -/
def jshnAddObjectVar (below : Bool → Word → Option Json) (array : Bool) (table name : Word) :
    Option (Option Json) :=
  let (var, type, name) := getVar pre vars table name
  match var, type with
  | some var, some type =>
      (newValue strtod below var type).map fun new =>
        new.map fun new => if array then new else setKey name new
  | _, _ => some none

/-- The items that the keys stand for, one behind the other. -/
def addObjectVars (add : Word → Option (Option Json)) : List Word → Option Json
  | [] => some nil
  | key :: keys =>
      (add key).bind fun new =>
        (addObjectVars add keys).map fun rest => new.elim rest (linkNext rest)

/-- `jshn_add_objects`, with that many calls of it below one another. -/
def jshnAddObjects : Nat → Bool → Word → Option Json
  | 0, _, _ => none
  | fuel + 1, array, table =>
      match getKeys pre vars table with
      | none => some nil
      | some keys =>
          addObjectVars (jshnAddObjectVar strtod pre vars (jshnAddObjects fuel) array table)
            (tokens (· = 32) keys)

/-- The object that `jshn_format` prints. -/
def jshnObject (fuel : Nat) : Option Json :=
  (jshnAddObjects strtod pre vars fuel false jV).map fun child =>
    node { newItem with type := .object } child nil

/-- `jshn_format` without `-i`: what it prints. -/
def jshnFormat (env : Libc) (grants : Nat → Bool) (noNewline : Bool) (fuel : Nat) :
    Option Printer.Printed :=
  (jshnObject strtod pre vars fuel).map fun obj =>
    match (Printer.jsonToString env grants obj).1 with
    | .text t => .text (t ++ if noNewline then [] else [10])
    | r => r

end Format

end Libubox.Jshn
