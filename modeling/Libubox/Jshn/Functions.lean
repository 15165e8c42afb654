import Libubox.Lib.Decimal
import Libubox.Lib.ShellVars

/-!
# The functions of `jshn.sh`

What the functions of `sh/jshn.sh` that `json_load` and the `json_add_*` calls come down
to make of the variables.  `pre` is the value of `JSON_PREFIX`; the locals of the
functions are not among the variables.

A table is a name such as `J_T1`.  Its keys are collected in `K_J_T1`; the member `x` has
its value in `J_T1_x`, its type in `T_J_T1_x` and, where `x` is not what it was called,
its name in `N_J_T1_x`.

`let` is taken for variables that are not set or hold a numeral as `let` writes one; any
other text makes a call `none`, and so does a command that is none of these functions.
-/

namespace Libubox.Jshn

open Decimal Shell

/-! ## Names -/

/-- `J_V`. -/
def jV : Word := [74, 95, 86]

/-- `J_`. -/
def jTable : Word := [74, 95]

/-- `J_A`. -/
def jArray : Word := [74, 95, 65]

/-- `K_`. -/
def keysOf : Word := [75, 95]

/-- `T_`. -/
def typeOf : Word := [84, 95]

/-- `N_`. -/
def nameOf : Word := [78, 95]

/-- `U_`. -/
def upOf : Word := [85, 95]

/-- `S_`. -/
def seqOf : Word := [83, 95]

/-- `JSON_CUR`. -/
def jsonCur : Word := [74, 83, 79, 78, 95, 67, 85, 82]

/-- `JSON_SEQ`. -/
def jsonSeq : Word := [74, 83, 79, 78, 95, 83, 69, 81]

/-- `JSON_UNSET`. -/
def jsonUnset : Word := [74, 83, 79, 78, 95, 85, 78, 83, 69, 84]

/-- `${name//[^a-zA-Z0-9_]/_}`. -/
def substituted (name : Word) : Word := name.map fun c => if IsAlnum c ∨ c = 95 then c else 95

/-- `${cur%%[0-9]*}`. -/
def withoutNumber (cur : Word) : Word := cur.takeWhile fun c => ¬IsDigit c

/-- The characters of `IFS`. -/
def isIfs (c : UInt8) : Bool := c = 32 || c = 9 || c = 10

/-! ## Variables -/

section Functions

variable (pre : Word)

/-- The value of a variable in `let`. -/
def arithValue (text : Word) : Option Nat :=
  if text = [] then some 0
  else if natText (readFrom 0 text) = text then some (readFrom 0 text)
  else none

/-- `_json_inc`: the new value, and the variables. -/
def jsonInc (var : Word) (vars : Vars Word) : Option (Word × Vars Word) :=
  (arithValue (vars.expand (pre ++ var))).map fun n =>
    (natText (n + 1), vars.assign (pre ++ var) (natText (n + 1)))

/-- `_jshn_append`. -/
def jshnAppend (var value : Word) (vars : Vars Word) : Vars Word :=
  vars.append (pre ++ var) value

/-- The name that `_json_add_generic` gives a member, and the variables. -/
def memberName (name cur : Word) (vars : Vars Word) : Option (Word × Vars Word) :=
  if withoutNumber cur = jArray then jsonInc pre (seqOf ++ cur) vars
  else
    let var := substituted name
    some (var,
      if var = name then vars else vars.exportAs (pre ++ (nameOf ++ (cur ++ 95 :: var))) name)

/-- `_json_add_generic`. -/
def jsonAddGeneric (type name value cur : Word) (vars : Vars Word) : Option (Vars Word) :=
  (memberName pre name cur vars).map fun p =>
    let vars := p.2.exportAs (pre ++ (cur ++ 95 :: p.1)) value
    let vars := vars.exportAs (pre ++ (typeOf ++ (cur ++ 95 :: p.1))) type
    let vars := jshnAppend pre jsonUnset (cur ++ 95 :: p.1) vars
    jshnAppend pre (keysOf ++ cur) p.1 vars

/-- `_json_add_table`. -/
def jsonAddTable (name type : Word) (itype : UInt8) (vars : Vars Word) : Option (Vars Word) :=
  let cur := vars.expand (pre ++ jsonCur)
  (jsonInc pre jsonSeq vars).bind fun p =>
    let table := jTable ++ itype :: p.1
    let vars := p.2.assign (pre ++ (upOf ++ table)) cur
    let vars := vars.exportAs (pre ++ (keysOf ++ table)) []
    let vars := vars.unset [pre ++ (seqOf ++ table)]
    let vars := vars.assign (pre ++ jsonCur) table
    let vars := jshnAppend pre jsonUnset table vars
    jsonAddGeneric pre type name table cur vars

/-- `_json_close_table`. -/
def jsonCloseTable (vars : Vars Word) : Vars Word :=
  let cur := vars.expand (pre ++ jsonCur)
  vars.assign (pre ++ jsonCur) (vars.expand (pre ++ (upOf ++ cur)))

/-- `json_cleanup`. -/
def jsonCleanup (vars : Vars Word) : Vars Word :=
  let words := tokens isIfs (vars.expand (pre ++ jsonUnset)) ++ [jV]
  vars.unset (words.flatMap (fun tmp =>
      [upOf, keysOf, seqOf, typeOf, nameOf, []].map fun kind => pre ++ (kind ++ tmp))
    ++ [pre ++ jsonSeq, pre ++ jsonCur, pre ++ jsonUnset])

/-- `json_init`. -/
def jsonInitVars (vars : Vars Word) : Vars Word :=
  let vars := (jsonCleanup pre vars).unexportAs (pre ++ jsonSeq) [48]
  let vars := vars.exportAs (pre ++ jsonCur) jV
  vars.exportAs (pre ++ (keysOf ++ jV)) []

/-! ## Commands -/

/-- `object`. -/
def objectType : Word := [111, 98, 106, 101, 99, 116]

/-- `array`. -/
def arrayType : Word := [97, 114, 114, 97, 121]

/-- `string`. -/
def stringType : Word := [115, 116, 114, 105, 110, 103]

/-- `int`. -/
def intType : Word := [105, 110, 116]

/-- `boolean`. -/
def booleanType : Word := [98, 111, 111, 108, 101, 97, 110]

/-- `double`. -/
def doubleType : Word := [100, 111, 117, 98, 108, 101]

/-- `json_add_string`, `json_add_int`, `json_add_boolean` and `json_add_double`. -/
def jsonAddScalar (type name value : Word) (vars : Vars Word) : Option (Vars Word) :=
  jsonAddGeneric pre type name value (vars.expand (pre ++ jsonCur)) vars

/-- A call of one of the functions. -/
inductive Call where
  | init
  | addObject (name : Word)
  | closeObject
  | addArray (name : Word)
  | closeArray
  | addString (name value : Word)
  | addInt (name value : Word)
  | addBoolean (name value : Word)
  | addDouble (name value : Word)
  deriving DecidableEq

/-- What a call does. -/
def Call.run : Call → Vars Word → Option (Vars Word)
  | init, vars => some (jsonInitVars pre vars)
  | addObject name, vars => jsonAddTable pre name objectType 84 vars
  | closeObject, vars => some (jsonCloseTable pre vars)
  | addArray name, vars => jsonAddTable pre name arrayType 65 vars
  | closeArray, vars => some (jsonCloseTable pre vars)
  | addString name value, vars => jsonAddScalar pre stringType name value vars
  | addInt name value, vars => jsonAddScalar pre intType name value vars
  | addBoolean name value, vars => jsonAddScalar pre booleanType name value vars
  | addDouble name value, vars => jsonAddScalar pre doubleType name value vars

/-- One call after another. -/
def runCalls (calls : List Call) (vars : Vars Word) : Option (Vars Word) :=
  calls.foldlM (fun vars call => call.run pre vars) vars

end Functions

end Libubox.Jshn
