import Libubox.Lib.Bytes
import Libubox.Unformat.Scan

/-!
# Parsing by a format

`va_unformat` and the functions it calls for the directives of a format string.
A format string is the list of its bytes; reading behind its end gives the
terminating zero.  User's parse functions are the entries of a table.
-/

namespace Libubox.Unformat

open Binary64 Bytes

/-- The number of bytes in `buff` of the functions that collect characters. -/
abbrev FORMAT_BUFF_MAX_SIZE : Nat := 1024

/-- `buff_add1`. -/
def buffAdd1 (buff : List UInt8) (c : UInt8) : List UInt8 :=
  if FORMAT_BUFF_MAX_SIZE - buff.length < 1 then buff else buff ++ [c]

/-- A `char` as a `uword`. -/
def charWord (c : UInt8) : Nat := if c < 128 then c.toNat else 2 ^ 64 - 256 + c.toNat

def isWhiteSpace (c : UInt8) : Bool := c == 32 || c == 9 || c == 10 || c == 13

/-! ## Strings -/

/-- The variables of the loop of `unformat_string`. -/
structure StringScan where
  buff : List UInt8
  paren : Int
  isParenDelimited : Bool
  backslash : Bool

/-- One turn of the loop of `unformat_string`; `keep` tells that there is a
variable for the string. -/
def stringStep (keep : Bool) (delimiter : Nat) (a : StringScan) (c : UInt8) : Next StringScan :=
  let add (a : StringScan) : StringScan :=
    if keep then { a with buff := buffAdd1 a.buff c } else a
  if a.backslash then .more (add { a with backslash := false })
  else if c = 92 then .more { a with backslash := true }
  else if c = 123 then
    if a.paren = 0 ∧ a.buff = [] then
      .more { a with isParenDelimited := true, paren := a.paren + 1 }
    else .more (add { a with paren := a.paren + 1 })
  else if c = 125 then
    let a := { a with paren := a.paren - 1 }
    if a.isParenDelimited ∧ a.paren = 0 then .stop a else .more (add a)
  else if isWhiteSpace c then
    if a.isParenDelimited then .more (add a) else .putBack a
  else if ¬ a.isParenDelimited ∧ c.toNat = delimiter then .putBack a
  else .more (add a)

/-- `unformat_string`. -/
def unformatString (delimiterCharacter formatCharacter : UInt8) : Parser Bool := do
  let stringReturn ← vaPointer
  let delimiter :=
    if delimiterCharacter = 37 ∨ delimiterCharacter = 32 ∨ delimiterCharacter = 9 then 0
    else charWord delimiterCharacter
  let scanned ← scan (stringStep stringReturn.isSome delimiter) ⟨[], 0, false, false⟩
  match scanned with
  | .error => pure false
  | .atEnd a => finish stringReturn a true
  | .done a => finish stringReturn a false
where
  finish (stringReturn : Option Nat) (a : StringScan) (atEnd : Bool) : Parser Bool :=
    if stringReturn.isNone then pure true
    else
      -- match the string { END-OF-INPUT as a single brace
      let buff := if atEnd ∧ a.buff = [] ∧ a.paren = 1 then buffAdd1 a.buff 123 else a.buff
      if atEnd ∧ buff = [] then pure false
      else do
        let buff := if formatCharacter = 115 then buffAdd1 buff 0 else buff
        if ← malloc then
          store stringReturn (.string buff)
          pure true
        else pure false

/-- The variables of the loop of `unformat_hex_string`. -/
structure HexScan where
  buff : List UInt8
  n : Nat
  d : Nat

def hexDigit (c : UInt8) : Option Nat :=
  if 48 ≤ c ∧ c ≤ 57 then some (c.toNat - 48)
  else if 97 ≤ c ∧ c ≤ 102 then some (10 + c.toNat - 97)
  else if 65 ≤ c ∧ c ≤ 70 then some (10 + c.toNat - 65)
  else none

def hexStep (a : HexScan) (c : UInt8) : Next HexScan :=
  match hexDigit c with
  | none => .putBack a
  | some digit =>
      let d := 16 * a.d + digit
      if a.n + 1 = 2 then .more ⟨buffAdd1 a.buff (UInt8.ofNat d), 0, 0⟩
      else .more ⟨a.buff, a.n + 1, d⟩

/-- `unformat_hex_string`. -/
def unformatHexString : Parser Nat := do
  let hexstringReturn ← vaPointer
  match ← scan hexStep ⟨[], 0, 0⟩ with
  | .error => pure 0
  | .atEnd a => finish hexstringReturn a
  | .done a => finish hexstringReturn a
where
  finish (hexstringReturn : Option Nat) (a : HexScan) : Parser Nat :=
    if a.n % 2 ≠ 0 then pure 0
    else if a.buff = [] then pure 0
    else do
      if ← malloc then
        store hexstringReturn (.vector a.buff)
        pure 1
      else pure 0

/-- `unformat_eof`. -/
def unformatEof : Parser Nat := fun s =>
  let input := unformatCheckInput s.input
  .ok (if input.index = END_OF_INPUT then 1 else 0, { s with input })

/-! ## Numbers -/

/-- The variables of the loop of `unformat_integer`. -/
structure IntegerScan where
  value : Nat
  nDigits : Nat
  nInput : Nat
  sign : Bool

/-- The digit a character stands for. -/
def integerDigit (base : Nat) (c : UInt8) : Option Nat :=
  if 48 ≤ c ∧ c ≤ 57 then some (c.toNat - 48)
  else if 97 ≤ c ∧ c ≤ 122 then some (10 + (c.toNat - 97))
  else if 65 ≤ c ∧ c ≤ 90 then some (10 + (if 36 ≤ base then 26 else 0) + (c.toNat - 65))
  else if c = 47 then some 62
  else if c = 63 then some 63
  else none

def integerStep (base : Nat) (isSigned : Bool) (a : IntegerScan) (c : UInt8) : Next IntegerScan :=
  if c = 45 then
    if a.nInput = 0 then
      if isSigned then .more { a with sign := true, nInput := a.nInput + 1 }
      -- leading sign for unsigned number
      else .error
    -- sign after input (e.g. 100-200)
    else .putBack a
  else if c = 43 then
    if 0 < a.nInput then .putBack a
    else .more { a with sign := false, nInput := a.nInput + 1 }
  else match integerDigit base c with
    | none => .putBack a
    | some digit =>
        if base ≤ digit then .putBack a
        else
          let newValue := (base * a.value + digit) % 2 ^ 64
          if newValue < a.value then .error
          else .more { a with value := newValue, nDigits := a.nDigits + 1, nInput := a.nInput + 1 }

/-- `unformat_integer`. -/
def unformatInteger (base : Nat) (isSigned : Bool) (dataBytes : Nat) : Parser Bool :=
  if base < 2 ∨ 64 < base then pure false
  else do
    match ← scan (integerStep base isSigned) ⟨0, 0, 0, false⟩ with
    | .error => pure false
    | .atEnd a => finish a
    | .done a => finish a
where
  finish (a : IntegerScan) : Parser Bool := do
    let value := if a.sign then subWord 0 a.value else a.value
    if 0 < a.nDigits then
      let v ← vaPointer
      let dataBytes := if dataBytes = 2 ^ 64 - 1 then 4 else dataBytes
      if dataBytes = 1 ∨ dataBytes = 2 ∨ dataBytes = 4 ∨ dataBytes = 8 then
        store v (.integer dataBytes (value % 2 ^ (8 * dataBytes)))
        pure true
      else pure false
    else pure false

/-- `times_power_of_ten`. -/
def timesPowerOfTen (x : Double) (n : Int) : Double :=
  if 0 ≤ n then
    let x := (Double.mul · (round (10 ^ 8)))^[n.toNat / 8] x
    x.mul (round (10 ^ (n.toNat % 8)))
  else
    let m := (-n).toNat
    let x := (Double.mul · (round (1 / 10 ^ 8)))^[m / 8] x
    x.mul (round (1 / 10 ^ (m % 8)))

/-- The variables of the loop of `unformat_float`. -/
structure FloatScan where
  values : Nat → Nat
  nDigits : Nat → Nat
  valueIndex : Nat
  signs : Nat → Bool
  signIndex : Nat
  nInput : Nat

/-- A sign in the loop of `unformat_float`; a third one is stored behind the end
of `signs`. -/
def floatSign (a : FloatScan) (negative : Bool) : Next FloatScan :=
  let sign : Next FloatScan :=
    if a.signIndex < 2 then
      .more { a with
        signs := Function.update a.signs a.signIndex negative
        signIndex := a.signIndex + 1
        nInput := a.nInput + 1 }
    else .fault
  -- sign of exponent: it's ok
  if a.valueIndex = 2 ∧ a.nDigits 2 = 0 then sign
  -- 123-
  else if a.valueIndex < 2 ∧ 0 < a.nDigits 0 then .putBack a
  else if 0 < a.nInput then .error
  else sign

def floatStep (a : FloatScan) (c : UInt8) : Next FloatScan :=
  if c = 45 then floatSign a true
  else if c = 43 then floatSign a false
  else if c = 101 ∨ c = 69 then
    if a.nInput = 0 then .error
    else .more { a with valueIndex := 2, signIndex := 1, nInput := a.nInput + 1 }
  else if c = 46 then
    if 0 < a.valueIndex then .error
    else .more { a with valueIndex := 1, nInput := a.nInput + 1 }
  else if 48 ≤ c ∧ c ≤ 57 then
    let tmp := (a.values a.valueIndex * 10 + c.toNat - 48) % 2 ^ 64
    if tmp < a.values a.valueIndex then .error
    else .more { a with
      values := Function.update a.values a.valueIndex tmp
      nDigits := Function.update a.nDigits a.valueIndex (a.nDigits a.valueIndex + 1)
      nInput := a.nInput + 1 }
  else .putBack a

/-- The number that `unformat_float` returns. -/
def floatValue (a : FloatScan) : Double :=
  let whole := Double.ofInt (a.values 0)
  let whole := if a.signs 0 then whole.neg else whole
  let fraction := timesPowerOfTen (Double.ofInt (a.values 1)) (wrap32 (-(a.nDigits 1 : Int)))
  let expon := wrap64 (a.values 2)
  let expon := if a.signs 1 then wrap64 (-expon) else expon
  timesPowerOfTen (whole.add fraction) (wrap32 expon)

/-- `unformat_float`. -/
def unformatFloat : Parser Bool := do
  match ← scan floatStep ⟨fun _ => 0, fun _ => 0, 0, fun _ => false, 0, 0⟩ with
  | .error => pure false
  | .atEnd a => finish a
  | .done a => finish a
where
  finish (a : FloatScan) : Parser Bool :=
    -- must have either whole or fraction digits
    if a.nDigits 0 + a.nDigits 1 = 0 then pure false
    else do
      let valueReturn ← vaPointer
      store valueReturn (.float (floatValue a))
      pure true

/-! ## Directives -/

/-- A parse function of the user: it moves over the input, and returns. -/
structure UserParser where
  run : Parser Nat
  good : Good run

/-- `unformat_get_input`, as a `uword`. -/
def getInput : Parser Nat := fun s =>
  match unformatGetInput s.input with
  | none => .error .undefined
  | some (c, input) => .ok ((c.map UInt8.toNat).getD END_OF_INPUT, { s with input })

/-- `match_input_with_format`: the format behind what was matched, or none if the
input differs. -/
def matchInputWithFormat : List UInt8 → Parser (Option (List UInt8))
  | [] => pure (some [])
  | cf :: f =>
      if cf = 0 ∨ cf = 37 ∨ cf = 32 then pure (some (cf :: f))
      else do
        let ci ← getInput
        if charWord cf = ci then matchInputWithFormat f else pure none

/-- The size that the letters in front of a directive stand for (none is `~0`),
the directive and the format behind it. -/
def sizeLetters (f : List UInt8) : Nat × UInt8 × List UInt8 :=
  let cf := f.headD 0
  let f := f.drop 1
  if cf = 119 then (8, f.headD 0, f.drop 1)
  else if cf = 108 then
    if f.headD 0 = 108 then (8, (f.drop 1).headD 0, f.drop 2)
    else (8, f.headD 0, f.drop 1)
  else if cf = 76 then (8, f.headD 0, f.drop 1)
  else (2 ^ 64 - 1, cf, f)

/-- A size argument, converted to `uword`. -/
def sizeArgument : Parser Nat := do
  let n ← vaInt
  pure (n % 2 ^ 64).toNat

/-- The `switch` of `do_percent`: whether the input matches the directive `cf`,
behind which the format is `f`. -/
def directive (fns : Nat → UserParser) (cf : UInt8) (dataBytes : Nat) (f : List UInt8) :
    Parser Bool :=
  if cf = 68 then do unformatInteger 10 true (← sizeArgument)
  else if cf = 100 then unformatInteger 10 true dataBytes
  else if cf = 117 then unformatInteger 10 false dataBytes
  else if cf = 98 then unformatInteger 2 false dataBytes
  else if cf = 111 then unformatInteger 8 false dataBytes
  else if cf = 88 then do unformatInteger 16 false (← sizeArgument)
  else if cf = 120 then unformatInteger 16 false dataBytes
  else if cf = 102 then unformatFloat
  else if cf = 115 ∨ cf = 118 then unformatString (f.headD 0) cf
  else if cf = 85 then do
    let k ← vaFunction
    let n ← (fns k).run
    pure (n != 0)
  else if cf = 61 then do
    let var ← vaPointer
    let val ← vaInt
    store var (.integer 4 (val % 2 ^ 32).toNat)
    pure true
  else if cf = 124 then do
    let var ← vaPointer
    let val ← vaInt
    let old ← loadInt var
    store var (.integer 4 ((val % 2 ^ 32).toNat ||| old))
    pure true
  else pure false

/-- `do_percent`: the format behind the directive, or none if the input does not
match it. -/
def doPercent (fns : Nat → UserParser) (f : List UInt8) : Parser (Option (List UInt8)) := do
  let (dataBytes, cf, f) := sizeLetters f
  let n ← directive fns cf dataBytes f
  pure (if n then some f else none)

/-- `unformat_skip_white_space`. -/
def unformatSkipWhiteSpace : Parser Nat := do
  match ← scan (fun n c => if isWhiteSpace c then .more (n + 1) else .putBack n) 0 with
  | .error => pure 0
  | .atEnd n => pure n
  | .done n => pure n

/-! ## The main loop -/

/-- What the body of the loop of `va_unformat` comes to: the input does not match,
the format string ended, or the loop goes on with the format that is left and
with what the last match was. -/
inductive Turn
  | fail
  | matched
  | more (f : List UInt8) (lastPercent lastFormat : Bool)

/-- `input->index != UNFORMAT_END_OF_INPUT`. -/
def moreInput : Parser Bool := fun s => .ok (s.input.index != END_OF_INPUT, s)

/-- The body of the loop behind the `switch`. -/
def formatTurn (fns : Nat → UserParser) (cf : UInt8) (isPercent skip defaultSkip : Bool)
    (lastPercent lastFormat : Bool) (f : List UInt8) : Parser Turn := do
  let nSkipped ← (if skip then unformatSkipWhiteSpace else pure 0)
  if cf = 0 then
    -- "foo" does not match "food", but "foo %d" matches "foo 10,bletch"
    let more ← moreInput
    pure (if skip && !lastPercent && !lastFormat && nSkipped == 0 && more then .fail else .matched)
  else if cf = 32 ∧ defaultSkip = false then
    pure (if nSkipped = 0 then .fail else .more f isPercent false)
  else if isPercent then do
    match ← doPercent fns f with
    | none => pure .fail
    | some g => pure (.more g isPercent false)
  else do
    match ← matchInputWithFormat f with
    | none => pure .fail
    | some g => pure (.more g isPercent (decide (g.length < f.length)))

/-- The body of the loop behind `%_`, which toggles whether to skip white space of
the input; `f` is the format behind it. -/
def toggleTurn (fmt f : List UInt8) (defaultSkip : Bool) : Parser Nat :=
  if !defaultSkip && !(f.length + 2 == fmt.length || f.headD 0 == 0) then unformatSkipWhiteSpace
  else pure 0

/-- The loop of `va_unformat`: whether the input matches the format. -/
def formatLoop (fns : Nat → UserParser) (fmt : List UInt8) :
    Nat → (f : List UInt8) → (defaultSkip lastPercent lastFormat : Bool) → Parser Bool
  | 0, _, _, _, _ => fun _ => .error .noFuel
  | fuel + 1, f, defaultSkip, lastPercent, lastFormat =>
      let cf := f.headD 0
      let skip := f.length == fmt.length || defaultSkip
      let turn (isPercent skip : Bool) (f : List UInt8) : Parser Bool := do
        match ← formatTurn fns cf isPercent skip defaultSkip lastPercent lastFormat f with
        | .fail => pure false
        | .matched => pure true
        | .more f lastPercent lastFormat =>
            formatLoop fns fmt fuel f defaultSkip lastPercent lastFormat
      if isWhiteSpace cf then turn false true (f.dropWhile isWhiteSpace)
      else if cf = 37 then
        let f := f.drop 1
        if f.headD 0 = 95 then do
          let f := f.drop 1
          let _ ← toggleTurn fmt f !defaultSkip
          formatLoop fns fmt fuel f (!defaultSkip) lastPercent lastFormat
        else if f.headD 0 = 37 then turn false skip f
        else if f.headD 0 = 0 then pure false
        else turn true skip f
      else turn false skip f

/-- A mark is set. -/
def pushMark : Parser Unit := fun s => .ok ((), { s with input := s.input.push })

/-- The last mark is taken away, and the input goes back to it with `back`. -/
def popMark (back : Bool) : Parser Unit := fun s => .ok ((), { s with input := s.input.pop back })

/-- Whether the mark buffer is full. -/
def marksFull : Parser Bool := fun s => .ok (s.input.marks.length == MAX_MARKS, s)

/-- `va_unformat`. -/
def vaUnformat (fns : Nat → UserParser) (fmt : List UInt8) : Parser Bool := do
  if ← marksFull then pure false
  else do
    pushMark
    let inputMatchesFormat ← formatLoop fns fmt (fmt.length + 1) fmt true false false
    popMark (!inputMatchesFormat)
    pure inputMatchesFormat

/-- `unformat`: a call with its own arguments. -/
def unformat (fns : Nat → UserParser) (fmt : List UInt8) (args : List Arg) : Parser Bool := fun s =>
  (vaUnformat fns fmt { s with va := args }).map fun (r, s') => (r, { s' with va := s.va })

/-- `unformat_user`: unlike `va_unformat` it does not go back at the end of
input. -/
def unformatUser (func : UserParser) : Parser Nat := do
  if ← marksFull then pure 0
  else do
    pushMark
    let result ← func.run
    let more ← moreInput
    popMark (result == 0 && more)
    pure result

end Libubox.Unformat
