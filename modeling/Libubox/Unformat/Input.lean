import Libubox.Lib.Bytes
import Mathlib.Tactic.Linarith

/-!
# Parser input

`unformat_input_t` and the functions that get and put back characters.

`fill_buffer` is either the null pointer or reads from a stream of bytes, as
`unix_file_fill_buffer` reads from a file: a call stores at `buffer_len` some of
the bytes that are left, at least one if there is one and the buffer has room.
How many bytes the calls ask for is arbitrary (`sizes`).

`fills` counts the calls of `_unformat_fill_input` that came to the buffer.
-/

namespace Libubox.Unformat

open Bytes

/-! ## The source -/

/-- `UNFORMAT_END_OF_INPUT`, as a `uword`. -/
abbrev END_OF_INPUT : Nat := 2 ^ 64 - 1

/-- The difference of two `uword`. -/
def subWord (a b : Nat) : Nat := (a + (2 ^ 64 - b)) % 2 ^ 64

abbrev BUFFER_SIZE : Nat := 1024
abbrev MAX_MARKS : Nat := 256

/-- What `fill_buffer` reads from. -/
structure Source where
  rest : List UInt8
  sizes : Nat → Nat
  calls : Nat

/-- `unformat_input_t`; `marks` is `buffer_marks` up to `buffer_marks_len`. -/
structure Input where
  buffer : List UInt8
  bufferLen : Nat
  index : Nat
  marks : List Nat
  source : Option Source
  fills : Nat

/-- The bytes one `read` into `room` bytes returns. -/
def Source.chunk (src : Source) (room : Nat) : List UInt8 :=
  src.rest.take (min room (max 1 (src.sizes src.calls)))

/-- `unix_file_fill_buffer`, when `read` does not fail; the second component is
what it returns. -/
def fillBuffer (i : Input) : Input × Nat :=
  match i.source with
  | none => (i, i.index)
  | some src =>
      let bytes := src.chunk (subWord BUFFER_SIZE i.bufferLen)
      let i := { i with
        buffer := overwrite i.buffer i.bufferLen bytes
        bufferLen := i.bufferLen + bytes.length
        source := some { src with rest := src.rest.drop bytes.length, calls := src.calls + 1 } }
      (i, if bytes.isEmpty then END_OF_INPUT else i.index)

/-- `_unformat_fill_input`. -/
def unformatFillInput (i : Input) : Input :=
  if i.index = END_OF_INPUT then i
  else
    let firstMark := i.marks.headD i.bufferLen
    -- re-use buffer when no marks
    let bufferLen := if 0 < firstMark then subWord i.bufferLen firstMark else i.bufferLen
    let (i, index) := fillBuffer { i with
      bufferLen
      index := bufferLen
      marks := i.marks.map (subWord · firstMark)
      fills := i.fills + 1 }
    { i with index := if i.bufferLen ≤ index then END_OF_INPUT else index }

/-- `unformat_check_input`. -/
def unformatCheckInput (i : Input) : Input :=
  if i.bufferLen ≤ i.index ∧ i.index ≠ END_OF_INPUT then unformatFillInput i else i

/-- `unformat_get_input`: the character, or `none` at the end of input.  The
result as a whole is `none` when it reads outside of `buffer`. -/
def unformatGetInput (i : Input) : Option (Option UInt8 × Input) :=
  let i := unformatCheckInput i
  if i.index < i.bufferLen then
    (i.buffer[i.index]?).map fun c => (some c, { i with index := i.index + 1 })
  else some (none, i)

/-- `unformat_put_input`. -/
def unformatPutInput (i : Input) : Input := { i with index := subWord i.index 1 }

/-- `unformat_init`. -/
def unformatInit (source : Option Source) : Input :=
  { buffer := List.replicate BUFFER_SIZE 0, bufferLen := 0, index := 0, marks := [], source
    fills := 0 }

/-- `buff_add`, at the position `pos` of the buffer. -/
def buffAdd (i : Input) (text : List UInt8) : Input :=
  if BUFFER_SIZE - i.bufferLen < text.length then i
  else { i with
    buffer := overwrite i.buffer i.bufferLen text
    bufferLen := i.bufferLen + text.length }

/-- `unformat_init_string`. -/
def unformatInitString (text : List UInt8) : Input := buffAdd (unformatInit none) text

/-- The loop of `unformat_init_command_line`. -/
def addArguments (i : Input) : List (List UInt8) → Input
  | [] => i
  | [arg] => buffAdd i arg
  | arg :: args => addArguments (buffAdd (buffAdd i arg) [32]) args

/-- `unformat_init_command_line`; `args` is `argv[1]` and what follows. -/
def unformatInitCommandLine (args : List (List UInt8)) : Input :=
  addArguments (unformatInit none) args

/-- A mark is set: the beginning of `va_unformat` and of `unformat_user`. -/
def Input.push (i : Input) : Input := { i with marks := i.marks ++ [i.index] }

/-- The last mark is taken away; unless the parse was successful the input goes
back to it. -/
def Input.pop (i : Input) (back : Bool) : Input :=
  { i with
    index := if back then i.marks.getLastD 0 else i.index
    marks := i.marks.dropLast }

/-! ## What can be got from an input -/

/-- Every character, up to the end of input. -/
def drain : Nat → Input → Option (List UInt8)
  | 0, _ => none
  | fuel + 1, i => do
      match ← unformatGetInput i with
      | (none, _) => pure []
      | (some c, i) => (drain fuel i).map (c :: ·)

/-- What the source has left. -/
def Input.rest (i : Input) : List UInt8 := (i.source.map Source.rest).getD []

/-- As many characters as can be got, and one more. -/
def Input.fuel (i : Input) : Nat := i.bufferLen + i.rest.length + 1

/-- The sequence of characters obtainable with `unformat_get_input`. -/
def obtainable (i : Input) : Option (List UInt8) := drain i.fuel i

end Libubox.Unformat
