import Libubox.Blobmsg.Message
import Libubox.Json.String

/-!
# Messages as JSON texts

`blobmsg_format_json_with_cb` and what it calls.  The output grows in a buffer of
`s.len` bytes, of which `s.pos` are written; an `int` that overflows and an access
outside an object are faults (`none`).

Each step writes a text behind what is there already (`Strbuf.Holds`), so that the
functions above `blobmsgPuts` are looked at through what they write.
-/

namespace Libubox.Blobmsg

open Bytes Blob Json Decimal

/-! ## The source -/

/-- The heap, by the block that an allocation gives, and what the stack holds
where `indent_level` comes to lie. -/
structure Host where
  alloc : Nat → Option Mem
  stack : Int

/-- `realloc`. -/
def Host.realloc (host : Host) (old : Option Mem) (n : Nat) : Option Mem :=
  (host.alloc n).map fun m => (old.getD []).take n ++ m.drop (old.getD []).length

/-- `struct strbuf`, and the static `indent_chars`.  `buf` is none for `NULL`. -/
structure Strbuf where
  len : Nat
  pos : Nat
  buf : Option Mem
  customFormat : Option (Mem → Option Mem)
  indent : Bool
  indentLevel : Int
  indentChars : Mem

/-- `memcpy(s->buf + s->pos, c, len)`. -/
def Strbuf.copy (s : Strbuf) (c : Mem) : Option Strbuf :=
  s.buf.bind fun m =>
    if s.pos + c.length ≤ m.length then
      some { s with buf := some (overwrite m s.pos c), pos := s.pos + c.length }
    else none

/-- `blobmsg_puts` of the bytes `c`. -/
def blobmsgPuts (host : Host) (s : Strbuf) (c : Mem) : Option (Bool × Strbuf) :=
  if c = [] then some (true, s)
  else if s.len ≤ s.pos + c.length then
    let len := s.len + (16 + c.length)
    if 2 ^ 31 ≤ len then none
    else
      let buf := host.realloc s.buf len
      if buf.isNone then some (false, { s with len, buf })
      else (Strbuf.copy { s with len, buf } c).map fun s => (true, s)
  else (s.copy c).map fun s => (true, s)

/-- `blobmsg_puts` where the result is not looked at. -/
def Strbuf.put (host : Host) (s : Strbuf) (c : Mem) : Option Strbuf :=
  (blobmsgPuts host s c).map Prod.snd

/-- `add_separator`.  A pointer in front of the template is a fault. -/
def addSeparator (host : Host) (s : Strbuf) : Option Strbuf :=
  if s.indent then
    let indent := if 16 < s.indentLevel then 16 else s.indentLevel
    if 0 ≤ indent then
      let start := 16 - indent.toNat
      let chars := overwrite s.indentChars start [10]
      (Strbuf.put host { s with indentChars := chars }
        ((chars.drop start).take (indent.toNat + 1))).map fun s =>
          { s with indentChars := overwrite s.indentChars start [9] }
    else none
  else some s

/-- The `switch` of `blobmsg_format_string`; zero is no escape. -/
def escapeOf (c : UInt8) : UInt8 :=
  if c = 8 then 98
  else if c = 10 then 110
  else if c = 9 then 116
  else if c = 13 then 114
  else if c = quote ∨ c = backslash ∨ c = 47 then c
  else if c < 32 then letterU
  else 0

/-- `sprintf("%02x")`. -/
def hexByte (c : UInt8) : Mem := [escapeChar.hexDigit (c / 16), escapeChar.hexDigit (c % 16)]

/-- The loop of `blobmsg_format_string` at `p`, and the rest of the run behind it.
`run` are the bytes from `last` to `p`. -/
def formatChars (host : Host) (s : Strbuf) (buf run : Mem) : Mem → Option Strbuf
  | [] => s.put host run
  | c :: p =>
      let escape := escapeOf c
      if escape = 0 then formatChars host s buf (run ++ [c]) p
      else
        (s.put host run).bind fun s =>
          let buf := overwrite buf 1 [escape]
          let buf := if escape = letterU then overwrite buf 4 (hexByte c ++ [0]) else buf
          (s.put host (buf.take (if escape = letterU then 6 else 2))).bind fun s =>
            formatChars host s buf [] p

/-- `blobmsg_format_string`. -/
def blobmsgFormatString (host : Host) (s : Strbuf) (str : Mem) : Option Strbuf :=
  (cString str).bind fun text =>
    (s.put host [quote]).bind fun s =>
      (formatChars host s [backslash, letterU, 48, 48, 0, 0, 0, 0] [] text).bind fun s =>
        s.put host [quote]

/-- The number of `width` bytes at `data`. -/
def readBe (width : Nat) (data : Mem) : Option Nat :=
  if width ≤ data.length then some (beNat (data.take width)) else none

/-- The signed number with the `width` bytes of `n`. -/
def signed (width n : Nat) : Int := Int.bmod n (256 ^ width)

def trueText : Text := [116, 114, 117, 101]

def falseText : Text := [102, 97, 108, 115, 101]

def nullText : Text := [110, 117, 108, 108]

/-- The texts that the `switch` of `blobmsg_format_element` leaves in `buf`. -/
def scalarText (type : Nat) (data : Mem) : Option Text :=
  if type = blobmsgTypeUnspec then some nullText
  else if type = blobmsgTypeInt8 then
    data.head?.map fun c => if c ≠ 0 then trueText else falseText
  else if type = blobmsgTypeInt16 then (readBe 2 data).map fun (n : Nat) => intText n
  else if type = blobmsgTypeInt32 then (readBe 4 data).map fun n => intText (signed 4 n)
  else if type = blobmsgTypeInt64 then (readBe 8 data).map fun n => intText (signed 8 n)
  else none

/-- The loop of `blobmsg_format_json_list`, with `element` for the call in it.  The
second part of the state is `first`. -/
def listBody (host : Host) (element : Strbuf → Mem → Option Strbuf) (s : Strbuf × Bool)
    (pos : Mem) : Option (Flow (Strbuf × Bool)) :=
  (if s.2 then some s.1 else (s.1.put host [comma]).bind (addSeparator host)).bind fun s =>
    (element s pos).map fun s => .next (s, false)

/-- `blobmsg_format_json_list` over `rem` bytes, with `element` for the call in
it. -/
def blobmsgFormatJsonList (host : Host) (element : Strbuf → Mem → Option Strbuf) (s : Strbuf)
    (attr : Mem) (rem : Nat) (array : Bool) : Option Strbuf :=
  (s.put host [if array then openBracket else openBrace]).bind fun s =>
    if s.indentLevel + 1 < 2 ^ 31 then
      (addSeparator host { s with indentLevel := s.indentLevel + 1 }).bind fun s =>
        (forEachAttr (listBody host element) rem attr rem (s, true)).bind fun (s, _) =>
          (addSeparator host { s with indentLevel := s.indentLevel - 1 }).bind fun s =>
            s.put host [if array then closeBracket else closeBrace]
    else none

/-- The name in front of a member. -/
def formatName (host : Host) (s : Strbuf) (attr : Mem) (array : Bool) : Option Strbuf :=
  (blobmsgName attr).head?.bind fun c =>
    if ¬array ∧ c ≠ 0 then
      (blobmsgFormatString host s (blobmsgName attr)).bind fun s =>
        s.put host (if s.indent then [colon, 32] else [colon])
    else some s

/-- `blobmsg_format_element`.  The first argument bounds the depth. -/
def blobmsgFormatElement (host : Host) : Nat → Strbuf → Mem → Bool → Bool → Option Strbuf
  | 0, _, _, _, _ => none
  | depth + 1, s, attr, array, head =>
      (blobmsgCheckAttr attr false).bind fun valid =>
        if ¬valid then some s
        else
          (formatName host s attr array).bind fun s =>
            (blobmsgData attr).bind fun data =>
              (blobmsgDataLen attr).bind fun len =>
                match (if head then none else s.customFormat).bind fun format => format attr with
                | some text => (cString text).bind fun text => s.put host text
                | none =>
                    (blobId attr).bind fun type =>
                      if type = blobmsgTypeString then blobmsgFormatString host s data
                      else if IsContainer type then
                        let array := decide (type = blobmsgTypeArray)
                        blobmsgFormatJsonList host
                          (fun s pos => blobmsgFormatElement host depth s pos array false)
                          s data len.toNat array
                      else (scalarText type data).bind fun text => s.put host text

/-- `blobmsg_format_json_with_cb`: the block that is returned, `NULL` or not, and
the static template afterwards. -/
def blobmsgFormatJsonWithCb (host : Host) (indentChars attr : Mem) (list : Bool)
    (cb : Option (Mem → Option Mem)) (indent : Int) : Option (Option Mem × Mem) :=
  (blobLen attr).bind fun len =>
    let s : Strbuf :=
      { len
        pos := 0
        buf := host.alloc len
        customFormat := cb
        indent := decide (0 ≤ indent)
        indentLevel := if 0 ≤ indent then indent else host.stack
        indentChars }
    (blobIsExtended attr).bind fun extended =>
      (blobId attr).bind fun type =>
        let array := extended && decide (type = blobmsgTypeArray)
        (if list then
            (blobmsgData attr).bind fun data =>
              (blobmsgDataLen attr).bind fun rem =>
                blobmsgFormatJsonList host
                  (fun s pos => blobmsgFormatElement host len s pos array false)
                  s data rem.toNat array
          else blobmsgFormatElement host (len + 1) s attr false false).bind fun s =>
            if s.len = 0 then some (none, s.indentChars)
            else
              (host.realloc s.buf (s.pos + 1)).bind fun m =>
                if s.pos < m.length then some (some (overwrite m s.pos [0]), s.indentChars)
                else none

/-- `blobmsg_format_json`. -/
def blobmsgFormatJson (host : Host) (indentChars attr : Mem) (list : Bool) :
    Option (Option Mem × Mem) :=
  blobmsgFormatJsonWithCb host indentChars attr list none (-1)

/-- `blobmsg_format_json_indent`. -/
def blobmsgFormatJsonIndent (host : Host) (indentChars attr : Mem) (list : Bool) (indent : Int) :
    Option (Option Mem × Mem) :=
  blobmsgFormatJsonWithCb host indentChars attr list none indent

end Libubox.Blobmsg
