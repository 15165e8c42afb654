import Libubox.Lib.Bytes
import Libubox.Lib.Sextets

/-!
# The base64 codec

`b64_encode` and `b64_decode` on a target that is a block of memory; the decoder
also takes the null pointer.  A text is what stands in front of its zero byte.
A function returns `none` where the source leaves the behaviour undefined: a store
outside of the target or an `int` that overflows.
-/

namespace Libubox.B64

/-! ## The source -/

/-- `Base64`. -/
def Base64 : List UInt8 :=
  "ABCDEFGHIJKLMNOPQRSTUVWXYZabcdefghijklmnopqrstuvwxyz0123456789+/".toList.map
    fun c => UInt8.ofNat c.toNat

/-- `Pad64`. -/
abbrev Pad64 : UInt8 := 61

/-- `B64_ENCODE_LEN`. -/
def B64_ENCODE_LEN (len : Nat) : Nat := (len + 2) / 3 * 4 + 1

/-- `isspace` in the C locale. -/
def isSpace (c : UInt8) : Bool := c = 32 || (9 ≤ c && c ≤ 13)

/-- `target[i] = c`. -/
def store (target : List UInt8) (i : Nat) (c : UInt8) : Option (List UInt8) :=
  if i < target.length then some (target.set i c) else none

/-- `target[datalength++] = c` for each of some characters. -/
def storeAll (target : List UInt8) (datalength : Nat) : List UInt8 → Option (List UInt8)
  | [] => some target
  | c :: cs => (store target datalength c).bind fun target => storeAll target (datalength + 1) cs

/-- The sextets of `input`. -/
def outputOf (a b c : UInt8) : List Nat :=
  [a.toNat >>> 2, ((a.toNat &&& 0x03) <<< 4) + (b.toNat >>> 4),
    ((b.toNat &&& 0x0f) <<< 2) + (c.toNat >>> 6), c.toNat &&& 0x3f]

/-- `Base64[i]` for each of some sextets. -/
def charsOf (output : List Nat) : Option (List UInt8) := output.mapM fun i => Base64[i]?

/-- The end of `b64_encode`: the result is an `int`. -/
def b64EncodeEnd (target : List UInt8) (datalength : Nat) : Option (Int × List UInt8) :=
  if target.length ≤ datalength then some (-1, target)
  else (store target datalength 0).map fun target => (Int.bmod datalength (2 ^ 32), target)

/-- `b64_encode` from a position of the source and of the target on. -/
def b64EncodeFrom (target : List UInt8) (datalength : Nat) :
    List UInt8 → Option (Int × List UInt8)
  | a :: b :: c :: src =>
      if target.length < datalength + 4 then some (-1, target)
      else (charsOf (outputOf a b c)).bind fun chars =>
        (storeAll target datalength chars).bind fun target =>
          b64EncodeFrom target (datalength + 4) src
  | [a, b] =>
      if target.length < datalength + 4 then some (-1, target)
      else (charsOf ((outputOf a b 0).take 3)).bind fun chars =>
        (storeAll target datalength (chars ++ [Pad64])).bind fun target =>
          b64EncodeEnd target (datalength + 4)
  | [a] =>
      if target.length < datalength + 4 then some (-1, target)
      else (charsOf ((outputOf a 0 0).take 2)).bind fun chars =>
        (storeAll target datalength (chars ++ [Pad64, Pad64])).bind fun target =>
          b64EncodeEnd target (datalength + 4)
  | [] => b64EncodeEnd target datalength

/-- `b64_encode`: the result and the target. -/
def b64Encode (src target : List UInt8) : Option (Int × List UInt8) := b64EncodeFrom target 0 src

/-- `n + 1` for an `int`. -/
def intSucc (n : Nat) : Option Nat := if n + 1 < 2 ^ 31 then some (n + 1) else none

/-- The variables of `b64_decode`; `target` is `none` for the null pointer. -/
structure Decoder where
  state : Fin 4
  tarindex : Nat
  target : Option (List UInt8)

/-- `target[i] |= n`. -/
def orStore (target : List UInt8) (i n : Nat) : Option (List UInt8) :=
  target[i]?.bind fun c => store target i (UInt8.ofNat (c.toNat ||| n))

/-- The cases 1 and 2 of `b64_decode`: the high bits of a sextet fill up the byte at
`tarindex` and the low ones begin the next. -/
def b64DecodeSplit (targsize high nextbyte : Nat) (state : Fin 4) (d : Decoder) :
    Option (Except (Option (List UInt8)) Decoder) :=
  match d.target with
  | none => (intSucc d.tarindex).map fun tarindex => .ok { d with state, tarindex }
  | some target =>
      if targsize ≤ d.tarindex then some (.error (some target))
      else (orStore target d.tarindex high).bind fun target =>
        (intSucc d.tarindex).bind fun next =>
          if next < targsize then
            (store target next (UInt8.ofNat nextbyte)).map fun target =>
              .ok ⟨state, next, some target⟩
          else if nextbyte ≠ 0 then some (.error (some target))
          else some (.ok ⟨state, next, some target⟩)

/-- The `switch` of `b64_decode` for the sextet `pos - Base64`; an error is a `return (-1)`. -/
def b64DecodeSextet (targsize n : Nat) (d : Decoder) :
    Option (Except (Option (List UInt8)) Decoder) :=
  match d.state with
  | 0 =>
      match d.target with
      | none => some (.ok { d with state := 1 })
      | some target =>
          if targsize ≤ d.tarindex then some (.error (some target))
          else (store target d.tarindex (UInt8.ofNat (n <<< 2))).map fun target =>
            .ok { d with state := 1, target := some target }
  | 1 => b64DecodeSplit targsize (n >>> 4) ((n &&& 0x0f) <<< 4) 2 d
  | 2 => b64DecodeSplit targsize (n >>> 2) ((n &&& 0x03) <<< 6) 3 d
  | 3 =>
      match d.target with
      | none => (intSucc d.tarindex).map fun tarindex => .ok { d with state := 0, tarindex }
      | some target =>
          if targsize ≤ d.tarindex then some (.error (some target))
          else (orStore target d.tarindex n).bind fun target =>
            (intSucc d.tarindex).map fun tarindex => .ok ⟨0, tarindex, some target⟩

/-- The end of `b64_decode`. -/
def b64DecodeEnd (targsize : Nat) (d : Decoder) : Option (Int × Option (List UInt8)) :=
  if d.tarindex < targsize then
    d.target.bind fun target =>
      (store target d.tarindex 0).map fun target => (d.tarindex, some target)
  else some (d.tarindex, d.target)

/-- Behind the last pad. -/
def b64DecodeLastPad (targsize : Nat) (src : List UInt8) (d : Decoder) :
    Option (Int × Option (List UInt8)) :=
  if src.dropWhile isSpace ≠ [] then some (-1, d.target)
  else
    match d.target with
    | none => b64DecodeEnd targsize d
    | some target =>
        if d.tarindex < targsize then
          -- the bits beyond the last full byte
          target[d.tarindex]?.bind fun c =>
            if c ≠ 0 then some (-1, d.target) else b64DecodeEnd targsize d
        else b64DecodeEnd targsize d

/-- Behind the first pad. -/
def b64DecodePad (targsize : Nat) (src : List UInt8) (d : Decoder) :
    Option (Int × Option (List UInt8)) :=
  match d.state with
  | 0 => some (-1, d.target)
  | 1 => some (-1, d.target)
  | 2 =>
      match src.dropWhile isSpace with
      | [] => some (-1, d.target)
      | ch :: src =>
          if ch ≠ Pad64 then some (-1, d.target) else b64DecodeLastPad targsize src d
  | 3 => b64DecodeLastPad targsize src d

/-- The loop of `b64_decode` and what comes after it. -/
def b64DecodeLoop (targsize : Nat) : List UInt8 → Decoder → Option (Int × Option (List UInt8))
  | [], d => if d.state ≠ 0 then some (-1, d.target) else b64DecodeEnd targsize d
  | ch :: src, d =>
      if isSpace ch then b64DecodeLoop targsize src d
      else if ch = Pad64 then b64DecodePad targsize src d
      else
        match Base64.idxOf? ch with
        | none => some (-1, d.target)
        | some n =>
            (b64DecodeSextet targsize n d).bind fun
              | .error target => some (-1, target)
              | .ok d => b64DecodeLoop targsize src d

/-- `b64_decode`: the result and the target. -/
def b64Decode (src : List UInt8) (target : Option (List UInt8)) (targsize : Nat) :
    Option (Int × Option (List UInt8)) :=
  b64DecodeLoop targsize src ⟨0, 0, target⟩

end Libubox.B64
